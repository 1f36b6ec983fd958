import RustDbg.Process.Gather

/-!
# The thread table with its objects

`MDBProcess::threads` holds pointers, which breakpoint stepping keeps across waits. Here
the table and the objects it points to are apart, and gathering is related to the
gathering of the values: no pointer moves, and no two entries are for one port.
-/

namespace RustDbg

/-- An `MDBThread *`; objects are numbered in the order of their construction. -/
abbrev MDBThreadPointer := Nat

/-- The part of `MDBProcess` that gathering changes, with the objects that it points to. -/
structure ThreadTable where
  running : Bool
  is64Bit : Bool
  threads : List MDBThreadPointer
  object : MDBThreadPointer → MDBThread
  /-- How many objects have been constructed. -/
  allocated : Nat
  uninitialized : ThreadPort → MDBThread
  distinct : threads.Nodup
  constructed : ∀ pointer ∈ threads, pointer < allocated

namespace ThreadTable

/-- The table that the constructor of `MDBProcess` leaves. -/
def create (is64Bit : Bool) (object : MDBThreadPointer → MDBThread)
    (uninitialized : ThreadPort → MDBThread) : ThreadTable where
  running := true
  is64Bit
  threads := []
  object
  allocated := 0
  uninitialized
  distinct := List.nodup_nil
  constructed := by simp

/-- `MDBProcess::findThread` -/
def findThread (table : ThreadTable) (port : ThreadPort) : Option MDBThreadPointer :=
  table.threads.find? fun pointer => (table.object pointer).thread == port

/-- `MDBProcess::machUpdateThread` -/
def machUpdateThread (table : ThreadTable) (target : Target) (pointer : MDBThreadPointer) :
    ThreadTable :=
  { table with
    object := Function.update table.object pointer
      ((table.object pointer).update table.is64Bit target) }

/-- `threads.add(new MDBThread(this, port))` -/
def add (table : ThreadTable) (port : ThreadPort) : ThreadTable :=
  { table with
    threads := table.threads ++ [table.allocated]
    object := Function.update table.object table.allocated
      { table.uninitialized port with thread := port }
    allocated := table.allocated + 1
    distinct := by
      apply table.distinct.append (List.nodup_singleton _)
      simp only [List.disjoint_singleton]
      intro present
      apply Nat.lt_irrefl _
      exact table.constructed _ present
    constructed := by
      intro pointer present
      rcases List.mem_append.mp present with earlier | latest
      · apply Nat.lt_succ_of_lt
        exact table.constructed pointer earlier
      · rw [List.mem_singleton.mp latest]
        exact Nat.lt_succ_self _ }

/-- One iteration of the loop of `MDBProcess::gatherThreads`. -/
def gatherThread (target : Target) (table : ThreadTable) (port : ThreadPort) : ThreadTable :=
  match table.findThread port with
  | some pointer => table.machUpdateThread target pointer
  | none => (table.add port).machUpdateThread target table.allocated

/-- `MDBProcess::gatherThreads`, with `task_threads` and `vm_deallocate` succeeding. -/
def gatherThreads (table : ThreadTable) (target : Target) : ThreadTable :=
  target.live.foldl (gatherThread target) table

/-- The table after gathering the threads of each of these targets in turn. -/
def observe (table : ThreadTable) (snapshots : List Target) : ThreadTable :=
  snapshots.foldl gatherThreads table

/-- The table with the objects in place of the pointers to them. -/
def process (table : ThreadTable) : MDBProcess where
  running := table.running
  is64Bit := table.is64Bit
  threads := table.threads.map table.object
  uninitialized := table.uninitialized

variable {table : ThreadTable} {target : Target} {port : ThreadPort} {pointer : MDBThreadPointer}

/-! ## Gathering refines the gathering of values -/

theorem map_update (object : MDBThreadPointer → MDBThread) {pointers : List MDBThreadPointer}
    (distinct : pointers.Nodup) {index : Nat} (present : pointers[index]? = some pointer)
    (effect : MDBThread → MDBThread) :
    pointers.map (Function.update object pointer (effect (object pointer))) =
      (pointers.map object).modify index effect := by
  rcases List.getElem?_eq_some_iff.mp present with ⟨bound, rfl⟩
  apply List.ext_getElem
  · simp
  · intro position first second
    simp only [List.length_map] at first
    simp only [List.getElem_map, List.getElem_modify]
    by_cases here : index = position
    · subst here
      simp
    · have other : pointers[position] ≠ pointers[index] := by
        intro same
        exact here (distinct.getElem_inj_iff.mp same).symm
      simp only [if_neg here, Function.update_of_ne other]

theorem findThread_cases (table : ThreadTable) (port : ThreadPort) :
    (table.findThread port = none ∧ table.process.findThread port = none) ∨
      ∃ pointer index, table.findThread port = some pointer ∧
        table.process.findThread port = some index ∧ table.threads[index]? = some pointer := by
  have lookup : table.process.findThread port =
      table.threads.findIdx? fun pointer => (table.object pointer).thread == port :=
    List.findIdx?_map
  rw [lookup]
  cases found : table.findThread port with
  | none =>
      left
      refine ⟨rfl, ?_⟩
      simpa [findThread, List.findIdx?_eq_none_iff] using found
  | some pointer =>
      right
      rcases List.find?_eq_some_iff_getElem.mp found with ⟨isPort, index, bound, rfl, first⟩
      refine ⟨_, index, rfl, ?_, List.getElem?_eq_getElem bound⟩
      apply List.findIdx?_eq_some_iff_getElem.mpr
      exact ⟨bound, isPort, by simpa using first⟩

theorem process_machUpdateThread {index : Nat}
    (present : table.threads[index]? = some pointer) :
    (table.machUpdateThread target pointer).process =
      table.process.machUpdateThread target index := by
  have updated := map_update table.object table.distinct present fun thread =>
    thread.update table.is64Bit target
  simp only [process, machUpdateThread, MDBProcess.machUpdateThread, updated]

theorem process_add : (table.add port).process = { table.process with
    threads := table.process.threads ++ [{ table.uninitialized port with thread := port }] } := by
  have others : table.threads.map (Function.update table.object table.allocated
      { table.uninitialized port with thread := port }) = table.threads.map table.object := by
    apply List.map_congr_left
    intro pointer present
    exact Function.update_of_ne (Nat.ne_of_lt (table.constructed pointer present)) _ _
  simp only [process, add, List.map_append, others, List.map_singleton, Function.update_self]

/-- Looking through the pointers, gathering a thread is what it is on values. -/
theorem process_gatherThread : (table.gatherThread target port).process =
    table.process.gatherThread target port := by
  rcases findThread_cases table port with ⟨absent, absentValue⟩ | ⟨pointer, index, found,
    foundValue, present⟩
  · have last : (table.add port).threads[table.process.threads.length]? = some table.allocated := by
      simp [add, process]
    simp only [gatherThread, MDBProcess.gatherThread, absent, absentValue]
    simp only [process_machUpdateThread last, process_add]
    rfl
  · simp only [gatherThread, MDBProcess.gatherThread, found, foundValue]
    exact process_machUpdateThread present

theorem process_gatherThreads :
    (table.gatherThreads target).process = table.process.gatherThreads target := by
  simp only [gatherThreads, MDBProcess.gatherThreads]
  induction target.live generalizing table with
  | nil => rfl
  | cons port rest ih => simp only [List.foldl_cons, ih, process_gatherThread]

theorem process_observe {snapshots : List Target} :
    (table.observe snapshots).process = table.process.observe snapshots := by
  simp only [observe, MDBProcess.observe]
  induction snapshots generalizing table with
  | nil => rfl
  | cons snapshot rest ih => simp only [List.foldl_cons, ih, process_gatherThreads]

/-! ## What gathering keeps -/

/-- No pointer has moved, and objects of other ports than these are as they were. -/
structure Keeps (ports : List ThreadPort) (before after : ThreadTable) : Prop where
  threads : before.threads <+: after.threads
  thread : ∀ pointer ∈ before.threads,
    (after.object pointer).thread = (before.object pointer).thread
  object : ∀ pointer ∈ before.threads, (before.object pointer).thread ∉ ports →
    after.object pointer = before.object pointer

theorem Keeps.refl (table : ThreadTable) : Keeps [] table table :=
  ⟨List.prefix_rfl, fun _ _ => rfl, fun _ _ _ => rfl⟩

theorem Keeps.trans {first second third : ThreadTable} {rest : List ThreadPort}
    (left : Keeps [port] first second) (right : Keeps rest second third) :
    Keeps (port :: rest) first third := by
  refine ⟨left.threads.trans right.threads, ?_, ?_⟩
  · intro pointer present
    simp only [right.thread pointer (left.threads.subset present), left.thread pointer present]
  · intro pointer present other
    simp only [List.mem_cons, not_or] at other
    have unchanged := left.object pointer present (by simpa using other.1)
    rw [right.object pointer (left.threads.subset present) (by rw [unchanged]; exact other.2),
      unchanged]

theorem keeps_gatherThread (target : Target) (table : ThreadTable) (port : ThreadPort) :
    Keeps [port] table (table.gatherThread target port) := by
  simp only [gatherThread]
  cases found : table.findThread port with
  | some pointer =>
      have isPort : (table.object pointer).thread = port := by
        simpa using List.find?_some found
      refine ⟨List.prefix_rfl, ?_, ?_⟩
      · intro other _
        by_cases here : other = pointer
        · subst here
          simp [machUpdateThread]
        · simp [machUpdateThread, here]
      · intro other _ different
        apply Function.update_of_ne
        rintro rfl
        apply different
        simp [isPort]
  | none =>
      have old : ∀ pointer ∈ table.threads,
          ((table.add port).machUpdateThread target table.allocated).object pointer =
            table.object pointer := by
        intro pointer present
        have different := Nat.ne_of_lt (table.constructed pointer present)
        simp only [machUpdateThread, add, Function.update_of_ne different]
      exact ⟨List.prefix_append _ _, fun pointer present => by rw [old pointer present],
        fun pointer present _ => old pointer present⟩

theorem keeps_gatherThreads (target : Target) (table : ThreadTable) :
    Keeps target.live table (table.gatherThreads target) := by
  simp only [gatherThreads]
  induction target.live generalizing table with
  | nil => exact .refl table
  | cons port rest ih => exact (keeps_gatherThread target table port).trans (ih _)

/-! ## Every history of gatherings -/

/--
What a gathering does: no two entries are for the same port, the entries of the threads
there are now are up to date, and entries stay where they are, with the same object,
which is changed only for those threads.
-/
structure Gathers (before after : ThreadTable) (snapshot : Target) : Prop where
  ports : (after.threads.map fun pointer => (after.object pointer).thread).Nodup
  fresh : ∀ port ∈ snapshot.live, ∃ pointer ∈ after.threads,
    (after.object pointer).thread = port ∧
    snapshot.threadInfo port = some (after.object pointer).info ∧
    snapshot.threadGetState32 port = some (after.object pointer).state32
  stable : ∀ (index : Nat) pointer, before.threads[index]? = some pointer →
    after.threads[index]? = some pointer ∧
      (after.object pointer).thread = (before.object pointer).thread
  unchanged : ∀ pointer ∈ before.threads, (before.object pointer).thread ∉ snapshot.live →
    after.object pointer = before.object pointer

theorem ports_process (table : ThreadTable) :
    table.process.ports = table.threads.map fun pointer => (table.object pointer).thread := by
  simp only [MDBProcess.ports, process, List.map_map]
  rfl

theorem gathered_observe (process : MDBProcess) (snapshots : List Target) :
    MDBProcess.Gathered process (process.observe snapshots) := by
  simp only [MDBProcess.observe]
  induction snapshots generalizing process with
  | nil => exact .refl process
  | cons snapshot rest ih => exact (MDBProcess.Gathered.gatherThreads process snapshot).trans (ih _)

/-- A live thread that can be read has an up-to-date entry after gathering. -/
theorem exists_fresh_gatherThreads (narrow : table.is64Bit = false)
    (distinct : table.process.ports.Nodup) (live : port ∈ target.live)
    (readable : (target.threadGetState32 port).isSome) :
    ∃ pointer ∈ (table.gatherThreads target).threads,
      ((table.gatherThreads target).object pointer).thread = port ∧
      target.threadInfo port = some ((table.gatherThreads target).object pointer).info ∧
      target.threadGetState32 port =
        some ((table.gatherThreads target).object pointer).state32 := by
  have ports : (table.process.gatherThreads target).ports.Nodup :=
    MDBProcess.nodup_ports_gatherThreads distinct
  have listed : port ∈ (table.process.gatherThreads target).ports :=
    MDBProcess.mem_ports_gatherThreads.mpr (Or.inr live)
  simp only [← process_gatherThreads] at ports listed
  have entries := ports_process (table.gatherThreads target)
  rcases List.mem_map.mp (entries ▸ listed) with ⟨pointer, present, isPort⟩
  rcases List.getElem?_of_mem present with ⟨index, found⟩
  have value : (table.gatherThreads target).process.threads[index]? =
      some ((table.gatherThreads target).object pointer) := by
    simp [process, found]
  have entry := MDBProcess.entry_eq_of_getElem? ports value
  simp only [isPort, process_gatherThreads, MDBProcess.entry_gatherThreads, if_pos live] at entry
  have isNarrow : table.process.is64Bit = false := narrow
  refine ⟨pointer, present, isPort, ?_, ?_⟩
  · rw [← entry]
    simp [MDBThread.update, Target.threadInfo, live]
  · rcases Option.isSome_iff_exists.mp readable with ⟨registers, current⟩
    rw [← entry]
    simp [MDBThread.update, isNarrow, current]

/--
For a process that is not taken for a 64-bit one, gathering does this after every history
of gatherings, if the state of the threads there are can be read.
-/
theorem gathers_observe (object : MDBThreadPointer → MDBThread)
    (uninitialized : ThreadPort → MDBThread) (earlier : List Target) (snapshot : Target)
    (readable : ∀ port ∈ snapshot.live, (snapshot.threadGetState32 port).isSome) :
    Gathers ((create false object uninitialized).observe earlier)
      ((create false object uninitialized).observe (earlier ++ [snapshot])) snapshot := by
  have history := gathered_observe (create false object uninitialized).process earlier
  simp only [← process_observe] at history
  have distinct := history.distinct (by simp [MDBProcess.ports, process, create])
  have narrow : ((create false object uninitialized).observe earlier).is64Bit = false :=
    history.is64Bit
  have last : (create false object uninitialized).observe (earlier ++ [snapshot]) =
      ((create false object uninitialized).observe earlier).gatherThreads snapshot := by
    simp only [observe, List.foldl_append, List.foldl_cons, List.foldl_nil]
  have keeps := keeps_gatherThreads snapshot ((create false object uninitialized).observe earlier)
  rw [last]
  refine ⟨?_, ?_, ?_, keeps.object⟩
  · simp only [← ports_process, process_gatherThreads]
    exact MDBProcess.nodup_ports_gatherThreads distinct
  · intro port live
    apply exists_fresh_gatherThreads narrow distinct live
    exact readable port live
  · intro index pointer found
    refine ⟨?_, keeps.thread pointer (List.mem_of_getElem? found)⟩
    rcases keeps.threads with ⟨new, whole⟩
    simp only [← whole, List.getElem?_append_left (List.getElem?_eq_some_iff.mp found).1]
    exact found

/-- Two threads of which one exits and a third one appears. -/
theorem gathers_observe_threadReplaced :
    Gathers ((create false (fun _ => default) fun _ => default).observe
        [MDBProcess.stoppedTask [1, 2]])
      ((create false (fun _ => default) fun _ => default).observe
        ([MDBProcess.stoppedTask [1, 2]] ++ [MDBProcess.stoppedTask [2, 3]]))
      (MDBProcess.stoppedTask [2, 3]) :=
  gathers_observe _ _ _ _ (by decide)

end ThreadTable

end RustDbg
