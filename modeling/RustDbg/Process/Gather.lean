import RustDbg.Library.Lookup
import RustDbg.Process.Suspension

/-!
# The thread table

`MDBProcess::gatherThreads` keeps one entry for each port it has ever seen, in the
order of first sight, and brings the entries of the live threads up to date. The
table is therefore determined by its ports and by the entry of each port. Since
entries are never dropped, resuming all threads fails once a thread has exited.
-/

namespace RustDbg

@[simp]
theorem MDBThread.thread_update (thread : MDBThread) (is64Bit : Bool) (target : Target) :
    (thread.update is64Bit target).thread = thread.thread := rfl

theorem MDBThread.update_update (thread : MDBThread) (is64Bit : Bool) (target : Target) :
    (thread.update is64Bit target).update is64Bit target = thread.update is64Bit target := by
  have twice {α : Type} (answer : Option α) (old : α) :
      answer.getD (answer.getD old) = answer.getD old := by
    cases answer <;> rfl
  cases is64Bit <;> simp [update, twice]

namespace MDBProcess

variable {process : MDBProcess} {target : Target} {port other : ThreadPort}

/-- The table's entry for a port, or a new object if there is none. -/
def entry (process : MDBProcess) (port : ThreadPort) : MDBThread :=
  (process.threads.find? (·.thread == port)).getD
    { process.uninitialized port with thread := port }

@[simp]
theorem thread_entry (process : MDBProcess) (port : ThreadPort) :
    (process.entry port).thread = port := by
  simp only [entry]
  cases found : process.threads.find? (·.thread == port) with
  | none => rfl
  | some thread => simpa using List.find?_some found

theorem entry_eq_of_getElem? (distinct : process.ports.Nodup) {index : Nat} {thread : MDBThread}
    (present : process.threads[index]? = some thread) : process.entry thread.thread = thread := by
  have mem := List.mem_of_getElem? present
  have found : (process.threads.find? (·.thread == thread.thread)).isSome := by
    rw [List.find?_isSome]
    exact ⟨thread, mem, by simp⟩
  rcases Option.isSome_iff_exists.mp found with ⟨first, first_eq⟩
  have shared : first.thread = thread.thread := by simpa using List.find?_some first_eq
  have same : first = thread :=
    List.inj_on_of_nodup_map distinct (List.mem_of_find?_eq_some first_eq) mem shared
  simp [entry, first_eq, same]

/-! ## One port -/

theorem modify_length_append (threads : List MDBThread) (thread : MDBThread)
    (effect : MDBThread → MDBThread) :
    (threads ++ [thread]).modify threads.length effect = threads ++ [effect thread] := by
  induction threads with
  | nil => rfl
  | cons head rest ih =>
      simp only [List.cons_append, List.length_cons, List.modify_succ_cons, ih]

theorem find?_modify_findIdx? (other : ThreadPort) {threads : List MDBThread}
    {effect : MDBThread → MDBThread}
    (keepsPort : ∀ thread, (effect thread).thread = thread.thread) {index : Nat}
    (found : threads.findIdx? (·.thread == port) = some index) :
    (threads.modify index effect).find? (·.thread == other) =
      if other = port then (threads.find? (·.thread == port)).map effect
      else threads.find? (·.thread == other) := by
  induction threads generalizing index with
  | nil => simp at found
  | cons thread rest ih =>
      by_cases here : thread.thread = port
      · obtain rfl : index = 0 := by simpa [List.findIdx?_cons, here] using found.symm
        by_cases same : other = port
        · simp [keepsPort, here, same]
        · simp [keepsPort, here, same, Ne.symm same]
      · obtain ⟨index, restFound, rfl⟩ : ∃ j, rest.findIdx? (·.thread == port) = some j ∧
            j + 1 = index := by
          simpa [List.findIdx?_cons, here] using found
        have skip (threads : List MDBThread) :
            (thread :: threads).find? (·.thread == port) = threads.find? (·.thread == port) :=
          List.find?_cons_of_neg (by simpa using here)
        rw [List.modify_succ_cons]
        by_cases same : other = port
        · subst same
          simp only [skip, ih restFound, if_true]
        · rw [List.find?_cons, ih restFound, if_neg same, if_neg same, List.find?_cons]

theorem map_thread_modify {threads : List MDBThread} {effect : MDBThread → MDBThread}
    (keepsPort : ∀ thread, (effect thread).thread = thread.thread) (index : Nat) :
    (threads.modify index effect).map (·.thread) = threads.map (·.thread) := by
  apply List.ext_getElem?
  intro position
  simp only [List.getElem?_map, List.getElem?_modify]
  split <;> cases threads[position]? <;> simp [keepsPort]

/-- Changing the thread that a pointer points to changes the entry of its port only. -/
theorem entry_modify {effect : MDBThread → MDBThread}
    (keepsPort : ∀ thread, (effect thread).thread = thread.thread) (distinct : process.ports.Nodup)
    {index : Nat} {thread : MDBThread} (present : process.threads[index]? = some thread) :
    ({ process with threads := process.threads.modify index effect } : MDBProcess).entry other =
      if other = thread.thread then effect thread else process.entry other := by
  have found := Lookup.findIdx?_of_nodup distinct present
  have own := entry_eq_of_getElem? distinct present
  simp only [entry] at own ⊢
  rw [find?_modify_findIdx? other keepsPort found]
  split
  · cases first : process.threads.find? (·.thread == thread.thread) with
    | none =>
        simp only [List.find?_eq_none] at first
        exact absurd (beq_self_eq_true _) (first thread (List.mem_of_getElem? present))
    | some head =>
        simp only [first, Option.getD_some] at own
        rw [own]
        rfl
  · rfl

theorem ports_gatherThread :
    (process.gatherThread target port).ports =
      if port ∈ process.ports then process.ports else process.ports ++ [port] := by
  simp only [gatherThread]
  cases found : process.findThread port with
  | some index =>
      have present : port ∈ process.ports := by
        rcases List.findIdx?_eq_some_iff_getElem.mp found with ⟨bound, here, -⟩
        apply List.mem_map.mpr
        exact ⟨_, List.getElem_mem bound, by simpa using here⟩
      simp only [if_pos present]
      exact map_thread_modify (fun thread => thread.thread_update _ _) index
  | none =>
      have absent : port ∉ process.ports := by
        simpa [ports, findThread, List.findIdx?_eq_none_iff] using found
      simp only [if_neg absent]
      apply (map_thread_modify (fun thread => thread.thread_update _ _) _).trans
      simp [ports]

theorem entry_gatherThread :
    (process.gatherThread target port).entry other =
      if other = port then (process.entry port).update process.is64Bit target
      else process.entry other := by
  simp only [gatherThread]
  cases found : process.findThread port with
  | some index =>
      have present : (process.threads.find? (·.thread == port)).isSome := by
        rw [List.find?_isSome]
        rcases List.findIdx?_eq_some_iff_getElem.mp found with ⟨bound, here, -⟩
        exact ⟨_, List.getElem_mem bound, here⟩
      rcases Option.isSome_iff_exists.mp present with ⟨thread, thread_eq⟩
      have lookup := find?_modify_findIdx? other
        (fun thread => thread.thread_update process.is64Bit target) found
      simp only [entry, machUpdateThread, lookup]
      split <;> simp [thread_eq]
  | none =>
      have absent : process.threads.find? (·.thread == port) = none := by
        simpa [findThread, List.findIdx?_eq_none_iff] using found
      by_cases same : other = port
      · subst same
        simp [entry, machUpdateThread, modify_length_append, absent, MDBThread.thread_update]
      · simp [entry, machUpdateThread, modify_length_append, MDBThread.thread_update, same,
          Ne.symm same]

@[simp]
theorem is64Bit_gatherThread : (process.gatherThread target port).is64Bit = process.is64Bit := by
  simp only [gatherThread]
  split <;> rfl

@[simp]
theorem running_gatherThread : (process.gatherThread target port).running = process.running := by
  simp only [gatherThread]
  split <;> rfl

/-! ## All live ports -/

theorem fields_foldl_gatherThread (process : MDBProcess) (live : List ThreadPort) :
    (live.foldl (gatherThread target) process).is64Bit = process.is64Bit ∧
      (live.foldl (gatherThread target) process).running = process.running := by
  induction live generalizing process with
  | nil => exact ⟨rfl, rfl⟩
  | cons port rest ih => simpa using ih (process.gatherThread target port)

@[simp]
theorem is64Bit_gatherThreads : (process.gatherThreads target).is64Bit = process.is64Bit :=
  (fields_foldl_gatherThread process target.live).1

@[simp]
theorem running_gatherThreads : (process.gatherThreads target).running = process.running :=
  (fields_foldl_gatherThread process target.live).2

theorem mem_ports_gatherThread :
    other ∈ (process.gatherThread target port).ports ↔ other ∈ process.ports ∨ other = port := by
  rw [ports_gatherThread]
  split
  · rename_i present
    constructor
    · exact Or.inl
    · rintro (mem | rfl)
      · exact mem
      · exact present
  · simp

/-- Gathering appends to the table. -/
theorem isPrefix_ports_gatherThreads : process.ports <+: (process.gatherThreads target).ports := by
  simp only [gatherThreads]
  induction target.live generalizing process with
  | nil => exact List.prefix_rfl
  | cons head rest ih =>
      refine List.IsPrefix.trans ?_ ih
      rw [ports_gatherThread]
      split
      · exact List.prefix_rfl
      · exact List.prefix_append _ _

/-- A port has an entry once it has been live at some gathering. -/
theorem mem_ports_gatherThreads :
    port ∈ (process.gatherThreads target).ports ↔ port ∈ process.ports ∨ port ∈ target.live := by
  simp only [gatherThreads]
  induction target.live generalizing process with
  | nil => simp
  | cons head rest ih => rw [List.foldl_cons, ih, mem_ports_gatherThread, List.mem_cons, or_assoc]

/-- No port gets two entries. -/
theorem nodup_ports_gatherThreads (distinct : process.ports.Nodup) :
    (process.gatherThreads target).ports.Nodup := by
  simp only [gatherThreads]
  induction target.live generalizing process with
  | nil => exact distinct
  | cons head rest ih =>
      apply ih
      rw [ports_gatherThread]
      split
      · exact distinct
      · rename_i absent
        apply distinct.append (List.nodup_singleton head)
        simpa using absent

theorem entry_gatherThreads :
    (process.gatherThreads target).entry port =
      if port ∈ target.live then (process.entry port).update process.is64Bit target
      else process.entry port := by
  have gathered (live : List ThreadPort) :
      (live.foldl (gatherThread target) process).entry port =
        if port ∈ live then (process.entry port).update process.is64Bit target
        else process.entry port := by
    induction live generalizing process with
    | nil => simp
    | cons head rest ih =>
        simp only [List.foldl_cons, ih, entry_gatherThread, is64Bit_gatherThread]
        by_cases here : port = head
        · subst here
          simp [MDBThread.update_update]
        · simp [here]
  exact gathered target.live

/-- All that gatherings leave of a process, whatever targets they were made of. -/
structure Gathered (before after : MDBProcess) : Prop where
  is64Bit : after.is64Bit = before.is64Bit
  distinct : before.ports.Nodup → after.ports.Nodup
  /-- The 32-bit caches of a process taken for a 64-bit one are never refreshed. -/
  state32 : before.is64Bit = true → ∀ port, (after.entry port).state32 = (before.entry port).state32

namespace Gathered

theorem refl (process : MDBProcess) : Gathered process process := ⟨rfl, id, fun _ _ => rfl⟩

theorem trans {first second third : MDBProcess} (left : Gathered first second)
    (right : Gathered second third) : Gathered first third where
  is64Bit := right.is64Bit.trans left.is64Bit
  distinct := right.distinct ∘ left.distinct
  state32 wide port := by
    simp only [right.state32 (left.is64Bit.trans wide) port, left.state32 wide port]

theorem gatherThreads (process : MDBProcess) (target : Target) :
    Gathered process (process.gatherThreads target) where
  is64Bit := is64Bit_gatherThreads
  distinct := nodup_ports_gatherThreads
  state32 wide port := by
    rw [entry_gatherThreads]
    split
    · simp [MDBThread.update, wide]
    · rfl

theorem machSignalTerminated (process : MDBProcess) :
    Gathered process process.machSignalTerminated := ⟨rfl, id, fun _ _ => rfl⟩

end Gathered

/-! ## Threads that exit -/

/-- The process after gathering the threads of each of these targets in turn. -/
def observe (process : MDBProcess) (snapshots : List Target) : MDBProcess :=
  snapshots.foldl gatherThreads process

theorem mem_ports_observe {snapshots : List Target} :
    port ∈ (process.observe snapshots).ports ↔
      port ∈ process.ports ∨ ∃ snapshot ∈ snapshots, port ∈ snapshot.live := by
  induction snapshots generalizing process with
  | nil => simp [observe]
  | cons snapshot rest ih =>
      simp only [observe, List.foldl_cons] at ih ⊢
      simp only [ih, mem_ports_gatherThreads, or_assoc]
      simp

theorem machResumeThreadsAndTask_fst_iff :
    (process.machResumeThreadsAndTask target).1 = true ↔
      ∀ port ∈ process.ports, port ∈ target.live := by
  simp only [machResumeThreadsAndTask, resumeThreads_fst_iff]
  simp [ports]

theorem machResumeThreadsAndTask_resumes (allLive : ∀ port ∈ process.ports, port ∈ target.live) :
    (process.machResumeThreadsAndTask target).2.suspendCount = 0 ∧
      ∀ port ∈ process.ports,
        (process.machResumeThreadsAndTask target).2.threadSuspendCount port = 0 := by
  have threadsLive : ∀ thread ∈ process.threads, thread.thread ∈ target.live := by
    intro thread mem
    apply allLive _
    exact List.mem_map_of_mem mem
  have resumed := resumeThreads_resumes threadsLive
  exact ⟨resumed.1, fun port mem => resumed.2 port (Or.inl mem)⟩

/-- The target is let run: the call reports success and nothing is left suspended. -/
def ResumesEverything (process : MDBProcess) (target : Target) : Prop :=
  (process.machResumeThreadsAndTask target).1 = true ∧
    (process.machResumeThreadsAndTask target).2.suspendCount = 0 ∧
    ∀ port ∈ target.live, (process.machResumeThreadsAndTask target).2.threadSuspendCount port = 0

/--
After any history of gatherings the target is let run iff no thread seen by an
earlier gathering has exited by the last one.
-/
theorem resumesEverything_iff_noneExited (uninitialized : ThreadPort → MDBThread)
    (snapshots : List Target) (last : Target) :
    ((create uninitialized).observe (snapshots ++ [last])).ResumesEverything last ↔
      ∀ snapshot ∈ snapshots, ∀ port ∈ snapshot.live, port ∈ last.live := by
  have table (port : ThreadPort) :
      port ∈ ((create uninitialized).observe (snapshots ++ [last])).ports ↔
        (∃ snapshot ∈ snapshots, port ∈ snapshot.live) ∨ port ∈ last.live := by
    rw [mem_ports_observe]
    simp [create, ports, or_and_right, exists_or]
  constructor
  · rintro ⟨succeeded, -, -⟩ snapshot snapshotMem port live
    exact machResumeThreadsAndTask_fst_iff.mp succeeded port
      ((table port).mpr (Or.inl ⟨snapshot, snapshotMem, live⟩))
  · intro noneExited
    have allLive : ∀ port ∈ ((create uninitialized).observe (snapshots ++ [last])).ports,
        port ∈ last.live := by
      intro port mem
      rcases (table port).mp mem with ⟨snapshot, snapshotMem, live⟩ | live
      · exact noneExited snapshot snapshotMem port live
      · exact live
    have resumed := machResumeThreadsAndTask_resumes allLive
    exact ⟨machResumeThreadsAndTask_fst_iff.mpr allLive, resumed.1,
      fun port live => resumed.2 port ((table port).mpr (Or.inr live))⟩

def stoppedTask (live : List ThreadPort) : Target where
  memory _ := 0x90#8
  live
  thread _ := ⟨.state32 default, ⟨.stopped, 1⟩⟩
  suspendCount := 1
  pidKnown := true

/-- The exit of the first of two threads leaves the second one and the task suspended. -/
theorem not_resumesEverything_after_exit :
    ¬ ((create fun _ => default).observe [stoppedTask [1, 2], stoppedTask [2]]).ResumesEverything
      (stoppedTask [2]) := by
  rintro ⟨succeeded, -⟩
  apply absurd succeeded
  decide

end MDBProcess

end RustDbg
