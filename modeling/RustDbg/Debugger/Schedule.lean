import Mathlib.Logic.Relation
import RustDbg.Process.Suspension

/-!
# Threads running freely

Between the moment a 32-bit target is let run and the moment it stops, its threads
run in any order and for any time. A thread that executes the `int3` of an enabled
breakpoint traps one byte behind it and runs no further until the debugger has seen
the stop. What an instruction does is left open.
-/

namespace RustDbg

/-- A running target with the threads that have executed an enabled breakpoint. -/
structure FreeTarget where
  target : Target
  hits : List ThreadPort

def Target.addThread (target : Target) (port : ThreadPort) (thread : TargetThread) : Target :=
  { target with
    live := target.live ++ [port]
    thread := Function.update target.thread port thread }

/-- One move of one thread, where `armed` are the addresses of the enabled breakpoints. -/
inductive ThreadMove (armed : Address → Prop) : FreeTarget → FreeTarget → Prop where
  /-- An instruction other than the `int3` of a breakpoint is executed. -/
  | execute {target : Target} {hits : List ThreadPort} {port : ThreadPort}
      {registers registers' : MDBThreadState32} {memory : Memory}
      (live : port ∈ target.live) (untrapped : port ∉ hits)
      (current : (target.thread port).registers = .state32 registers)
      (elsewhere : ¬ (armed registers.pc ∧ target.memory registers.pc = int_3)) :
      ThreadMove armed ⟨target, hits⟩
        ⟨{ target.setRegisters port registers' with memory }, hits⟩
  /-- The `int3` of an enabled breakpoint is executed. -/
  | hit {target : Target} {hits : List ThreadPort} {port : ThreadPort}
      {registers : MDBThreadState32} (live : port ∈ target.live) (untrapped : port ∉ hits)
      (current : (target.thread port).registers = .state32 registers)
      (armedHere : armed registers.pc) (patched : target.memory registers.pc = int_3) :
      ThreadMove armed ⟨target, hits⟩
        ⟨target.setRegisters port { registers with eip := registers.eip + 1 }, port :: hits⟩
  | create {target : Target} {hits : List ThreadPort} {port : ThreadPort}
      {registers : MDBThreadState32} {info : MDBThreadInfo} (new : port ∉ target.live) :
      ThreadMove armed ⟨target, hits⟩ ⟨target.addThread port ⟨.state32 registers, info⟩, hits⟩
  | exit {target : Target} {hits : List ThreadPort} {port : ThreadPort} (untrapped : port ∉ hits) :
      ThreadMove armed ⟨target, hits⟩
        ⟨{ target with live := target.live.filter (· ≠ port) }, hits⟩
  /-- The kernel suspends or wakes threads, as it does for a stop. -/
  | account {target target' : Target} {hits : List ThreadPort}
      (same : target.SameExecution target') : ThreadMove armed ⟨target, hits⟩ ⟨target', hits⟩

/-- The target gets from `before` to `after` under some schedule in which `hits` are hit. -/
def Schedule (armed : Address → Prop) (before after : Target) (hits : List ThreadPort) : Prop :=
  Relation.ReflTransGen (ThreadMove armed) ⟨before, []⟩ ⟨after, hits⟩

/-- Every thread is 32 bits wide and those that have hit stand one byte behind a breakpoint. -/
structure FreeTarget.Trapped (armed : Address → Prop) (free : FreeTarget) : Prop where
  wide : ∀ port ∈ free.target.live, ∃ registers,
    (free.target.thread port).registers = .state32 registers
  hits : ∀ port ∈ free.hits, port ∈ free.target.live ∧ ∃ registers,
    (free.target.thread port).registers = .state32 registers ∧
      armed ((registers.eip - 1).setWidth 64)

variable {armed : Address → Prop} {before after : FreeTarget}

/-- A thread that runs, and may have hit, leaves the trapped ones where they are. -/
theorem FreeTarget.Trapped.setRegisters {target : Target} {hits hits' : List ThreadPort}
    {port : ThreadPort} (trapped : Trapped armed ⟨target, hits⟩) (live : port ∈ target.live)
    (registers : MDBThreadState32) (memory : Memory)
    (earlier : ∀ other ∈ hits', other ≠ port → other ∈ hits)
    (behind : port ∈ hits' → armed ((registers.eip - 1).setWidth 64)) :
    Trapped armed ⟨{ target.setRegisters port registers with memory }, hits'⟩ := by
  have registers_eq (other : ThreadPort) :
      (({ target.setRegisters port registers with memory } : Target).thread other).registers =
        if other = port then .state32 registers else (target.thread other).registers :=
    Target.registers_setRegisters live registers other
  have live_eq : ({ target.setRegisters port registers with memory } : Target).live =
      target.live := Target.live_modifyThread ..
  constructor
  · intro other otherLive
    rw [live_eq] at otherLive
    rw [registers_eq]
    split
    · exact ⟨registers, rfl⟩
    · exact trapped.wide other otherLive
  · intro other hit
    rw [live_eq, registers_eq]
    split
    · rename_i same
      subst same
      exact ⟨live, registers, rfl, behind hit⟩
    · rename_i different
      apply trapped.hits other
      exact earlier other hit different

theorem FreeTarget.Trapped.move (trapped : before.Trapped armed)
    (move : ThreadMove armed before after) : after.Trapped armed := by
  cases move with
  | @execute target hits port registers registers' memory live untrapped current elsewhere =>
      apply trapped.setRegisters live
      · exact fun other hit _ => hit
      · exact fun hit => absurd hit untrapped
  | @hit target hits port registers live untrapped current armedHere patched =>
      apply trapped.setRegisters live _ (target.setRegisters port _).memory
      · intro other hit different
        exact (List.mem_cons.mp hit).resolve_left different
      · intro _
        change armed ((registers.eip + 1 - 1).setWidth 64)
        rw [BitVec.add_sub_cancel]
        exact armedHere
  | @create target hits port registers info new =>
      have registers_eq (other : ThreadPort) (otherLive : other ∈ target.live) :
          (target.addThread port ⟨.state32 registers, info⟩).thread other =
            target.thread other := by
        have different : other ≠ port := fun same => new (same ▸ otherLive)
        exact Function.update_of_ne different _ _
      constructor
      · intro other otherLive
        rcases List.mem_append.mp otherLive with old | added
        · rw [registers_eq other old]
          exact trapped.wide other old
        · rcases List.mem_singleton.mp added with rfl
          exact ⟨registers, by simp [Target.addThread]⟩
      · intro other hit
        rcases trapped.hits other hit with ⟨otherLive, stands⟩
        rw [registers_eq other otherLive]
        exact ⟨List.mem_append_left _ otherLive, stands⟩
  | @exit target hits port untrapped =>
      constructor
      · intro other otherLive
        apply trapped.wide other
        exact List.mem_of_mem_filter otherLive
      · intro other hit
        rcases trapped.hits other hit with ⟨otherLive, stands⟩
        have different : other ≠ port := fun same => untrapped (same ▸ hit)
        exact ⟨List.mem_filter.mpr ⟨otherLive, by simpa using different⟩, stands⟩
  | @account target target' hits same =>
      constructor
      · intro other otherLive
        simp only [same.live] at otherLive
        rw [same.registers]
        exact trapped.wide other otherLive
      · intro other hit
        simp only [same.live, same.registers]
        exact trapped.hits other hit

theorem FreeTarget.Trapped.moves (trapped : before.Trapped armed)
    (moves : Relation.ReflTransGen (ThreadMove armed) before after) : after.Trapped armed := by
  induction moves with
  | refl => exact trapped
  | tail _ move ih => exact ih.move move

theorem Schedule.trapped {before after : Target} {hits : List ThreadPort}
    (schedule : Schedule armed before after hits)
    (wide : ∀ port ∈ before.live, ∃ registers,
      (before.thread port).registers = .state32 registers) :
    FreeTarget.Trapped armed ⟨after, hits⟩ := by
  have start : FreeTarget.Trapped armed ⟨before, []⟩ := ⟨wide, by simp⟩
  exact start.moves schedule

/-! ## A hit of one thread -/

/-- Under some schedule a thread executes the `int3` of an enabled breakpoint at an address. -/
def HitsAt (armed : Address → Prop) (before after : Target) (port : ThreadPort)
    (address : BitVec 32) : Prop :=
  ∃ (target : Target) (hits hits' : List ThreadPort) (registers : MDBThreadState32),
    Schedule armed before target hits ∧ port ∈ target.live ∧ port ∉ hits ∧
      (target.thread port).registers = .state32 registers ∧ registers.eip = address ∧
      armed registers.pc ∧ target.memory registers.pc = int_3 ∧
      Relation.ReflTransGen (ThreadMove armed)
        ⟨target.setRegisters port { registers with eip := registers.eip + 1 }, port :: hits⟩
        ⟨after, hits'⟩

theorem HitsAt.schedule {before after : Target} {port : ThreadPort} {address : BitVec 32}
    (hits : HitsAt armed before after port address) :
    ∃ hits', Schedule armed before after hits' := by
  rcases hits with
    ⟨target, earlier, hits', registers, schedule, live, untrapped, current, _, here, patched, rest⟩
  have hit : ThreadMove armed ⟨target, earlier⟩ _ := .hit live untrapped current here patched
  exact ⟨hits', (Relation.ReflTransGen.tail schedule hit).trans rest⟩

/-- Whatever thread has hit has executed the `int3` of an enabled breakpoint in the run. -/
theorem Schedule.exists_hitsAt {before after : Target} {hits : List ThreadPort}
    (schedule : Schedule armed before after hits) {port : ThreadPort} (hit : port ∈ hits) :
    ∃ address, HitsAt armed before after port address := by
  have run : ∀ free : FreeTarget, Relation.ReflTransGen (ThreadMove armed) ⟨before, []⟩ free →
      port ∈ free.hits → ∃ (target : Target) (hits : List ThreadPort)
        (registers : MDBThreadState32), Schedule armed before target hits ∧
          port ∈ target.live ∧ port ∉ hits ∧
          (target.thread port).registers = .state32 registers ∧ armed registers.pc ∧
          target.memory registers.pc = int_3 ∧
          Relation.ReflTransGen (ThreadMove armed)
            ⟨target.setRegisters port { registers with eip := registers.eip + 1 }, port :: hits⟩
            free := by
    intro free moves
    induction moves with
    | refl => simp
    | @tail middle free moves move ih =>
        by_cases earlier : port ∈ middle.hits
        · intro _
          rcases ih earlier with ⟨target, hits, registers, start, live, untrapped, current, here,
            patched, rest⟩
          exact ⟨target, hits, registers, start, live, untrapped, current, here, patched,
            rest.tail move⟩
        · intro hit
          cases move with
          | execute => exact absurd hit earlier
          | @hit target hits other registers live untrapped current here patched =>
              rcases List.mem_cons.mp hit with rfl | old
              · exact ⟨target, hits, registers, moves, live, untrapped, current, here, patched,
                  .refl⟩
              · exact absurd old earlier
          | create => exact absurd hit earlier
          | exit => exact absurd hit earlier
          | account => exact absurd hit earlier
  rcases run ⟨after, hits⟩ schedule hit with
    ⟨target, hits', registers, start, live, untrapped, current, here, patched, rest⟩
  exact ⟨registers.eip, target, hits', hits, registers, start, live, untrapped, current, rfl, here,
    patched, rest⟩

/-- A thread that has hit stays where it is. -/
structure FreeTarget.HitBy (free : FreeTarget) (port : ThreadPort)
    (registers : MDBThreadState32) : Prop where
  hit : port ∈ free.hits
  live : port ∈ free.target.live
  current : (free.target.thread port).registers = .state32 registers

theorem FreeTarget.HitBy.move {port : ThreadPort} {registers : MDBThreadState32}
    (hitBy : before.HitBy port registers) (move : ThreadMove armed before after) :
    after.HitBy port registers := by
  rcases hitBy with ⟨hit, live, current⟩
  cases move with
  | @execute target hits other _ registers' memory otherLive untrapped _ _ =>
      have different : port ≠ other := fun same => untrapped (same ▸ hit)
      refine ⟨hit, ?_, ?_⟩
      · change port ∈ (target.setRegisters other registers').live
        simp only [Target.setRegisters, Target.live_modifyThread]
        exact live
      · change ((target.setRegisters other registers').thread port).registers = _
        simp only [Target.registers_setRegisters otherLive, if_neg different]
        exact current
  | @hit target hits other registers' otherLive untrapped _ _ _ =>
      have different : port ≠ other := fun same => untrapped (same ▸ hit)
      refine ⟨List.mem_cons_of_mem _ hit, ?_, ?_⟩
      · simp only [Target.setRegisters, Target.live_modifyThread]
        exact live
      · simp only [Target.registers_setRegisters otherLive, if_neg different]
        exact current
  | @create target hits other _ _ new =>
      have different : port ≠ other := fun same => new (same ▸ live)
      refine ⟨hit, List.mem_append_left _ live, ?_⟩
      simp only [Target.addThread, Function.update_of_ne different]
      exact current
  | @exit target hits other untrapped =>
      have different : port ≠ other := fun same => untrapped (same ▸ hit)
      exact ⟨hit, List.mem_filter.mpr ⟨live, by simpa using different⟩, current⟩
  | @account target target' hits same =>
      refine ⟨hit, ?_, ?_⟩
      · rw [same.live]
        exact live
      · rw [same.registers]
        exact current

theorem FreeTarget.HitBy.moves {port : ThreadPort} {registers : MDBThreadState32}
    (hitBy : before.HitBy port registers)
    (moves : Relation.ReflTransGen (ThreadMove armed) before after) :
    after.HitBy port registers := by
  induction moves with
  | refl => exact hitBy
  | tail _ move ih => exact ih.move move

/-- The trap leaves a thread one byte behind the breakpoint. -/
theorem HitsAt.stands {before after : Target} {port : ThreadPort} {address : BitVec 32}
    (hits : HitsAt armed before after port address) : port ∈ after.live ∧
      ∃ registers, (after.thread port).registers = .state32 registers ∧
        registers.eip = address + 1 := by
  rcases hits with
    ⟨target, earlier, hits', registers, _, live, _, _, rfl, _, _, rest⟩
  have trapped : FreeTarget.HitBy
      ⟨target.setRegisters port { registers with eip := registers.eip + 1 }, port :: earlier⟩
      port { registers with eip := registers.eip + 1 } := by
    refine ⟨List.mem_cons_self, ?_, ?_⟩
    · simp only [Target.setRegisters, Target.live_modifyThread]
      exact live
    · rw [Target.registers_setRegisters live, if_pos rfl]
  have kept := trapped.moves rest
  exact ⟨kept.live, _, kept.current, rfl⟩

end RustDbg
