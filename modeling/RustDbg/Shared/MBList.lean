import RustDbg.Library.Refinement
import RustDbg.Target.Memory

/-!
# The list of the debugger

`MBList`, an array that doubles when it is full, and what its operations do to the
sequence of its elements. An access outside the allocated block, or to a slot that has
not been written, has no result.
-/

namespace RustDbg

/-- `MBList<T>`; a slot without a value has not been written since it was allocated. -/
structure MBList (α : Type) where
  length : Nat
  data : List (Option α)
  capacity : Nat
  allocated : data.length = capacity
  positive : 0 < capacity

namespace MBList

variable {α : Type}

def INITIAL_CAPACITY : Nat := 8

/-- The constructor of `MBList`. -/
def create : MBList α where
  length := 0
  data := List.replicate INITIAL_CAPACITY none
  capacity := INITIAL_CAPACITY
  allocated := List.length_replicate
  positive := by decide

/-- `_data[index]`, read -/
def slot (list : MBList α) (index : Nat) : Option α := list.data[index]?.join

/-- `_data[index] = value` -/
def setSlot (list : MBList α) (index : Nat) (value : α) : Option (MBList α) :=
  if index < list.capacity then
    some { list with
      data := list.data.set index (some value)
      allocated := by rw [List.length_set, list.allocated] }
  else none

/-- The doubling of the capacity, and `realloc`. -/
def double (list : MBList α) : MBList α where
  length := list.length
  data := list.data ++ List.replicate list.capacity none
  capacity := list.capacity * 2
  allocated := by rw [List.length_append, List.length_replicate, list.allocated, Nat.mul_two]
  positive := Nat.mul_pos list.positive (by decide)

/-- What `add` and `push` both do. -/
def store (list : MBList α) (value : α) : Option (MBList α) := do
  let list := if list.length = list.capacity then list.double else list
  let stored ← list.setSlot list.length value
  return { stored with length := list.length + 1 }

def add (list : MBList α) (value : α) : Option (α × MBList α) := do
  let list ← list.store value
  return (value, list)

def push (list : MBList α) (value : α) : Option (Int × MBList α) := do
  let list ← list.store value
  return (intOfSize (list.length - 1), list)

def append (list : MBList α) (value : α) : Option (Int × MBList α) := list.push value

/-- The length of an empty list wraps around, and the access is far outside. -/
def pop (list : MBList α) : Option (α × MBList α) :=
  match list.length with
  | 0 => none
  | length + 1 => do
      let value ← list.slot length
      return (value, { list with length })

def get (list : MBList α) (index : Nat) : Option α := list.slot index

/-- The loops of both functions `indexOf`. -/
def indexFrom (list : MBList α) (isMatch : α → Bool) : Nat → Nat → Option Int
  | 0, _ => some (-1)
  | remaining + 1, i => do
      let value ← list.slot i
      if isMatch value then return intOfSize i else list.indexFrom isMatch remaining (i + 1)

/-- `indexOf(MBPredicate<T> &)` -/
def indexOfPredicate (list : MBList α) (predicate : α → Bool) : Option Int :=
  list.indexFrom predicate list.length 0

def indexOf [BEq α] (list : MBList α) (value : α) : Option Int :=
  list.indexFrom (· == value) list.length 0

def replace [BEq α] (list : MBList α) (oldValue newValue : α) : Option (Bool × MBList α) := do
  let index ← list.indexOf oldValue
  if index < 0 then return (false, list)
  else
    let list ← list.setSlot index.toNat newValue
    return (true, list)

def contains [BEq α] (list : MBList α) (value : α) : Option Bool := do
  let index ← list.indexOf value
  return 0 ≤ index

def clear (list : MBList α) : MBList α := { list with length := 0 }

def isEmpty (list : MBList α) : Bool := list.length = 0

/-! ## The elements -/

/-- The slots below the length hold the elements. -/
structure Represents (list : MBList α) (elements : List α) : Prop where
  length : list.length = elements.length
  stored : elements.map some <+: list.data

variable {list : MBList α} {elements : List α} {value : α} {index : Nat}

theorem represents_create : (create : MBList α).Represents [] :=
  ⟨rfl, List.nil_prefix⟩

theorem Represents.length_le (represents : list.Represents elements) :
    list.length ≤ list.capacity := by
  have fits := represents.stored.length_le
  simp only [List.length_map, list.allocated] at fits
  rw [represents.length]
  exact fits

theorem Represents.slot_eq (represents : list.Represents elements)
    (inside : index < elements.length) : list.slot index = elements[index]? := by
  rcases represents.stored with ⟨spare, split⟩
  rw [slot, ← split, List.getElem?_append_left (by rwa [List.length_map]), List.getElem?_map]
  cases elements[index]? <;> rfl

theorem represents_clear (list : MBList α) : list.clear.Represents [] :=
  ⟨rfl, List.nil_prefix⟩

theorem Represents.isEmpty_eq (represents : list.Represents elements) :
    list.isEmpty = elements.isEmpty := by
  cases elements <;> simp [MBList.isEmpty, represents.length]

theorem Represents.double (represents : list.Represents elements) :
    list.double.Represents elements :=
  ⟨represents.length, represents.stored.trans (List.prefix_append _ _)⟩

theorem Represents.setSlot (represents : list.Represents elements)
    (inside : index < elements.length) :
    ∃ after, list.setSlot index value = some after ∧
      after.Represents (elements.set index value) ∧ after.capacity = list.capacity := by
  have fits := represents.length_le
  simp only [represents.length] at fits
  refine ⟨_, if_pos (Nat.lt_of_lt_of_le inside fits), ⟨?_, ?_⟩, rfl⟩
  · rw [List.length_set]
    exact represents.length
  · rcases represents.stored with ⟨spare, split⟩
    refine ⟨spare, ?_⟩
    change _ = list.data.set index (some value)
    rw [List.map_set, ← split, List.set_append_left _ _ (by rwa [List.length_map])]

/-- Storing behind the last element, with or without doubling, appends. -/
theorem Represents.store (represents : list.Represents elements) (value : α) :
    ∃ after, list.store value = some after ∧ after.Represents (elements ++ [value]) ∧
      after.capacity = if elements.length = list.capacity then list.capacity * 2
        else list.capacity := by
  have stores : ∀ grown : MBList α, grown.Represents elements → grown.length < grown.capacity →
      ∃ stored, grown.setSlot grown.length value = some stored ∧
        stored.capacity = grown.capacity ∧
        (elements ++ [value]).map some <+: stored.data := by
    intro grown represents room
    refine ⟨_, if_pos room, rfl, ?_⟩
    rcases represents.stored with ⟨spare, split⟩
    have lengths := congrArg List.length split
    simp only [List.length_append, List.length_map, grown.allocated, ← represents.length] at lengths
    rcases spare with _ | ⟨first, others⟩
    · simp only [List.length_nil] at lengths
      omega
    · refine ⟨others, ?_⟩
      change _ = grown.data.set grown.length (some value)
      rw [← split, represents.length, List.set_append_right _ _ (by simp), List.length_map,
        Nat.sub_self, List.set_cons_zero, List.map_append, List.append_assoc]
      rfl
  by_cases full : list.length = list.capacity
  · have room : list.double.length < list.double.capacity := by
      have positive := list.positive
      simp only [MBList.double]
      omega
    rcases stores _ represents.double room with ⟨stored, set, capacity, data⟩
    refine ⟨{ stored with length := list.length + 1 }, ?_, ⟨?_, data⟩, ?_⟩
    · simp only [MBList.store, if_pos full, set]
      rfl
    · simp [represents.length]
    · simp only [← represents.length, if_pos full]
      exact capacity
  · have room : list.length < list.capacity := Nat.lt_of_le_of_ne represents.length_le full
    rcases stores _ represents room with ⟨stored, set, capacity, data⟩
    refine ⟨{ stored with length := list.length + 1 }, ?_, ⟨?_, data⟩, ?_⟩
    · simp only [MBList.store, if_neg full, set]
      rfl
    · simp [represents.length]
    · simp only [← represents.length, if_neg full]
      exact capacity

theorem Represents.add (represents : list.Represents elements) (value : α) :
    ∃ after, list.add value = some (value, after) ∧ after.Represents (elements ++ [value]) ∧
      after.capacity = if elements.length = list.capacity then list.capacity * 2
        else list.capacity := by
  rcases represents.store value with ⟨after, stored, afterRepresents, capacity⟩
  refine ⟨after, ?_, afterRepresents, capacity⟩
  simp only [MBList.add, stored, Option.bind_eq_bind, Option.bind_some, Option.pure_def]

theorem Represents.push (represents : list.Represents elements) (value : α) :
    ∃ after, list.push value = some (intOfSize elements.length, after) ∧
      after.Represents (elements ++ [value]) ∧
      after.capacity = if elements.length = list.capacity then list.capacity * 2
        else list.capacity := by
  rcases represents.store value with ⟨after, stored, afterRepresents, capacity⟩
  refine ⟨after, ?_, afterRepresents, capacity⟩
  have length_eq := afterRepresents.length
  simp only [List.length_append, List.length_singleton] at length_eq
  simp only [MBList.push, stored, Option.bind_eq_bind, Option.bind_some, Option.pure_def,
    length_eq, Nat.add_sub_cancel]

theorem Represents.pop (represents : list.Represents (elements ++ [value])) :
    ∃ after, list.pop = some (value, after) ∧ after.Represents elements ∧
      after.capacity = list.capacity := by
  have length_eq := represents.length
  simp only [List.length_append, List.length_singleton] at length_eq
  have slot_eq : list.slot elements.length = some value := by
    rw [represents.slot_eq (by simp)]
    simp
  refine ⟨{ list with length := elements.length }, ?_, ⟨rfl, ?_⟩, rfl⟩
  · simp only [MBList.pop, length_eq, slot_eq, Option.bind_eq_bind, Option.bind_some,
      Option.pure_def]
  · apply List.IsPrefix.trans _ represents.stored
    rw [List.map_append]
    exact List.prefix_append _ _

/-! ## Searching -/

/-- The index of the first match as the functions `indexOf` return it. -/
def firstIndex (isMatch : α → Bool) (elements : List α) : Int :=
  match elements.findIdx? isMatch with
  | some i => i
  | none => -1

/-- The loop behind some elements returns the first match of the others, counted from the start. -/
theorem Represents.indexFrom (isMatch : α → Bool) {done rest : List α}
    (represents : list.Represents (done ++ rest)) (small : (done ++ rest).length < 2 ^ 31) :
    list.indexFrom isMatch rest.length done.length =
      some (((rest.findIdx? isMatch).map fun i => ((done.length + i : Nat) : Int)).getD (-1)) := by
  induction rest generalizing done with
  | nil => rfl
  | cons value rest ih =>
      simp only [List.length_append, List.length_cons] at small
      have slot_eq : list.slot done.length = some value := by
        rw [represents.slot_eq (by simp)]
        simp
      have index_eq : intOfSize done.length = (done.length : Int) :=
        intOfSize_of_lt (by omega)
      have later := @ih (done ++ [value]) (by simpa using represents) (by simp; omega)
      simp only [List.length_append, List.length_singleton] at later
      simp only [List.length_cons, MBList.indexFrom, slot_eq, Option.bind_eq_bind,
        Option.bind_some, Option.pure_def, List.findIdx?_cons, index_eq, later]
      split
      · simp
      · cases rest.findIdx? isMatch with
        | none => rfl
        | some i => simp [Nat.add_assoc, Nat.add_comm 1]

theorem Represents.indexFrom_zero (represents : list.Represents elements) (isMatch : α → Bool)
    (small : elements.length < 2 ^ 31) :
    list.indexFrom isMatch list.length 0 = some (firstIndex isMatch elements) := by
  have whole : list.Represents ([] ++ elements) := represents
  simp only [represents.length, firstIndex]
  have loop := whole.indexFrom isMatch small
  simp only [List.length_nil] at loop
  rw [loop]
  cases elements.findIdx? isMatch <;> simp

theorem firstIndex_eq_or (isMatch : α → Bool) (elements : List α) :
    (elements.findIdx? isMatch = none ∧ firstIndex isMatch elements = -1) ∨
      ∃ i < elements.length, elements.findIdx? isMatch = some i ∧
        firstIndex isMatch elements = i := by
  cases found : elements.findIdx? isMatch with
  | none =>
      left
      exact ⟨rfl, by rw [firstIndex, found]⟩
  | some i =>
      right
      exact ⟨i, (List.findIdx?_eq_some_iff_findIdx_eq.mp found).1, rfl, by rw [firstIndex, found]⟩

theorem firstIndex_nonneg_iff (isMatch : α → Bool) (elements : List α) :
    0 ≤ firstIndex isMatch elements ↔ elements.any isMatch = true := by
  rcases firstIndex_eq_or isMatch elements with ⟨missing, index_eq⟩ | ⟨i, _, found, index_eq⟩
  · rw [index_eq]
    apply iff_of_false (by decide)
    simp only [List.findIdx?_eq_none_iff] at missing
    simpa using missing
  · rw [index_eq]
    apply iff_of_true (Int.natCast_nonneg i)
    rcases List.findIdx?_eq_some_iff_getElem.mp found with ⟨inside, isFound, _⟩
    apply List.any_eq_true.mpr
    exact ⟨_, List.getElem_mem inside, isFound⟩

/-- The elements with the first one that is the old value replaced. -/
def replaceFirst [BEq α] (oldValue newValue : α) : List α → List α
  | [] => []
  | value :: rest =>
      if value == oldValue then newValue :: rest
      else value :: replaceFirst oldValue newValue rest

theorem replaceFirst_eq [BEq α] (oldValue newValue : α) (elements : List α) :
    replaceFirst oldValue newValue elements =
      match elements.findIdx? (· == oldValue) with
      | some i => elements.set i newValue
      | none => elements := by
  induction elements with
  | nil => rfl
  | cons value rest ih =>
      simp only [replaceFirst, List.findIdx?_cons, ih]
      split
      · rfl
      · cases rest.findIdx? (· == oldValue) <;> rfl

theorem Represents.replace [BEq α] (represents : list.Represents elements)
    (oldValue newValue : α) (small : elements.length < 2 ^ 31) :
    ∃ after, list.replace oldValue newValue =
        some (elements.any (· == oldValue), after) ∧
      after.Represents (replaceFirst oldValue newValue elements) ∧
      after.capacity = list.capacity := by
  have index_eq := represents.indexFrom_zero (· == oldValue) small
  have replaced_eq := replaceFirst_eq oldValue newValue elements
  have any_iff := firstIndex_nonneg_iff (· == oldValue) elements
  simp only [MBList.replace, MBList.indexOf, index_eq, Option.bind_eq_bind, Option.bind_some,
    Option.pure_def]
  rcases firstIndex_eq_or (· == oldValue) elements with
    ⟨missing, first⟩ | ⟨i, inside, found, first⟩
  · simp only [missing] at replaced_eq
    have no : elements.any (· == oldValue) = false := by
      simp only [← Bool.not_eq_true, ← any_iff, first]
      decide
    rw [first, if_pos (by decide), no, replaced_eq]
    exact ⟨list, rfl, represents, rfl⟩
  · simp only [found] at replaced_eq
    have yes : elements.any (· == oldValue) = true := by
      simp only [← any_iff, first]
      exact Int.natCast_nonneg i
    have notNegative : ¬(i : Int) < 0 := Int.not_lt.mpr (Int.natCast_nonneg i)
    rcases represents.setSlot inside with ⟨after, set, afterRepresents, capacity⟩
    rw [first, if_neg notNegative, Int.toNat_natCast, set, yes, replaced_eq]
    exact ⟨after, rfl, afterRepresents, capacity⟩

theorem Represents.contains_eq [BEq α] (represents : list.Represents elements) (value : α)
    (small : elements.length < 2 ^ 31) :
    list.contains value = some (elements.any (· == value)) := by
  have any_iff := firstIndex_nonneg_iff (· == value) elements
  simp only [MBList.contains, MBList.indexOf, represents.indexFrom_zero _ small,
    Option.bind_eq_bind, Option.bind_some, Option.pure_def, Option.some.injEq]
  rw [Bool.eq_iff_iff, ← any_iff, decide_eq_true_eq]

/-! ## Every operation -/

/-- The operations of `MBList`; `subscript` and `assign` go through `operator[]`. -/
inductive Operation (α : Type) where
  | length
  | add (value : α)
  | append (value : α)
  | push (value : α)
  | pop
  | get (index : Nat)
  | subscript (index : Nat)
  | assign (index : Nat) (value : α)
  | replace (oldValue newValue : α)
  | indexOf (value : α)
  | indexOfPredicate (predicate : α → Bool)
  | contains (value : α)
  | isEmpty
  | clear

/-- What an operation returns. -/
inductive Outcome (α : Type) where
  | nothing
  | value (value : α)
  | length (length : Nat)
  | index (index : Int)
  | truth (truth : Bool)
deriving DecidableEq, Repr

/-- An operation of the array, if it accesses written slots of the block only. -/
def perform [BEq α] (list : MBList α) : Operation α → Option (Outcome α × MBList α)
  | .length => some (.length list.length, list)
  | .add value => (list.add value).map (Prod.map .value id)
  | .append value => (list.append value).map (Prod.map .index id)
  | .push value => (list.push value).map (Prod.map .index id)
  | .pop => list.pop.map (Prod.map .value id)
  | .get index => (list.get index).map (.value ·, list)
  | .subscript index => (list.slot index).map (.value ·, list)
  | .assign index value => (list.setSlot index value).map (.nothing, ·)
  | .replace oldValue newValue => (list.replace oldValue newValue).map (Prod.map .truth id)
  | .indexOf value => (list.indexOf value).map (.index ·, list)
  | .indexOfPredicate predicate => (list.indexOfPredicate predicate).map (.index ·, list)
  | .contains value => (list.contains value).map (.truth ·, list)
  | .isEmpty => some (.truth list.isEmpty, list)
  | .clear => some (.nothing, list.clear)

/--
The same operation of the plain sequence. It is there for `pop` if there is an element, for an
index below the length, and for a new element if fewer than 2^31 are in the list then.
-/
def plain [BEq α] (elements : List α) : Operation α → Option (Outcome α × List α)
  | .length => some (.length elements.length, elements)
  | .add value =>
      if elements.length + 1 < 2 ^ 31 then some (.value value, elements ++ [value]) else none
  | .append value =>
      if elements.length + 1 < 2 ^ 31 then some (.index elements.length, elements ++ [value])
      else none
  | .push value =>
      if elements.length + 1 < 2 ^ 31 then some (.index elements.length, elements ++ [value])
      else none
  | .pop => elements.getLast?.map fun value => (.value value, elements.dropLast)
  | .get index => elements[index]?.map (.value ·, elements)
  | .subscript index => elements[index]?.map (.value ·, elements)
  | .assign index value =>
      if index < elements.length then some (.nothing, elements.set index value) else none
  | .replace oldValue newValue =>
      some (.truth (elements.any (· == oldValue)), replaceFirst oldValue newValue elements)
  | .indexOf value => some (.index (firstIndex (· == value) elements), elements)
  | .indexOfPredicate predicate => some (.index (firstIndex predicate elements), elements)
  | .contains value => some (.truth (elements.any (· == value)), elements)
  | .isEmpty => some (.truth elements.isEmpty, elements)
  | .clear => some (.nothing, [])

/-- A list of a size whose counters do not wrap around. -/
structure Holds (list : MBList α) (elements : List α) : Prop where
  represents : list.Represents elements
  small : elements.length < 2 ^ 31
  counts : list.capacity < 2 ^ 32

theorem Holds.appended {after : MBList α} (holds : list.Holds elements)
    (room : elements.length + 1 < 2 ^ 31) (represents : after.Represents (elements ++ [value]))
    (capacity : after.capacity = if elements.length = list.capacity then list.capacity * 2
      else list.capacity) : after.Holds (elements ++ [value]) := by
  refine ⟨represents, by simpa using room, ?_⟩
  have counts := holds.counts
  rw [capacity]
  split
  · omega
  · exact counts

theorem length_replaceFirst [BEq α] (oldValue newValue : α) (elements : List α) :
    (replaceFirst oldValue newValue elements).length = elements.length := by
  rw [replaceFirst_eq]
  cases elements.findIdx? (· == oldValue) <;> simp

/-- One operation: the array does what the sequence does. -/
theorem refines_plain [BEq α] : Refinement.Refines (@perform α _) plain Holds := by
  intro list elements operation outcome elements' holds allowed
  have represents := holds.represents
  cases operation with
  | length =>
      simp only [plain, Option.some.injEq, Prod.mk.injEq] at allowed
      rcases allowed with ⟨rfl, rfl⟩
      exact ⟨list, by simp only [perform, represents.length], holds⟩
  | add value =>
      simp only [plain, Option.ite_none_right_eq_some, Option.some.injEq, Prod.mk.injEq] at allowed
      rcases allowed with ⟨room, rfl, rfl⟩
      rcases represents.add value with ⟨after, added, afterRepresents, capacity⟩
      refine ⟨after, ?_, holds.appended room afterRepresents capacity⟩
      simp only [perform, added, Option.map_some, Prod.map, id]
  | append value =>
      simp only [plain, Option.ite_none_right_eq_some, Option.some.injEq, Prod.mk.injEq] at allowed
      rcases allowed with ⟨room, rfl, rfl⟩
      rcases represents.push value with ⟨after, pushed, afterRepresents, capacity⟩
      refine ⟨after, ?_, holds.appended room afterRepresents capacity⟩
      simp only [perform, MBList.append, pushed, Option.map_some, Prod.map, id,
        intOfSize_of_lt holds.small]
  | push value =>
      simp only [plain, Option.ite_none_right_eq_some, Option.some.injEq, Prod.mk.injEq] at allowed
      rcases allowed with ⟨room, rfl, rfl⟩
      rcases represents.push value with ⟨after, pushed, afterRepresents, capacity⟩
      refine ⟨after, ?_, holds.appended room afterRepresents capacity⟩
      simp only [perform, pushed, Option.map_some, Prod.map, id, intOfSize_of_lt holds.small]
  | pop =>
      simp only [plain, Option.map_eq_some_iff, Prod.mk.injEq] at allowed
      rcases allowed with ⟨value, last, rfl, rfl⟩
      have split := List.dropLast_append_getLast? value last
      rw [← split] at represents
      rcases represents.pop with ⟨after, popped, afterRepresents, capacity⟩
      refine ⟨after, ?_, ⟨afterRepresents, ?_, ?_⟩⟩
      · simp only [perform, popped, Option.map_some, Prod.map, id]
      · have small := holds.small
        rw [List.length_dropLast]
        omega
      · rw [capacity]
        exact holds.counts
  | get index =>
      simp only [plain, Option.map_eq_some_iff, Prod.mk.injEq] at allowed
      rcases allowed with ⟨value, present, rfl, rfl⟩
      have inside := (List.getElem?_eq_some_iff.mp present).1
      refine ⟨list, ?_, holds⟩
      simp only [perform, MBList.get, represents.slot_eq inside, present, Option.map_some]
  | subscript index =>
      simp only [plain, Option.map_eq_some_iff, Prod.mk.injEq] at allowed
      rcases allowed with ⟨value, present, rfl, rfl⟩
      have inside := (List.getElem?_eq_some_iff.mp present).1
      refine ⟨list, ?_, holds⟩
      simp only [perform, represents.slot_eq inside, present, Option.map_some]
  | assign index value =>
      simp only [plain, Option.ite_none_right_eq_some, Option.some.injEq, Prod.mk.injEq] at allowed
      rcases allowed with ⟨inside, rfl, rfl⟩
      rcases represents.setSlot inside with ⟨after, set, afterRepresents, capacity⟩
      refine ⟨after, ?_, ⟨afterRepresents, ?_, ?_⟩⟩
      · simp only [perform, set, Option.map_some]
      · rw [List.length_set]
        exact holds.small
      · rw [capacity]
        exact holds.counts
  | replace oldValue newValue =>
      simp only [plain, Option.some.injEq, Prod.mk.injEq] at allowed
      rcases allowed with ⟨rfl, rfl⟩
      rcases represents.replace oldValue newValue holds.small with
        ⟨after, replaced, afterRepresents, capacity⟩
      refine ⟨after, ?_, ⟨afterRepresents, ?_, ?_⟩⟩
      · simp only [perform, replaced, Option.map_some, Prod.map, id]
      · rw [length_replaceFirst]
        exact holds.small
      · rw [capacity]
        exact holds.counts
  | indexOf value =>
      simp only [plain, Option.some.injEq, Prod.mk.injEq] at allowed
      rcases allowed with ⟨rfl, rfl⟩
      refine ⟨list, ?_, holds⟩
      simp only [perform, MBList.indexOf, represents.indexFrom_zero _ holds.small,
        Option.map_some]
  | indexOfPredicate predicate =>
      simp only [plain, Option.some.injEq, Prod.mk.injEq] at allowed
      rcases allowed with ⟨rfl, rfl⟩
      refine ⟨list, ?_, holds⟩
      simp only [perform, MBList.indexOfPredicate, represents.indexFrom_zero _ holds.small,
        Option.map_some]
  | contains value =>
      simp only [plain, Option.some.injEq, Prod.mk.injEq] at allowed
      rcases allowed with ⟨rfl, rfl⟩
      refine ⟨list, ?_, holds⟩
      simp only [perform, represents.contains_eq value holds.small, Option.map_some]
  | isEmpty =>
      simp only [plain, Option.some.injEq, Prod.mk.injEq] at allowed
      rcases allowed with ⟨rfl, rfl⟩
      exact ⟨list, by simp only [perform, represents.isEmpty_eq], holds⟩
  | clear =>
      simp only [plain, Option.some.injEq, Prod.mk.injEq] at allowed
      rcases allowed with ⟨rfl, rfl⟩
      exact ⟨list.clear, rfl, list.represents_clear, by simp, holds.counts⟩

theorem holds_create : (create : MBList α).Holds [] :=
  ⟨represents_create, by simp, by simp [create, INITIAL_CAPACITY]⟩

/--
Whatever operations the plain sequence allows from the empty one, the list has the same results,
holds the same elements, and its length is within its capacity.
-/
theorem execute_refines_plain [BEq α] {operations : List (Operation α)}
    {outcomes : List (Outcome α)}
    (allowed : Refinement.execute plain [] operations = some (outcomes, elements)) :
    ∃ list, Refinement.execute perform create operations = some (outcomes, list) ∧
      list.Represents elements ∧ list.length ≤ list.capacity ∧ list.capacity < 2 ^ 32 := by
  rcases refines_plain.execute holds_create allowed with ⟨list, ran, holds⟩
  exact ⟨list, ran, holds.represents, holds.represents.length_le, holds.counts⟩

/-- A list that grows, and whose slots are used again. -/
theorem execute_refines_plain_grown :
    ∃ list, Refinement.execute perform create
        ((List.range 9).map .push ++
          [.replace 3 7, .indexOf 7, .pop, .assign 0 7, .indexOf 7, .clear, .append 4, .get 0]) =
          some ((List.range 9).map (.index ·) ++
            [.truth true, .index 3, .value 8, .nothing, .index 0, .nothing, .index 0, .value 4],
            list) ∧
      list.Represents [4] ∧ list.length ≤ list.capacity ∧ list.capacity < 2 ^ 32 :=
  execute_refines_plain (by decide)

end MBList

end RustDbg
