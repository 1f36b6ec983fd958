import RustDbg.Code.Scan

/-!
# Looking symbols up

A symbol is looked up by a name or by an address, and the lookup is given something else
for the other: the address 0, or no name, which it takes for the empty one. Symbols can
have these as well.
-/

namespace RustDbg

/-! ## The first of two kinds -/

section First

variable {α : Type} (asked other : α → Bool)

/-- Nothing that is only of the other kind comes before the first of the asked one. -/
def OnlyBehind : List α → Prop
  | [] => True
  | item :: rest => asked item ∨ other item = false ∧ OnlyBehind rest

/-- The first of either kind is the first of the asked one exactly if the other is behind it. -/
theorem findIdx?_or_eq_iff (items : List α) :
    items.findIdx? (fun item => asked item || other item) = items.findIdx? asked ↔
      OnlyBehind asked other items := by
  induction items with
  | nil => exact iff_of_true rfl trivial
  | cons item rest ih =>
      have successor : Function.Injective fun i => i + 1 := Nat.succ_injective
      simp only [OnlyBehind, ← ih, List.findIdx?_cons]
      cases isAsked : asked item with
      | true => simp
      | false =>
          cases isOther : other item with
          | true => simp
          | false => simp [(Option.map_injective successor).eq_iff]

end First

/-! ## The lookup -/

/-- The symbols of some files with the files that they are from, in file and table order. -/
def symbolObjects (files : List MDBMachFile) : List (MDBMachFile × MDBSymbol) :=
  files.flatMap fun machFile => machFile.symbols.map (machFile, ·)

def isNamed (name : List Byte) (object : MDBMachFile × MDBSymbol) : Bool :=
  object.2.name.equals object.1.buffer name

def isAt (address : Address) (object : MDBMachFile × MDBSymbol) : Bool :=
  object.2.address = address

/-- Which of the objects `findSymbolByNameOrAddress` returns a pointer to. -/
def findSymbolIndex (files : List MDBMachFile) (symbolName : Option (List Byte))
    (address : Address) : Option Nat :=
  (symbolObjects files).findIdx? fun object =>
    isNamed (symbolName.getD []) object || isAt address object

theorem findSymbolByNameOrAddress_eq (files : List MDBMachFile) (symbolName : Option (List Byte))
    (address : Address) :
    findSymbolByNameOrAddress files symbolName address =
      ((findSymbolIndex files symbolName address).bind ((symbolObjects files)[·]?)).map (·.2) := by
  simp only [findSymbolIndex, ← List.find?_eq_bind_findIdx?_getElem?]
  simp only [symbolObjects, List.find?_flatMap, List.find?_map, List.map_findSome?,
    findSymbolByNameOrAddress]
  congr 1
  funext machFile
  simp [Function.comp_def, isNamed, isAt]

/-- The lookup returns the first symbol of the kind that is asked for, if there is one. -/
structure Answers (files : List MDBMachFile) (symbolName : Option (List Byte)) (address : Address)
    (asked : MDBMachFile × MDBSymbol → Bool) : Prop where
  index : findSymbolIndex files symbolName address = (symbolObjects files).findIdx? asked
  symbol : findSymbolByNameOrAddress files symbolName address =
    ((symbolObjects files).find? asked).map (·.2)

variable {files : List MDBMachFile}

theorem answers_iff {symbolName : Option (List Byte)} {address : Address}
    {asked : MDBMachFile × MDBSymbol → Bool} :
    Answers files symbolName address asked ↔
      findSymbolIndex files symbolName address = (symbolObjects files).findIdx? asked := by
  constructor
  · intro answers
    exact answers.index
  · intro index
    refine ⟨index, ?_⟩
    simp only [findSymbolByNameOrAddress_eq, index, List.find?_eq_bind_findIdx?_getElem?]

/--
A lookup by a name answers exactly when no other symbol at the address 0 comes before
the first one of the name, and a lookup by an address exactly when no other symbol with
an empty name comes before the first one at the address.
-/
theorem findSymbolByNameOrAddress_answers_iff (files : List MDBMachFile) (name : List Byte)
    (address : Address) :
    (Answers files (some name) 0 (isNamed name) ↔
      OnlyBehind (isNamed name) (isAt 0) (symbolObjects files)) ∧
    (Answers files none address (isAt address) ↔
      OnlyBehind (isAt address) (isNamed []) (symbolObjects files)) := by
  constructor
  · simp only [answers_iff, ← findIdx?_or_eq_iff]
    rfl
  · simp only [answers_iff, ← findIdx?_or_eq_iff]
    simp only [findSymbolIndex, Option.getD_none, Bool.or_comm]

/-- A file with a symbol without a name at the address 0, and behind it one named `b`. -/
def unnamedFirst : MDBMachFile where
  fileName := []
  buffer := [0x00#8, 0x62#8, 0x00#8]
  symbols := [⟨.inBuffer 0, 0x0#64⟩, ⟨.inBuffer 1, 0x1000#64⟩]
  dylibs := []

/-- Neither the name nor the address of the second symbol finds it. -/
theorem not_answers_unnamedFirst :
    ¬Answers [unnamedFirst] (some [0x62#8]) 0 (isNamed [0x62#8]) ∧
      ¬Answers [unnamedFirst] none 0x1000 (isAt 0x1000) := by
  constructor
  · intro answers
    cases answers.index
  · intro answers
    cases answers.index

end RustDbg
