import RustDbg.Library.Printf
import RustDbg.Process.FindAddress
import RustDbg.Shared.Strings

/-!
# What the dynamic linker has loaded

`MDBProcess::logDylinkerState` on a task that stays alive. The dynamic linker keeps an array
of what it has loaded, in tables that are found through an offset in its image. Their paths
are read 64 bytes at a time, whether or not there are as many, and without a check. The model
ends at what is passed to the log; what that makes of a path with a percent sign, or of an
address with 32 bits where the format has 64, is left open.
-/

namespace RustDbg

open Buffer Loop Printf

def DYLD_ALL_IMAGE_INFOS_OFFSET_OFFSET : Nat := 0x1010

/-- The fields of `MDBDyldAllImageInfos32` that are read. -/
structure MDBDyldAllImageInfos32 where
  version : BitVec 32
  infoArrayCount : BitVec 32
  infoArray : BitVec 32
  notification : BitVec 32
deriving DecidableEq, Repr

/-- With the padding before `systemOrderFlag`, which has 64 bits. -/
def sizeofAllImageInfos : Nat := 56

def MDBDyldAllImageInfos32.ofBytes (bytes : List Byte) : MDBDyldAllImageInfos32 :=
  ⟨word bytes 0, word bytes 4, word bytes 8, word bytes 12⟩

structure MDBDyldImageInfo32 where
  imageLoadAddress : BitVec 32
  imageFilePath : BitVec 32
  imageFileModDate : BitVec 32
deriving DecidableEq, Repr

def sizeofImageInfo : Nat := 12

def MDBDyldImageInfo32.ofBytes (bytes : List Byte) : MDBDyldImageInfo32 :=
  ⟨word bytes 0, word bytes 4, word bytes 8⟩

/-- The format and the arguments that are passed to `log.traceLn(MDBLog::SYM, …)`. -/
abbrev LogCall := List Byte × List (Argument (BitVec 32))

namespace RegionMap

/--
The string that is passed for an image, if it ends among the bytes that are read; the source does
not look at the result of the read.
-/
def imageName (map : RegionMap) (info : MDBDyldImageInfo32) : Option (List Byte) :=
  (map.machVmRead (info.imageFilePath.setWidth 64) 64).bind untilZero

def imageLine (name : List Byte) (info : MDBDyldImageInfo32) : LogCall :=
  (ascii "DyldImageInfo32 name: %s, address: 0x%llX ", [.string name, .value info.imageLoadAddress])

/-- The record of the image at an index. -/
def readImageInfo (map : RegionMap) (infoArray : BitVec 32) (i : Nat) :
    Option MDBDyldImageInfo32 :=
  (map.machVmRead (infoArray.setWidth 64 + BitVec.ofNat 64 (sizeofImageInfo * i))
    sizeofImageInfo).map .ofBytes

def cannotReadInfo : LogCall := (ascii "Cannot read info from inferior.", [])

/-- A turn of the loop of `logDylinkerState`, from a record and what the later turns pass on. -/
def logImageInfo (map : RegionMap) :
    Option MDBDyldImageInfo32 → Option (List LogCall) → Option (List LogCall)
  | none, _ => some [cannotReadInfo]
  | some info, later => do
      let infoName ← map.imageName info
      return imageLine infoName info :: (← later)

/-- The loop over the images that remain, from the next index on. -/
def logImageInfos (map : RegionMap) (infoArray : BitVec 32) : Nat → Nat → Option (List LogCall)
  | 0, _ => some []
  | remaining + 1, i =>
      map.logImageInfo (map.readImageInfo infoArray i)
        (logImageInfos map infoArray remaining (i + 1))

/--
What `MDBProcess::logDylinkerState` passes to the log call by call, if each call returns, when
`findAddress` has returned an address; none if some name does not end among the bytes read.
-/
def logDylinkerState (map : RegionMap) (address : Address) : Option (List LogCall) :=
  if address = 0#64 then
    some [(ascii "Dynamic linker was not loaded, cannot initialize dylinker hooks.", [])]
  else
    match map.machVmRead (address + BitVec.ofNat 64 DYLD_ALL_IMAGE_INFOS_OFFSET_OFFSET) 4 with
    | none => some [(ascii "Cannot read dyldAllImageInfosOffsetOffset.", [])]
    | some offset =>
        match map.machVmRead (address + (word offset 0).setWidth 64) sizeofAllImageInfos with
        | none => some [(ascii "Cannot read infos from inferior.", [])]
        | some bytes => do
            let infos := MDBDyldAllImageInfos32.ofBytes bytes
            let images ← map.logImageInfos infos.infoArray infos.infoArrayCount.toNat 0
            return (ascii "DyldAllImageInfos32 version: %d, count: %d",
              [.value infos.version, .value infos.infoArrayCount]) :: images

end RegionMap

/-! ## What the tables say -/

/-- What the dynamic linker says of something it has loaded, and the path that this points to. -/
structure LoadedImage where
  info : MDBDyldImageInfo32
  path : List Byte
  nonzero : 0#8 ∉ path

def MDBDyldImageInfo32.bytes (info : MDBDyldImageInfo32) : List Byte :=
  wordBytes [info.imageLoadAddress, info.imageFilePath, info.imageFileModDate]

def MDBDyldAllImageInfos32.bytes (infos : MDBDyldAllImageInfos32) : List Byte :=
  wordBytes [infos.version, infos.infoArrayCount, infos.infoArray, infos.notification]

namespace RegionMap

/-- The bytes can be read at an address. -/
def Stores (map : RegionMap) (address : Address) (bytes : List Byte) : Prop :=
  ∀ (i : Nat) (inside : i < bytes.length),
    map.byteAt (address + BitVec.ofNat 64 i) = some bytes[i]

/-- The record of an image and its path with the terminator are where they should be. -/
structure StoresImage (map : RegionMap) (infos : MDBDyldAllImageInfos32) (i : Nat)
    (image : LoadedImage) : Prop where
  record : map.Stores (infos.infoArray.setWidth 64 + BitVec.ofNat 64 (sizeofImageInfo * i))
    image.info.bytes
  path : map.Stores (image.info.imageFilePath.setWidth 64) (image.path ++ [0#8])

/-- The tables of a dynamic linker at an address say that some images are loaded. -/
structure Describes (map : RegionMap) (address : Address) (infos : MDBDyldAllImageInfos32)
    (images : List LoadedImage) : Prop where
  tables : ∃ (offset : BitVec 32) (rest : List Byte),
    map.Stores (address + BitVec.ofNat 64 DYLD_ALL_IMAGE_INFOS_OFFSET_OFFSET)
        (wordBytes [offset]) ∧
      map.Stores (address + offset.setWidth 64) (infos.bytes ++ rest) ∧
      (infos.bytes ++ rest).length = sizeofAllImageInfos
  counted : infos.infoArrayCount.toNat = images.length
  images : ∀ i image, images[i]? = some image → map.StoresImage infos i image

/-- The path has less than 64 characters, and there are 64 bytes from its start on. -/
def NameFits (map : RegionMap) (image : LoadedImage) : Prop :=
  image.path.length < 64 ∧ (map.machVmRead (image.info.imageFilePath.setWidth 64) 64).isSome

instance (map : RegionMap) (image : LoadedImage) : Decidable (map.NameFits image) :=
  inferInstanceAs (Decidable (_ ∧ _))

variable {map : RegionMap} {address : Address} {bytes stored : List Byte}
  {infos : MDBDyldAllImageInfos32} {images : List LoadedImage} {image : LoadedImage}

/-! ## Reading what is stored -/

/-- A read that succeeds returns as many bytes as were asked for, each the one at its place. -/
theorem getElem?_of_machVmRead {size : Nat} (read : map.machVmRead address size = some bytes) :
    bytes.length = size ∧
      ∀ i < size, bytes[i]? = map.byteAt (address + BitVec.ofNat 64 i) := by
  simp only [machVmRead, Option.ite_none_right_eq_some, Option.some.injEq] at read
  rcases read with ⟨mapped, rfl⟩
  constructor
  · simp only [List.length_map, List.length_range]
  · intro i inside
    rcases Option.isSome_iff_exists.mp (mapped i inside) with ⟨byte, here⟩
    simp only [List.getElem?_map, List.getElem?_range inside, Option.map_some, here,
      Option.getD_some]

theorem machVmRead_of_stores (stores : map.Stores address bytes) :
    map.machVmRead address bytes.length = some bytes := by
  have mapped : ∀ i < bytes.length, (map.byteAt (address + BitVec.ofNat 64 i)).isSome := by
    intro i inside
    simp only [stores i inside, Option.isSome_some]
  simp only [machVmRead, if_pos mapped, Option.some.injEq]
  apply List.ext_getElem
  · simp only [List.length_map, List.length_range]
  · intro i _ inside
    simp only [List.getElem_map, List.getElem_range, stores i inside, Option.getD_some]

/-- Of what is read and what is stored at the same place, the shorter one starts the other. -/
theorem prefix_of_machVmRead {size : Nat} (stores : map.Stores address stored)
    (read : map.machVmRead address size = some bytes) : stored <+: bytes ∨ bytes <+: stored := by
  rcases getElem?_of_machVmRead read with ⟨length, same⟩
  rcases Nat.le_total stored.length size with fits | long
  · left
    apply List.prefix_iff_getElem?.mpr
    intro i inside
    rw [same i (by omega)]
    exact stores i inside
  · right
    apply List.prefix_iff_getElem?.mpr
    intro i inside
    have here := stores i (by omega)
    rw [← same i (by omega), List.getElem?_eq_getElem inside] at here
    rw [List.getElem?_eq_getElem (by omega)]
    exact here.symm

/-! ## The names -/

/-- A path is read whole exactly if it ends among the bytes that are read. -/
theorem imageName_eq (stores : map.Stores (image.info.imageFilePath.setWidth 64)
    (image.path ++ [0#8])) :
    map.imageName image.info = if map.NameFits image then some image.path else none := by
  cases read : map.machVmRead (image.info.imageFilePath.setWidth 64) 64 with
  | none =>
      have unfit : ¬map.NameFits image := by
        intro fits
        simpa only [read, Option.isSome_none, Bool.false_eq_true] using fits.2
      simp only [imageName, read, Option.bind_none, if_neg unfit]
  | some bytes =>
      have length := (getElem?_of_machVmRead read).1
      simp only [imageName, read, Option.bind_some, NameFits, Option.isSome_some, and_true]
      rw [untilZero_of_start image.nonzero (prefix_of_machVmRead stores read), length]

/-! ## The tables -/

theorem ofBytes_imageInfo (info : MDBDyldImageInfo32) :
    MDBDyldImageInfo32.ofBytes info.bytes = info := by
  have field {i : Nat} {value : BitVec 32}
      (present : [info.imageLoadAddress, info.imageFilePath, info.imageFileModDate][i]? =
        some value) : word info.bytes (4 * i) = value := by
    have stored := word_wordBytes_append present []
    rwa [List.append_nil] at stored
  have loadAddress := @field 0 info.imageLoadAddress rfl
  have filePath := @field 1 info.imageFilePath rfl
  have modDate := @field 2 info.imageFileModDate rfl
  simp only [MDBDyldImageInfo32.ofBytes, loadAddress, filePath, modDate]

theorem ofBytes_allImageInfos (infos : MDBDyldAllImageInfos32) (rest : List Byte) :
    MDBDyldAllImageInfos32.ofBytes (infos.bytes ++ rest) = infos := by
  have field {i : Nat} {value : BitVec 32}
      (present : [infos.version, infos.infoArrayCount, infos.infoArray,
        infos.notification][i]? = some value) :
      word (infos.bytes ++ rest) (4 * i) = value := word_wordBytes_append present rest
  have version := @field 0 infos.version rfl
  have count := @field 1 infos.infoArrayCount rfl
  have array := @field 2 infos.infoArray rfl
  have notification := @field 3 infos.notification rfl
  simp only [MDBDyldAllImageInfos32.ofBytes, version, count, array, notification]

theorem readImageInfo_of_stores {info : MDBDyldImageInfo32} {infoArray : BitVec 32} {i : Nat}
    (stores : map.Stores (infoArray.setWidth 64 + BitVec.ofNat 64 (sizeofImageInfo * i))
      info.bytes) : map.readImageInfo infoArray i = some info := by
  have read := machVmRead_of_stores stores
  have length : info.bytes.length = sizeofImageInfo := length_wordBytes _
  rw [length] at read
  rw [readImageInfo, read, Option.map_some, ofBytes_imageInfo]

theorem logImageInfo_some (info : MDBDyldImageInfo32) (later : Option (List LogCall)) :
    map.logImageInfo (some info) later =
      (map.imageName info).bind fun name => later.map (imageLine name info :: ·) := by
  rw [logImageInfo]
  cases map.imageName info with
  | none => rfl
  | some name => cases later <;> rfl

theorem logImageInfos_eq {i : Nat}
    (present : ∀ j image, images[j]? = some image → map.StoresImage infos (i + j) image) :
    map.logImageInfos infos.infoArray images.length i =
      if ∀ image ∈ images, map.NameFits image then
        some (images.map fun image => imageLine image.path image.info)
      else none := by
  induction images generalizing i with
  | nil =>
      have nothing : ∀ image ∈ ([] : List LoadedImage), map.NameFits image := by
        intro image present
        cases present
      rw [if_pos nothing]
      rfl
  | cons image rest ih =>
      have here : map.StoresImage infos i image := present 0 image rfl
      have others : ∀ j image, rest[j]? = some image → map.StoresImage infos (i + 1 + j) image := by
        intro j other found
        have stored := present (j + 1) other found
        rwa [← Nat.add_assoc, Nat.add_right_comm] at stored
      have read := readImageInfo_of_stores here.record
      simp only [List.length_cons, logImageInfos, read, logImageInfo_some, imageName_eq here.path,
        ih others, List.forall_mem_cons]
      by_cases first : map.NameFits image
      · rw [if_pos first, Option.bind_some]
        by_cases all : ∀ image ∈ rest, map.NameFits image
        · rw [if_pos all, if_pos ⟨first, all⟩, Option.map_some, List.map_cons]
        · have unfit : ¬(map.NameFits image ∧ ∀ image ∈ rest, map.NameFits image) := by
            intro fit
            exact all fit.2
          rw [if_neg all, if_neg unfit, Option.map_none]
      · have unfit : ¬(map.NameFits image ∧ ∀ image ∈ rest, map.NameFits image) := by
          intro fit
          exact first fit.1
        rw [if_neg first, if_neg unfit, Option.bind_none]

/-- Of tables that can be read, `logDylinkerState` passes each image to the log, in order. -/
theorem logDylinkerState_eq (describes : map.Describes address infos images)
    (found : address ≠ 0#64) :
    map.logDylinkerState address =
      if ∀ image ∈ images, map.NameFits image then
        some ((ascii "DyldAllImageInfos32 version: %d, count: %d",
          [.value infos.version, .value infos.infoArrayCount]) ::
            images.map fun image => imageLine image.path image.info)
      else none := by
  rcases describes.tables with ⟨offset, rest, offsetStored, infosStored, length⟩
  have offsetRead := machVmRead_of_stores offsetStored
  have infosRead := machVmRead_of_stores infosStored
  have offsetWord : word (wordBytes [offset]) 0 = offset := by
    have stored := @word_wordBytes_append [offset] 0 offset rfl []
    rwa [List.append_nil] at stored
  have lines := logImageInfos_eq (i := 0) fun j image present => by
    rw [Nat.zero_add]
    exact describes.images j image present
  rw [← describes.counted] at lines
  simp only [length_wordBytes, List.length_singleton, Nat.mul_one] at offsetRead
  rw [length] at infosRead
  simp only [logDylinkerState, if_neg found, offsetRead, offsetWord, infosRead,
    ofBytes_allImageInfos, lines]
  split <;> rfl

end RegionMap

/-! ## The dynamic linker that is found -/

/--
A call of `logDylinkerState` finishes its search, and passes some calls' arguments to the log, or
a name that does not end among the bytes read.
-/
def WalkedTask.PassesToLog (task : WalkedTask) (start : RegionWalk)
    (outcome : Option (List LogCall)) : Prop :=
  ∃ address, Leaves (task.findAddressBody MH_DYLINKER none) start (some address) ∧
    outcome = task.map.logDylinkerState address

namespace WalkedTask

/--
When the first image of a dynamic linker has tables that list what is loaded, the paths and load
addresses are passed to the log in order, exactly if every path has less than 64 characters and
64 bytes that can be read; else some name that is passed does not end among the bytes read.
-/
theorem passesToLog_iff {map : RegionMap} {dylinker : VmRegion}
    {infos : MDBDyldAllImageInfos32} {images : List LoadedImage} (size : BitVec 64)
    (info : VmRegionInfo) (outcome : Option (List LogCall))
    (found : map.regions.find? (isCandidate MH_DYLINKER) = some dylinker)
    (placed : dylinker.start ≠ 0#64)
    (describes : map.Describes dylinker.start infos images) :
    (living map).PassesToLog (.start size info) outcome ↔
      outcome =
        if ∀ image ∈ images, map.NameFits image then
          some ((ascii "DyldAllImageInfos32 version: %d, count: %d",
            [.value infos.version, .value infos.infoArrayCount]) ::
              images.map fun image => RegionMap.imageLine image.path image.info)
        else none := by
  have logged : map.logDylinkerState dylinker.start = _ :=
    RegionMap.logDylinkerState_eq describes placed
  have left : ∀ address, Leaves ((living map).findAddressBody MH_DYLINKER none) (.start size info)
      (some address) ↔ some address = some dylinker.start := by
    intro address
    exact leaves_iff_of_candidate map.cutAt_zero found
  simp only [PassesToLog, left, Option.some.injEq, exists_eq_left]
  exact Eq.congr_right logged

/-! ## A dynamic linker and a library -/

/-- The header of the image of a dynamic linker. -/
def dylinkerHeader : List Byte := wordBytes [MH_MAGIC, 7, 3, MH_DYLINKER, 0, 0, 0]

/-- The image infos of a dynamic linker that has loaded something, as at a table of one record. -/
def oneImageInfos : MDBDyldAllImageInfos32 := ⟨1#32, 1#32, 0x204c#32, 0x1800#32⟩

/-- A library whose path is a single character. -/
def loadedLibrary : LoadedImage where
  info := ⟨0x8000#32, 0x2058#32, 0#32⟩
  path := [0x61#8]
  nonzero := by decide

/-- The offset and the tables that it leads to, with the path behind them. -/
def dylinkerTables : List Byte :=
  wordBytes [0x1014#32] ++ oneImageInfos.bytes ++ List.replicate 40 0#8 ++
    loadedLibrary.info.bytes ++ [0x61#8] ++ List.replicate 63 0#8

def taskWithDylinker : RegionMap where
  regions := [⟨0x1000#64, dylinkerHeader, ⟨VM_PROT_READ, 1#32⟩⟩,
    ⟨0x2010#64, dylinkerTables, ⟨VM_PROT_READ, 1#32⟩⟩]
  nonempty := by decide +kernel
  sorted := by decide +kernel
  inside := by decide +kernel

/-- What is in the second region can be read. -/
theorem stores_dylinkerTables {bytes : List Byte} (i : Nat)
    (stored : bytes <+: dylinkerTables.drop i) :
    taskWithDylinker.Stores (0x2010#64 + BitVec.ofNat 64 i) bytes := by
  intro j inside
  have present : (⟨0x2010#64, dylinkerTables, ⟨VM_PROT_READ, 1#32⟩⟩ : VmRegion) ∈
      taskWithDylinker.regions := by
    simp only [taskWithDylinker, List.mem_cons, true_or, or_true]
  rcases List.getElem?_eq_some_iff.mp
    (StoredAt.getElem? stored (List.getElem?_eq_getElem inside)) with ⟨bound, here⟩
  have byte := RegionMap.byteAt_region present (by decide) bound
  have address : 0x2010#64 + BitVec.ofNat 64 i + BitVec.ofNat 64 j =
      0x2010#64 + BitVec.ofNat 64 (i + j) := by
    rw [BitVec.add_assoc, ← BitVec.ofNat_add]
  rw [address, byte, here]

theorem describes_taskWithDylinker :
    taskWithDylinker.Describes 0x1000#64 oneImageInfos [loadedLibrary] where
  tables := by
    refine ⟨0x1014#32, List.replicate 40 0#8, ?_, ?_, by decide⟩
    · exact stores_dylinkerTables 0 (by decide +kernel)
    · exact stores_dylinkerTables 4 (by decide +kernel)
  counted := rfl
  images := by
    intro i image present
    have bound : i < 1 := (List.getElem?_eq_some_iff.mp present).1
    obtain rfl : i = 0 := by omega
    cases present
    constructor
    · exact stores_dylinkerTables 60 (by decide +kernel)
    · exact stores_dylinkerTables 72 (by decide +kernel)

theorem passesToLog_taskWithDylinker :
    (living taskWithDylinker).PassesToLog (.start 0#64 ⟨0#32, 0#32⟩)
      (some [(ascii "DyldAllImageInfos32 version: %d, count: %d", [.value 1#32, .value 1#32]),
        (ascii "DyldImageInfo32 name: %s, address: 0x%llX ",
          [.string [0x61#8], .value 0x8000#32])]) := by
  have fits : ∀ image ∈ [loadedLibrary], taskWithDylinker.NameFits image := by decide +kernel
  apply (passesToLog_iff 0#64 ⟨0#32, 0#32⟩ _ rfl (by decide)
    describes_taskWithDylinker).mpr
  rw [if_pos fits]
  rfl

end WalkedTask

end RustDbg
