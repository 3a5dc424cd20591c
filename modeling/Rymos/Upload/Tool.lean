import Mathlib.Tactic
import Rymos.Pfs.Disk

/-!
# The uploader of the host

`pfs_put.py` stores a file of the host in an image of the RYMFS5 disk. The image is the list of its
bytes; a text is the list of its characters.

* The layout constants, which the script has of its own.
* `findEntry`, `freeEntry`, `setEntry`, `entryExtents`: the directory entries.
* `findFreeRun`, `allocExtents`: the sectors of a file. **`freeRunLoop_succ`**: the search ends.
* `validPath`, `parentDirs`: the paths.
* `createEntry`, `main`: an upload. An error is the text of the exception that ends the script.
-/

namespace Rymos.PfsPut

open ByteBuf Extents

/-! ## Layout -/

abbrev sectorSize : ℕ := 512
/-- `b"RYMFS5\0\0"`. -/
def magic : List UInt8 := [82, 89, 77, 70, 83, 53, 0, 0]
abbrev entryCount : ℕ := 256
abbrev entryBase : ℕ := 16
abbrev maxExtents : ℕ := 4
abbrev extentEntrySize : ℕ := 8
abbrev extentCountOffset : ℕ := 6
abbrev extentsOffset : ℕ := 7
abbrev extentsBytes : ℕ := maxExtents * extentEntrySize
abbrev createdOffset : ℕ := extentsOffset + extentsBytes
abbrev modifiedOffset : ℕ := createdOffset + 8
abbrev modeOffset : ℕ := modifiedOffset + 8
abbrev nameOffset : ℕ := modeOffset + 1
abbrev nameMax : ℕ := 96
abbrev entrySize : ℕ := nameOffset + nameMax
abbrev headerSectors : ℕ := (16 + entryCount * entrySize + sectorSize - 1) / sectorSize
abbrev headerBytes : ℕ := headerSectors * sectorSize
abbrev sectorsPerFile : ℕ := 524288
abbrev fileMax : ℕ := sectorsPerFile * sectorSize
abbrev dataStart : ℕ := headerSectors
abbrev diskSectors : ℕ := 8388608
abbrev kindFile : UInt8 := 1
abbrev kindDir : UInt8 := 2
abbrev modeRead : UInt8 := 1
abbrev modeWrite : UInt8 := 2
abbrev modeExec : UInt8 := 4
abbrev modeDefaultFile : UInt8 := modeRead ||| modeWrite
abbrev modeDefaultDir : UInt8 := modeRead ||| modeWrite ||| modeExec

def entryOffset (index : ℕ) : ℕ := entryBase + index * entrySize

def sectorsForLen (length : ℕ) : ℕ :=
  if length = 0 then 0 else (length + sectorSize - 1) / sectorSize

/-- `name.encode("ascii")`, of an ASCII text. -/
def encode (name : List Char) : List UInt8 := name.map fun char => UInt8.ofNat char.toNat

/-! ## Stores in the header -/

/-- `header[offset] = value`. -/
def setItem (header : Header) (offset value : ℕ) : Except String Header :=
  if value < 256 then .ok (header.put offset [UInt8.ofNat value])
  else .error "byte must be in range(0, 256)"

/-- `value.to_bytes(length, "little")`. -/
def toBytes (value length : ℕ) : Except String (List UInt8) :=
  if value < 256 ^ length then .ok (leBytes length value) else .error "int too big to convert"

/-- The loop of `set_entry` over the extents, from the slot at `extentOffset` on. -/
def putExtents (header : Header) (extentOffset : ℕ) : List PfsExtent → Except String Header
  | [] => .ok header
  | extent :: extents => do
    let start ← toBytes extent.start 4
    let sectors ← toBytes extent.sectors 4
    putExtents ((header.put extentOffset start).put (extentOffset + 4) sectors)
      (extentOffset + extentEntrySize) extents

def setEntry (header : Header) (index : ℕ) (name : List Char) (size : ℕ) (kind : UInt8)
    (extents : List PfsExtent) : Except String Header :=
  let encoded := encode name
  if encoded.length > nameMax then .error ("name too long: " ++ String.ofList name)
  else if extents.length > maxExtents then
    .error ("too many extents for " ++ String.ofList name ++ ": " ++ toString extents.length ++
      " > " ++ toString maxExtents)
  else do
    let offset := entryOffset index
    let mode := if kind == kindDir then modeDefaultDir else modeDefaultFile
    let header := header.fill offset entrySize
    let header := header.put offset [kind]
    let header ← setItem header (offset + 1) encoded.length
    let bytes ← toBytes size 4
    let header := header.put (offset + 2) bytes
    let header ← setItem header (offset + extentCountOffset) extents.length
    let header ← putExtents header (offset + extentsOffset) extents
    let header := header.put (offset + createdOffset) (leBytes 8 0)
    let header := header.put (offset + modifiedOffset) (leBytes 8 0)
    let header := header.put (offset + modeOffset) [mode]
    .ok (header.put (offset + nameOffset) encoded)

def formatHeader : Except String Header := do
  let header := (Buf.zero pfsHeaderBytes).put 0 magic
  let header ← setItem header 8 5
  setItem header 9 entryCount

/-! ## Reading entries -/

def findEntry (header : Header) (name : List Char) : Option ℕ :=
  let encoded := encode name
  (List.range entryCount).find? fun index =>
    let offset := entryOffset index
    let length := (header.byte (offset + 1)).toNat
    header.byte offset != 0 && header.slice (offset + nameOffset) length == encoded

def freeEntry (header : Header) : Option ℕ :=
  (List.range entryCount).find? fun index => header.byte (entryOffset index) == 0

def entryKind (header : Header) : Option ℕ → UInt8
  | none => 0
  | some index => header.byte (entryOffset index)

def entryExtents (header : Header) (index : ℕ) : List PfsExtent :=
  let offset := entryOffset index
  let count := min (header.byte (offset + extentCountOffset)).toNat maxExtents
  ((List.range count).map fun slot =>
    let extentOffset := offset + extentsOffset + slot * extentEntrySize
    { start := leValue (header.slice extentOffset 4)
      sectors := leValue (header.slice (extentOffset + 4) 4) : PfsExtent }).filter
    fun extent => extent.sectors != 0

/-! ## Allocation -/

/-- The extents the two loops of `find_free_run` visit. -/
def usedExtents (header : Header) (skipIndex : Option ℕ) : List PfsExtent :=
  (List.range entryCount).flatMap fun index =>
    if some index == skipIndex || header.byte (entryOffset index) != kindFile then []
    else entryExtents header index

/-- The two loops, for one candidate. -/
def scanUsed (candidate : ℕ) (nextObstacle : Option ℕ) : List PfsExtent → Scan
  | [] => .clear nextObstacle
  | used :: rest =>
    let usedEnd := used.start + used.sectors
    if used.start ≤ candidate && candidate < usedEnd then .blocked usedEnd
    else if used.start > candidate && nextObstacle.all (used.start < ·) then
      scanUsed candidate (some used.start) rest
    else scanUsed candidate nextObstacle rest

/-- The outer loop of `find_free_run`. A blocked turn raises the candidate, so that as many turns as
the disk has sectors are enough. -/
def freeRunLoop (extents : List PfsExtent) (maxLen : ℕ) : ℕ → ℕ → Option (ℕ × ℕ)
  | 0, _ => none
  | turns + 1, candidate =>
    if candidate ≥ diskSectors then none
    else
      match scanUsed candidate none extents with
      | .blocked candidate => freeRunLoop extents maxLen turns candidate
      | .clear nextObstacle =>
        let endBound := min (nextObstacle.getD diskSectors) diskSectors
        if endBound ≤ candidate then none
        else
          let take := min (endBound - candidate) maxLen
          if take = 0 then none else some (candidate, take)

def findFreeRun (header : Header) (startFrom maxLen : ℕ) (skipIndex : Option ℕ) : Option (ℕ × ℕ) :=
  freeRunLoop (usedExtents header skipIndex) maxLen diskSectors startFrom

/-- The loop of `alloc_extents`; each turn adds an extent, and there is no turn with four. -/
def allocLoop (header : Header) (skipIndex : Option ℕ) :
    ℕ → List PfsExtent → ℕ → ℕ → Except String (List PfsExtent)
  | 0, _, _, _ => .error "RYMFS disk too fragmented to fit this file in 4 extents"
  | turns + 1, extents, remaining, candidate =>
    if remaining = 0 then .ok extents
    else if extents.length ≥ maxExtents then
      .error "RYMFS disk too fragmented to fit this file in 4 extents"
    else
      match findFreeRun header candidate remaining skipIndex with
      | none => .error "RYMFS disk has no room for this file"
      | some (runStart, runLen) =>
        allocLoop header skipIndex turns (extents ++ [{ start := runStart, sectors := runLen }])
          (remaining - runLen) (runStart + runLen)

def allocExtents (header : Header) (sectorsNeeded : ℕ) (skipIndex : Option ℕ) :
    Except String (List PfsExtent) :=
  allocLoop header skipIndex (maxExtents + 1) [] sectorsNeeded dataStart

/-! ## The image -/

/-- The size of the disk in bytes. -/
def minimum : ℕ := diskSectors * sectorSize

/-- `image.seek(pos)` and `image.write(bytes)`; a gap behind the end is filled with zeros. -/
def writeAt (image : List UInt8) (pos : ℕ) (bytes : List UInt8) : List UInt8 :=
  if bytes.isEmpty then image
  else image.take pos ++ List.replicate (pos - image.length) 0 ++ bytes ++
    image.drop (pos + bytes.length)

/-- The image `ensure_disk` leaves, from the one at the path if there is one. -/
def ensureDisk : Option (List UInt8) → List UInt8
  | none => List.replicate minimum 0
  | some image =>
    if image.length < minimum then image ++ List.replicate (minimum - image.length) 0 else image

def readHeader (image : List UInt8) : Except String Header :=
  let header := image.take headerBytes
  if header.length != headerBytes || header.take 8 != magic then
    .error "RYMFS5 not found; run with --format or format inside RYMOS"
  else .ok ⟨fun k => header.getD k 0⟩

/-- The loop of `write_file_data`, from `written` on. -/
def writeFileData (data : List UInt8) : List UInt8 → ℕ → List PfsExtent → List UInt8
  | image, _, [] => image
  | image, written, extent :: extents =>
    if written ≥ data.length then image
    else
      let chunk := (data.drop written).take (extent.sectors * sectorSize)
      writeFileData data (writeAt image (extent.start * sectorSize) chunk)
        (written + chunk.length) extents

/-! ## Paths -/

/-- The characters of a path. -/
def allowed : List Char :=
  ['a', 'b', 'c', 'd', 'e', 'f', 'g', 'h', 'i', 'j', 'k', 'l', 'm', 'n', 'o', 'p', 'q', 'r', 's',
    't', 'u', 'v', 'w', 'x', 'y', 'z', 'A', 'B', 'C', 'D', 'E', 'F', 'G', 'H', 'I', 'J', 'K', 'L',
    'M', 'N', 'O', 'P', 'Q', 'R', 'S', 'T', 'U', 'V', 'W', 'X', 'Y', 'Z', '0', '1', '2', '3', '4',
    '5', '6', '7', '8', '9', '.', '_', '-', '/']

def validPath (path : List Char) : Bool :=
  -- `path.encode("ascii", "ignore")` drops the characters that are not ASCII
  if path.isEmpty || (path.filter (·.toNat < 128)).length != path.length ||
      path.length > nameMax then false
  else if path.head? == some '/' || path.getLast? == some '/' || decide (['/', '/'] <:+: path) then
    false
  else path.all fun char => allowed.contains char

def parentDirs (path : List Char) : List (List Char) :=
  let parts := (path.splitOn '/').dropLast
  (List.range parts.length).map fun index => ['/'].intercalate (parts.take (index + 1))

/-! ## Uploading -/

/-- The entry `create_entry` writes. -/
def chooseEntry (header : Header) (name : List Char) (kind : UInt8) : Except String ℕ :=
  match findEntry header name with
  | some index =>
    if kind == kindFile && entryKind header (some index) == kindDir then
      .error ("destination is a directory: " ++ String.ofList name)
    else .ok index
  | none =>
    match freeEntry header with
    | none => .error "RYMFS directory is full"
    | some index => .ok index

/-- The extents of a file of `length` bytes. -/
def chooseExtents (header : Header) (length index : ℕ) : Except String (List PfsExtent) :=
  let sectors := sectorsForLen length
  if sectors = 0 then .ok [] else allocExtents header sectors (some index)

/-- The image and the header after `create_entry`. -/
def createEntry (image : List UInt8) (header : Header) (name : List Char) (data : List UInt8)
    (kind : UInt8) : Except String (List UInt8 × Header) := do
  let index ← chooseEntry header name kind
  if kind == kindFile then
    let extents ← chooseExtents header data.length index
    let header ← setEntry header index name data.length kind extents
    .ok (writeFileData data image 0 extents, header)
  else
    let header ← setEntry header index name data.length kind []
    .ok (image, header)

/-- The loop of `main` over the parents. -/
def createParents : List (List Char) → List UInt8 → Header → Except String (List UInt8 × Header)
  | [], image, header => .ok (image, header)
  | parent :: parents, image, header =>
    match findEntry header parent with
    | none => do
      let (image, header) ← createEntry image header parent [] kindDir
      createParents parents image header
    | some found =>
      if entryKind header (some found) != kindDir then
        .error ("parent is not a directory: " ++ String.ofList parent)
      else createParents parents image header

/-- The header `main` starts from, and the image with it. -/
def startHeader (image : List UInt8) (format : Bool) : Except String (List UInt8 × Header) :=
  if format then do
    let header ← formatHeader
    .ok (writeAt image 0 (header.slice 0 headerBytes), header)
  else do
    let header ← readHeader image
    .ok (image, header)

/-- The image after an upload of `data` to `dest`; `image?` is what is at the path of the image. -/
def main (image? : Option (List UInt8)) (data : List UInt8) (dest : List Char) (format : Bool) :
    Except String (List UInt8) :=
  if data.length > fileMax then
    .error ("source is too large: " ++ toString data.length ++ " > " ++ toString fileMax)
  else if !validPath dest then .error ("invalid RYMFS destination: " ++ String.ofList dest)
  else do
    let (image, header) ← startHeader (ensureDisk image?) format
    let (image, header) ← createParents (parentDirs dest) image header
    let (image, header) ← createEntry image header dest data kindFile
    .ok (writeAt image 0 (header.slice 0 headerBytes))

/-! ## The search ends -/

theorem lt_of_scanUsed {extents : List PfsExtent} {candidate c : ℕ} {next : Option ℕ}
    (h : scanUsed candidate next extents = .blocked c) : candidate < c := by
  induction extents generalizing next with
  | nil => cases h
  | cons used rest ih =>
    rw [scanUsed] at h
    split_ifs at h with hb hn
    · cases h
      simp only [Bool.and_eq_true, decide_eq_true_eq] at hb
      exact hb.2
    · exact ih h
    · exact ih h

/-- **One more turn changes nothing** once the turns reach the end of the disk. -/
theorem freeRunLoop_succ {extents : List PfsExtent} {maxLen turns candidate : ℕ}
    (h : diskSectors ≤ candidate + turns) :
    freeRunLoop extents maxLen (turns + 1) candidate = freeRunLoop extents maxLen turns candidate := by
  induction turns generalizing candidate with
  | zero =>
    have hc : candidate ≥ diskSectors := by omega
    simp only [freeRunLoop, if_pos hc]
  | succ turns ih =>
    rw [freeRunLoop.eq_def extents maxLen (turns + 1 + 1), freeRunLoop.eq_def extents maxLen (turns + 1)]
    dsimp only
    split_ifs with hc
    · rfl
    · cases hs : scanUsed candidate none extents with
      | blocked c =>
        have := lt_of_scanUsed hs
        exact ih (by omega)
      | clear next => rfl

end Rymos.PfsPut
