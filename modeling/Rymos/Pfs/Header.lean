import Mathlib.Tactic
import Rymos.Base.Bytes
import Rymos.Base.Extents

/-!
# The RYMFS5 header

The header is 77 sectors of bytes: a magic string and 256 directory entries of 152 bytes each.

* `Header`, `pfsEntryOffset` and the accessors `pfsEntryKind`, `pfsEntryName`, `pfsEntrySize`,
  `pfsEntryExtent`, `pfsEntryCreated`, … read the fields of an entry where the kernel does.
* `pfsSetEntry`, `pfsClearEntry`, `pfsTouchModified`: the writes.
* `PfsEntry`, `pfsEntry`: an entry with all its fields, as the accessors read them.
* **`pfsEntry_pfsSetEntry`**: an entry reads back as it was written.
* `OnlyEntry`, `onlyEntry_pfsSetEntry`, `onlyEntry_pfsClearEntry`, `onlyEntry_pfsStoreSize`: a write
  of an entry keeps every byte outside it. `SameBytes`: what the accessors then read of the others.
-/

namespace Rymos

open ByteBuf Extents

/-! ## Layout -/

abbrev pfsKindFile : UInt8 := 1
abbrev pfsKindDir : UInt8 := 2
abbrev pfsMaxExtents : ℕ := 4
abbrev pfsExtentEntrySize : ℕ := 8
abbrev pfsExtentCountOffset : ℕ := 6
abbrev pfsExtentsOffset : ℕ := 7
abbrev pfsCreatedOffset : ℕ := pfsExtentsOffset + pfsMaxExtents * pfsExtentEntrySize
abbrev pfsModifiedOffset : ℕ := pfsCreatedOffset + 8
abbrev pfsModeOffset : ℕ := pfsModifiedOffset + 8
abbrev pfsNameOffset : ℕ := pfsModeOffset + 1
abbrev pfsNameMax : ℕ := 96
abbrev pfsEntrySizeBytes : ℕ := pfsNameOffset + pfsNameMax
abbrev pfsEntryCount : ℕ := 256
abbrev pfsHeaderSectors : ℕ := (16 + pfsEntryCount * pfsEntrySizeBytes + 511) / 512
abbrev pfsHeaderBytes : ℕ := pfsHeaderSectors * 512
abbrev pfsModeDefaultFile : UInt8 := 3
abbrev pfsModeDefaultDir : UInt8 := 7
abbrev pfsSectorsPerFile : ℕ := 524288
abbrev pfsFileMax : ℕ := pfsSectorsPerFile * 512
abbrev pfsDataStart : ℕ := pfsHeaderSectors
abbrev pfsDiskSectors : ℕ := 8388608

/-- The header bytes, as `read_header_silent` returns them. -/
abbrev Header : Type := Buf pfsHeaderBytes

/-- A run of disk sectors of a file. -/
abbrev PfsExtent : Type := Run

/-- Addition on `u32` in the release profile. -/
def u32 (x : ℕ) : ℕ := x % 2 ^ 32

/-- Addition on `usize` in the release profile. -/
def usize (x : ℕ) : ℕ := x % 2 ^ 64

theorem u32_of_lt {x : ℕ} (h : x < 2 ^ 32) : u32 x = x := Nat.mod_eq_of_lt h

theorem usize_of_lt {x : ℕ} (h : x < 2 ^ 64) : usize x = x := Nat.mod_eq_of_lt h

def readLe32FromSlice (bytes : List UInt8) : ℕ := leValue (bytes.take 4)

def readLe64FromSlice (bytes : List UInt8) : ℕ := leValue (bytes.take 8)

/-! ## Accessors -/

def pfsEntryOffset (index : ℕ) : ℕ := 16 + index * pfsEntrySizeBytes

def pfsEntryUsed (header : Header) (index : ℕ) : Bool := header.byte (pfsEntryOffset index) != 0

def pfsEntryIsDir (header : Header) (index : ℕ) : Bool :=
  header.byte (pfsEntryOffset index) == pfsKindDir

def pfsEntryKind (header : Header) (index : ℕ) : UInt8 := header.byte (pfsEntryOffset index)

def pfsEntryName (header : Header) (index : ℕ) : List UInt8 :=
  header.slice (pfsEntryOffset index + pfsNameOffset)
    (header.byte (pfsEntryOffset index + 1)).toNat

def pfsEntrySize (header : Header) (index : ℕ) : ℕ :=
  readLe32FromSlice (header.slice (pfsEntryOffset index + 2) 4)

def pfsEntryExtentCount (header : Header) (index : ℕ) : ℕ :=
  min (header.byte (pfsEntryOffset index + pfsExtentCountOffset)).toNat pfsMaxExtents

def pfsEntryExtent (header : Header) (index slot : ℕ) : PfsExtent :=
  let offset := pfsEntryOffset index + pfsExtentsOffset + slot * pfsExtentEntrySize
  { start := readLe32FromSlice (header.slice offset 4)
    sectors := readLe32FromSlice (header.slice (offset + 4) 4) }

/-- The extents the loops `for slot in 0..pfs_entry_extent_count` visit, in order. -/
def pfsEntryExtents (header : Header) (index : ℕ) : List PfsExtent :=
  (List.range (pfsEntryExtentCount header index)).map (pfsEntryExtent header index)

def pfsEntryTotalSectors (header : Header) (index : ℕ) : ℕ :=
  (pfsEntryExtents header index).foldl (fun total extent => u32 (total + extent.sectors)) 0

/-- The walk of `pfs_entry_lba_for_sector` over the extents of an entry. -/
def lbaWalk : List PfsExtent → ℕ → Option ℕ
  | [], _ => none
  | extent :: extents, remaining =>
    if extent.sectors = 0 then lbaWalk extents remaining
    else if remaining < extent.sectors then some (u32 (extent.start + remaining))
    else lbaWalk extents (remaining - extent.sectors)

def pfsEntryLbaForSector (header : Header) (index logicalSector : ℕ) : Option ℕ :=
  lbaWalk (pfsEntryExtents header index) logicalSector

def pfsEntryCreated (header : Header) (index : ℕ) : ℕ :=
  readLe64FromSlice (header.slice (pfsEntryOffset index + pfsCreatedOffset) 8)

def pfsEntryModified (header : Header) (index : ℕ) : ℕ :=
  readLe64FromSlice (header.slice (pfsEntryOffset index + pfsModifiedOffset) 8)

def pfsEntryMode (header : Header) (index : ℕ) : UInt8 :=
  header.byte (pfsEntryOffset index + pfsModeOffset)

/-! ## Writes -/

/-- The loop of `pfs_set_entry` over the extents, from slot `offset` on. -/
def putExtents (header : Header) (offset : ℕ) : List PfsExtent → Header
  | [] => header
  | extent :: extents =>
    putExtents ((header.put offset (leBytes 4 extent.start)).put (offset + 4)
      (leBytes 4 extent.sectors)) (offset + pfsExtentEntrySize) extents

/-- `now` is the reading of `ns_since_boot` inside the call. -/
def pfsSetEntry (header : Header) (index : ℕ) (name : List UInt8) (size : ℕ) (kind : UInt8)
    (extents : List PfsExtent) (createdTicks : ℕ) (mode : UInt8) (now : ℕ) : Header :=
  let offset := pfsEntryOffset index
  let header := header.fill offset pfsEntrySizeBytes
  let header := header.put offset [kind]
  let header := header.put (offset + 1) [UInt8.ofNat name.length]
  let header := header.put (offset + 2) (leBytes 4 size)
  let extentCount := min extents.length pfsMaxExtents
  let header := header.put (offset + pfsExtentCountOffset) [UInt8.ofNat extentCount]
  let header := putExtents header (offset + pfsExtentsOffset) (extents.take pfsMaxExtents)
  let header := header.put (offset + pfsCreatedOffset) (leBytes 8 createdTicks)
  let header := header.put (offset + pfsModifiedOffset) (leBytes 8 now)
  let header := header.put (offset + pfsModeOffset) [mode]
  header.put (offset + pfsNameOffset) name

def pfsClearEntry (header : Header) (index : ℕ) : Header :=
  header.fill (pfsEntryOffset index) pfsEntrySizeBytes

def pfsTouchModified (header : Header) (index now : ℕ) : Header :=
  header.put (pfsEntryOffset index + pfsModifiedOffset) (leBytes 8 now)

/-- The size and time stores of `pfs_update_size`. -/
def pfsStoreSize (header : Header) (index size now : ℕ) : Header :=
  pfsTouchModified (header.put (pfsEntryOffset index + 2) (leBytes 4 size)) index now

/-! ## An entry as a whole -/

/-- The fields of a directory entry. -/
structure PfsEntry where
  kind : UInt8
  name : List UInt8
  size : ℕ
  extents : List PfsExtent
  created : ℕ
  modified : ℕ
  mode : UInt8
deriving DecidableEq

/-- Entry `index`, as the accessors read it. -/
def pfsEntry (header : Header) (index : ℕ) : PfsEntry where
  kind := pfsEntryKind header index
  name := pfsEntryName header index
  size := pfsEntrySize header index
  extents := pfsEntryExtents header index
  created := pfsEntryCreated header index
  modified := pfsEntryModified header index
  mode := pfsEntryMode header index

/-! ## Reading back what was written -/

theorem pfsHeaderBytes_eq : pfsHeaderBytes = 39424 := rfl
theorem pfsEntryCount_eq : pfsEntryCount = 256 := rfl
theorem pfsDataStart_eq : pfsDataStart = 77 := rfl
theorem pfsDiskSectors_eq : pfsDiskSectors = 8388608 := rfl
theorem pfsFileMax_eq : pfsFileMax = 268435456 := rfl

theorem pfsEntryOffset_eq (index : ℕ) : pfsEntryOffset index = 16 + index * 152 := rfl

theorem pfsEntryOffset_bound {index : ℕ} (h : index < pfsEntryCount) :
    16 ≤ pfsEntryOffset index ∧ pfsEntryOffset index + 152 ≤ 38928 := by
  rw [pfsEntryCount_eq] at h
  rw [pfsEntryOffset_eq]
  omega

/-- Different entries do not overlap. -/
theorem pfsEntryOffset_disj {i j : ℕ} (h : i ≠ j) :
    pfsEntryOffset i + 152 ≤ pfsEntryOffset j ∨ pfsEntryOffset j + 152 ≤ pfsEntryOffset i := by
  simp only [pfsEntryOffset_eq]
  omega

theorem byte_putExtents_of_not (header : Header) (extents : List PfsExtent) {offset k : ℕ}
    (h : k < offset ∨ offset + 8 * extents.length ≤ k) :
    (putExtents header offset extents).byte k = header.byte k := by
  induction extents generalizing header offset with
  | nil => rfl
  | cons e es ih =>
    simp only [List.length_cons] at h
    simp only [putExtents, pfsExtentEntrySize]
    rw [ih _ (by omega), Buf.byte_put_of_not _ (by simp only [length_leBytes]; omega),
      Buf.byte_put_of_not _ (by simp only [length_leBytes]; omega)]

theorem slice_putExtents_of_not (header : Header) (extents : List PfsExtent) {offset off len : ℕ}
    (h : off + len ≤ offset ∨ offset + 8 * extents.length ≤ off) :
    (putExtents header offset extents).slice off len = header.slice off len :=
  Buf.slice_congr fun _ _ => byte_putExtents_of_not header extents (by omega)

/-- A number reads back as it was written, in the bytes it was written to. -/
theorem slice_put_leBytes (header : Header) {offset : ℕ} (k x : ℕ) (h : offset + k ≤ 39424) :
    (header.put offset (leBytes k x)).slice offset k = leBytes k x := by
  have := Buf.slice_put_same header offset (leBytes k x)
    (by rw [length_leBytes, pfsHeaderBytes_eq]; exact h)
  rwa [length_leBytes] at this

theorem readLe32_leBytes (x : ℕ) : readLe32FromSlice (leBytes 4 x) = x % 2 ^ 32 := by
  rw [readLe32FromSlice, List.take_of_length_le (by simp), leValue_leBytes]
  norm_num

theorem readLe64_leBytes (x : ℕ) : readLe64FromSlice (leBytes 8 x) = x % 2 ^ 64 := by
  rw [readLe64FromSlice, List.take_of_length_le (by simp), leValue_leBytes]
  norm_num

theorem slice_putExtents (header : Header) (extents : List PfsExtent) (offset : ℕ) {slot : ℕ}
    (hb : offset + 8 * extents.length ≤ 39424) (hs : slot < extents.length) :
    (putExtents header offset extents).slice (offset + slot * 8) 4 =
        leBytes 4 (extents[slot]).start ∧
      (putExtents header offset extents).slice (offset + slot * 8 + 4) 4 =
        leBytes 4 (extents[slot]).sectors := by
  induction extents generalizing header offset slot with
  | nil => simp at hs
  | cons e es ih =>
    simp only [List.length_cons] at hb hs
    cases slot with
    | zero =>
      simp only [putExtents, Nat.zero_mul, Nat.add_zero, List.getElem_cons_zero, pfsExtentEntrySize]
      rw [slice_putExtents_of_not _ _ (by omega), slice_putExtents_of_not _ _ (by omega)]
      constructor
      · rw [Buf.slice_put_disj _ (by omega)]
        exact slice_put_leBytes header 4 e.start (by omega)
      · exact slice_put_leBytes _ 4 e.sectors (by omega)
    | succ slot =>
      have := ih ((header.put offset (leBytes 4 e.start)).put (offset + 4) (leBytes 4 e.sectors))
        (offset + 8) (by omega) (Nat.lt_of_succ_lt_succ hs)
      simp only [putExtents, List.getElem_cons_succ, pfsExtentEntrySize]
      rw [show offset + (slot + 1) * 8 = offset + 8 + slot * 8 by omega]
      exact this

/-- An extent whose two fields fit in `u32`. -/
def Fits (e : PfsExtent) : Prop := e.start < 2 ^ 32 ∧ e.sectors < 2 ^ 32

section SetEntry

variable (header : Header) {index : ℕ} (name : List UInt8) (size : ℕ) (kind : UInt8)
  (extents : List PfsExtent) (created : ℕ) (mode : UInt8) (now : ℕ)

theorem pfsSetEntry_eq : pfsSetEntry header index name size kind extents created mode now =
    ((((putExtents (((((header.fill (pfsEntryOffset index) 152).put (pfsEntryOffset index)
      [kind]).put (pfsEntryOffset index + 1) [UInt8.ofNat name.length]).put
      (pfsEntryOffset index + 2) (leBytes 4 size)).put (pfsEntryOffset index + 6)
      [UInt8.ofNat (min extents.length 4)]) (pfsEntryOffset index + 7) (extents.take 4)).put
      (pfsEntryOffset index + 39) (leBytes 8 created)).put (pfsEntryOffset index + 47)
      (leBytes 8 now)).put (pfsEntryOffset index + 55) [mode]).put (pfsEntryOffset index + 56)
      name := rfl

theorem byte_pfsSetEntry_of_not (hn : name.length ≤ 96) {k : ℕ}
    (h : k < pfsEntryOffset index ∨ pfsEntryOffset index + 152 ≤ k) :
    (pfsSetEntry header index name size kind extents created mode now).byte k = header.byte k := by
  have hl : (extents.take 4).length ≤ 4 := by simp
  have h4 := length_leBytes 4 size
  have h8 := length_leBytes 8 created
  have h8' := length_leBytes 8 now
  rw [pfsSetEntry_eq]
  rw [Buf.byte_put_of_not _ (by omega), Buf.byte_put_of_not _ (by simp; omega),
    Buf.byte_put_of_not _ (by omega), Buf.byte_put_of_not _ (by omega),
    byte_putExtents_of_not _ _ (by omega), Buf.byte_put_of_not _ (by simp; omega),
    Buf.byte_put_of_not _ (by omega), Buf.byte_put_of_not _ (by simp; omega),
    Buf.byte_put_of_not _ (by simp; omega), Buf.byte_fill_of_not _ (by omega)]

theorem pfsEntryKind_pfsSetEntry (hi : index < pfsEntryCount) :
    pfsEntryKind (pfsSetEntry header index name size kind extents created mode now) index =
      kind := by
  have hb := pfsEntryOffset_bound hi
  have hB := pfsHeaderBytes_eq
  rw [pfsEntryKind, pfsSetEntry_eq]
  rw [Buf.byte_put_of_not _ (by omega), Buf.byte_put_of_not _ (by omega),
    Buf.byte_put_of_not _ (by omega), Buf.byte_put_of_not _ (by omega),
    byte_putExtents_of_not _ _ (by omega), Buf.byte_put_of_not _ (by omega),
    Buf.byte_put_of_not _ (by omega), Buf.byte_put_of_not _ (by omega),
    Buf.byte_put_of_mem _ le_rfl (by simp) (by omega)]
  simp

theorem pfsEntryMode_pfsSetEntry (hi : index < pfsEntryCount) :
    pfsEntryMode (pfsSetEntry header index name size kind extents created mode now) index =
      mode := by
  have hb := pfsEntryOffset_bound hi
  have hB := pfsHeaderBytes_eq
  rw [pfsEntryMode, pfsSetEntry_eq, show pfsModeOffset = 55 from rfl]
  rw [Buf.byte_put_of_not _ (by omega), Buf.byte_put_of_mem _ le_rfl (by simp) (by omega)]
  simp

theorem byte_nameLen_pfsSetEntry (hi : index < pfsEntryCount) :
    (pfsSetEntry header index name size kind extents created mode now).byte
      (pfsEntryOffset index + 1) = UInt8.ofNat name.length := by
  have hb := pfsEntryOffset_bound hi
  have hB := pfsHeaderBytes_eq
  rw [pfsSetEntry_eq, Buf.byte_put_of_not _ (by omega), Buf.byte_put_of_not _ (by omega),
    Buf.byte_put_of_not _ (by omega), Buf.byte_put_of_not _ (by omega),
    byte_putExtents_of_not _ _ (by omega), Buf.byte_put_of_not _ (by omega),
    Buf.byte_put_of_not _ (by omega), Buf.byte_put_of_mem _ le_rfl (by simp) (by omega)]
  simp

theorem pfsEntryName_pfsSetEntry (hi : index < pfsEntryCount) (hn : name.length ≤ 96) :
    pfsEntryName (pfsSetEntry header index name size kind extents created mode now) index =
      name := by
  have hb := pfsEntryOffset_bound hi
  have hB := pfsHeaderBytes_eq
  have hlen : (UInt8.ofNat name.length).toNat = name.length := by simp; omega
  rw [pfsEntryName, byte_nameLen_pfsSetEntry _ _ _ _ _ _ _ _ hi, hlen, pfsSetEntry_eq]
  exact Buf.slice_put_same _ _ name (by omega)

theorem pfsEntrySize_pfsSetEntry (hi : index < pfsEntryCount) :
    pfsEntrySize (pfsSetEntry header index name size kind extents created mode now) index =
      size % 2 ^ 32 := by
  have hb := pfsEntryOffset_bound hi
  rw [pfsEntrySize, pfsSetEntry_eq]
  rw [Buf.slice_put_disj _ (by omega), Buf.slice_put_disj _ (by omega),
    Buf.slice_put_disj _ (by omega), Buf.slice_put_disj _ (by omega),
    slice_putExtents_of_not _ _ (by omega), Buf.slice_put_disj _ (by omega),
    slice_put_leBytes _ 4 _ (by omega), readLe32_leBytes]

theorem pfsEntryCreated_pfsSetEntry (hi : index < pfsEntryCount) :
    pfsEntryCreated (pfsSetEntry header index name size kind extents created mode now) index =
      created % 2 ^ 64 := by
  have hb := pfsEntryOffset_bound hi
  rw [pfsEntryCreated, pfsSetEntry_eq, show pfsCreatedOffset = 39 from rfl]
  rw [Buf.slice_put_disj _ (by omega), Buf.slice_put_disj _ (by omega),
    Buf.slice_put_disj _ (by omega), slice_put_leBytes _ 8 _ (by omega), readLe64_leBytes]

theorem pfsEntryModified_pfsSetEntry (hi : index < pfsEntryCount) :
    pfsEntryModified (pfsSetEntry header index name size kind extents created mode now) index =
      now % 2 ^ 64 := by
  have hb := pfsEntryOffset_bound hi
  rw [pfsEntryModified, pfsSetEntry_eq, show pfsModifiedOffset = 47 from rfl]
  rw [Buf.slice_put_disj _ (by omega), Buf.slice_put_disj _ (by omega),
    slice_put_leBytes _ 8 _ (by omega), readLe64_leBytes]

theorem byte_extentCount_pfsSetEntry (hi : index < pfsEntryCount) :
    (pfsSetEntry header index name size kind extents created mode now).byte
      (pfsEntryOffset index + 6) = UInt8.ofNat (min extents.length 4) := by
  have hb := pfsEntryOffset_bound hi
  have hB := pfsHeaderBytes_eq
  rw [pfsSetEntry_eq, Buf.byte_put_of_not _ (by omega), Buf.byte_put_of_not _ (by omega),
    Buf.byte_put_of_not _ (by omega), Buf.byte_put_of_not _ (by omega),
    byte_putExtents_of_not _ _ (by omega), Buf.byte_put_of_mem _ le_rfl (by simp) (by omega)]
  simp

theorem pfsEntryExtentCount_pfsSetEntry (hi : index < pfsEntryCount) :
    pfsEntryExtentCount (pfsSetEntry header index name size kind extents created mode now) index =
      min extents.length 4 := by
  rw [pfsEntryExtentCount, show pfsExtentCountOffset = 6 from rfl,
    byte_extentCount_pfsSetEntry header name size kind extents created mode now hi]
  simp only [pfsMaxExtents, UInt8.toNat_ofNat']
  omega

theorem pfsEntryExtent_pfsSetEntry (hi : index < pfsEntryCount) (hl : extents.length ≤ 4)
    {slot : ℕ} (hs : slot < extents.length) (hf : Fits extents[slot]) :
    pfsEntryExtent (pfsSetEntry header index name size kind extents created mode now) index slot =
      extents[slot] := by
  have hb := pfsEntryOffset_bound hi
  simp only [pfsEntryExtent, pfsExtentsOffset, pfsExtentEntrySize]
  rw [pfsSetEntry_eq, List.take_of_length_le hl]
  rw [Buf.slice_put_disj _ (by omega), Buf.slice_put_disj _ (by omega),
    Buf.slice_put_disj _ (by omega), Buf.slice_put_disj _ (by omega),
    Buf.slice_put_disj _ (by omega), Buf.slice_put_disj _ (by omega),
    Buf.slice_put_disj _ (by omega), Buf.slice_put_disj _ (by omega)]
  generalize Buf.put _ (pfsEntryOffset index + 6) _ = g
  obtain ⟨h₁, h₂⟩ := slice_putExtents g extents (pfsEntryOffset index + 7) (by omega) hs
  rw [h₁, h₂, readLe32_leBytes, readLe32_leBytes, Nat.mod_eq_of_lt hf.1, Nat.mod_eq_of_lt hf.2]

theorem pfsEntryExtents_pfsSetEntry (hi : index < pfsEntryCount) (hl : extents.length ≤ 4)
    (hf : ∀ e ∈ extents, Fits e) :
    pfsEntryExtents (pfsSetEntry header index name size kind extents created mode now) index =
      extents := by
  rw [pfsEntryExtents, pfsEntryExtentCount_pfsSetEntry _ _ _ _ _ _ _ _ hi, min_eq_left hl]
  refine List.ext_getElem (by simp) fun k h₁ h₂ => ?_
  simp only [List.getElem_map, List.getElem_range]
  exact pfsEntryExtent_pfsSetEntry _ _ _ _ _ _ _ _ hi hl h₂ (hf _ (List.getElem_mem h₂))

/-- **An entry reads back as it was written.** -/
theorem pfsEntry_pfsSetEntry (hi : index < pfsEntryCount) (hn : name.length ≤ 96)
    (hl : extents.length ≤ 4) (hf : ∀ e ∈ extents, Fits e) :
    pfsEntry (pfsSetEntry header index name size kind extents created mode now) index =
      { kind := kind, name := name, size := size % 2 ^ 32, extents := extents,
        created := created % 2 ^ 64, modified := now % 2 ^ 64, mode := mode } := by
  simp only [pfsEntry]
  rw [pfsEntryKind_pfsSetEntry _ _ _ _ _ _ _ _ hi, pfsEntryName_pfsSetEntry _ _ _ _ _ _ _ _ hi hn,
    pfsEntrySize_pfsSetEntry _ _ _ _ _ _ _ _ hi, pfsEntryExtents_pfsSetEntry _ _ _ _ _ _ _ _ hi hl hf,
    pfsEntryCreated_pfsSetEntry _ _ _ _ _ _ _ _ hi, pfsEntryModified_pfsSetEntry _ _ _ _ _ _ _ _ hi,
    pfsEntryMode_pfsSetEntry _ _ _ _ _ _ _ _ hi]

end SetEntry

theorem pfsEntrySize_lt (header : Header) (index : ℕ) : pfsEntrySize header index < 2 ^ 32 := by
  have := leValue_lt ((header.slice (pfsEntryOffset index + 2) 4).take 4)
  rw [List.length_take, Buf.length_slice] at this
  exact this

theorem pfsEntryCreated_lt (header : Header) (index : ℕ) :
    pfsEntryCreated header index < 2 ^ 64 := by
  have := leValue_lt ((header.slice (pfsEntryOffset index + pfsCreatedOffset) 8).take 8)
  rw [List.length_take, Buf.length_slice] at this
  exact this

/-! ## The bytes outside an entry -/

/-- Entry `j` has the same bytes in both headers. -/
def SameBytes (header header' : Header) (j : ℕ) : Prop :=
  ∀ k, pfsEntryOffset j ≤ k → k < pfsEntryOffset j + 152 → header'.byte k = header.byte k

/-- The headers agree outside entry `i`. -/
def OnlyEntry (header header' : Header) (i : ℕ) : Prop :=
  ∀ k, k < pfsEntryOffset i ∨ pfsEntryOffset i + 152 ≤ k → header'.byte k = header.byte k

section SameBytes

variable {header header' : Header} {i j : ℕ}

theorem OnlyEntry.other (h : OnlyEntry header header' i) (hj : j ≠ i) :
    SameBytes header header' j := by
  intro k h₁ h₂
  refine h k ?_
  rcases pfsEntryOffset_disj hj with hd | hd <;> omega

theorem OnlyEntry.trans {header'' : Header} (h : OnlyEntry header header' i)
    (h' : OnlyEntry header' header'' i) : OnlyEntry header header'' i :=
  fun k hk => (h' k hk).trans (h k hk)

/-- The header's own fields come before the entries. -/
theorem OnlyEntry.slice_magic (h : OnlyEntry header header' i) :
    header'.slice 0 8 = header.slice 0 8 := by
  refine Buf.slice_congr fun k hk => h _ (Or.inl ?_)
  rw [pfsEntryOffset_eq]
  omega

theorem SameBytes.slice (h : SameBytes header header' j) {off len : ℕ} (hl : off + len ≤ 152) :
    header'.slice (pfsEntryOffset j + off) len = header.slice (pfsEntryOffset j + off) len :=
  Buf.slice_congr fun k hk => h _ (by omega) (by omega)

theorem SameBytes.kind (h : SameBytes header header' j) :
    pfsEntryKind header' j = pfsEntryKind header j := h _ le_rfl (by omega)

theorem SameBytes.used (h : SameBytes header header' j) :
    pfsEntryUsed header' j = pfsEntryUsed header j := by
  rw [pfsEntryUsed, pfsEntryUsed, h _ le_rfl (by omega)]

theorem SameBytes.isDir (h : SameBytes header header' j) :
    pfsEntryIsDir header' j = pfsEntryIsDir header j := by
  rw [pfsEntryIsDir, pfsEntryIsDir, h _ le_rfl (by omega)]

theorem SameBytes.nameLen (h : SameBytes header header' j) :
    header'.byte (pfsEntryOffset j + 1) = header.byte (pfsEntryOffset j + 1) :=
  h _ (by omega) (by omega)

theorem SameBytes.name (h : SameBytes header header' j)
    (hn : (header.byte (pfsEntryOffset j + 1)).toNat ≤ 96) :
    pfsEntryName header' j = pfsEntryName header j := by
  rw [pfsEntryName, pfsEntryName, h.nameLen, show pfsNameOffset = 56 from rfl, h.slice (by omega)]

theorem SameBytes.size (h : SameBytes header header' j) :
    pfsEntrySize header' j = pfsEntrySize header j := by
  rw [pfsEntrySize, pfsEntrySize, h.slice (by omega)]

theorem SameBytes.extentCount (h : SameBytes header header' j) :
    pfsEntryExtentCount header' j = pfsEntryExtentCount header j := by
  rw [pfsEntryExtentCount, pfsEntryExtentCount, show pfsExtentCountOffset = 6 from rfl,
    h _ (by omega) (by omega)]

theorem SameBytes.extents (h : SameBytes header header' j) :
    pfsEntryExtents header' j = pfsEntryExtents header j := by
  rw [pfsEntryExtents, pfsEntryExtents, h.extentCount]
  refine List.map_congr_left fun slot hs => ?_
  have hlt : slot < 4 := lt_of_lt_of_le (List.mem_range.mp hs) (min_le_right _ _)
  simp only [pfsEntryExtent, pfsExtentsOffset, pfsExtentEntrySize, Nat.add_assoc]
  rw [h.slice (by omega), h.slice (by omega)]

theorem SameBytes.created (h : SameBytes header header' j) :
    pfsEntryCreated header' j = pfsEntryCreated header j := by
  rw [pfsEntryCreated, pfsEntryCreated, show pfsCreatedOffset = 39 from rfl, h.slice (by omega)]

theorem SameBytes.modified (h : SameBytes header header' j) :
    pfsEntryModified header' j = pfsEntryModified header j := by
  rw [pfsEntryModified, pfsEntryModified, show pfsModifiedOffset = 47 from rfl, h.slice (by omega)]

theorem SameBytes.mode (h : SameBytes header header' j) :
    pfsEntryMode header' j = pfsEntryMode header j := by
  rw [pfsEntryMode, pfsEntryMode, show pfsModeOffset = 55 from rfl, h _ (by omega) (by omega)]

/-- An entry whose name fits its field is read the same in both headers. -/
theorem SameBytes.entry (h : SameBytes header header' j)
    (hn : (header.byte (pfsEntryOffset j + 1)).toNat ≤ 96) :
    pfsEntry header' j = pfsEntry header j := by
  simp only [pfsEntry]
  rw [h.kind, h.name hn, h.size, h.extents, h.created, h.modified, h.mode]

end SameBytes

section Writes

variable (header : Header) {index : ℕ}

theorem onlyEntry_pfsSetEntry {name : List UInt8} {size : ℕ} {kind : UInt8}
    {extents : List PfsExtent} {created : ℕ} {mode : UInt8} {now : ℕ} (hn : name.length ≤ 96) :
    OnlyEntry header (pfsSetEntry header index name size kind extents created mode now) index :=
  fun _ hk => byte_pfsSetEntry_of_not header name size kind extents created mode now hn hk

theorem onlyEntry_pfsClearEntry : OnlyEntry header (pfsClearEntry header index) index :=
  fun _ hk => Buf.byte_fill_of_not _ hk

theorem onlyEntry_put (off : ℕ) {bs : List UInt8} (h : off + bs.length ≤ 152) :
    OnlyEntry header (header.put (pfsEntryOffset index + off) bs) index :=
  fun _ hk => Buf.byte_put_of_not _ (by omega)

theorem onlyEntry_pfsStoreSize (size now : ℕ) :
    OnlyEntry header (pfsStoreSize header index size now) index :=
  (onlyEntry_put header 2 (by simp)).trans (onlyEntry_put _ 47 (by simp))

theorem pfsEntryUsed_pfsClearEntry : pfsEntryUsed (pfsClearEntry header index) index = false := by
  rw [pfsEntryUsed, pfsClearEntry, Buf.byte_fill, if_pos ⟨le_rfl, by simp⟩]
  rfl

theorem byte_pfsStoreSize (size now : ℕ) {k : ℕ} (hk : k < 2 ∨ 6 ≤ k ∧ k < 47 ∨ 55 ≤ k) :
    (pfsStoreSize header index size now).byte (pfsEntryOffset index + k) =
      header.byte (pfsEntryOffset index + k) := by
  have h4 := length_leBytes 4 size
  have h8 := length_leBytes 8 now
  rw [pfsStoreSize, pfsTouchModified, show pfsModifiedOffset = 47 from rfl,
    Buf.byte_put_of_not _ (by omega), Buf.byte_put_of_not _ (by omega)]

/-- The store of a size changes the size and the modification time only. -/
theorem pfsEntry_pfsStoreSize (hi : index < pfsEntryCount) (size now : ℕ) :
    pfsEntry (pfsStoreSize header index size now) index =
      { pfsEntry header index with size := size % 2 ^ 32, modified := now % 2 ^ 64 } := by
  have hb := pfsEntryOffset_bound hi
  have h4 := length_leBytes 4 size
  have h8 := length_leBytes 8 now
  have hbyte : ∀ k, k < 2 ∨ 6 ≤ k ∧ k < 47 ∨ 55 ≤ k →
      (pfsStoreSize header index size now).byte (pfsEntryOffset index + k) =
        header.byte (pfsEntryOffset index + k) := fun k hk => byte_pfsStoreSize header size now hk
  have hslice : ∀ off len, 6 ≤ off ∧ off + len ≤ 47 ∨ 55 ≤ off →
      (pfsStoreSize header index size now).slice (pfsEntryOffset index + off) len =
        header.slice (pfsEntryOffset index + off) len := fun off len h =>
    Buf.slice_congr fun k hk => by rw [Nat.add_assoc]; exact hbyte _ (by omega)
  have hcount : pfsEntryExtentCount (pfsStoreSize header index size now) index =
      pfsEntryExtentCount header index := by
    rw [pfsEntryExtentCount, pfsEntryExtentCount, show pfsExtentCountOffset = 6 from rfl,
      hbyte _ (by omega)]
  simp only [pfsEntry, PfsEntry.mk.injEq]
  refine ⟨hbyte 0 (by omega), ?_, ?_, ?_, ?_, ?_, hbyte 55 (by omega)⟩
  · rw [pfsEntryName, pfsEntryName, hbyte 1 (by omega), show pfsNameOffset = 56 from rfl,
      hslice _ _ (by omega)]
  · rw [pfsEntrySize, pfsStoreSize, pfsTouchModified, show pfsModifiedOffset = 47 from rfl,
      Buf.slice_put_disj _ (by omega), slice_put_leBytes _ 4 _ (by omega), readLe32_leBytes]
  · rw [pfsEntryExtents, pfsEntryExtents, hcount]
    refine List.map_congr_left fun slot hs => ?_
    have hlt : slot < 4 := lt_of_lt_of_le (List.mem_range.mp hs) (min_le_right _ _)
    simp only [pfsEntryExtent, pfsExtentsOffset, pfsExtentEntrySize, Nat.add_assoc]
    rw [hslice _ _ (by omega), hslice _ _ (by omega)]
  · rw [pfsEntryCreated, pfsEntryCreated, show pfsCreatedOffset = 39 from rfl,
      hslice _ _ (by omega)]
  · rw [pfsEntryModified, pfsStoreSize, pfsTouchModified, show pfsModifiedOffset = 47 from rfl,
      slice_put_leBytes _ 8 _ (by omega), readLe64_leBytes]

end Writes

end Rymos
