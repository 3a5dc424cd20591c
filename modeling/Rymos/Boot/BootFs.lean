import Rymos.Base.Fields
import Rymos.Pfs.Fd

/-!
# The boot filesystem

The kernel reads files out of the archive the bootloader has put into memory. Pointers into the
archive are offsets from its first byte. A read outside it is a fault, an outer `none`.

* `BootFs.valid`, `entryCount`, `entrySize`, `entry`, `findData`, `findEntry`: the parser.
* `entry_of_fits`, **`entry_inside`**: what `entry` does while its offset does not wrap, and where
  what it returns lies.
* `findWith_eq`: a search goes through the entries of the table.
-/

namespace Rymos

open ByteBuf

/-- `b"RYFS1\0\0\0"`. -/
def bootMagic : List UInt8 := [82, 89, 70, 83, 49, 0, 0, 0]

/-- `name` and `data` are offsets from `base`. -/
structure BootFsEntry where
  kind : UInt8
  name : ℕ
  nameLen : ℕ
  data : ℕ
  dataLen : ℕ
  deriving DecidableEq

/-- The bytes the bootloader handed over; without archive there are none. -/
structure BootFs where
  image : List UInt8

namespace BootFs

def size (fs : BootFs) : ℕ := fs.image.length

def valid (fs : BootFs) : Bool := if fs.size < 12 then false else field fs.image 0 8 == bootMagic

def entryCount (fs : BootFs) : ℕ := if !fs.valid then 0 else numberAt fs.image 8 2

def entrySize (fs : BootFs) : ℕ := if !fs.valid then 0 else numberAt fs.image 10 2

/-- The offset `entry` computes, in the arithmetic of a release build. -/
def entryOffset (fs : BootFs) (index : ℕ) : ℕ := usize (12 + usize (index * fs.entrySize))

/-- `entry`, past the bounds check. -/
def decode (fs : BootFs) (offset : ℕ) : Option BootFsEntry :=
  let kind := fs.image.getD offset 0
  let nameLen := (fs.image.getD (offset + 1) 0).toNat
  let dataOffset := numberAt fs.image (offset + 2) 4
  let dataLen := numberAt fs.image (offset + 6) 4
  if nameLen > 32 || dataOffset + dataLen > fs.size then none
  else some ⟨kind, offset + 10, nameLen, dataOffset, dataLen⟩

def entry (fs : BootFs) (index : ℕ) : Option (Option BootFsEntry) :=
  if fs.entrySize < 42 then some none
  else
    let offset := fs.entryOffset index
    if usize (offset + 42) > fs.size then some none
    else if offset + 42 ≤ fs.size then some (fs.decode offset)
    else none

/-- `from_raw_parts(entry.name, entry.name_len)`. -/
def nameOf (fs : BootFs) (e : BootFsEntry) : List UInt8 := field fs.image e.name e.nameLen

/-- `from_raw_parts(entry.data, entry.data_len)`. -/
def dataOf (fs : BootFs) (e : BootFsEntry) : List UInt8 := field fs.image e.data e.dataLen

/-- The loop of `find_data` and `find_entry`, which return `result` of the entry found. -/
def findLoop {α : Type} (fs : BootFs) (result : BootFsEntry → α) (name : List UInt8) :
    List ℕ → Option (Option α)
  | [] => some none
  | index :: rest =>
    (fs.entry index).bind fun e =>
    match e with
    | some e => if fs.nameOf e == name then some (some (result e)) else findLoop fs result name rest
    | none => findLoop fs result name rest

def findWith {α : Type} (fs : BootFs) (result : BootFsEntry → α) (name : List UInt8) :
    Option (Option α) :=
  if !fs.valid then some none else findLoop fs result name (List.range fs.entryCount)

def findData (fs : BootFs) (name : List UInt8) : Option (Option (List UInt8)) :=
  fs.findWith fs.dataOf name

def findEntry (fs : BootFs) (name : List UInt8) : Option (Option BootFsEntry) := fs.findWith id name

/-! ## What the parser returns -/

variable {fs : BootFs} {index : ℕ} {e : BootFsEntry}

theorem entryCount_lt (fs : BootFs) : fs.entryCount < 65536 := by
  unfold entryCount
  split_ifs
  · omega
  · exact numberAt_lt fs.image 8 2

theorem entrySize_lt (fs : BootFs) : fs.entrySize < 65536 := by
  unfold entrySize
  split_ifs
  · omega
  · exact numberAt_lt fs.image 10 2

/-- The offset of an entry of the table does not wrap. -/
theorem entryOffset_eq (h : index < 65536) : fs.entryOffset index = 12 + index * fs.entrySize := by
  have hmul : index * fs.entrySize < 65536 * 65536 :=
    Nat.mul_lt_mul'' h fs.entrySize_lt
  have hin : usize (index * fs.entrySize) = index * fs.entrySize := usize_of_lt (by omega)
  rw [entryOffset, hin, usize_of_lt (by omega)]

theorem decode_eq_some {offset : ℕ} (h : fs.decode offset = some e) :
    e.kind = fs.image.getD offset 0 ∧ e.name = offset + 10 ∧
      e.nameLen = (fs.image.getD (offset + 1) 0).toNat ∧ e.nameLen ≤ 32 ∧
      e.data = numberAt fs.image (offset + 2) 4 ∧ e.dataLen = numberAt fs.image (offset + 6) 4 ∧
      e.data + e.dataLen ≤ fs.size := by
  simp only [decode] at h
  split_ifs at h with hc
  simp only [Bool.or_eq_true, decide_eq_true_eq, not_or, not_lt, gt_iff_lt] at hc
  cases h
  exact ⟨rfl, rfl, rfl, hc.1, rfl, rfl, hc.2⟩

/-- The slices of an entry lie inside the archive. -/
def Inside (fs : BootFs) (e : BootFsEntry) : Prop :=
  e.name + e.nameLen ≤ fs.size ∧ e.data + e.dataLen ≤ fs.size

/-- **What `entry` returns lies inside the archive.** -/
theorem entry_inside (h : fs.entry index = some (some e)) : fs.Inside e := by
  simp only [entry] at h
  split_ifs at h with _ _ hfit
  · cases h
  · cases h
  · obtain ⟨-, hn, -, hl, -, -, hd⟩ := decode_eq_some (Option.some.inj h)
    exact ⟨by omega, hd⟩

/-- While the offset does not wrap, `entry` does not fault. -/
theorem entry_of_fits (h : fs.entryOffset index + 42 < 2 ^ 64) : fs.entry index =
    some (if 42 ≤ fs.entrySize ∧ fs.entryOffset index + 42 ≤ fs.size then
      fs.decode (fs.entryOffset index) else none) := by
  simp only [entry]
  rw [usize_of_lt h]
  split_ifs with h₁ h₂ h₃ h₄ <;> first | rfl | omega

/-- The entries of the table are read without fault. -/
theorem entry_table (h : index < 65536) : ∃ o, fs.entry index = some o := by
  have hmul : index * fs.entrySize < 65536 * 65536 := Nat.mul_lt_mul'' h fs.entrySize_lt
  refine ⟨_, entry_of_fits ?_⟩
  rw [entryOffset_eq h]
  omega

/-- The entry with a number, if it is read and decodes. -/
def entryAt (fs : BootFs) (index : ℕ) : Option BootFsEntry := (fs.entry index).join

theorem findLoop_eq {α : Type} (result : BootFsEntry → α) (name : List UInt8) {l : List ℕ}
    (hl : ∀ index ∈ l, index < 65536) : fs.findLoop result name l =
      some (((l.filterMap fs.entryAt).find? fun e => fs.nameOf e == name).map result) := by
  induction l with
  | nil => rfl
  | cons index l ih =>
    have hrest := ih fun j hj => hl j (by simp [hj])
    obtain ⟨o, ho⟩ := fs.entry_table (hl index (by simp))
    have hj : fs.entryAt index = o := by rw [entryAt, ho]; rfl
    rw [findLoop, ho, Option.bind_some]
    cases o with
    | none => rw [List.filterMap_cons_none hj, hrest]
    | some e =>
      rw [List.filterMap_cons_some hj, hrest]
      dsimp only
      by_cases hn : (fs.nameOf e == name) = true
      · rw [if_pos hn, List.find?_cons_of_pos (by exact hn)]
        rfl
      · rw [if_neg hn, List.find?_cons_of_neg (by exact hn)]

/-- The entries of the table that decode, in order. -/
def table (fs : BootFs) : List BootFsEntry := (List.range fs.entryCount).filterMap fs.entryAt

/-- **A search finds the first entry of the table with the name.** -/
theorem findWith_eq {α : Type} (result : BootFsEntry → α) (name : List UInt8) :
    fs.findWith result name =
      some ((fs.table.find? fun e => fs.nameOf e == name).map result) := by
  unfold findWith
  split_ifs with hv
  · have : fs.entryCount = 0 := by rw [entryCount, if_pos hv]
    rw [table, this]
    rfl
  · exact findLoop_eq result name fun index hi => (List.mem_range.mp hi).trans fs.entryCount_lt

end BootFs

end Rymos
