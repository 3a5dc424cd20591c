import Mathlib.Tactic
import Rymos.Pfs.Reach

/-!
# Headers written half-way

* `MetaUpdate`: the changes of one entry that the calls write to the disk.
* `Left`: the disk left when the writing of a header stops. `CrashAtomic`: the entry that changes is
  then the old one or the new one.
* `sectorCut`: where a sector boundary cuts an entry. `CutSafe`: the entry is not cut, or of its bytes
  that are in use those on one side of the cut stay.
* `metadata_eq_iff`: the bytes in use determine the fields. **`crashAtomic_iff`**.
-/

namespace Rymos

open ByteBuf Extents Transition

variable {disk disk' : Disk} {header header' : Header} {i : ℕ}

/-! ## Stopping -/

/-- The header left when the writing of `header'` over `header` stops after `k` sectors. -/
def tornHeader (header header' : Header) (k : ℕ) : Header := header'.splice (k * 512) header

/-- The disk left when the power is lost after `k` sectors, or when the drive refuses one. -/
inductive Left (disk : Disk) (header : Header) : Disk → Prop
  | lost {k : ℕ} (hk : k ≤ pfsHeaderSectors) :
    Left disk header (writeHeaderLoop header (List.range k) disk).2
  | failed {ok : ℕ → Bool} {disk' : Disk}
    (h : writeHeader { disk with writeOk := ok } header = (false, disk')) : Left disk header disk'

/-- A drive that refuses a sector has taken those before it. -/
theorem writeHeaderLoop_false {l : List ℕ} (hl : ∀ x ∈ l, x < pfsDataStart)
    (h : writeHeaderLoop header l disk = (false, disk')) : ∃ xs x ys, l = xs ++ x :: ys ∧
      disk' = { disk with
        sectors := fun y => if y ∈ xs then headerSector header y else disk.sectors y } := by
  induction l generalizing disk with
  | nil => cases h
  | cons x l ih =>
    have hx := hl x (by simp)
    have h28 : lba28 x = x :=
      lba28_of_lt (by rw [pfsDataStart_eq] at hx; rw [pfsDiskSectors_eq]; omega)
    rw [writeHeaderLoop, ataWriteSector, h28] at h
    split_ifs at h with hok
    · obtain ⟨xs, y, ys, rfl, rfl⟩ := ih (fun y hy => hl y (List.mem_cons_of_mem _ hy)) h
      refine ⟨x :: xs, y, ys, rfl, ?_⟩
      dsimp only
      congr 1
      funext z
      by_cases hz : z = x
      · subst hz
        simp
      · simp [hz]
    · cases h
      exact ⟨[], x, l, rfl, by simp⟩

theorem diskHeader_sectors {k : ℕ} :
    diskHeader { disk with
      sectors := fun x => if x ∈ List.range k then headerSector header x else disk.sectors x } =
      tornHeader (diskHeader disk) header k := by
  refine Buf.ext_byte fun b hb => ?_
  rw [pfsHeaderBytes_eq] at hb
  rw [tornHeader, Buf.byte_splice, byte_diskHeader _ hb, byte_diskHeader _ hb]
  simp only [List.mem_range]
  by_cases hk : b < k * 512
  · rw [if_pos (by omega), if_pos hk, byte_headerSector _ _ (Nat.mod_lt _ (by omega)),
      show b / 512 * 512 + b % 512 = b by omega]
  · rw [if_neg (by omega), if_neg hk]

/-- **What is left is a header torn at a sector boundary**, and reads are answered as before. -/
theorem Left.torn (hw : HeaderWritable disk) (h : Left disk header disk') :
    ∃ k ≤ pfsHeaderSectors, diskHeader disk' = tornHeader (diskHeader disk) header k ∧
      disk'.readOk = disk.readOk := by
  have hr : pfsHeaderSectors = pfsDataStart := rfl
  cases h with
  | @lost k hk =>
    rw [writeHeaderLoop_spec hw (List.range k) fun x hx => by
      have := List.mem_range.mp hx
      omega]
    exact ⟨k, hk, diskHeader_sectors, rfl⟩
  | @failed ok _ h =>
    obtain ⟨xs, x, ys, hl, rfl⟩ := writeHeaderLoop_false
      (fun x hx => by have := List.mem_range.mp hx; omega) h
    have hxs : xs = List.range xs.length := by
      have := congrArg (List.take xs.length) hl
      rw [List.take_left, List.take_range] at this
      rw [← this]
      simp
    have hle : xs.length ≤ pfsHeaderSectors := by
      have := congrArg List.length hl
      simp only [List.length_range, List.length_append, List.length_cons] at this
      omega
    refine ⟨xs.length, hle, ?_, rfl⟩
    have := @diskHeader_sectors { disk with writeOk := ok } header xs.length
    rw [← hxs] at this
    exact this

/-- Every boundary is one at which the writing may stop. -/
theorem left_torn (hw : HeaderWritable disk) {k : ℕ} (hk : k ≤ pfsHeaderSectors) :
    ∃ disk', Left disk header disk' ∧ diskHeader disk' = tornHeader (diskHeader disk) header k := by
  refine ⟨_, .lost hk, ?_⟩
  rw [writeHeaderLoop_spec hw (List.range k) fun x hx => lt_of_lt_of_le (List.mem_range.mp hx) hk]
  exact diskHeader_sectors

/-! ## The bytes in use -/

/-- The fields of an entry, its modification time apart. -/
def metadata (header : Header) (i : ℕ) : PfsEntry := { pfsEntry header i with modified := 0 }

def pfsNameLen (header : Header) (i : ℕ) : ℕ := (header.byte (pfsEntryOffset i + 1)).toNat

/-- The bytes of entry `i`, counted from its first one, that its fields are read from. -/
def InUse (header : Header) (i k : ℕ) : Prop :=
  k < pfsExtentsOffset + 8 * pfsEntryExtentCount header i ∨
    (pfsCreatedOffset ≤ k ∧ k < pfsModifiedOffset) ∨ k = pfsModeOffset ∨
    (pfsNameOffset ≤ k ∧ k < pfsNameOffset + pfsNameLen header i)

instance (header : Header) (i k : ℕ) : Decidable (InUse header i k) := by
  unfold InUse
  infer_instance

/-- Byte `k` of entry `i` as the accessors read it: the number of extents is at most four. -/
def pfsCell (header : Header) (i k : ℕ) : ℕ :=
  if k = pfsExtentCountOffset then pfsEntryExtentCount header i
  else (header.byte (pfsEntryOffset i + k)).toNat

section Metadata

variable {a b : Header}

theorem pfsCell_eq_iff {k : ℕ} (hk : k ≠ 6) : pfsCell a i k = pfsCell b i k ↔
    a.byte (pfsEntryOffset i + k) = b.byte (pfsEntryOffset i + k) := by
  rw [pfsCell, pfsCell, if_neg hk, if_neg hk, UInt8.toNat_inj]

theorem pfsCell_count : pfsCell a i 6 = pfsEntryExtentCount a i := if_pos rfl

theorem readLe32_eq_iff {off : ℕ} : readLe32FromSlice (a.slice off 4) = readLe32FromSlice (b.slice off 4) ↔
    ∀ k < 4, a.byte (off + k) = b.byte (off + k) := by
  rw [← Buf.slice_eq_iff]
  refine ⟨fun h => ?_, fun h => by rw [h]⟩
  rw [readLe32FromSlice, readLe32FromSlice, List.take_of_length_le (by simp),
    List.take_of_length_le (by simp)] at h
  exact leValue_inj (by simp) h

theorem readLe64_eq_iff {off : ℕ} : readLe64FromSlice (a.slice off 8) = readLe64FromSlice (b.slice off 8) ↔
    ∀ k < 8, a.byte (off + k) = b.byte (off + k) := by
  rw [← Buf.slice_eq_iff]
  refine ⟨fun h => ?_, fun h => by rw [h]⟩
  rw [readLe64FromSlice, readLe64FromSlice, List.take_of_length_le (by simp),
    List.take_of_length_le (by simp)] at h
  exact leValue_inj (by simp) h

theorem pfsEntryExtent_eq_iff {slot : ℕ} : pfsEntryExtent a i slot = pfsEntryExtent b i slot ↔
    ∀ k < 8, a.byte (pfsEntryOffset i + (7 + slot * 8 + k)) =
      b.byte (pfsEntryOffset i + (7 + slot * 8 + k)) := by
  simp only [pfsEntryExtent, pfsExtentsOffset, pfsExtentEntrySize, Extents.Run.mk.injEq, readLe32_eq_iff]
  constructor
  · rintro ⟨h₁, h₂⟩ k hk
    by_cases hlt : k < 4
    · simpa only [Nat.add_assoc] using h₁ k hlt
    · have := h₂ (k - 4) (by omega)
      rwa [show pfsEntryOffset i + 7 + slot * 8 + 4 + (k - 4) = pfsEntryOffset i + (7 + slot * 8 + k)
        by omega] at this
  · intro h
    exact ⟨fun k hk => by simpa only [Nat.add_assoc] using h k (by omega),
      fun k hk => by simpa only [Nat.add_assoc] using h (4 + k) (by omega)⟩

theorem pfsEntryExtents_eq_iff : pfsEntryExtents a i = pfsEntryExtents b i ↔
    pfsEntryExtentCount a i = pfsEntryExtentCount b i ∧ ∀ k, 7 ≤ k →
      k < 7 + 8 * pfsEntryExtentCount b i →
        a.byte (pfsEntryOffset i + k) = b.byte (pfsEntryOffset i + k) := by
  rw [pfsEntryExtents, pfsEntryExtents]
  constructor
  · intro h
    have hcount : pfsEntryExtentCount a i = pfsEntryExtentCount b i := by
      simpa using congrArg List.length h
    refine ⟨hcount, fun k h7 hk => ?_⟩
    rw [hcount] at h
    have hslot := (List.map_inj_left.mp h) ((k - 7) / 8) (List.mem_range.mpr (by omega))
    have := pfsEntryExtent_eq_iff.mp hslot ((k - 7) % 8) (Nat.mod_lt _ (by omega))
    rwa [show 7 + (k - 7) / 8 * 8 + (k - 7) % 8 = k by omega] at this
  · rintro ⟨hcount, h⟩
    rw [hcount]
    refine List.map_congr_left fun slot hs => pfsEntryExtent_eq_iff.mpr fun k hk => ?_
    have := List.mem_range.mp hs
    exact h _ (by omega) (by omega)

theorem pfsEntryName_eq_iff : pfsEntryName a i = pfsEntryName b i ↔
    pfsNameLen a i = pfsNameLen b i ∧ ∀ k < pfsNameLen b i,
      a.byte (pfsEntryOffset i + (56 + k)) = b.byte (pfsEntryOffset i + (56 + k)) := by
  rw [pfsEntryName, pfsEntryName, show pfsNameOffset = 56 from rfl]
  constructor
  · intro h
    have hlen : pfsNameLen a i = pfsNameLen b i := by simpa [pfsNameLen] using congrArg List.length h
    rw [pfsNameLen, pfsNameLen] at hlen
    rw [hlen] at h
    exact ⟨hlen, fun k hk => by simpa only [Nat.add_assoc] using Buf.slice_eq_iff.mp h k hk⟩
  · rintro ⟨hlen, h⟩
    rw [pfsNameLen, pfsNameLen] at hlen
    rw [hlen]
    exact Buf.slice_eq_iff.mpr fun k hk => by simpa only [Nat.add_assoc] using h k hk

/-- **The bytes in use determine the fields.** -/
theorem metadata_eq_iff : metadata a i = metadata b i ↔
    ∀ k, InUse b i k → pfsCell a i k = pfsCell b i k := by
  simp only [metadata, pfsEntry, PfsEntry.mk.injEq]
  constructor
  · rintro ⟨hkind, hname, hsize, hext, hcreated, -, hmode⟩
    obtain ⟨hlen, hname⟩ := pfsEntryName_eq_iff.mp hname
    obtain ⟨hcount, hext⟩ := pfsEntryExtents_eq_iff.mp hext
    have hsize := readLe32_eq_iff.mp hsize
    have hcreated := readLe64_eq_iff.mp hcreated
    intro k hk
    by_cases h6 : k = 6
    · rw [h6, pfsCell_count, pfsCell_count, hcount]
    rw [pfsCell_eq_iff h6]
    simp only [InUse, show pfsExtentsOffset = 7 from rfl, show pfsCreatedOffset = 39 from rfl,
      show pfsModifiedOffset = 47 from rfl, show pfsModeOffset = 55 from rfl,
      show pfsNameOffset = 56 from rfl] at hk
    rcases hk with hk | hk | hk | hk
    · rcases Nat.lt_or_ge k 7 with h7 | h7
      · rcases Nat.lt_or_ge k 2 with h2 | h2
        · interval_cases k
          · exact hkind
          · exact UInt8.toNat_inj.mp hlen
        · have := hsize (k - 2) (by omega)
          rwa [show pfsEntryOffset i + 2 + (k - 2) = pfsEntryOffset i + k by omega] at this
      · exact hext k h7 hk
    · have := hcreated (k - 39) (by omega)
      rwa [show pfsCreatedOffset = 39 from rfl,
        show pfsEntryOffset i + 39 + (k - 39) = pfsEntryOffset i + k by omega] at this
    · rw [hk]
      exact hmode
    · have := hname (k - 56) (by omega)
      rwa [show 56 + (k - 56) = k by omega] at this
  · intro h
    have hbyte : ∀ k, k ≠ 6 → InUse b i k →
        a.byte (pfsEntryOffset i + k) = b.byte (pfsEntryOffset i + k) :=
      fun k h6 hk => (pfsCell_eq_iff h6).mp (h k hk)
    have hcount : pfsEntryExtentCount a i = pfsEntryExtentCount b i := by
      rw [← pfsCell_count, ← pfsCell_count, h 6 (.inl (by simp [pfsExtentsOffset]; omega))]
    simp only [InUse, show pfsExtentsOffset = 7 from rfl, show pfsCreatedOffset = 39 from rfl,
      show pfsModifiedOffset = 47 from rfl, show pfsModeOffset = 55 from rfl,
      show pfsNameOffset = 56 from rfl] at hbyte
    refine ⟨hbyte 0 (by omega) (by omega), pfsEntryName_eq_iff.mpr ⟨?_, fun k hk => ?_⟩,
      readLe32_eq_iff.mpr fun k hk => ?_, pfsEntryExtents_eq_iff.mpr ⟨hcount, fun k h7 hk => ?_⟩,
      readLe64_eq_iff.mpr fun k hk => ?_, trivial, hbyte 55 (by omega) (by omega)⟩
    · exact congrArg UInt8.toNat (hbyte 1 (by omega) (by omega))
    · exact hbyte (56 + k) (by omega) (by omega)
    · rw [Nat.add_assoc]
      exact hbyte (2 + k) (by omega) (by omega)
    · exact hbyte k (by omega) (by omega)
    · rw [show pfsCreatedOffset = 39 from rfl, Nat.add_assoc]
      exact hbyte (39 + k) (by omega) (by omega)

end Metadata

/-! ## Cut entries -/

/-- How many bytes of entry `i` come before the sector boundary inside it. -/
def sectorCut (i : ℕ) : Option ℕ :=
  let before := 512 - pfsEntryOffset i % 512
  if before < pfsEntrySizeBytes then some before else none

/-- What the new entry uses behind the boundary is not changed, or what the old one uses before it. -/
def CutSafe (header header' : Header) (i : ℕ) : Prop := ∀ c ∈ sectorCut i,
  (∀ k, c ≤ k → InUse header' i k → pfsCell header i k = pfsCell header' i k) ∨
    ∀ k < c, InUse header i k → pfsCell header' i k = pfsCell header i k

section Torn

theorem sectorCut_eq_some {c : ℕ} : sectorCut i = some c ↔
    c < 152 ∧ pfsEntryOffset i % 512 + c = 512 := by
  have hlt := Nat.mod_lt (pfsEntryOffset i) (show 0 < 512 by omega)
  rw [sectorCut, show pfsEntrySizeBytes = 152 from rfl]
  split_ifs with h
  · rw [Option.some.injEq]
    omega
  · exact iff_of_false nofun fun hc => by omega

/-- Entries start at multiples of eight, so a boundary comes behind the number of extents. -/
theorem le_of_sectorCut {c : ℕ} (h : sectorCut i = some c) : 8 ≤ c := by
  obtain ⟨-, h⟩ := sectorCut_eq_some.mp h
  rw [pfsEntryOffset_eq] at h
  omega

theorem pfsCell_congr {a b : Header} {k : ℕ}
    (h : a.byte (pfsEntryOffset i + k) = b.byte (pfsEntryOffset i + k)) :
    pfsCell a i k = pfsCell b i k := by
  by_cases h6 : k = 6
  · subst h6
    rw [pfsCell_count, pfsCell_count, pfsEntryExtentCount, pfsEntryExtentCount,
      show pfsExtentCountOffset = 6 from rfl, h]
  · exact (pfsCell_eq_iff h6).mpr h

theorem metadata_congr {a b : Header}
    (h : ∀ k, a.byte (pfsEntryOffset i + k) = b.byte (pfsEntryOffset i + k)) :
    metadata a i = metadata b i := metadata_eq_iff.mpr fun k _ => pfsCell_congr (h k)

theorem byte_tornHeader {k j : ℕ} : (tornHeader header header' k).byte j =
    if j < k * 512 then header'.byte j else header.byte j := Buf.byte_splice _ _ _ _

/-- An entry cut by the boundary at which the writing stops. -/
theorem pfsCell_tornHeader {c k j : ℕ} (hk : k * 512 = pfsEntryOffset i + c) :
    pfsCell (tornHeader header header' k) i j =
      if j < c then pfsCell header' i j else pfsCell header i j := by
  split_ifs with hj
  · refine pfsCell_congr ?_
    rw [byte_tornHeader, if_pos (by omega)]
  · refine pfsCell_congr ?_
    rw [byte_tornHeader, if_neg (by omega)]

/-- **An entry that is not cut is the old one or the new one.** -/
theorem metadata_of_uncut (ho : OnlyEntry header header' i) {k : ℕ}
    (h : k * 512 ≤ pfsEntryOffset i ∨ pfsEntryOffset i + 152 ≤ k * 512) :
    metadata (tornHeader header header' k) i = metadata header i ∨
      metadata (tornHeader header header' k) i = metadata header' i := by
  rcases h with h | h
  · refine .inl (metadata_congr fun j => ?_)
    rw [byte_tornHeader, if_neg (by omega)]
  · refine .inr (metadata_congr fun j => ?_)
    rw [byte_tornHeader]
    split_ifs with hj
    · rfl
    · exact (ho _ (.inr (by omega))).symm

theorem metadata_tornHeader_old {c k : ℕ} (hk : k * 512 = pfsEntryOffset i + c) :
    metadata (tornHeader header header' k) i = metadata header i ↔
      ∀ j < c, InUse header i j → pfsCell header' i j = pfsCell header i j := by
  rw [metadata_eq_iff]
  refine ⟨fun h j hj hu => ?_, fun h j hu => ?_⟩
  · have := h j hu
    rwa [pfsCell_tornHeader hk, if_pos hj] at this
  · rw [pfsCell_tornHeader hk]
    split_ifs with hj
    · exact h j hj hu
    · rfl

theorem metadata_tornHeader_new {c k : ℕ} (hk : k * 512 = pfsEntryOffset i + c) :
    metadata (tornHeader header header' k) i = metadata header' i ↔
      ∀ j, c ≤ j → InUse header' i j → pfsCell header i j = pfsCell header' i j := by
  rw [metadata_eq_iff]
  refine ⟨fun h j hj hu => ?_, fun h j hu => ?_⟩
  · have := h j hu
    rwa [pfsCell_tornHeader hk, if_neg (not_lt.mpr hj)] at this
  · rw [pfsCell_tornHeader hk]
    split_ifs with hj
    · rfl
    · exact h j (not_lt.mp hj) hu

/-- **The entry is the old one or the new one wherever the writing stops**, just if the boundary inside
it does no harm. -/
theorem cutSafe_iff (hi : i < pfsEntryCount) (ho : OnlyEntry header header' i) :
    (∀ k ≤ pfsHeaderSectors, metadata (tornHeader header header' k) i = metadata header i ∨
      metadata (tornHeader header header' k) i = metadata header' i) ↔ CutSafe header header' i := by
  have hb := pfsEntryOffset_bound hi
  have hs : pfsHeaderSectors = 77 := rfl
  constructor
  · intro h c hc
    obtain ⟨-, hcut⟩ := sectorCut_eq_some.mp hc
    have hk : (pfsEntryOffset i / 512 + 1) * 512 = pfsEntryOffset i + c := by omega
    exact (h (pfsEntryOffset i / 512 + 1) (by omega)).symm.imp (metadata_tornHeader_new hk).mp
      (metadata_tornHeader_old hk).mp
  · intro h k _
    by_cases hk : k * 512 ≤ pfsEntryOffset i ∨ pfsEntryOffset i + 152 ≤ k * 512
    · exact metadata_of_uncut ho hk
    · have hc : sectorCut i = some (k * 512 - pfsEntryOffset i) :=
        sectorCut_eq_some.mpr ⟨by omega, by omega⟩
      have hk : k * 512 = pfsEntryOffset i + (k * 512 - pfsEntryOffset i) := by omega
      exact ((h _ hc).imp (metadata_tornHeader_new hk).mpr (metadata_tornHeader_old hk).mpr).symm

end Torn

/-! ## The changes the calls make -/

/-- A change of entry `i` that a call makes in memory and writes to the disk. -/
inductive MetaUpdate (header : Header) : Header → ℕ → Prop
  | create {name : List UInt8} {flags : UInt32} {t : ℕ → ℕ} {i : ℕ} {header' : Header}
    (hv : validPfsPath name = true) (h : openEntry header name flags t = .ok (i, some header')) :
    MetaUpdate header header' i
  | mkdir {name : List UInt8} {t : ℕ → ℕ} {i : ℕ} {header' : Header}
    (hv : validPfsPath name = true) (hf : pfsFreeEntry header = some i)
    (h : mkdirHeader header name t = .ok header') : MetaUpdate header header' i
  | truncate {name : List UInt8} {now i : ℕ} (hv : validPfsPath name = true)
    (hf : pfsFindEntry header name = some i) :
    MetaUpdate header (truncateHeader header i name now) i
  | unlink {name : List UInt8} {i : ℕ} {header' : Header} (hf : pfsFindEntry header name = some i)
    (h : pfsUnlinkHeader header name = .ok header') : MetaUpdate header header' i
  | rename {oldName newName : List UInt8} {now i : ℕ} {header' : Header}
    (hf : pfsFindEntry header oldName = some i)
    (h : pfsRenameHeader header oldName newName now = .ok header') : MetaUpdate header header' i
  | size {size now i : ℕ} (hi : i < pfsEntryCount) (hu : pfsEntryUsed header i = true) :
    MetaUpdate header (pfsStoreSize header i size now) i
  | capacity {size now i : ℕ} {header' : Header} (hi : i < pfsEntryCount)
    (h : capacityHeader header i size now = .grown header') : MetaUpdate header header' i

theorem MetaUpdate.lt (h : MetaUpdate header header' i) : i < pfsEntryCount := by
  cases h with
  | create hv h =>
    rw [openEntry] at h
    split at h
    · split_ifs at h
      cases h
    · split_ifs at h
      split at h <;> cases h
      exact (pfsFreeEntry_spec ‹_›).1
  | mkdir hv hf h => exact (pfsFreeEntry_spec hf).1
  | truncate hv hf => exact (pfsFindEntry_eq_some.mp hf).1
  | unlink hf h => exact (pfsFindEntry_eq_some.mp hf).1
  | rename hf h => exact (pfsFindEntry_eq_some.mp hf).1
  | size hi hu => exact hi
  | capacity hi h => exact hi

/-- **Each of them leaves the other entries alone.** -/
theorem MetaUpdate.onlyEntry (ha : AllocInv header) (h : MetaUpdate header header' i) :
    OnlyEntry header header' i := by
  cases h with
  | create hv h =>
    rw [openEntry] at h
    split at h
    · split_ifs at h
      cases h
    · split_ifs at h
      split at h <;> cases h
      exact onlyEntry_pfsSetEntry _ (length_of_validPfsPath hv).2
  | mkdir hv hf h =>
    rw [mkdirHeader] at h
    split_ifs at h
    rw [hf] at h
    cases h
    exact onlyEntry_pfsSetEntry _ (length_of_validPfsPath hv).2
  | truncate hv hf => exact onlyEntry_pfsSetEntry _ (length_of_validPfsPath hv).2
  | unlink hf h =>
    rw [pfsUnlinkHeader, hf] at h
    dsimp only at h
    split_ifs at h
    cases h
    exact onlyEntry_pfsClearEntry _
  | rename hf h =>
    obtain ⟨hv, -, -, j, hj, -, rfl⟩ := pfsRenameHeader_eq_ok h
    rw [hf] at hj
    cases hj
    exact onlyEntry_pfsSetEntry _ (length_of_validPfsPath hv).2
  | size hi hu => exact onlyEntry_pfsStoreSize _ _ _
  | capacity hi h =>
    obtain ⟨_, hg⟩ := capacityHeader_grown ha hi h
    exact hg.onlyEntry

/-- A size is always safe to store: it comes before every boundary. -/
theorem cutSafe_storeSize (size now : ℕ) : CutSafe header (pfsStoreSize header i size now) i := by
  intro c hc
  have h8 := le_of_sectorCut hc
  refine .inl fun k hk hu => ((pfsCell_eq_iff (by omega)).mpr ?_).symm
  refine byte_pfsStoreSize header size now ?_
  simp only [InUse, show pfsCreatedOffset = 39 from rfl, show pfsModifiedOffset = 47 from rfl,
    show pfsModeOffset = 55 from rfl, show pfsNameOffset = 56 from rfl,
    show pfsExtentsOffset = 7 from rfl] at hu
  have hcount : pfsEntryExtentCount (pfsStoreSize header i size now) i ≤ 4 := min_le_right _ _
  omega

/-- So is a truncation: the name, the mode and the time of creation stay. -/
theorem cutSafe_truncate {name : List UInt8} {now : ℕ} (hv : validPfsPath name = true)
    (hf : pfsFindEntry header name = some i) :
    CutSafe header (truncateHeader header i name now) i := by
  obtain ⟨hi, -, hn, -⟩ := pfsFindEntry_eq_some.mp hf
  have he : pfsEntry (truncateHeader header i name now) i = _ :=
    pfsEntry_pfsSetEntry header name 0 pfsKindFile [] (pfsEntryCreated header i)
      (pfsEntryMode header i) now hi (length_of_validPfsPath hv).2 (by simp) (by simp)
  simp only [pfsEntry, PfsEntry.mk.injEq] at he
  obtain ⟨-, hname, -, hext, hcreated, -, hmode⟩ := he
  rw [Nat.mod_eq_of_lt (pfsEntryCreated_lt header i)] at hcreated
  obtain ⟨-, hname⟩ := pfsEntryName_eq_iff.mp (hn.trans hname.symm)
  have hcount : pfsEntryExtentCount (truncateHeader header i name now) i = 0 := by
    simpa [pfsEntryExtents] using hext
  intro c hc
  have h8 := le_of_sectorCut hc
  refine .inl fun k hk hu => (pfsCell_eq_iff (by omega)).mpr ?_
  simp only [InUse, hcount, show pfsCreatedOffset = 39 from rfl, show pfsModifiedOffset = 47 from rfl,
    show pfsModeOffset = 55 from rfl, show pfsNameOffset = 56 from rfl,
    show pfsExtentsOffset = 7 from rfl] at hu
  rcases hu with hu | hu | rfl | hu
  · omega
  · have := readLe64_eq_iff.mp hcreated.symm (k - 39) (by omega)
    rwa [show pfsCreatedOffset = 39 from rfl,
      show pfsEntryOffset i + 39 + (k - 39) = pfsEntryOffset i + k by omega] at this
  · exact hmode.symm
  · have := hname (k - 56) (by omega)
    rwa [show 56 + (k - 56) = k by omega] at this

/-! ## Every run -/

/-- Wherever the writing of `header'` stops, the header read back has all of the old fields of entry `i`
or all of the new ones, and the other entries as they were. -/
def CrashAtomic (disk : Disk) (header' : Header) (i : ℕ) : Prop :=
  ∀ disk', Left disk header' disk' → ∃ left, readHeaderSilent disk' = some left ∧
    (metadata left i = metadata (diskHeader disk) i ∨ metadata left i = metadata header' i) ∧
    ∀ j, j ≠ i → SameBytes (diskHeader disk) left j

/-- Wherever it stops, the header reads back with the other entries as they were. -/
def KeepsOthers (disk : Disk) (header' : Header) (i : ℕ) : Prop :=
  ∀ disk', Left disk header' disk' → ∃ left, readHeaderSilent disk' = some left ∧
    ∀ j, j ≠ i → SameBytes (diskHeader disk) left j

theorem OnlyEntry.torn (ho : OnlyEntry header header' i) (k : ℕ) :
    OnlyEntry header (tornHeader header header' k) i := by
  intro j hj
  rw [byte_tornHeader]
  split_ifs
  · exact ho j hj
  · rfl

/-- What is left reads back, and only the changed entry may differ. -/
theorem Left.reads (hw : HeaderWritable disk) (hr : readHeaderSilent disk = some header)
    (ho : OnlyEntry header header' i) (h : Left disk header' disk') : ∃ k ≤ pfsHeaderSectors,
      readHeaderSilent disk' = some (tornHeader header header' k) ∧
        OnlyEntry header (tornHeader header header' k) i := by
  obtain ⟨rfl, -⟩ := readHeaderSilent_eq_some hr
  obtain ⟨k, hk, ht, hok⟩ := h.torn hw
  refine ⟨k, hk, ?_, ho.torn k⟩
  rw [readHeaderSilent] at hr ⊢
  split_ifs at hr with h₁ h₂
  rw [hok, if_pos h₁, ht, (ho.torn k).slice_magic, if_pos h₂]

theorem crashAtomic_of (hw : HeaderWritable disk) (hr : readHeaderSilent disk = some header)
    (hi : i < pfsEntryCount) (ho : OnlyEntry header header' i) :
    CrashAtomic disk header' i ↔ CutSafe header header' i := by
  obtain ⟨rfl, -⟩ := readHeaderSilent_eq_some hr
  rw [← cutSafe_iff hi ho]
  constructor
  · intro h k hk
    obtain ⟨disk', hleft, ht⟩ := left_torn hw hk
    obtain ⟨left, hl, hm, -⟩ := h disk' hleft
    obtain ⟨rfl, -⟩ := readHeaderSilent_eq_some hl
    rwa [ht] at hm
  · intro h disk' hleft
    obtain ⟨k, hk, hread, hother⟩ := hleft.reads hw hr ho
    exact ⟨_, hread, h k hk, fun j hj => hother.other hj⟩

section Reached

variable {sys : Sys}

/-- **Wherever the writing stops, the header reads back with the other entries as they were; and a
change is crash-atomic just if the sector boundary inside its entry does no harm.** -/
theorem crashAtomic_iff (h : Reach FsInit (fun _ _ => True) sysStep sys)
    (hr : readHeaderSilent sys.disk = some header) (hu : MetaUpdate header header' i) :
    KeepsOthers sys.disk header' i ∧
      (CrashAtomic sys.disk header' i ↔ CutSafe header header' i) := by
  have hinv := fsInv_of_reach h
  obtain ⟨rfl, -⟩ := readHeaderSilent_eq_some hr
  have ho := hu.onlyEntry hinv.alloc
  refine ⟨fun disk' hleft => ?_, crashAtomic_of hinv.writable hr hu.lt ho⟩
  obtain ⟨k, -, hread, hother⟩ := hleft.reads hinv.writable hr ho
  exact ⟨_, hread, fun j hj => hother.other hj⟩

/-- Three directories `a`, `b` and `c`. -/
def threeDirsRun : List FsAct :=
  [.mkdir [] (pfsPath [97]) fun _ => 0, .mkdir [] (pfsPath [98]) fun _ => 0,
    .mkdir [] (pfsPath [99]) fun _ => 0]

theorem crashAtomic_iff_threeDirsRun : ∃ sys header, exec sysStep blankSys threeDirsRun = some sys ∧
    readHeaderSilent sys.disk = some header ∧ KeepsOthers sys.disk (pfsStoreSize header 2 0 0) 2 ∧
      (CrashAtomic sys.disk (pfsStoreSize header 2 0 0) 2 ↔
        CutSafe header (pfsStoreSize header 2 0 0) 2) := by
  have hrun : (exec sysStep blankSys threeDirsRun).map (fun sys =>
      (readHeaderSilent sys.disk).map fun header => pfsEntryUsed header 2) = some (some true) := by
    decide +kernel
  obtain ⟨sys, hs, hv⟩ := Option.map_eq_some_iff.mp hrun
  obtain ⟨header, hr, hu⟩ := Option.map_eq_some_iff.mp hv
  exact ⟨sys, header, hs, hr, crashAtomic_iff
    (reach_of_exec (.start fsInit_blankSys) (allGood_true _ _) hs) hr (.size (by decide) hu)⟩

/-- **The fourth entry is cut**: a directory `d` left without its name and mode. -/
theorem not_crashAtomic_fourthEntry : ¬ ∀ sys header header' i,
    Reach FsInit (fun _ _ => True) sysStep sys → readHeaderSilent sys.disk = some header →
      MetaUpdate header header' i → CrashAtomic sys.disk header' i := by
  intro hall
  have hrun : (exec sysStep blankSys threeDirsRun).map (fun sys =>
      ((readHeaderSilent sys.disk).isSome, pfsFreeEntry (diskHeader sys.disk),
        ((mkdirHeader (diskHeader sys.disk) [100] fun _ => 0).toOption.map fun header' =>
          (decide (pfsCell header' 3 0 = pfsCell (diskHeader sys.disk) 3 0),
            decide (pfsCell (diskHeader sys.disk) 3 55 = pfsCell header' 3 55))))) =
      some (true, some 3, some (false, false)) := by decide +kernel
  obtain ⟨sys, hs, hv⟩ := Option.map_eq_some_iff.mp hrun
  simp only [Prod.mk.injEq] at hv
  obtain ⟨hsome, hfree, hnew⟩ := hv
  obtain ⟨header', hm, hcells⟩ := Option.map_eq_some_iff.mp hnew
  simp only [Prod.mk.injEq, decide_eq_false_iff_not] at hcells
  obtain ⟨hkind, hmode⟩ := hcells
  obtain ⟨header, hr⟩ := Option.isSome_iff_exists.mp hsome
  obtain ⟨rfl, -⟩ := readHeaderSilent_eq_some hr
  have hmk : mkdirHeader (diskHeader sys.disk) [100] (fun _ => 0) = .ok header' := by
    cases he : mkdirHeader (diskHeader sys.disk) [100] fun _ => 0 with
    | error code => rw [he] at hm; cases hm
    | ok _ => rw [he] at hm; cases hm; rfl
  have hreach := reach_of_exec (.start fsInit_blankSys) (allGood_true _ _) hs
  have hinv := fsInv_of_reach hreach
  have hu : MetaUpdate (diskHeader sys.disk) header' 3 := .mkdir (by decide) hfree hmk
  -- 40 of its bytes come before the boundary: the kind does, the mode does not
  have hsafe := (crashAtomic_of hinv.writable hr hu.lt (hu.onlyEntry hinv.alloc)).mp
    (hall sys _ header' 3 hreach hr hu) 40 (by decide)
  rcases hsafe with h | h
  · exact hmode (h 55 (by decide) (.inr (.inr (.inl rfl))))
  · exact hkind (h 0 (by decide) (.inl (Nat.lt_of_lt_of_le (by decide) (Nat.le_add_right 7 _))))

end Reached

end Rymos
