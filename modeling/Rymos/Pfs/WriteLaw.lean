import Mathlib.Tactic
import Rymos.Pfs.Store

/-!
# The law of writing

* `Room`: a header after `pfs_ensure_file_capacity` has succeeded. **`pfsEnsureFileCapacity_spec`**.
* `Accepts`: the drive takes the turns of a write in a sector of the file.
* `WroteVia`, `pfsWriteAt_room`, **`pfsWriteAt_spec`**: what a write does, whether it succeeds or not.
* `WriteLaw`, **`pfsWriteAt_law`**: what one reads after a write.
-/

namespace Rymos

open ByteBuf Extents Blocks

/-! ## Room for a size -/

/-- `header'` is `header` with sectors for `size` bytes of file `index`. -/
inductive Room (header header' : Header) (index size now : ℕ) : Prop where
  | enough (same : header' = header) (file : pfsEntryIsFile header index = true)
      (le : sectorsForLen size ≤ total (pfsEntryExtents header index))
  | grown (extents : List PfsExtent) (grown : Grown header header' index size now extents)

section Room

variable {header header' : Header} {index size now : ℕ}

theorem Room.file (hr : Room header header' index size now) :
    pfsEntryIsFile header index = true := by
  cases hr with
  | enough _ hf _ => exact hf
  | grown _ hg => exact hg.file

theorem Room.allocInv (hr : Room header header' index size now) (h : AllocInv header)
    (hi : index < pfsEntryCount) : AllocInv header' := by
  cases hr with
  | enough he _ _ => exact he ▸ h
  | grown _ hg => exact h.grown hi hg

theorem Room.onlyEntry (hr : Room header header' index size now) :
    OnlyEntry header header' index := by
  cases hr with
  | enough he _ _ => exact fun _ _ => by rw [he]
  | grown _ hg => exact hg.onlyEntry

/-- Only the extents and the modification time of the entry change. -/
theorem Room.entry (hr : Room header header' index size now) (hi : index < pfsEntryCount) :
    pfsEntry header' index = { pfsEntry header index with
      extents := pfsEntryExtents header' index, modified := pfsEntryModified header' index } := by
  cases hr with
  | enough he _ _ => rw [he]; rfl
  | grown extents hg =>
    rw [hg.entry hi, hg.extents_eq hi, hg.modified_eq hi]

theorem Room.kind_eq (hr : Room header header' index size now) (hi : index < pfsEntryCount) :
    pfsEntryKind header' index = pfsEntryKind header index := by
  simpa only [pfsEntry] using congrArg PfsEntry.kind (hr.entry hi)

theorem Room.name_eq (hr : Room header header' index size now) (hi : index < pfsEntryCount) :
    pfsEntryName header' index = pfsEntryName header index := by
  simpa only [pfsEntry] using congrArg PfsEntry.name (hr.entry hi)

theorem Room.size_eq (hr : Room header header' index size now) (hi : index < pfsEntryCount) :
    pfsEntrySize header' index = pfsEntrySize header index := by
  simpa only [pfsEntry] using congrArg PfsEntry.size (hr.entry hi)

theorem Room.created_eq (hr : Room header header' index size now) (hi : index < pfsEntryCount) :
    pfsEntryCreated header' index = pfsEntryCreated header index := by
  simpa only [pfsEntry] using congrArg PfsEntry.created (hr.entry hi)

theorem Room.mode_eq (hr : Room header header' index size now) (hi : index < pfsEntryCount) :
    pfsEntryMode header' index = pfsEntryMode header index := by
  simpa only [pfsEntry] using congrArg PfsEntry.mode (hr.entry hi)

theorem Room.isDir (hr : Room header header' index size now) (hi : index < pfsEntryCount) :
    pfsEntryIsDir header' index = pfsEntryIsDir header index := by
  have := hr.kind_eq hi
  rw [pfsEntryKind, pfsEntryKind] at this
  rw [pfsEntryIsDir, pfsEntryIsDir, this]

theorem Room.used (hr : Room header header' index size now) (hi : index < pfsEntryCount) :
    pfsEntryUsed header' index = pfsEntryUsed header index := by
  have := hr.kind_eq hi
  rw [pfsEntryKind, pfsEntryKind] at this
  rw [pfsEntryUsed, pfsEntryUsed, this]

theorem Room.file' (hr : Room header header' index size now) (hi : index < pfsEntryCount) :
    pfsEntryIsFile header' index = true := by
  rw [pfsEntryIsFile, hr.used hi, hr.isDir hi]
  exact hr.file

/-- No sector of the file moves. -/
theorem Room.growth (hr : Room header header' index size now) (hi : index < pfsEntryCount) :
    Growth (FreeFor header (some index)) (pfsEntryExtents header index)
      (pfsEntryExtents header' index) := by
  cases hr with
  | enough he _ _ => rw [he]; exact .refl _
  | grown _ hg => rw [hg.extents_eq hi]; exact hg.growth

theorem Room.total (hr : Room header header' index size now) (hi : index < pfsEntryCount) :
    sectorsForLen size ≤ total (pfsEntryExtents header' index) := by
  cases hr with
  | enough he _ hle => rw [he]; exact hle
  | grown _ hg => rw [hg.extents_eq hi, hg.total]

end Room

/-- **`pfs_ensure_file_capacity` makes room or changes nothing.** -/
theorem pfsEnsureFileCapacity_spec {disk disk' : Disk} {index size now : ℕ} {ok : Bool}
    (hw : HeaderWritable disk) (h : AllocInv (diskHeader disk)) (hi : index < pfsEntryCount)
    (he : pfsEnsureFileCapacity disk index size now = some (ok, disk')) :
    ok = false ∧ disk' = disk ∨ ok = true ∧
      Room (diskHeader disk) (diskHeader disk') index size now ∧ OnlySectors disk disk' ∧
      ∀ x, pfsDataStart ≤ x → disk'.sectors x = disk.sectors x := by
  rw [pfsEnsureFileCapacity] at he
  cases hh : readHeaderSilent disk with
  | none =>
    rw [hh] at he
    cases he
    exact Or.inl ⟨rfl, rfl⟩
  | some header =>
    obtain ⟨rfl, -⟩ := readHeaderSilent_eq_some hh
    rw [hh] at he
    dsimp only at he
    cases hc : capacityHeader (diskHeader disk) index size now with
    | refused =>
      rw [hc] at he
      cases he
      exact Or.inl ⟨rfl, rfl⟩
    | enough =>
      rw [hc] at he
      cases he
      obtain ⟨hf, hle⟩ := capacityHeader_enough h hi hc
      exact Or.inr ⟨rfl, .enough rfl hf hle, .refl _, fun _ _ => rfl⟩
    | grown header' =>
      rw [hc] at he
      dsimp only at he
      rw [writeHeader_spec hw] at he
      cases he
      obtain ⟨extents, hg⟩ := capacityHeader_grown h hi hc
      refine Or.inr ⟨rfl, .grown extents ?_, rfl, fun x hx => sectors_withHeader hx⟩
      rwa [diskHeader_withHeader]
    | panic =>
      rw [hc] at he
      cases he

/-! ## Writing -/

/-- The byte a write leaves at position `p`: the hole before `offset` is zero. -/
def writeVal (offset : ℕ) (data : List UInt8) (p : ℕ) : UInt8 :=
  if p < offset then 0 else data.getD (p - offset) 0

/-- The size of file `index` on the disk. -/
def diskSize (disk : Disk) (index : ℕ) : ℕ := pfsEntrySize (diskHeader disk) index

/-- A write through the header of `mid`, up to position `hi`. -/
structure WroteVia (disk mid disk' : Disk) (index offset : ℕ) (data : List UInt8) (now hi : ℕ) :
    Prop where
  max : usize (offset + data.length) ≤ pfsFileMax
  room : Room (diskHeader disk) (diskHeader mid) index (usize (offset + data.length)) now
  mid_sectors : ∀ x, pfsDataStart ≤ x → mid.sectors x = disk.sectors x
  only_mid : OnlySectors disk mid
  only : OnlySectors mid disk'
  lo_le : min (diskSize disk index) offset ≤ hi
  hi_le : hi ≤ offset + data.length
  cap : hi ≤ 512 * total (pfsEntryExtents (diskHeader mid) index)
  writes : Writes (pfsEntryExtents (diskHeader mid) index) (min (diskSize disk index) offset) hi
    (writeVal offset data) mid.sectors disk'.sectors

/-- The drive takes the turns of a write at `offset` in sector `k` of the file: whole sectors of the
hole, which starts at `lo`, are not read. -/
def Accepts (disk : Disk) (extents : List PfsExtent) (lo offset k : ℕ) : Prop :=
  ∃ x, nth extents k = some x ∧ disk.writeOk x = true ∧
    (disk.readOk x = true ∨ lo ≤ 512 * k ∧ 512 * (k + 1) ≤ offset)

section Accepts

variable {disk : Disk} {extents : List PfsExtent} {lo offset k x : ℕ}

theorem accepts_iff (hn : nth extents k = some x) : Accepts disk extents lo offset k ↔
    disk.writeOk x = true ∧ (disk.readOk x = true ∨ lo ≤ 512 * k ∧ 512 * (k + 1) ≤ offset) := by
  rw [Accepts, hn]
  exact ⟨fun ⟨_, hx, h⟩ => Option.some.inj hx ▸ h, fun h => ⟨x, rfl, h⟩⟩

theorem not_accepts (hn : nth extents k = none) : ¬ Accepts disk extents lo offset k := by
  rintro ⟨x, hx, -⟩
  rw [hn] at hx
  cases hx

theorem ataReadSector_isSome (disk : Disk) (lba : ℕ) :
    (ataReadSector disk lba).isSome = disk.readOk (lba28 lba) := by
  rw [ataReadSector]
  cases disk.readOk (lba28 lba) <;> rfl

theorem ataWriteSector_fst (disk : Disk) (lba : ℕ) (sector : Sector) :
    (ataWriteSector disk lba sector).1 = disk.writeOk (lba28 lba) := by
  rw [ataWriteSector]
  cases disk.writeOk (lba28 lba) <;> rfl

end Accepts

section Turns

variable {disk mid : Disk} {index lo offset : ℕ}

/-- A turn succeeds just when the drive accepts its sector. -/
theorem turn_of_iff {ok : Bool} {p : Prop} (h : ok = true ↔ p) :
    (ok = true → p) ∧ (ok = false → ¬ p) := by
  refine ⟨h.mp, fun hf hp => ?_⟩
  rw [hf] at h
  exact Bool.false_ne_true (h.mpr hp)

/-- The copy loop reads each sector. -/
theorem turns_writeBody (h : AllocInv (diskHeader mid)) (hi : index < pfsEntryCount)
    (hf : pfsEntryIsFile (diskHeader mid) index = true) (lo : ℕ) (data : List UInt8)
    (hd : OnlySectors mid disk) :
    Turns disk offset data.length
      (Accepts mid (pfsEntryExtents (diskHeader mid) index) lo offset)
      (fun k => ¬ Accepts mid (pfsEntryExtents (diskHeader mid) index) lo offset k)
      (writeBody (diskHeader mid) index offset data) := by
  intro copied count d honly hlt _ _ _
  have hd' := hd.trans honly
  rw [OnlySectors] at hd'
  apply turn_of_iff
  rw [writeBody, lba_of_position h hi hf hlt]
  cases hn : nth (pfsEntryExtents (diskHeader mid) index) ((offset + copied) / 512) with
  | none => exact iff_of_false Bool.false_ne_true (not_accepts hn)
  | some x =>
    have h28 := lba28_of_nth h hi hf hn
    have hread := ataReadSector_isSome d x
    rw [h28, show d.readOk x = mid.readOk x by rw [hd']] at hread
    rw [accepts_iff hn, ← hread]
    dsimp only
    cases ataReadSector d x with
    | none =>
      refine iff_of_false Bool.false_ne_true ?_
      rintro ⟨-, hok | hok⟩
      · cases hok
      · omega
    | some sector =>
      dsimp only
      rw [ataWriteSector_fst, h28, show d.writeOk x = mid.writeOk x by rw [hd']]
      exact ⟨fun hw => ⟨hw, Or.inl rfl⟩, fun hw => hw.1⟩

/-- The zero loop from `lo` on reads the sectors at the edges of the hole only. -/
theorem turns_zeroBody (h : AllocInv (diskHeader mid)) (hi : index < pfsEntryCount)
    (hf : pfsEntryIsFile (diskHeader mid) index = true) (hlo : lo ≤ offset) :
    Turns mid lo (offset - lo)
      (Accepts mid (pfsEntryExtents (diskHeader mid) index) lo offset)
      (fun k => ¬ Accepts mid (pfsEntryExtents (diskHeader mid) index) lo offset k)
      (zeroBody (diskHeader mid) index lo) := by
  intro written count d honly hlt hlen hstart hc
  rw [OnlySectors] at honly
  apply turn_of_iff
  rw [zeroBody, lba_of_position h hi hf hlt]
  cases hn : nth (pfsEntryExtents (diskHeader mid) index) ((lo + written) / 512) with
  | none => exact iff_of_false Bool.false_ne_true (not_accepts hn)
  | some x =>
    have h28 := lba28_of_nth h hi hf hn
    have hwrite : ∀ sector, (ataWriteSector d x sector).1 = mid.writeOk x := fun sector => by
      rw [ataWriteSector_fst, h28, honly]
    rw [accepts_iff hn]
    dsimp only
    by_cases h512 : count = 512
    · rw [if_pos h512, hwrite]
      exact ⟨fun hw => ⟨hw, Or.inr (by omega)⟩, fun hw => hw.1⟩
    · have hread := ataReadSector_isSome d x
      rw [h28, show d.readOk x = mid.readOk x by rw [honly]] at hread
      rw [if_neg h512, ← hread]
      cases ataReadSector d x with
      | none =>
        refine iff_of_false Bool.false_ne_true ?_
        rintro ⟨-, hok | hok⟩
        · cases hok
        · omega
      | some sector =>
        dsimp only
        rw [hwrite]
        exact ⟨fun hw => ⟨hw, Or.inl rfl⟩, fun hw => hw.1⟩

end Turns

section Write

variable {disk mid disk' : Disk} {index offset now : ℕ} {data : List UInt8} {ok : Bool}

/-- The data loop, from a disk on which the hole is filled. -/
theorem pfsWriteData_spec (h : AllocInv (diskHeader mid)) (hi : index < pfsEntryCount)
    (hf : pfsEntryIsFile (diskHeader mid) index = true) (lo : ℕ) (hd : OnlySectors mid disk)
    (h0 : offset ≤ 512 * total (pfsEntryExtents (diskHeader mid) index))
    (he : pfsWriteData disk (diskHeader mid) index offset data = (ok, disk')) :
    ∃ m, offset ≤ m ∧ m ≤ offset + data.length ∧
      m ≤ 512 * total (pfsEntryExtents (diskHeader mid) index) ∧ OnlySectors disk disk' ∧
      Writes (pfsEntryExtents (diskHeader mid) index) offset m (writeVal offset data)
        disk.sectors disk'.sectors ∧ (ok = true → m = offset + data.length) ∧
      (∀ q, offset ≤ q → q < m →
        Accepts mid (pfsEntryExtents (diskHeader mid) index) lo offset (q / 512)) ∧
      (ok = false → m < offset + data.length ∧
        ¬ Accepts mid (pfsEntryExtents (diskHeader mid) index) lo offset (m / 512)) := by
  obtain ⟨m, h₁, h₂, h₃, h₄, h₅, h₆, h₇, h₈⟩ := storeLoop_turns h hi hf
    (stores_writeBody (diskHeader mid) index offset data)
    (turns_writeBody h hi hf lo data hd) h0 he
  refine ⟨m, h₁, h₂, h₃, h₄, h₅.congr fun p hp _ => ?_, h₆, h₇, h₈⟩
  rw [writeVal, if_neg (by omega)]

/-- **A write that has room** zeroes the hole and stores the data, up to the first sector the drive
does not accept. -/
theorem pfsWriteAt_room (hw : HeaderWritable disk) (h : AllocInv (diskHeader disk))
    (hi : index < pfsEntryCount) (hh : readHeaderSilent disk = some (diskHeader disk))
    (hmax : usize (offset + data.length) ≤ pfsFileMax)
    (hc : pfsEnsureFileCapacity disk index (usize (offset + data.length)) now = some (true, mid))
    (he : pfsWriteAt disk index offset data now = some (ok, disk')) :
    ∃ m, WroteVia disk mid disk' index offset data now m ∧ (ok = true → m = offset + data.length) ∧
      (readHeaderSilent mid = some (diskHeader mid) →
        (∀ q, min (diskSize disk index) offset ≤ q → q < m →
          Accepts mid (pfsEntryExtents (diskHeader mid) index) (min (diskSize disk index) offset)
            offset (q / 512)) ∧
        (ok = false → m < offset + data.length ∧
          ¬ Accepts mid (pfsEntryExtents (diskHeader mid) index) (min (diskSize disk index) offset)
            offset (m / 512))) := by
  rcases pfsEnsureFileCapacity_spec hw h hi hc with ⟨hno, -⟩ | ⟨-, hroom, honly, hsec⟩
  · cases hno
  have hinv := hroom.allocInv h hi
  have hfile := hroom.file' hi
  have hsize : diskSize disk index ≤ 512 * total (pfsEntryExtents (diskHeader mid) index) :=
    (h.size index hi hroom.file).1.trans (Nat.mul_le_mul_left 512 (hroom.growth hi).le)
  rw [pfsWriteAt] at he
  dsimp only at he
  rw [if_neg (not_lt.mpr hmax), hh] at he
  dsimp only at he
  rw [if_pos (pfsEntryIsFile_iff.mp hroom.file).1] at he
  dsimp only at he
  rw [hc] at he
  dsimp only at he
  -- a part of the write that leaves `disk'` when it has come to `m`
  have part : ∀ {m}, min (diskSize disk index) offset ≤ m → m ≤ offset + data.length →
      m ≤ 512 * total (pfsEntryExtents (diskHeader mid) index) → OnlySectors mid disk' →
      Writes (pfsEntryExtents (diskHeader mid) index) (min (diskSize disk index) offset) m
        (writeVal offset data) mid.sectors disk'.sectors →
      WroteVia disk mid disk' index offset data now m := fun h₁ h₂ h₃ h₄ h₅ =>
    ⟨hmax, hroom, hsec, honly, h₄, h₁, h₂, h₃, h₅⟩
  cases hh' : readHeaderSilent mid with
  | none =>
    rw [hh'] at he
    cases he
    exact ⟨_, part le_rfl (by omega) (by omega) (.refl _) (.refl _ _), nofun, nofun⟩
  | some header =>
    obtain ⟨rfl, -⟩ := readHeaderSilent_eq_some hh'
    rw [hh'] at he
    dsimp only at he
    split_ifs at he with hgap
    · -- the hole from the old size to the offset
      have hlo : min (diskSize disk index) offset = diskSize disk index :=
        min_eq_left (le_of_lt hgap)
      rw [hlo] at part ⊢
      cases hz : pfsZeroRange mid (diskHeader mid) index (diskSize disk index)
          (offset - diskSize disk index) with
      | mk okz dz =>
        have hgap' : diskSize disk index < offset := hgap
        obtain ⟨m, h₁, h₂, h₃, h₄, h₅, h₆, h₇, h₈⟩ := storeLoop_turns hinv hi hfile
          (stores_zeroBody (diskHeader mid) index _ _) (turns_zeroBody hinv hi hfile hgap'.le)
          hsize hz
        have hzero : Writes (pfsEntryExtents (diskHeader mid) index) (diskSize disk index) m
            (writeVal offset data) mid.sectors dz.sectors :=
          h₅.congr fun p _ hp => by rw [writeVal, if_pos (by omega)]
        rw [show pfsEntrySize (diskHeader disk) index = diskSize disk index from rfl, hz] at he
        cases okz with
        | false =>
          cases he
          exact ⟨m, part h₁ (by omega) h₃ h₄ hzero, nofun,
            fun _ => ⟨h₇, fun _ => ⟨by have := (h₈ rfl).1; omega, (h₈ rfl).2⟩⟩⟩
        | true =>
          dsimp only at he
          cases hd : pfsWriteData dz (diskHeader mid) index offset data with
          | mk okd dd =>
            rw [hd] at he
            cases he
            have hm : m = offset := by have := h₆ rfl; omega
            subst hm
            obtain ⟨k, k₁, k₂, k₃, k₄, k₅, k₆, k₇, k₈⟩ :=
              pfsWriteData_spec hinv hi hfile (diskSize disk index) h₄ h₃ hd
            refine ⟨k, part (by omega) k₂ k₃ (h₄.trans k₄) (hzero.trans k₅ h₁ k₁), k₆,
              fun _ => ⟨fun q hq hq' => ?_, k₈⟩⟩
            by_cases hlt : q < m
            · exact h₇ q hq hlt
            · exact k₇ q (not_lt.mp hlt) hq'
    · have hlo : min (diskSize disk index) offset = offset := min_eq_right (not_lt.mp hgap)
      rw [hlo] at part ⊢
      cases hd : pfsWriteData mid (diskHeader mid) index offset data with
      | mk okd dd =>
        rw [hd] at he
        cases he
        obtain ⟨k, k₁, k₂, k₃, k₄, k₅, k₆, k₇, k₈⟩ := pfsWriteData_spec hinv hi hfile offset
          (.refl _) ((not_lt.mp hgap).trans hsize) hd
        exact ⟨k, part k₁ k₂ k₃ k₄ k₅, k₆, fun _ => ⟨k₇, k₈⟩⟩

/-- **A write makes room, zeroes the hole and stores the data**; one that fails does a part of
this. -/
theorem pfsWriteAt_spec (hw : HeaderWritable disk) (h : AllocInv (diskHeader disk))
    (hi : index < pfsEntryCount)
    (he : pfsWriteAt disk index offset data now = some (ok, disk')) :
    ok = false ∧ disk' = disk ∨ ∃ mid m, WroteVia disk mid disk' index offset data now m ∧
      (ok = true → m = offset + data.length) := by
  have hsame : some (false, disk) = some (ok, disk') → ok = false ∧ disk' = disk := by
    intro hr
    cases hr
    exact ⟨rfl, rfl⟩
  have hrun := he
  rw [pfsWriteAt] at he
  dsimp only at he
  split_ifs at he with hmax
  · exact Or.inl (hsame he)
  cases hh : readHeaderSilent disk with
  | none =>
    rw [hh] at he
    exact Or.inl (hsame he)
  | some header =>
    obtain ⟨rfl, -⟩ := readHeaderSilent_eq_some hh
    rw [hh] at he
    dsimp only at he
    split_ifs at he with hu
    swap
    · exact Or.inl (hsame he)
    dsimp only at he
    cases hc : pfsEnsureFileCapacity disk index (usize (offset + data.length)) now with
    | none => rw [hc] at he; cases he
    | some r =>
      obtain ⟨okc, mid⟩ := r
      cases okc with
      | false =>
        rw [hc] at he
        rcases pfsEnsureFileCapacity_spec hw h hi hc with ⟨-, rfl⟩ | ⟨hno, -⟩
        · exact Or.inl (hsame he)
        · cases hno
      | true =>
        obtain ⟨m, w, hm, -⟩ := pfsWriteAt_room hw h hi hh (not_lt.mp hmax) hc hrun
        exact Or.inr ⟨mid, m, w, hm⟩

/-! ## After a write -/

section Via

variable {m : ℕ} (w : WroteVia disk mid disk' index offset data now m)
  (h : AllocInv (diskHeader disk)) (hi : index < pfsEntryCount)

include w h hi

/-- The sectors of a file are not header sectors. -/
theorem WroteVia.header : diskHeader disk' = diskHeader mid := by
  refine diskHeader_congr fun x hx => w.writes.frame x fun hc => ?_
  have := (w.room.allocInv h hi).inside hi (w.room.file' hi) hc
  omega

theorem WroteVia.allocInv : AllocInv (diskHeader disk') :=
  w.header h hi ▸ w.room.allocInv h hi

theorem WroteVia.onlyEntry : OnlyEntry (diskHeader disk) (diskHeader disk') index :=
  w.header h hi ▸ w.room.onlyEntry

/-- **The sectors of the other files keep their bytes.** -/
theorem WroteVia.other {j : ℕ} (hj : j < pfsEntryCount) (hne : j ≠ index)
    (hf : pfsEntryIsFile (diskHeader disk) j = true) {x : ℕ}
    (hx : Covers (pfsEntryExtents (diskHeader disk) j) x) :
    disk'.sectors x = disk.sectors x := by
  have hmid := w.room.allocInv h hi
  rw [w.writes.frame x fun hc => hne ?_, w.mid_sectors x (h.inside hj hf hx).1]
  refine hmid.apart hj hi ?_ (w.room.file' hi) ?_ hc
  · rwa [isFile_of_onlyEntry w.room.onlyEntry hne]
  · rwa [(w.room.onlyEntry.other hne).extents]

theorem WroteVia.fileByte_other {j : ℕ} (hj : j < pfsEntryCount) (hne : j ≠ index)
    (hf : pfsEntryIsFile (diskHeader disk) j = true) (p : ℕ) :
    fileByte disk' j p = fileByte disk j p := by
  rw [fileByte, ((w.onlyEntry h hi).other hne).extents]
  exact byteAt_congr (fun x hx => w.other h hi hj hne hf hx) p

/-- **The bytes written.** -/
theorem WroteVia.fileByte_in {p : ℕ} (hlo : min (diskSize disk index) offset ≤ p) (hp : p < m) :
    fileByte disk' index p = writeVal offset data p := by
  rw [fileByte, w.header h hi]
  exact w.writes.inside p hlo hp

/-- **The bytes the file had outside.** -/
theorem WroteVia.fileByte_out {p : ℕ} (hp : p < min (diskSize disk index) offset ∨ m ≤ p)
    (hcap : p < 512 * total (pfsEntryExtents (diskHeader disk) index)) :
    fileByte disk' index p = fileByte disk index p := by
  have hmid := w.room.allocInv h hi
  rw [fileByte, fileByte, w.header h hi, w.writes.outside p hp]
  rw [byteAt_congr (m := disk.sectors) fun x hx => w.mid_sectors x (hmid.inside hi (w.room.file' hi) hx).1]
  exact byteAt_growth (w.room.growth hi) _ (by omega)

end Via

/-! ## The law -/

/-- What holds of the disk after a write of `data` at `offset` of file `index`; `header'` is the
header then on the disk. -/
structure WriteLaw (disk disk' : Disk) (header header' : Header) (index offset : ℕ)
    (data : List UInt8) : Prop where
  /-- The range written reads as the data. -/
  written : pfsReadAt disk' index offset data.length = some data
  /-- The hole between the old end and the write reads as zeros. -/
  hole : pfsEntrySize header index < offset →
    pfsReadAt disk' index (pfsEntrySize header index) (offset - pfsEntrySize header index) =
      some (List.replicate (offset - pfsEntrySize header index) 0)
  /-- The other ranges below the old end read as before. -/
  rest : ∀ p n, p + n ≤ pfsEntrySize header index →
    p + n ≤ offset ∨ offset + data.length ≤ p →
      ∃ bytes, pfsReadAt disk index p n = some bytes ∧ pfsReadAt disk' index p n = some bytes
  mapping : ∀ k lba, pfsEntryLbaForSector header index k = some lba →
    pfsEntryLbaForSector header' index k = some lba
  name : pfsEntryName header' index = pfsEntryName header index
  kind : pfsEntryKind header' index = pfsEntryKind header index
  size : pfsEntrySize header' index = pfsEntrySize header index
  created : pfsEntryCreated header' index = pfsEntryCreated header index
  mode : pfsEntryMode header' index = pfsEntryMode header index
  /-- The sectors of the other files hold their former bytes. -/
  others : ∀ j < pfsEntryCount, j ≠ index → pfsEntryIsFile header j = true →
    ∀ x, Covers (pfsEntryExtents header j) x → disk'.sectors x = disk.sectors x

theorem list_eq_map_getD (data : List UInt8) :
    data = (List.range data.length).map fun k => data.getD k 0 := by
  refine List.ext_getElem (by simp) fun k h₁ h₂ => ?_
  simp [List.getD, h₁]

/-- **The write/read law of the storage layer.** -/
theorem pfsWriteAt_law {header : Header} (hr : Reliable disk)
    (hh : readHeaderSilent disk = some header) (h : AllocInv header) (hi : index < pfsEntryCount)
    (hmax : offset + data.length ≤ pfsFileMax)
    (he : pfsWriteAt disk index offset data now = some (true, disk')) :
    ∃ header', readHeaderSilent disk' = some header' ∧ AllocInv header' ∧
      WriteLaw disk disk' header header' index offset data := by
  obtain ⟨rfl, -⟩ := readHeaderSilent_eq_some hh
  rcases pfsWriteAt_spec hr.headerWritable h hi he with ⟨hc, -⟩ | ⟨mid, m, w, hm⟩
  · cases hc
  obtain rfl := hm rfl
  have h' := w.allocInv h hi
  have hr' : Reliable disk' := w.only.reliable (w.only_mid.reliable hr)
  have hh' : readHeaderSilent disk' = some (diskHeader disk') := by
    refine readHeaderSilent_congr ?_ (w.onlyEntry h hi).slice_magic hh
    rw [w.only, w.only_mid]
  have hroom := w.room
  have hcap := w.cap
  rw [← w.header h hi] at hroom hcap
  have hf := hroom.file
  have hf' := hroom.file' hi
  have hgrow := hroom.growth hi
  have hsize := h.size index hi hf
  have hsize' : diskSize disk index ≤ 512 * total (pfsEntryExtents (diskHeader disk') index) :=
    hsize.1.trans (Nat.mul_le_mul_left 512 hgrow.le)
  refine ⟨_, hh', h', ⟨?_, fun hgap => ?_, fun p n hpn hout => ?_, fun k lba hk => ?_,
    hroom.name_eq hi, hroom.kind_eq hi, hroom.size_eq hi, hroom.created_eq hi, hroom.mode_eq hi,
    fun j hj hne hfj x hx => w.other h hi hj hne hfj hx⟩⟩
  · rw [pfsReadAt_eq hr' hh' h' hi hf' hmax hcap]
    conv_rhs => rw [list_eq_map_getD data]
    refine congrArg some (List.map_congr_left fun k hk => ?_)
    have hk := List.mem_range.mp hk
    rw [w.fileByte_in h hi (by omega) (by omega), writeVal, if_neg (by omega),
      Nat.add_sub_cancel_left]
  · rw [pfsReadAt_eq hr' hh' h' hi hf' (by omega) (by omega)]
    refine congrArg some (List.eq_replicate_iff.mpr ⟨by simp, fun b hb => ?_⟩)
    obtain ⟨k, hk, rfl⟩ := List.mem_map.mp hb
    have hk := List.mem_range.mp hk
    have hlo : min (diskSize disk index) offset = pfsEntrySize (diskHeader disk) index :=
      min_eq_left hgap.le
    rw [w.fileByte_in h hi (by omega) (by omega), writeVal, if_pos (by omega)]
  · refine ⟨_, pfsReadAt_eq hr hh h hi hf (by omega) (by omega), ?_⟩
    rw [pfsReadAt_eq hr' hh' h' hi hf' (by omega) (by unfold diskSize at hsize'; omega)]
    refine congrArg some (List.map_congr_left fun k hk => ?_)
    have hk := List.mem_range.mp hk
    exact w.fileByte_out h hi (by unfold diskSize; omega) (by omega)
  · rw [pfsEntryLbaForSector_eq h hi hf] at hk
    rw [pfsEntryLbaForSector_eq h' hi hf', hgrow.keep k (lt_total_of_nth hk), hk]

end Write

/-- One empty file, named `a`. -/
def oneFileHeader : Header := pfsSetEntry emptyHeader 0 [97] 0 pfsKindFile [] 0 3 0

theorem allocInv_oneFileHeader : AllocInv oneFileHeader :=
  allocInv_emptyHeader.setEmpty (by decide) (by decide)

/-- A write behind a hole, at the end of an empty file. -/
theorem pfsWriteAt_law_hole : ∃ disk' header',
    pfsWriteAt (blankDisk oneFileHeader) 0 3 [7, 8] 0 = some (true, disk') ∧
      readHeaderSilent disk' = some header' ∧ AllocInv header' ∧
        WriteLaw (blankDisk oneFileHeader) disk' oneFileHeader header' 0 3 [7, 8] := by
  have hok : ((pfsWriteAt (blankDisk oneFileHeader) 0 3 [7, 8] 0).map Prod.fst) = some true := by
    decide +kernel
  obtain ⟨⟨ok, disk'⟩, hw, rfl⟩ := Option.map_eq_some_iff.mp hok
  obtain ⟨header', h⟩ := pfsWriteAt_law (reliable_blankDisk oneFileHeader)
    (readHeaderSilent_blankDisk (by decide +kernel)) allocInv_oneFileHeader (by decide)
    (by decide) hw
  exact ⟨disk', header', hw, h⟩

end Rymos
