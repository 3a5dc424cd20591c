import Mathlib.Tactic
import Rymos.Pfs.Disk

/-!
# Reading and writing files

* `pfsReadAt`, `pfsZeroRange`, `pfsWriteData`, `pfsEnsureFileCapacity`, `pfsWriteAt`,
  `pfsUpdateSize`: the storage layer. A panic of the kernel is `none`.
* `fileByte`: the byte at a position of a file.
* `storeLoop_turns`, `storeLoop_spec`: a loop whose turns store chunks is a write of the range.
* **`pfsReadAt_eq_some`**: what a read returns are the bytes of the file; **`pfsReadAt_eq`**: within
  the extents a drive that never fails reads.
-/

namespace Rymos

open ByteBuf Extents Blocks

/-! ## The storage layer -/

/-- A turn of `pfs_read_at`. -/
def readBody (disk : Disk) (header : Header) (index offset copied count : ℕ)
    (dest : List UInt8) : Bool × List UInt8 :=
  let absolute := usize (offset + copied)
  match pfsEntryLbaForSector header index (u32 (absolute / 512)) with
  | none => (false, dest)
  | some lba =>
    match ataReadSector disk lba with
    | none => (false, dest)
    | some sector => (true, dest ++ sector.slice (absolute % 512) count)

def pfsReadAt (disk : Disk) (index offset len : ℕ) : Option (List UInt8) :=
  match readHeaderSilent disk with
  | none => none
  | some header =>
    if usize (offset + len) > pfsFileMax || !pfsEntryUsed header index then none
    else
      match chunkLoop 512 (fun copied => usize (offset + copied))
          (readBody disk header index offset) len len 0 [] with
      | (true, dest) => some dest
      | (false, _) => none

/-- A turn of the copy loop of `pfs_write_at`. -/
def writeBody (header : Header) (index offset : ℕ) (data : List UInt8) (copied count : ℕ)
    (disk : Disk) : Bool × Disk :=
  let absolute := usize (offset + copied)
  match pfsEntryLbaForSector header index (u32 (absolute / 512)) with
  | none => (false, disk)
  | some lba =>
    match ataReadSector disk lba with
    | none => (false, disk)
    | some sector =>
      ataWriteSector disk lba (sector.put (absolute % 512) ((data.drop copied).take count))

/-- The copy loop of `pfs_write_at`. -/
def pfsWriteData (disk : Disk) (header : Header) (index offset : ℕ) (data : List UInt8) :
    Bool × Disk :=
  chunkLoop 512 (fun copied => usize (offset + copied)) (writeBody header index offset data)
    data.length data.length 0 disk

/-- A turn of `pfs_zero_range`; whole sectors are not read first. -/
def zeroBody (header : Header) (index start written count : ℕ) (disk : Disk) : Bool × Disk :=
  let absolute := usize (start + written)
  match pfsEntryLbaForSector header index (u32 (absolute / 512)) with
  | none => (false, disk)
  | some lba =>
    if count = 512 then ataWriteSector disk lba (Buf.zero 512)
    else
      match ataReadSector disk lba with
      | none => (false, disk)
      | some sector => ataWriteSector disk lba (sector.fill (absolute % 512) count)

def pfsZeroRange (disk : Disk) (header : Header) (index start len : ℕ) : Bool × Disk :=
  chunkLoop 512 (fun written => usize (start + written)) (zeroBody header index start) len len 0 disk

def pfsEnsureFileCapacity (disk : Disk) (index size now : ℕ) : Option (Bool × Disk) :=
  match readHeaderSilent disk with
  | none => some (false, disk)
  | some header =>
    match capacityHeader header index size now with
    | .refused => some (false, disk)
    | .enough => some (true, disk)
    | .grown header => some (writeHeader disk header)
    | .panic => none

def pfsWriteAt (disk : Disk) (index offset : ℕ) (data : List UInt8) (now : ℕ) :
    Option (Bool × Disk) :=
  let newSize := usize (offset + data.length)
  if newSize > pfsFileMax then some (false, disk)
  else
    let oldSize? :=
      match readHeaderSilent disk with
      | some header =>
        if pfsEntryUsed header index then some (pfsEntrySize header index) else none
      | none => none
    match oldSize? with
    | none => some (false, disk)
    | some oldSize =>
      match pfsEnsureFileCapacity disk index newSize now with
      | none => none
      | some (false, disk) => some (false, disk)
      | some (true, disk) =>
        match readHeaderSilent disk with
        | none => some (false, disk)
        | some header =>
          if offset > oldSize then
            match pfsZeroRange disk header index oldSize (offset - oldSize) with
            | (false, disk) => some (false, disk)
            | (true, disk) => some (pfsWriteData disk header index offset data)
          else some (pfsWriteData disk header index offset data)

def pfsUpdateSize (disk : Disk) (index size now : ℕ) : Bool × Disk :=
  match readHeaderSilent disk with
  | none => (false, disk)
  | some header =>
    if !pfsEntryUsed header index then (false, disk)
    else writeHeader disk (pfsStoreSize header index size now)

/-! ## Bytes of a file -/

/-- The byte at position `p` of file `index`. -/
def fileByte (disk : Disk) (index p : ℕ) : UInt8 :=
  byteAt disk.sectors (pfsEntryExtents (diskHeader disk) index) p

/-- The disks differ in their sectors only. -/
def OnlySectors (disk disk' : Disk) : Prop := disk' = { disk with sectors := disk'.sectors }

theorem OnlySectors.refl (disk : Disk) : OnlySectors disk disk := rfl

theorem OnlySectors.trans {d d' d'' : Disk} (h : OnlySectors d d') (h' : OnlySectors d' d'') :
    OnlySectors d d'' := by
  rw [OnlySectors] at *
  rw [h', h]

theorem OnlySectors.reliable {d d' : Disk} (h : OnlySectors d d') (hr : Reliable d) : Reliable d' := by
  rw [h]
  exact hr

theorem OnlySectors.headerWritable {d d' : Disk} (h : OnlySectors d d') (hw : HeaderWritable d) :
    HeaderWritable d' := by
  rw [h]
  exact hw

section File

variable {disk : Disk} {header : Header} {index : ℕ}

/-- The sector of a position below `2 ^ 41`, where the arithmetic does not wrap. -/
theorem lba_of_position (h : AllocInv header) (hi : index < pfsEntryCount)
    (hf : pfsEntryIsFile header index = true) {a : ℕ} (ha : a < 2 ^ 41) :
    pfsEntryLbaForSector header index (u32 (usize a / 512)) =
      nth (pfsEntryExtents header index) (a / 512) := by
  rw [usize_of_lt (by omega), u32_of_lt (by omega), pfsEntryLbaForSector_eq h hi hf]

theorem lba28_of_nth (h : AllocInv header) (hi : index < pfsEntryCount)
    (hf : pfsEntryIsFile header index = true) {k lba : ℕ}
    (hn : nth (pfsEntryExtents header index) k = some lba) : lba28 lba = lba :=
  lba28_of_lt (h.inside hi hf (nth_covers hn)).2

theorem total_lt (h : AllocInv header) (hi : index < pfsEntryCount)
    (hf : pfsEntryIsFile header index = true) :
    total (pfsEntryExtents header index) < 2 ^ 23 := by
  have := (h.spread hi hf).total_le fun _ hx => h.inside hi hf hx
  rw [pfsDataStart_eq, pfsDiskSectors_eq] at this
  omega

theorem ataReadSector_cases (disk : Disk) (lba : ℕ) :
    ataReadSector disk lba = none ∨ ataReadSector disk lba = some (disk.sectors (lba28 lba)) := by
  rw [ataReadSector]
  split_ifs
  · exact Or.inr rfl
  · exact Or.inl rfl

/-- The loop of `pfs_read_at` copies the bytes of the file; on a drive that never fails it comes to
the end of the range if the extents do. -/
theorem readLoop_spec (hh : header = diskHeader disk) (h : AllocInv header)
    (hi : index < pfsEntryCount) (hf : pfsEntryIsFile header index = true) {offset len : ℕ}
    (hmax : offset + len ≤ pfsFileMax) {ok : Bool} {dest : List UInt8}
    (he : chunkLoop 512 (fun copied => usize (offset + copied))
      (readBody disk header index offset) len len 0 [] = (ok, dest)) :
    (ok = true → dest = (List.range len).map fun k => fileByte disk index (offset + k)) ∧
      (ok = false → ¬ (Reliable disk ∧ offset + len ≤ 512 * total (pfsEntryExtents header index))) := by
  rw [pfsFileMax_eq] at hmax
  have hfb : ∀ p, fileByte disk index p = byteAt disk.sectors (pfsEntryExtents header index) p := by
    rw [hh]
    exact fun _ => rfl
  -- `dest` holds the bytes before the position the loop has come to
  refine chunkLoop_spec
    (I := fun copied dest => dest = (List.range copied).map fun k => fileByte disk index (offset + k))
    (F := fun _ => ¬ (Reliable disk ∧ offset + len ≤ 512 * total (pfsEntryExtents header index)))
    (by omega) he rfl fun copied count dest hI hlt hc => ?_
  have hw : usize (offset + copied) = offset + copied := usize_of_lt (by omega)
  have hpos := lba_of_position h hi hf (a := offset + copied) (by omega)
  rw [hw] at hc hpos
  cases hn : nth (pfsEntryExtents header index) ((offset + copied) / 512) with
  | none =>
    have hbody : readBody disk header index offset copied count dest = (false, dest) := by
      simp only [readBody, hw, hpos, hn]
    rw [hbody]
    refine ⟨nofun, fun _ hcap => ?_⟩
    obtain ⟨lba, hlba⟩ : ∃ lba, nth (pfsEntryExtents header index) ((offset + copied) / 512) =
      some lba := nth_of_lt (by omega)
    rw [hn] at hlba
    cases hlba
  | some lba =>
    have h28 := lba28_of_nth h hi hf hn
    rcases ataReadSector_cases disk lba with hr | hr
    · have hbody : readBody disk header index offset copied count dest = (false, dest) := by
        simp only [readBody, hw, hpos, hn, hr]
      rw [hbody]
      refine ⟨nofun, fun _ hcap => ?_⟩
      rw [ataReadSector, if_pos (hcap.1.2 _).1] at hr
      cases hr
    · have hbody : readBody disk header index offset copied count dest =
          (true, dest ++ (disk.sectors lba).slice ((offset + copied) % 512) count) := by
        simp only [readBody, hw, hpos, hn, hr, h28]
      rw [hbody]
      refine ⟨fun _ => ?_, nofun⟩
      show dest ++ _ = _
      rw [hI, List.range_add, List.map_append, List.map_map, Buf.slice]
      congr 1
      refine List.map_congr_left fun k hk => ?_
      have hk := List.mem_range.mp hk
      have hdiv : (offset + (copied + k)) / 512 = (offset + copied) / 512 := by omega
      rw [Function.comp_apply, hfb, byteAt_of_nth (hdiv ▸ hn)]
      congr 1
      omega

/-- **What a read returns are the bytes of the file.** -/
theorem pfsReadAt_eq_some (h : AllocInv (diskHeader disk)) (hi : index < pfsEntryCount)
    (hf : pfsEntryIsFile (diskHeader disk) index = true) {offset len : ℕ}
    (hmax : offset + len ≤ pfsFileMax) {bytes : List UInt8}
    (he : pfsReadAt disk index offset len = some bytes) :
    bytes = (List.range len).map fun k => fileByte disk index (offset + k) := by
  rw [pfsReadAt] at he
  cases hh : readHeaderSilent disk with
  | none => rw [hh] at he; cases he
  | some header =>
    obtain ⟨rfl, -⟩ := readHeaderSilent_eq_some hh
    rw [hh] at he
    dsimp only at he
    split_ifs at he
    revert he
    generalize hr : chunkLoop 512 (fun copied => usize (offset + copied))
      (readBody disk (diskHeader disk) index offset) len len 0 [] = r
    obtain ⟨ok, dest⟩ := r
    have hspec := readLoop_spec rfl h hi hf hmax hr
    cases ok with
    | true => exact fun he => (Option.some.inj he).symm.trans (hspec.1 rfl)
    | false => exact nofun

/-- Only a file has bytes to read: a directory has no extents. -/
theorem pfsReadAt_isFile (h : AllocInv (diskHeader disk)) (hi : index < pfsEntryCount)
    {offset len : ℕ} (hlen : 0 < len) {bytes : List UInt8}
    (he : pfsReadAt disk index offset len = some bytes) :
    pfsEntryIsFile (diskHeader disk) index = true := by
  rw [pfsReadAt] at he
  cases hh : readHeaderSilent disk with
  | none => rw [hh] at he; cases he
  | some header =>
    obtain ⟨rfl, -⟩ := readHeaderSilent_eq_some hh
    rw [hh] at he
    dsimp only at he
    split_ifs at he with hc
    rw [Bool.or_eq_true, not_or] at hc
    refine pfsEntryIsFile_iff.mpr ⟨by simpa using hc.2, ?_⟩
    by_contra hd
    have hext := h.dirs index hi (by simpa using hd)
    obtain ⟨n, rfl⟩ := Nat.exists_eq_succ_of_ne_zero hlen.ne'
    have hbody : ∀ count, readBody disk (diskHeader disk) index offset 0 count [] = (false, []) := by
      intro count
      simp only [readBody, pfsEntryLbaForSector, hext, lbaWalk]
    rw [chunkLoop, if_pos hlen] at he
    simp only [hbody] at he
    cases he

/-- **Within the extents a drive that never fails reads.** -/
theorem pfsReadAt_eq (hr : Reliable disk) (hh : readHeaderSilent disk = some header)
    (h : AllocInv header) (hi : index < pfsEntryCount) (hf : pfsEntryIsFile header index = true)
    {offset len : ℕ} (hmax : offset + len ≤ pfsFileMax)
    (hcap : offset + len ≤ 512 * total (pfsEntryExtents header index)) :
    pfsReadAt disk index offset len =
      some ((List.range len).map fun k => fileByte disk index (offset + k)) := by
  have hmax' := hmax
  rw [pfsFileMax_eq] at hmax'
  rw [pfsReadAt, hh]
  dsimp only
  rw [usize_of_lt (by omega), (pfsEntryIsFile_iff.mp hf).1, Bool.not_true, Bool.or_false,
    if_neg (by simpa using hmax)]
  generalize hl : chunkLoop 512 (fun copied => usize (offset + copied))
    (readBody disk header index offset) len len 0 [] = r
  obtain ⟨ok, dest⟩ := r
  have hspec := readLoop_spec (readHeaderSilent_eq_some hh).1 h hi hf hmax hl
  cases ok with
  | true => exact congrArg some (hspec.1 rfl)
  | false => exact absurd ⟨hr, hcap⟩ (hspec.2 rfl)

/-! ## Loops that store -/

/-- A turn of `body` at position `offset + copied` writes `count` bytes of `val`, or leaves the disk
as it was. -/
def Stores (header : Header) (index offset len : ℕ) (val : ℕ → UInt8)
    (body : ℕ → ℕ → Disk → Bool × Disk) : Prop :=
  ∀ copied count disk, offset + copied < 2 ^ 41 → (offset + copied) % 512 + count ≤ 512 →
    copied + count ≤ len →
    ((body copied count disk).1 = false ∧ (body copied count disk).2 = disk) ∨
    ∃ lba sector,
      pfsEntryLbaForSector header index (u32 (usize (offset + copied) / 512)) = some lba ∧
      (∀ k < 512, Buf.byte sector k =
        if (offset + copied) % 512 ≤ k ∧ k < (offset + copied) % 512 + count then
          val (offset + copied - (offset + copied) % 512 + k)
        else (disk.sectors (lba28 lba)).byte k) ∧
      body copied count disk =
        (true, { disk with sectors := Function.update disk.sectors (lba28 lba) sector })

theorem ataWriteSector_cases (disk : Disk) (lba : ℕ) (sector : Sector) :
    ((ataWriteSector disk lba sector).1 = false ∧ (ataWriteSector disk lba sector).2 = disk) ∨
      ataWriteSector disk lba sector =
        (true, { disk with sectors := Function.update disk.sectors (lba28 lba) sector }) := by
  rw [ataWriteSector]
  split_ifs
  · exact Or.inr rfl
  · exact Or.inl ⟨rfl, rfl⟩

theorem stores_writeBody (header : Header) (index offset : ℕ) (data : List UInt8) :
    Stores header index offset data.length (fun p => data.getD (p - offset) 0)
      (writeBody header index offset data) := by
  intro copied count disk hlt hc hlen
  have hw : usize (offset + copied) = offset + copied := usize_of_lt (by omega)
  rw [writeBody]
  dsimp only
  cases hl : pfsEntryLbaForSector header index (u32 (usize (offset + copied) / 512)) with
  | none => exact Or.inl ⟨rfl, rfl⟩
  | some lba =>
    dsimp only
    rcases ataReadSector_cases disk lba with hr | hr
    · rw [hr]
      exact Or.inl ⟨rfl, rfl⟩
    · rw [hr, hw]
      dsimp only
      have hchunk : ((data.drop copied).take count).length = count := by
        rw [List.length_take, List.length_drop]
        omega
      rcases ataWriteSector_cases disk lba
        ((disk.sectors (lba28 lba)).put ((offset + copied) % 512) ((data.drop copied).take count))
        with he | he
      · exact Or.inl he
      · refine Or.inr ⟨lba, _, rfl, fun k hk => ?_, he⟩
        rw [Buf.byte_put, hchunk]
        by_cases hin : (offset + copied) % 512 ≤ k ∧ k < (offset + copied) % 512 + count
        · rw [if_pos ⟨hin.1, hin.2, hk⟩, if_pos hin, List.getD_eq_getElem?_getD,
            List.getD_eq_getElem?_getD, List.getElem?_take, if_pos (by omega), List.getElem?_drop]
          congr 2
          omega
        · rw [if_neg (by omega), if_neg hin]

theorem stores_zeroBody (header : Header) (index start len : ℕ) :
    Stores header index start len (fun _ => 0) (zeroBody header index start) := by
  intro written count disk hlt hc _
  have hw : usize (start + written) = start + written := usize_of_lt (by omega)
  rw [zeroBody]
  dsimp only
  cases hl : pfsEntryLbaForSector header index (u32 (usize (start + written) / 512)) with
  | none => exact Or.inl ⟨rfl, rfl⟩
  | some lba =>
    dsimp only
    by_cases h512 : count = 512
    · rw [if_pos h512]
      rcases ataWriteSector_cases disk lba (Buf.zero 512) with he | he
      · exact Or.inl he
      · refine Or.inr ⟨lba, _, rfl, fun k hk => ?_, he⟩
        rw [Buf.byte_zero, if_pos (by omega)]
    · rw [if_neg h512]
      rcases ataReadSector_cases disk lba with hr | hr
      · rw [hr]
        exact Or.inl ⟨rfl, rfl⟩
      · rw [hr, hw]
        dsimp only
        rcases ataWriteSector_cases disk lba
          ((disk.sectors (lba28 lba)).fill ((start + written) % 512) count) with he | he
        · exact Or.inl he
        · exact Or.inr ⟨lba, _, rfl, fun k _ => Buf.byte_fill _ _ _ _, he⟩

/-- A turn in sector `k` gives `P k` if it succeeds and `Q k` if it fails; all turns but the first
start at a sector. -/
def Turns (disk : Disk) (offset len : ℕ) (P Q : ℕ → Prop) (body : ℕ → ℕ → Disk → Bool × Disk) :
    Prop :=
  ∀ copied count d, OnlySectors disk d → offset + copied < 2 ^ 41 → copied < len →
    copied = 0 ∨ (offset + copied) % 512 = 0 →
    count = min (len - copied) (512 - (offset + copied) % 512) →
      ((body copied count d).1 = true → P ((offset + copied) / 512)) ∧
        ((body copied count d).1 = false → Q ((offset + copied) / 512))

/-- **A loop whose turns store chunks is a write of the range** up to the turn that fails. -/
theorem storeLoop_turns (h : AllocInv header) (hi : index < pfsEntryCount)
    (hf : pfsEntryIsFile header index = true) {offset len : ℕ} {val : ℕ → UInt8} {P Q : ℕ → Prop}
    {body : ℕ → ℕ → Disk → Bool × Disk} (hb : Stores header index offset len val body)
    (ht : Turns disk offset len P Q body)
    (h0 : offset ≤ 512 * total (pfsEntryExtents header index)) {ok : Bool} {disk' : Disk}
    (he : chunkLoop 512 (fun copied => usize (offset + copied)) body len len 0 disk = (ok, disk')) :
    ∃ m, offset ≤ m ∧ m ≤ offset + len ∧ m ≤ 512 * total (pfsEntryExtents header index) ∧
      OnlySectors disk disk' ∧
      Writes (pfsEntryExtents header index) offset m val disk.sectors disk'.sectors ∧
      (ok = true → m = offset + len) ∧ (∀ q, offset ≤ q → q < m → P (q / 512)) ∧
      (ok = false → m < offset + len ∧ Q (m / 512)) := by
  have htot := total_lt h hi hf
  let I : ℕ → Disk → Prop := fun copied d =>
    offset + copied ≤ 512 * total (pfsEntryExtents header index) ∧ OnlySectors disk d ∧
      Writes (pfsEntryExtents header index) offset (offset + copied) val disk.sectors d.sectors ∧
      (∀ q, offset ≤ q → q < offset + copied → P (q / 512)) ∧
      (copied = 0 ∨ (offset + copied) % 512 = 0 ∨ copied = len)
  have hloop : (ok = true → I len disk') ∧
      (ok = false → ∃ copied < len, I copied disk' ∧ Q ((offset + copied) / 512)) := by
    refine chunkLoop_spec (I := I)
      (F := fun d => ∃ copied < len, I copied d ∧ Q ((offset + copied) / 512)) (by omega) he
      ⟨h0, .refl _, .refl _ _, fun q hq hq' => by omega, Or.inl rfl⟩ fun copied count d hI hlt hc => ?_
    obtain ⟨h₁, h₂, h₃, h₄, h₅⟩ := hI
    rw [show usize (offset + copied) = offset + copied from usize_of_lt (by omega)] at hc
    obtain ⟨hP, hQ⟩ := ht copied count d h₂ (by omega) hlt (by omega) hc
    rcases hb copied count d (by omega) (by omega) (by omega) with ⟨hno, hd⟩ | ⟨lba, b, hl, hbyte, hd⟩
    · rw [hno, hd]
      exact ⟨nofun, fun _ => ⟨copied, hlt, ⟨h₁, h₂, h₃, h₄, h₅⟩, hQ hno⟩⟩
    · rw [lba_of_position h hi hf (by omega)] at hl
      rw [lba28_of_nth h hi hf hl] at hbyte hd
      have hsec := lt_total_of_nth hl
      have hone := writes_block (m := d.sectors) (h.spread hi hf) (by omega) hl
        (c := count) (by omega) hbyte
      rw [Nat.add_assoc] at hone
      rw [hd] at hP ⊢
      refine ⟨fun _ => ⟨by omega, h₂.trans rfl, h₃.trans hone (by omega) (by omega),
        fun q hq hq' => ?_, by omega⟩, nofun⟩
      by_cases hold : q < offset + copied
      · exact h₄ q hq hold
      · -- the turn stays in one sector
        rw [show q / 512 = (offset + copied) / 512 by omega]
        exact hP rfl
  cases ok with
  | true =>
    obtain ⟨h₁, h₂, h₃, h₄, -⟩ := hloop.1 rfl
    exact ⟨_, by omega, le_rfl, h₁, h₂, h₃, fun _ => rfl, h₄, nofun⟩
  | false =>
    obtain ⟨copied, hlt, ⟨h₁, h₂, h₃, h₄, -⟩, hq⟩ := hloop.2 rfl
    exact ⟨_, by omega, by omega, h₁, h₂, h₃, nofun, h₄, fun _ => ⟨by omega, hq⟩⟩

/-- The same for a drive of which nothing is known: a part of the range is written if a turn
fails. -/
theorem storeLoop_spec (h : AllocInv header) (hi : index < pfsEntryCount)
    (hf : pfsEntryIsFile header index = true) {offset len : ℕ} {val : ℕ → UInt8}
    {body : ℕ → ℕ → Disk → Bool × Disk} (hb : Stores header index offset len val body)
    (h0 : offset ≤ 512 * total (pfsEntryExtents header index)) {ok : Bool} {disk' : Disk}
    (he : chunkLoop 512 (fun copied => usize (offset + copied)) body len len 0 disk = (ok, disk')) :
    ∃ m, offset ≤ m ∧ m ≤ offset + len ∧ m ≤ 512 * total (pfsEntryExtents header index) ∧
      OnlySectors disk disk' ∧
      Writes (pfsEntryExtents header index) offset m val disk.sectors disk'.sectors ∧
      (ok = true → m = offset + len) := by
  have ht : Turns disk offset len (fun _ => True) (fun _ => True) body :=
    fun _ _ _ _ _ _ _ _ => ⟨fun _ => trivial, fun _ => trivial⟩
  obtain ⟨m, h₁, h₂, h₃, h₄, h₅, h₆, -⟩ := storeLoop_turns h hi hf hb ht h0 he
  exact ⟨m, h₁, h₂, h₃, h₄, h₅, h₆⟩

end File

end Rymos
