import Mathlib.Tactic
import Rymos.Pfs.SizeLimit

/-!
# Writes that take all or nothing

* `FileTook`: the bytes are in the file, and what is outside them is as it was.
* `TakesAll`, `FileFits`: the sizes agree, and the drive takes all sectors of the write or not the first.
* **`writeFile_took`**: then a write takes all its bytes, or it is refused and takes none.
-/

namespace Rymos

open ByteBuf Extents Blocks

/-- The file of entry `i` has `taken` at `offset`, and is as before outside; so are the other files. -/
structure FileTook (disk disk' : Disk) (i offset : ℕ) (taken : List UInt8) : Prop where
  bytes : ∀ k < taken.length, offset + k < diskSize disk' i ∧
    fileByte disk' i (offset + k) = taken.getD k 0
  rest : ∀ p < diskSize disk i, p < offset ∨ offset + taken.length ≤ p →
    p < diskSize disk' i ∧ fileByte disk' i p = fileByte disk i p
  size_le : diskSize disk' i ≤ max (diskSize disk i) (offset + taken.length)
  others : ∀ j < pfsEntryCount, j ≠ i → pfsEntryIsFile (diskHeader disk) j = true →
    diskSize disk' j = diskSize disk j ∧ ∀ p, fileByte disk' j p = fileByte disk j p

/-- The drive takes each sector of a write of `len` bytes, where `mid` has room for it. -/
def TakesAll (disk mid : Disk) (i offset len : ℕ) : Prop :=
  ∀ q, min (diskSize disk i) offset ≤ q → q < offset + len →
    Accepts mid (pfsEntryExtents (diskHeader mid) i) (min (diskSize disk i) offset) offset (q / 512)

/-- Once there is room for the write: if the drive takes all of it, the size in the descriptor is not out
of date at its end; if it takes the first sector of a write below the end of the file, it takes all. -/
structure FileFits (disk : Disk) (handle : AppFd) (data : List UInt8) (now : ℕ) : Prop where
  sized : ∀ mid, pfsEnsureFileCapacity disk handle.pfsIndex
      (usize (writeOffset handle + data.length)) now = some (true, mid) →
    TakesAll disk mid handle.pfsIndex (writeOffset handle) data.length →
      (data ≠ [] → writeOffset handle + data.length ≤ handle.len →
        writeOffset handle + data.length ≤ diskSize disk handle.pfsIndex) ∧
      (handle.len < writeOffset handle + data.length →
        diskSize disk handle.pfsIndex ≤ writeOffset handle + data.length)
  whole : ∀ mid, pfsEnsureFileCapacity disk handle.pfsIndex
      (usize (writeOffset handle + data.length)) now = some (true, mid) →
    writeOffset handle < diskSize disk handle.pfsIndex →
      Accepts mid (pfsEntryExtents (diskHeader mid) handle.pfsIndex) (writeOffset handle)
        (writeOffset handle) (writeOffset handle / 512) →
      TakesAll disk mid handle.pfsIndex (writeOffset handle) data.length

section Took

variable {disk mid disk' : Disk} {i offset now m : ℕ} {data : List UInt8} {handle : AppFd}

theorem FileTook.refl (disk : Disk) (i offset : ℕ) : FileTook disk disk i offset [] where
  bytes k hk := absurd hk (Nat.not_lt_zero k)
  rest _ hp _ := ⟨hp, rfl⟩
  size_le := le_max_left _ _
  others _ _ _ _ := ⟨rfl, fun _ => rfl⟩

/-- A part of a write changes no size, and no byte of another file. -/
theorem WroteVia.size_same (w : WroteVia disk mid disk' i offset data now m)
    (h : AllocInv (diskHeader disk)) (hi : i < pfsEntryCount) (j : ℕ) :
    diskSize disk' j = diskSize disk j := by
  rw [diskSize, diskSize, w.header h hi]
  by_cases hji : j = i
  · rw [hji, w.room.size_eq hi]
  · exact (w.room.onlyEntry.other hji).size

/-- **A write that stops before the end of the file, or behind it, takes nothing.** -/
theorem WroteVia.tookNone (w : WroteVia disk mid disk' i offset data now m)
    (h : AllocInv (diskHeader disk)) (hi : i < pfsEntryCount)
    (hm : diskSize disk i ≤ offset ∨ m ≤ offset) : FileTook disk disk' i offset [] where
  bytes k hk := absurd hk (Nat.not_lt_zero k)
  rest p hp hout := by
    have hcap := (h.size i hi w.room.file).1
    have hlo := w.lo_le
    rw [w.size_same h hi]
    refine ⟨hp, w.fileByte_out h hi ?_ (hp.trans_le hcap)⟩
    rw [List.length_nil] at hout
    rcases hm with hle | hle <;> omega
  size_le := by
    rw [w.size_same h hi]
    exact le_max_left _ _
  others j hj hne hf := ⟨w.size_same h hi j, w.fileByte_other h hi hj hne hf⟩

/-- **A write within the file.** -/
theorem WroteVia.tookWithin (w : WroteVia disk mid disk' i offset data now (offset + data.length))
    (h : AllocInv (diskHeader disk)) (hi : i < pfsEntryCount)
    (hle : data ≠ [] → offset + data.length ≤ diskSize disk i) :
    FileTook disk disk' i offset data where
  bytes k hk := by
    have hend := hle (List.ne_nil_of_length_pos (Nat.zero_lt_of_lt hk))
    rw [w.size_same h hi, w.fileByte_in h hi (by omega) (by omega), writeVal, if_neg (by omega)]
    exact ⟨by omega, by rw [Nat.add_sub_cancel_left]⟩
  rest p hp hout := by
    have hcap := (h.size i hi w.room.file).1
    rw [w.size_same h hi]
    exact ⟨hp, w.fileByte_out h hi (by omega) (hp.trans_le hcap)⟩
  size_le := by
    rw [w.size_same h hi]
    exact le_max_left _ _
  others j hj hne hf := ⟨w.size_same h hi j, w.fileByte_other h hi hj hne hf⟩

/-- **A write that stores a new size.** -/
theorem WroteVia.tookGrown (w : WroteVia disk mid disk' i offset data now (offset + data.length))
    (h : AllocInv (diskHeader disk)) (hi : i < pfsEntryCount)
    (hle : diskSize disk i ≤ offset + data.length) (now' : ℕ) :
    FileTook disk (withHeader disk' (pfsStoreSize (diskHeader disk') i (offset + data.length) now'))
      i offset data := by
  have hinv := w.allocInv h hi
  have hfile := w.onlyEntry h hi
  obtain ⟨-, hmax, hf, -⟩ := w.end_le h hi
  have hbyte := fileByte_pfsStoreSize hinv hi hi hf (offset + data.length) now'
  have hsize : diskSize (withHeader disk' (pfsStoreSize (diskHeader disk') i (offset + data.length) now')) i = _ :=
    diskSize_pfsStoreSize hi hmax
  refine ⟨fun k hk => ?_, fun p hp hout => ?_, ?_, fun j hj hne hfj => ⟨?_, fun p => ?_⟩⟩
  · rw [hsize, hbyte, w.fileByte_in h hi (by omega) (by omega), writeVal, if_neg (by omega)]
    exact ⟨by omega, by rw [Nat.add_sub_cancel_left]⟩
  · have hcap := (h.size i hi w.room.file).1
    rw [hsize, hbyte]
    exact ⟨by omega, w.fileByte_out h hi (by omega) (hp.trans_le hcap)⟩
  · rw [hsize]
    exact le_max_right _ _
  · rw [← w.size_same h hi j, diskSize, diskHeader_withHeader]
    exact ((onlyEntry_pfsStoreSize (diskHeader disk') _ _).other hne).size
  · have hfj' : pfsEntryIsFile (diskHeader disk') j = true := by
      rw [← hfj]
      rw [pfsEntryIsFile, pfsEntryIsFile, SameBytes.used (hfile.other hne), SameBytes.isDir (hfile.other hne)]
    rw [fileByte_pfsStoreSize hinv hi hj hfj', w.fileByte_other h hi hj hne hfj]

/-- The header stays readable. -/
theorem WroteVia.readable (w : WroteVia disk mid disk' i offset data now m)
    (h : AllocInv (diskHeader disk)) (hn : NamesInv (diskHeader disk)) (hi : i < pfsEntryCount)
    (hh : readHeaderSilent disk = some (diskHeader disk)) :
    readHeaderSilent mid = some (diskHeader mid) ∧ readHeaderSilent disk' = some (diskHeader disk') := by
  have hmid : NamesInv (diskHeader mid) :=
    hn.write ⟨hi, w.room.onlyEntry, fun hu => .inl ⟨w.room.used hi ▸ hu, w.room.name_eq hi⟩⟩
  have hread : mid.readOk = disk.readOk := by rw [w.only_mid]
  have hread' : disk'.readOk = mid.readOk := by rw [w.only]
  have hm := readHeaderSilent_congr hread (hmid.magic.trans hn.magic.symm) hh
  exact ⟨hm, readHeaderSilent_congr hread' (by rw [w.header h hi]) hm⟩

/-- **A write takes all its bytes or none**, if the drive does so at the end of the file. -/
theorem pfsWriteAt_took (hw : HeaderWritable disk) (h : AllocInv (diskHeader disk))
    (hn : NamesInv (diskHeader disk)) (hi : i < pfsEntryCount)
    (hwhole : ∀ mid, pfsEnsureFileCapacity disk i (usize (offset + data.length)) now = some (true, mid) →
      offset < diskSize disk i →
        Accepts mid (pfsEntryExtents (diskHeader mid) i) offset offset (offset / 512) →
        TakesAll disk mid i offset data.length) :
    ∃ ok disk', pfsWriteAt disk i offset data now = some (ok, disk') ∧
      (ok = false → FileTook disk disk' i offset []) ∧
      (ok = true → ∃ mid, pfsEnsureFileCapacity disk i (usize (offset + data.length)) now =
          some (true, mid) ∧ TakesAll disk mid i offset data.length ∧
        WroteVia disk mid disk' i offset data now (offset + data.length) ∧
        readHeaderSilent disk' = some (diskHeader disk')) := by
  by_cases hmax : usize (offset + data.length) ≤ pfsFileMax
  swap
  · refine ⟨false, disk, ?_, fun _ => .refl _ _ _, fun hc => by cases hc⟩
    rw [pfsWriteAt]
    exact if_pos (not_le.mp hmax)
  cases hh : readHeaderSilent disk with
  | none =>
    refine ⟨false, disk, ?_, fun _ => .refl _ _ _, fun hc => by cases hc⟩
    rw [pfsWriteAt, hh]
    simp
  | some header =>
    obtain ⟨rfl, -⟩ := readHeaderSilent_eq_some hh
    by_cases hf : pfsEntryIsFile (diskHeader disk) i = true
    swap
    · exact ⟨false, disk, pfsWriteAt_noRoom hh (pfsEnsureFileCapacity_noFile hh (Bool.not_eq_true _ ▸ hf)),
        fun _ => .refl _ _ _, fun hc => by cases hc⟩
    rcases @pfsEnsureFileCapacity_cases _ _ _ (usize (offset + data.length)) now hw hh h hn.fit hi hf with
      ⟨-, mid, hc⟩ | ⟨-, hc⟩
    swap
    · exact ⟨false, disk, pfsWriteAt_noRoom hh hc, fun _ => .refl _ _ _, fun hc => by cases hc⟩
    obtain ⟨⟨ok, disk'⟩, he⟩ := Option.isSome_iff_exists.mp
      (pfsWriteAt_isSome (Option.isSome_iff_exists.mpr ⟨_, hc⟩))
    obtain ⟨m, w, hok, hreach⟩ := pfsWriteAt_room hw h hi hh hmax hc he
    obtain ⟨hmid, hread⟩ := w.readable h hn hi hh
    obtain ⟨hacc, hstop⟩ := hreach hmid
    refine ⟨ok, disk', he, fun hno => w.tookNone h hi ?_, fun hyes => ?_⟩
    · -- below the end of the file the first sector was not taken
      obtain ⟨hlt, hnot⟩ := hstop hno
      by_contra hout
      obtain ⟨hsize, hm⟩ := not_or.mp hout
      have hmin : min (diskSize disk i) offset = offset := min_eq_right (by omega)
      have hfirst := hacc offset (by omega) (by omega)
      rw [hmin] at hfirst
      exact hnot (hwhole mid hc (by omega) hfirst m w.lo_le hlt)
    · obtain rfl := hok hyes
      exact ⟨mid, hc, hacc, w, hread⟩

/-- What a write through a descriptor leaves: all its bytes, or none if it is refused. -/
def TookReply (disk disk' : Disk) (handle : AppFd) (data : List UInt8) (r : Reply ℕ) : Prop :=
  (r = .done data.length ∧ FileTook disk disk' handle.pfsIndex (writeOffset handle) data) ∨
    r = .refused ∧ FileTook disk disk' handle.pfsIndex (writeOffset handle) []

/-- **A write through a descriptor takes all its bytes, or it is refused and takes none.** -/
theorem writeFile_took {sys : Sys} {d : ℕ} {t : ℕ → ℕ} (hw : HeaderWritable sys.disk)
    (h : AllocInv (diskHeader sys.disk)) (hn : NamesInv (diskHeader sys.disk))
    (hi : handle.pfsIndex < pfsEntryCount) (hfits : FileFits sys.disk handle data (t 0)) :
    ∃ sys' r, writeFile (sys.setFd d { handle with offset := writeOffset handle }) d
        { handle with offset := writeOffset handle } data t = some (sys', r) ∧
      sys'.pipes = sys.pipes ∧ TookReply sys.disk sys'.disk handle data r := by
  obtain ⟨ok, disk', he, hno, hyes⟩ := pfsWriteAt_took hw h hn hi hfits.whole
  rw [writeFile]
  dsimp only [setFd_disk]
  by_cases hmax : usize (writeOffset handle + data.length) > pfsFileMax
  · rw [if_pos hmax]
    exact ⟨_, _, rfl, rfl, .inr ⟨rfl, .refl _ _ _⟩⟩
  rw [if_neg hmax, he]
  cases ok with
  | false => exact ⟨_, _, rfl, rfl, .inr ⟨rfl, hno rfl⟩⟩
  | true =>
    obtain ⟨mid, hc, hall, w, hread⟩ := hyes rfl
    obtain ⟨hsized, hgrown⟩ := hfits.sized mid hc hall
    dsimp only
    rw [(w.end_le h hi).1]
    by_cases hlt : writeOffset handle + data.length > handle.len
    · have hused : pfsEntryUsed (diskHeader disk') handle.pfsIndex = true := by
        rw [w.header h hi]
        exact (pfsEntryIsFile_iff.mp (w.room.file' hi)).1
      have hw' := w.only.headerWritable (w.only_mid.headerWritable hw)
      have hup : pfsUpdateSize disk' handle.pfsIndex (writeOffset handle + data.length) (t 1) =
          (true, withHeader disk' (pfsStoreSize (diskHeader disk') handle.pfsIndex
            (writeOffset handle + data.length) (t 1))) := by
        rw [pfsUpdateSize, hread]
        dsimp only
        rw [hused, if_neg (by simp), writeHeader_spec hw']
      rw [if_pos hlt, setDisk_disk, hup]
      exact ⟨_, _, rfl, rfl, .inl ⟨rfl, w.tookGrown h hi (hgrown hlt) _⟩⟩
    · rw [if_neg hlt]
      exact ⟨_, _, rfl, rfl, .inl ⟨rfl, w.tookWithin h hi fun hne => hsized hne (not_lt.mp hlt)⟩⟩

end Took

end Rymos
