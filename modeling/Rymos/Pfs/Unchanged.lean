import Mathlib.Tactic
import Rymos.Pfs.DiskFull

/-!
# Calls that fail

* `FileView`, `fsView`: what the disk holds: the names, kinds, sizes and bytes of its entries.
* `fsCall`: a step with its success. `sysStep_eq_fsCall`.
* `OpenStores`, `MakesFile`: an open that creates or empties a file, a `pwrite` that makes one.
  `ChecksFirst`: the call finds what it needs after its first write.
* `FailsClean`, `NoFault`, **`failsClean_iff`**: a call that fails, and not by a fault of the drive,
  leaves the view as it was just when it checks first. **`not_failsClean_fullSys`**.
-/

namespace Rymos

open ByteBuf Extents Blocks Transition

/-! ## The view -/

/-- What one can see of an entry. -/
structure FileView where
  name : List UInt8
  isDir : Bool
  size : ℕ
  content : List UInt8

/-- Entry `i` as one can see it. -/
def entryView (disk : Disk) (i : ℕ) : FileView where
  name := pfsEntryName (diskHeader disk) i
  isDir := pfsEntryIsDir (diskHeader disk) i
  size := diskSize disk i
  content := (List.range (diskSize disk i)).map (fileByte disk i)

/-- The names, kinds, sizes and contents on the disk. -/
def fsView (disk : Disk) : Set FileView :=
  {v | ∃ i < pfsEntryCount, pfsEntryUsed (diskHeader disk) i = true ∧ v = entryView disk i}

section View

variable {disk disk' : Disk} {i : ℕ}

/-- The view is that of the used entries. -/
theorem fsView_congr
    (hu : ∀ j < pfsEntryCount, pfsEntryUsed (diskHeader disk') j = pfsEntryUsed (diskHeader disk) j)
    (hv : ∀ j < pfsEntryCount, pfsEntryUsed (diskHeader disk) j = true →
      entryView disk' j = entryView disk j) : fsView disk' = fsView disk := by
  ext v
  refine exists_congr fun j => and_congr_right fun hj => ?_
  rw [hu j hj]
  exact and_congr_right fun huj => by rw [hv j hj huj]

/-- The header part of an entry, and its bytes. -/
theorem entryView_congr {j : ℕ}
    (hn : pfsEntryName (diskHeader disk') j = pfsEntryName (diskHeader disk) j)
    (hd : pfsEntryIsDir (diskHeader disk') j = pfsEntryIsDir (diskHeader disk) j)
    (hs : diskSize disk' j = diskSize disk j)
    (hb : ∀ p < diskSize disk j, fileByte disk' j p = fileByte disk j p) :
    entryView disk' j = entryView disk j := by
  rw [entryView, entryView, hn, hd, hs,
    List.map_congr_left fun p hp => hb p (List.mem_range.mp hp)]

/-- A write behind the end of a file is not seen. -/
theorem fsView_of_beyond {mid : Disk} {offset now m : ℕ} {data : List UInt8}
    (w : WroteVia disk mid disk' i offset data now m) (h : AllocInv (diskHeader disk))
    (hn : NamesFit (diskHeader disk)) (hi : i < pfsEntryCount) (hle : diskSize disk i ≤ offset) :
    fsView disk' = fsView disk := by
  have hroom := w.room
  rw [← w.header h hi] at hroom
  have ho := w.onlyEntry h hi
  refine fsView_congr (fun j hj => ?_) fun j hj hu => ?_
  · by_cases hji : j = i
    · rw [hji]
      exact hroom.used hi
    · exact (ho.other hji).used
  · by_cases hji : j = i
    · subst hji
      refine entryView_congr (hroom.name_eq hi) (hroom.isDir hi) (hroom.size_eq hi) fun p hp => ?_
      have hsize : p < 512 * total (pfsEntryExtents (diskHeader disk) j) :=
        lt_of_lt_of_le hp (h.size j hi hroom.file).1
      exact w.fileByte_out h hi (Or.inl (by omega)) hsize
    · have hb := ho.other hji
      have hsize : diskSize disk' j = diskSize disk j := hb.size
      refine entryView_congr (hb.name (hn j hj hu)) hb.isDir hsize fun p hp => ?_
      cases hd : pfsEntryIsDir (diskHeader disk) j with
      | false => exact w.fileByte_other h hi hj hji (pfsEntryIsFile_iff.mpr ⟨hu, hd⟩) p
      | true =>
        rw [fileByte, fileByte, hb.extents, h.dirs j hj hd]
        rfl

end View

/-! ## Writes that fail -/

section Write

variable {sys sys' : Sys} {disk disk' : Disk} {i offset now : ℕ} {data : List UInt8} {t : ℕ → ℕ}

/-- **A write that fails on a drive that never does changes nothing one can see.** -/
theorem fsView_of_pfsWriteAt (hr : Reliable disk) (h : AllocInv (diskHeader disk))
    (hn : NamesInv (diskHeader disk)) (hi : i < pfsEntryCount) (hlen : data.length < 2 ^ 63)
    (he : pfsWriteAt disk i offset data now = some (false, disk')) :
    fsView disk' = fsView disk := by
  rcases pfsWriteAt_spec hr.headerWritable h hi he with ⟨-, rfl⟩ | ⟨mid, m, w, -⟩
  · rfl
  have hf := w.room.file
  have hread := readHeaderSilent_of_reliable hr hn.magic
  have hsize := (h.size i hi hf).2
  rw [pfsFileMax_eq] at hsize
  by_cases hwrap : offset + data.length < 2 ^ 64
  · have hmax := w.max
    rw [usize_of_lt hwrap] at hmax
    rcases @pfsWriteAt_reliable _ _ _ offset now _ hr hread h hn.fit hi hf hmax with
      ⟨-, _, d, -, hw, -⟩ | ⟨-, hw⟩
    · rw [he] at hw
      cases hw
    · rw [he] at hw
      cases hw
      rfl
  · -- the end of the range wraps round, so the offset is far behind the end of the file
    exact fsView_of_beyond w h hn.fit hi (by unfold diskSize; omega)

/-- On a drive that never fails the size is stored. -/
theorem pfsUpdateSize_reliable {size : ℕ} (hr : Reliable disk) (hn : NamesInv (diskHeader disk))
    (hu : pfsEntryUsed (diskHeader disk) i = true) :
    (pfsUpdateSize disk i size now).1 = true := by
  rw [pfsUpdateSize, readHeaderSilent_of_reliable hr hn.magic]
  dsimp only
  rw [hu, if_neg (by simp), writeHeader_spec hr.headerWritable]

theorem fsView_of_writeFile {index : ℕ} {handle : AppFd} {r : Reply ℕ} (hr : Reliable sys.disk)
    (h : AllocInv (diskHeader sys.disk)) (hn : NamesInv (diskHeader sys.disk))
    (hi : handle.pfsIndex < pfsEntryCount) (hlen : data.length < 2 ^ 63)
    (he : writeFile sys index handle data t = some (sys', r)) (hfail : ∀ n, r ≠ .done n) :
    fsView sys'.disk = fsView sys.disk := by
  rw [writeFile] at he
  split_ifs at he
  · cases he
    rfl
  cases hw : pfsWriteAt sys.disk handle.pfsIndex handle.offset data (t 0) with
  | none => rw [hw] at he; cases he
  | some p =>
    obtain ⟨ok, disk⟩ := p
    rw [hw] at he
    cases ok with
    | false =>
      cases he
      exact fsView_of_pfsWriteAt hr h hn hi hlen hw
    | true =>
      -- the data is stored, and so is the size
      rcases pfsWriteAt_spec hr.headerWritable h hi hw with ⟨hc, -⟩ | ⟨mid, m, w, -⟩
      · cases hc
      have hmagic : NamesInv (diskHeader disk) := by
        have hroom := w.room
        rw [← w.header h hi] at hroom
        exact hn.write ⟨hi, hroom.onlyEntry, fun hu => Or.inl ⟨hroom.used hi ▸ hu, hroom.name_eq hi⟩⟩
      have hused : pfsEntryUsed (diskHeader disk) handle.pfsIndex = true := by
        rw [w.header h hi]
        exact (pfsEntryIsFile_iff.mp (w.room.file' hi)).1
      dsimp only at he
      split_ifs at he
      · have hup := fun size => @pfsUpdateSize_reliable _ _ (t 1) size
          (w.only.reliable (w.only_mid.reliable hr)) hmagic hused
        cases hu : pfsUpdateSize disk handle.pfsIndex (usize (handle.offset + data.length)) (t 1) with
        | mk ok last =>
          have hok := hup (usize (handle.offset + data.length))
          rw [hu] at hok
          rw [setFd_disk, setDisk_disk, hu] at he
          cases ok with
          | false => cases hok
          | true =>
            cases he
            exact absurd rfl (hfail _)
      · cases he
        exact absurd rfl (hfail _)

/-- **A write through a descriptor that fails.** -/
theorem fsView_of_abiWriteFd {fd : ℤ} {r : Reply ℕ} (hr : Reliable sys.disk) (hok : FdsOk sys)
    (h : AllocInv (diskHeader sys.disk)) (hn : NamesInv (diskHeader sys.disk))
    (hlen : data.length < 2 ^ 63) (he : abiWriteFd sys fd data t = some (sys', r))
    (hfail : ∀ n, r ≠ .done n) : fsView sys'.disk = fsView sys.disk := by
  rw [abiWriteFd] at he
  split at he
  · cases he
    rfl
  rename_i index _
  dsimp only at he
  split_ifs at he with _ _ hk
  · cases he
    rfl
  · rw [writePipe] at he
    dsimp only at he
    split_ifs at he <;> cases he <;> rfl
  · cases he
    rfl
  all_goals
    refine @fsView_of_writeFile (sys.setFd index _) _ _ _ _ _ _ hr h hn ?_ hlen he hfail
    exact hok index (not_not.mp hk)

end Write

/-! ## Opens that fail -/

/-- The open makes a new entry, or empties a file that has bytes. -/
structure OpenStores (header : Header) (name : List UInt8) (flags : UInt32) : Prop where
  createNew : hasFlag flags fdCreateNew = true → hasFlag flags fdCreate = true
  truncate : hasFlag flags fdTruncate = true → hasFlag flags fdWrite = true
  append : hasFlag flags fdAppend = true → hasFlag flags fdWrite = true
  parent : pfsParentExists header name = true
  stores : (pfsFindEntry header name = none ∧ hasFlag flags fdCreate = true ∧
      (pfsFreeEntry header).isSome) ∨
    ∃ i, pfsFindEntry header name = some i ∧ pfsEntryIsDir header i = false ∧
      hasFlag flags fdCreateNew = false ∧ hasFlag flags fdTruncate = true ∧
      pfsEntrySize header i ≠ 0

section Open

variable {sys : Sys} {disk disk' : Disk} {i : ℕ} {name : List UInt8} {flags : UInt32} {t : ℕ → ℕ}

theorem fsView_ne_of_new (hnone : pfsFindEntry (diskHeader disk) name = none) (hi : i < pfsEntryCount)
    (hu : pfsEntryUsed (diskHeader disk') i = true)
    (hn : pfsEntryName (diskHeader disk') i = name) : fsView disk' ≠ fsView disk := by
  intro he
  have hmem : entryView disk' i ∈ fsView disk := he ▸ ⟨i, hi, hu, rfl⟩
  obtain ⟨j, hj, huj, hv⟩ := hmem
  exact pfsFindEntry_eq_none.mp hnone j hj huj ((congrArg FileView.name hv).symm.trans hn)

theorem fsView_ne_of_emptied (hn : NamesInv (diskHeader disk)) (hi : i < pfsEntryCount)
    (hf : pfsFindEntry (diskHeader disk) name = some i)
    (he : Emptied (diskHeader disk) (diskHeader disk') i name)
    (hs : pfsEntrySize (diskHeader disk) i ≠ 0) : fsView disk' ≠ fsView disk := by
  intro hv
  obtain ⟨-, hu, hin, -⟩ := pfsFindEntry_eq_some.mp hf
  have hmem : entryView disk' i ∈ fsView disk := hv ▸ ⟨i, hi, (pfsEntryIsFile_iff.mp he.file).1, rfl⟩
  obtain ⟨j, hj, huj, hjv⟩ := hmem
  have hname : pfsEntryName (diskHeader disk) j = name :=
    (congrArg FileView.name hjv).symm.trans he.name_eq
  have hsize : pfsEntrySize (diskHeader disk) j = 0 :=
    (congrArg FileView.size hjv).symm.trans he.size
  obtain rfl : j = i := hn.distinct j hj i hi huj hu (hname.trans hin.symm)
  exact hs hsize

/-- To empty a file that is empty is not seen. -/
theorem fsView_of_emptied (h : AllocInv (diskHeader disk)) (hn : NamesInv (diskHeader disk))
    (hf : pfsFindEntry (diskHeader disk) name = some i)
    (hfile : pfsEntryIsDir (diskHeader disk) i = false) {h' : Header}
    (he : Emptied (diskHeader disk) h' i name) (hs : pfsEntrySize (diskHeader disk) i = 0) :
    fsView (withHeader disk h') = fsView disk := by
  obtain ⟨-, hu, hin, -⟩ := pfsFindEntry_eq_some.mp hf
  obtain ⟨hu', hd'⟩ := pfsEntryIsFile_iff.mp he.file
  have hhead : diskHeader (withHeader disk h') = h' := diskHeader_withHeader
  refine fsView_congr (fun j _ => ?_) fun j hj huj => ?_
  · rw [hhead]
    by_cases hji : j = i
    · rw [hji, hu, hu']
    · exact (he.only.other hji).used
  · by_cases hji : j = i
    · subst hji
      refine entryView_congr ?_ ?_ ?_ fun p hp => ?_
      · rw [hhead, he.name_eq, hin]
      · rw [hhead, hd', hfile]
      · rw [diskSize, diskSize, hhead, he.size, hs]
      · rw [diskSize, hs] at hp
        omega
    · have hb := he.only.other hji
      refine entryView_congr ?_ ?_ ?_ fun p _ => ?_
      · rw [hhead, hb.name (hn.fit j hj huj)]
      · rw [hhead, hb.isDir]
      · rw [diskSize, diskSize, hhead, hb.size]
      · rw [fileByte, fileByte, hhead, hb.extents]
        cases hd : pfsEntryIsDir (diskHeader disk) j with
        | true =>
          rw [h.dirs j hj hd]
          rfl
        | false =>
          exact byteAt_congr (fun x hx => sectors_withHeader
            (h.inside hj (pfsEntryIsFile_iff.mpr ⟨huj, hd⟩) hx).1) p

theorem openPfsFd_outcome (header : Header) :
    (openPfsFd sys header i flags).1.disk = sys.disk ∧
      (openPfsFd sys header i flags).2.isDone = (freeFd sys).isSome := by
  rw [openPfsFd]
  dsimp only
  cases freeFd sys <;> exact ⟨rfl, rfl⟩

/-- An open that has come to an entry it has made or may empty. -/
theorem openPfsTruncate_outcome {header : Header} (hr : Reliable sys.disk) :
    (openPfsTruncate sys header i name flags t).2.isDone = (freeFd sys).isSome ∧
      (openPfsTruncate sys header i name flags t).1.disk =
        if hasFlag flags fdTruncate then
          withHeader sys.disk (truncateHeader header i name (t 2))
        else sys.disk := by
  rw [openPfsTruncate]
  split_ifs
  · dsimp only
    rw [writeHeader_spec hr.headerWritable]
    obtain ⟨hd, hdone⟩ := @openPfsFd_outcome (sys.setDisk (withHeader sys.disk
      (truncateHeader header i name (t 2)))) i flags
      (truncateHeader header i name (t 2))
    exact ⟨hdone, hd⟩
  · obtain ⟨hd, hdone⟩ := @openPfsFd_outcome sys i flags header
    exact ⟨hdone, hd⟩

/-- The end of an open on an entry `i` that is there already. -/
theorem failsClean_existing (hr : Reliable sys.disk) (h : AllocInv (diskHeader sys.disk))
    (hn : NamesInv (diskHeader sys.disk)) (hv : validPfsPath name = true)
    (hf : pfsFindEntry (diskHeader sys.disk) name = some i)
    (hd : pfsEntryIsDir (diskHeader sys.disk) i = false) :
    ((openPfsTruncate sys (diskHeader sys.disk) i name flags t).2.isDone = false →
      fsView (openPfsTruncate sys (diskHeader sys.disk) i name flags t).1.disk = fsView sys.disk) ↔
      (hasFlag flags fdTruncate = true ∧ pfsEntrySize (diskHeader sys.disk) i ≠ 0 →
        (freeFd sys).isSome) := by
  obtain ⟨hdone, hdisk⟩ := @openPfsTruncate_outcome sys i name flags t (diskHeader sys.disk) hr
  have hi := (pfsFindEntry_eq_some.mp hf).1
  rw [hdone, hdisk]
  cases (freeFd sys).isSome with
  | true => exact iff_of_true nofun fun _ => rfl
  | false =>
    by_cases ht : hasFlag flags fdTruncate = true
    · rw [if_pos ht]
      have he : Emptied (diskHeader sys.disk) (truncateHeader (diskHeader sys.disk) i name (t 2)) i
          name := emptied_pfsSetEntry hi (length_of_validPfsPath hv).2
      by_cases hs : pfsEntrySize (diskHeader sys.disk) i = 0
      · exact iff_of_true (fun _ => fsView_of_emptied h hn hf hd he hs) fun hc => absurd hs hc.2
      · refine iff_of_false (fun hc => ?_) fun hc => Bool.false_ne_true (hc ⟨ht, hs⟩)
        refine fsView_ne_of_emptied hn hi hf ?_ hs (hc rfl)
        rwa [diskHeader_withHeader]
    · rw [if_neg ht]
      exact iff_of_true (fun _ => rfl) fun hc => absurd hc.1 ht

/-- The end of an open on an entry `i` that is new. -/
theorem failsClean_new (hr : Reliable sys.disk) (hv : validPfsPath name = true)
    (hi : i < pfsEntryCount) (hf : pfsFindEntry (diskHeader sys.disk) name = none) {h' : Header}
    (he : Emptied (diskHeader sys.disk) h' i name) :
    ((openPfsTruncate (sys.setDisk (withHeader sys.disk h')) h' i name flags t).2.isDone = false →
      fsView (openPfsTruncate (sys.setDisk (withHeader sys.disk h')) h' i name flags t).1.disk =
        fsView sys.disk) ↔ ((freeFd sys).isSome = true) := by
  have hr' : Reliable (sys.setDisk (withHeader sys.disk h')).disk := hr
  obtain ⟨hdone, hdisk⟩ := @openPfsTruncate_outcome _ i name flags t h' hr'
  have hfree : freeFd (sys.setDisk (withHeader sys.disk h')) = freeFd sys := rfl
  rw [hdone, hdisk, hfree]
  cases (freeFd sys).isSome with
  | true => exact iff_of_true nofun rfl
  | false =>
    refine iff_of_false (fun hc => ?_) Bool.false_ne_true
    have hlast : Emptied (diskHeader sys.disk) (diskHeader (if hasFlag flags fdTruncate = true then
        withHeader (withHeader sys.disk h') (truncateHeader h' i name (t 2))
        else withHeader sys.disk h')) i name := by
      split_ifs
      · rw [diskHeader_withHeader]
        exact he.trans (emptied_pfsSetEntry hi (length_of_validPfsPath hv).2)
      · rwa [diskHeader_withHeader]
    exact fsView_ne_of_new hf hi (pfsEntryIsFile_iff.mp hlast.file).1 hlast.name_eq (hc rfl)

/-- **An open that fails changes nothing one can see just when a descriptor is free for what it
stores.** -/
theorem failsClean_abiOpenPfs (hr : Reliable sys.disk) (h : AllocInv (diskHeader sys.disk))
    (hn : NamesInv (diskHeader sys.disk)) (hv : validPfsPath name = true) :
    ((abiOpenPfs sys name flags t).2.isDone = false →
      fsView (abiOpenPfs sys name flags t).1.disk = fsView sys.disk) ↔
      (OpenStores (diskHeader sys.disk) name flags → (freeFd sys).isSome) := by
  rw [abiOpenPfs, hv, if_neg (by simp)]
  -- the checks come before the first write
  by_cases h₁ : hasFlag flags fdCreateNew && !hasFlag flags fdCreate
  · rw [if_pos h₁]
    simp only [Bool.and_eq_true, Bool.not_eq_true'] at h₁
    exact iff_of_true (fun _ => rfl) fun hc => absurd (hc.createNew h₁.1) (by simp [h₁.2])
  rw [if_neg h₁]
  by_cases h₂ : hasFlag flags fdTruncate && !hasFlag flags fdWrite
  · rw [if_pos h₂]
    simp only [Bool.and_eq_true, Bool.not_eq_true'] at h₂
    exact iff_of_true (fun _ => rfl) fun hc => absurd (hc.truncate h₂.1) (by simp [h₂.2])
  rw [if_neg h₂]
  by_cases h₃ : hasFlag flags fdAppend && !hasFlag flags fdWrite
  · rw [if_pos h₃]
    simp only [Bool.and_eq_true, Bool.not_eq_true'] at h₃
    exact iff_of_true (fun _ => rfl) fun hc => absurd (hc.append h₃.1) (by simp [h₃.2])
  rw [if_neg h₃, readHeaderSilent_of_reliable hr hn.magic]
  dsimp only
  by_cases hp : pfsParentExists (diskHeader sys.disk) name = true
  swap
  · rw [if_pos (by simpa using hp)]
    exact iff_of_true (fun _ => rfl) fun hc => absurd hc.parent hp
  rw [hp, if_neg (by simp), openEntry]
  have hflags : ∀ a b : Bool, ¬ (a && !b) = true → a = true → b = true := by decide
  cases hf : pfsFindEntry (diskHeader sys.disk) name with
  | some i =>
    dsimp only
    by_cases hd : pfsEntryIsDir (diskHeader sys.disk) i = true
    · rw [if_pos hd]
      refine iff_of_true (fun _ => rfl) fun hc => ?_
      rcases hc.stores with ⟨hnone, -⟩ | ⟨j, hj, hjd, -⟩
      · cases hf.symm.trans hnone
      · cases hf.symm.trans hj
        rw [hd] at hjd
        cases hjd
    rw [if_neg hd]
    by_cases hnew : hasFlag flags fdCreateNew = true
    · rw [if_pos hnew]
      refine iff_of_true (fun _ => rfl) fun hc => ?_
      rcases hc.stores with ⟨hnone, -⟩ | ⟨j, -, -, hjn, -⟩
      · cases hf.symm.trans hnone
      · rw [hnew] at hjn
        cases hjn
    rw [if_neg hnew]
    dsimp only
    rw [failsClean_existing hr h hn hv hf (by simpa using hd)]
    refine imp_congr ⟨fun hs => ?_, fun hs => ?_⟩ Iff.rfl
    · exact ⟨hflags _ _ h₁, hflags _ _ h₂, hflags _ _ h₃, hp,
        Or.inr ⟨i, hf, by simpa using hd, by simpa using hnew, hs.1, hs.2⟩⟩
    · rcases hs.stores with ⟨hnone, -⟩ | ⟨j, hj, -, -, ht, hz⟩
      · cases hf.symm.trans hnone
      · cases hf.symm.trans hj
        exact ⟨ht, hz⟩
  | none =>
    dsimp only
    by_cases hc : hasFlag flags fdCreate = true
    swap
    · rw [if_neg hc]
      refine iff_of_true (fun _ => rfl) fun hs => ?_
      rcases hs.stores with ⟨-, hcr, -⟩ | ⟨j, hj, -⟩
      · exact absurd hcr hc
      · cases hf.symm.trans hj
    rw [if_pos hc]
    cases hfree : pfsFreeEntry (diskHeader sys.disk) with
    | none =>
      refine iff_of_true (fun _ => rfl) fun hs => ?_
      rcases hs.stores with ⟨-, -, hsome⟩ | ⟨j, hj, -⟩
      · rw [hfree] at hsome
        cases hsome
      · cases hf.symm.trans hj
    | some i =>
      have hi := (pfsFreeEntry_spec hfree).1
      dsimp only
      rw [writeHeader_spec hr.headerWritable]
      dsimp only
      rw [failsClean_new hr hv hi hf (emptied_pfsSetEntry hi (length_of_validPfsPath hv).2)]
      have hs : OpenStores (diskHeader sys.disk) name flags :=
        ⟨hflags _ _ h₁, hflags _ _ h₂, hflags _ _ h₃, hp, Or.inl ⟨hf, hc, by rw [hfree]; rfl⟩⟩
      exact ⟨fun hsome _ => hsome, fun hsome => hsome hs⟩

end Open

/-! ## `pwrite` -/

/-- The `pwrite` makes a new entry. -/
structure MakesFile (header : Header) (name : List UInt8) (len : ℕ) : Prop where
  valid : validPfsPath name = true
  fits : len ≤ pfsFileMax
  parent : pfsParentExists header name = true
  absent : pfsFindEntry header name = none
  slot : (pfsFreeEntry header).isSome

section Console

variable {disk : Disk} {header : Header} {i : ℕ} {name data : List UInt8} {t : ℕ → ℕ}

theorem emptied_newFileHeader (hv : validPfsPath name = true) (hfree : pfsFreeEntry header = some i) :
    Emptied header (newFileHeader header i name t) i name :=
  emptied_pfsSetEntry (pfsFreeEntry_spec hfree).1 (length_of_validPfsPath hv).2

/-- A new entry covers no sector. -/
theorem freeSector_newFileHeader (hv : validPfsPath name = true)
    (hfree : pfsFreeEntry header = some i) :
    FreeSector (newFileHeader header i name t) = FreeSector header := by
  have he := emptied_newFileHeader (t := t) hv hfree
  have hu := (pfsFreeEntry_spec hfree).2
  funext x
  refine propext (and_congr_right fun _ => and_congr_right fun _ => forall₂_congr fun j _ => ?_)
  by_cases hji : j = i
  · rw [hji, he.extents, hu]
    exact iff_of_true (fun _ => covers_nil x) nofun
  · rw [(he.only.other hji).used, (he.only.other hji).extents]

/-- A new entry has room just when the first four runs of the data area suffice. -/
theorem firstRunsSuffice_newFileHeader (hv : validPfsPath name = true)
    (hfree : pfsFreeEntry header = some i) (size : ℕ) :
    FirstRunsSuffice (newFileHeader header i name t) i size ↔
      Takes (FreeSector header) pfsDataStart (sectorsForLen size) pfsMaxExtents := by
  have he := emptied_newFileHeader (t := t) hv hfree
  rw [FirstRunsSuffice, he.extents, freeSector_newFileHeader hv hfree, runBudget_nil,
    pfsEntryTotalSectors, he.extents]
  rfl

/-- **A `pwrite` that fails changes nothing one can see just when there is room for what it makes.** -/
theorem failsClean_persistentWrite (hr : Reliable disk) (h : AllocInv (diskHeader disk))
    (hn : NamesInv (diskHeader disk)) :
    (∀ disk' line, persistentWrite disk name data t = some (disk', line) → (line == "ok") = false →
      fsView disk' = fsView disk) ↔
      (MakesFile (diskHeader disk) name data.length →
        Takes (FreeSector (diskHeader disk)) pfsDataStart (sectorsForLen data.length)
          pfsMaxExtents) := by
  have hread := readHeaderSilent_of_reliable hr hn.magic
  -- a call that leaves the disk
  have same : ∀ line, persistentWrite disk name data t = some (disk, line) →
      ∀ disk' line, persistentWrite disk name data t = some (disk', line) → (line == "ok") = false →
        fsView disk' = fsView disk := fun _ he disk' line he' _ => by
    cases he.symm.trans he'
    rfl
  by_cases hv : validPfsPath name = true
  swap
  · exact iff_of_true (same "pwrite: invalid name"
      (by rw [persistentWrite, if_pos (by simpa using hv)])) fun hm => absurd hm.valid hv
  by_cases hmax : data.length ≤ pfsFileMax
  swap
  · refine iff_of_true (same "pwrite: file too large" ?_) fun hm => absurd hm.fits hmax
    rw [persistentWrite, if_neg (by simpa using hv), if_pos (not_le.mp hmax)]
  by_cases hp : pfsParentExists (diskHeader disk) name = true
  swap
  · refine iff_of_true (same "pwrite: parent directory missing" ?_) fun hm => absurd hm.parent hp
    rw [persistentWrite, if_neg (by simpa using hv), if_neg (not_lt.mpr hmax), readHeader,
      if_pos hr.1, hread]
    dsimp only
    rw [if_pos (by simpa using hp)]
  cases hf : pfsFindEntry (diskHeader disk) name with
  | some i =>
    have habsent : ¬ MakesFile (diskHeader disk) name data.length := fun hm => by
      cases hf.symm.trans hm.absent
    refine iff_of_true (fun disk' line he hl => ?_) fun hm => absurd hm habsent
    rw [persistentWrite, if_neg (by simpa using hv), if_neg (not_lt.mpr hmax), readHeader,
      if_pos hr.1, hread] at he
    dsimp only at he
    rw [hp, if_neg (by simp), hf] at he
    dsimp only at he
    split_ifs at he with hd
    · cases he
      rfl
    · obtain ⟨hi, hu, -⟩ := pfsFindEntry_eq_some.mp hf
      have hfile := pfsEntryIsFile_iff.mpr ⟨hu, by simpa using hd⟩
      rcases persistentFill_cases (t := t) hr hread h hn.fit hi hfile hmax with
        ⟨-, _, d, -, hfill, -⟩ | ⟨-, hfill⟩
      · cases hfill.symm.trans he
        cases hl
      · cases hfill.symm.trans he
        rfl
  | none =>
    cases hfree : pfsFreeEntry (diskHeader disk) with
    | none =>
      refine iff_of_true (same "pwrite: filesystem full" ?_) fun hm => ?_
      · rw [persistentWrite, if_neg (by simpa using hv), if_neg (not_lt.mpr hmax), readHeader,
          if_pos hr.1, hread]
        dsimp only
        rw [hp, if_neg (by simp), hf]
        dsimp only
        rw [hfree]
      · have := hm.slot
        rw [hfree] at this
        cases this
    | some i =>
      have hi := (pfsFreeEntry_spec hfree).1
      have hem := emptied_newFileHeader (t := t) hv hfree
      have halloc : AllocInv (newFileHeader (diskHeader disk) i name t) :=
        h.setEmpty hi (length_of_validPfsPath hv).2
      have hnames : NamesInv (newFileHeader (diskHeader disk) i name t) := by
        refine hn.write ⟨hi, hem.only, fun _ => Or.inr ?_⟩
        rw [hem.name_eq]
        exact ⟨hv, hf⟩
      rw [persistentWrite_new hr hread hv hmax hp hf hfree,
        ← firstRunsSuffice_newFileHeader (t := t) hv hfree]
      have hhead : diskHeader (withHeader disk (newFileHeader (diskHeader disk) i name t)) =
        newFileHeader (diskHeader disk) i name t := diskHeader_withHeader
      have hr' : Reliable (withHeader disk (newFileHeader (diskHeader disk) i name t)) := hr
      have hread' := readHeaderSilent_of_reliable hr' (by rw [hhead]; exact hnames.magic)
      rw [hhead] at hread'
      rcases persistentFill_cases (t := t) hr' hread' halloc hnames.fit hi hem.file hmax with
        ⟨hs, _, d, -, hfill, -⟩ | ⟨hs, hfill⟩
      · refine iff_of_true (fun disk' line he hl => ?_) fun _ => hs
        cases hfill.symm.trans he
        cases hl
      · refine iff_of_false (fun hc => ?_) fun hc =>
          hs (hc ⟨hv, hmax, hp, hf, by rw [hfree]; rfl⟩)
        refine fsView_ne_of_new hf hi ?_ ?_ (hc _ _ hfill rfl)
        · rw [hhead]
          exact (pfsEntryIsFile_iff.mp hem.file).1
        · rw [hhead]
          exact hem.name_eq

end Console

/-! ## Calls -/

/-- A step, and whether the call succeeded. -/
def fsCall (sys : Sys) : FsAct → Option (Sys × Bool)
  | .open cwd path flags t =>
    let r := abiOpen sys cwd path flags t
    some (r.1, r.2.isDone)
  | .read fd bufferLen =>
    let r := abiRead sys fd bufferLen
    some (r.1, r.2.isDone)
  | .write fd data t => (abiWriteFd sys fd data t).map fun r => (r.1, r.2.isDone)
  | .seek fd offset =>
    let r := abiSeek sys fd offset
    some (r.1, r.2.isDone)
  | .close fd =>
    let r := abiClose sys fd
    some (r.1, r.2.isDone)
  | .mkdir cwd path t =>
    let r := abiMkdir sys cwd path t
    some (r.1, r.2.isDone)
  | .unlink cwd path =>
    let r := abiUnlink sys cwd path
    some (r.1, r.2.isDone)
  | .rename cwd oldPath newPath t =>
    let r := abiRename sys cwd oldPath newPath t
    some (r.1, r.2.isDone)
  | .pwrite name data t =>
    (persistentWrite sys.disk name data t).map fun r => (sys.setDisk r.1, r.2 == "ok")
  | .pmkdir name t =>
    let r := persistentMkdir sys.disk name t
    some (sys.setDisk r.1, r.2 == "ok")
  | .pdelete name =>
    let r := persistentDelete sys.disk name
    some (sys.setDisk r.1, r.2 == "ok")
  | .fault readOk writeOk =>
    if (List.range pfsHeaderSectors).all writeOk then
      some (sys.setDisk { sys.disk with readOk := readOk, writeOk := writeOk }, true)
    else none

/-- `fsCall` is the step function with the replies kept. -/
theorem sysStep_eq_fsCall (sys : Sys) (act : FsAct) :
    sysStep sys act = (fsCall sys act).map Prod.fst := by
  cases act with
  | write fd data t =>
    rw [sysStep, fsCall, Option.map_map]
    rfl
  | pwrite name data t =>
    rw [sysStep, fsCall, Option.map_map]
    rfl
  | fault readOk writeOk =>
    rw [sysStep, fsCall]
    split_ifs <;> rfl
  | _ => rfl

/-- A failing call leaves the view as it was. -/
def FailsClean (sys : Sys) (act : FsAct) : Prop :=
  ∀ sys', fsCall sys act = some (sys', false) → fsView sys'.disk = fsView sys.disk

/-- What the call needs after its first write is there: a descriptor for an open that stores
something; for a `pwrite` that makes a file, the sectors in the first four free runs. -/
def ChecksFirst (sys : Sys) : FsAct → Prop
  | .open cwd path flags _ => ∀ name, (checkedAppSlice path).bind (pfsResolvePath cwd) = some name →
    OpenStores (diskHeader sys.disk) name flags → (freeFd sys).isSome
  | .pwrite name data _ => MakesFile (diskHeader sys.disk) name data.length →
    Takes (FreeSector (diskHeader sys.disk)) pfsDataStart (sectorsForLen data.length) pfsMaxExtents
  | _ => True

section Calls

variable {sys sys' : Sys} {t : ℕ → ℕ}

theorem replyHeader_reliable (hr : Reliable sys.disk) (header : Header) :
    (replyHeader sys header).2.isDone = true := by
  rw [replyHeader, writeHeader_spec hr.headerWritable]
  rfl

/-- `mkdir`, `unlink` and `rename` check before they write. -/
theorem abiMkdir_failed (hr : Reliable sys.disk) {cwd path : List UInt8}
    (hf : (abiMkdir sys cwd path t).2.isDone = false) : (abiMkdir sys cwd path t).1 = sys := by
  rw [abiMkdir] at hf ⊢
  split at hf
  · rfl
  split at hf
  · rfl
  split at hf
  · rfl
  · rw [replyHeader_reliable hr] at hf
    cases hf

theorem abiUnlink_failed (hr : Reliable sys.disk) {cwd path : List UInt8}
    (hf : (abiUnlink sys cwd path).2.isDone = false) : (abiUnlink sys cwd path).1 = sys := by
  rw [abiUnlink] at hf ⊢
  split at hf
  · rfl
  split at hf
  · rfl
  split at hf
  · rfl
  · rw [replyHeader_reliable hr] at hf
    cases hf

theorem abiRename_failed (hr : Reliable sys.disk) {cwd oldPath newPath : List UInt8}
    (hf : (abiRename sys cwd oldPath newPath t).2.isDone = false) :
    (abiRename sys cwd oldPath newPath t).1 = sys := by
  rw [abiRename] at hf ⊢
  split at hf
  · split at hf
    · rfl
    split at hf
    · rfl
    · rw [replyHeader_reliable hr] at hf
      cases hf
  · rfl

/-- So do the console's commands. -/
theorem persistentMkdir_failed {disk : Disk} (hr : Reliable disk) {name : List UInt8}
    (hf : ((persistentMkdir disk name t).2 == "ok") = false) :
    (persistentMkdir disk name t).1 = disk := by
  rw [persistentMkdir] at hf ⊢
  split at hf
  · rfl
  split_ifs at hf ⊢
  · rfl
  split at hf
  · rfl
  · rw [writeHeader_spec hr.headerWritable] at hf
    cases hf

theorem persistentDelete_failed {disk : Disk} (hr : Reliable disk) {name : List UInt8}
    (hf : ((persistentDelete disk name).2 == "ok") = false) :
    (persistentDelete disk name).1 = disk := by
  rw [persistentDelete] at hf ⊢
  split at hf
  · rfl
  split at hf
  · rw [writeHeader_spec hr.headerWritable] at hf
    cases hf
  · rfl

theorem abiRead_disk (fd : ℤ) (n : ℕ) : (abiRead sys fd n).1.disk = sys.disk := by
  rw [abiRead]
  split
  · rfl
  dsimp only
  split_ifs
  · rfl
  · rfl
  · rw [readPipe]
    dsimp only
    split_ifs <;> rfl
  · rfl
  · split
    · rfl
    · split <;> rfl
    · rfl

theorem abiSeek_disk (fd : ℤ) (offset : UInt64) : (abiSeek sys fd offset).1.disk = sys.disk := by
  rw [abiSeek]
  split
  · rfl
  dsimp only
  split_ifs <;> rfl

theorem abiClose_disk (fd : ℤ) : (abiClose sys fd).1.disk = sys.disk := by
  rw [abiClose]
  split_ifs
  · rfl
  · rfl
  split
  · rfl
  dsimp only
  split_ifs
  · rfl
  · rw [setFd_disk, closePipe_disk]

theorem abiOpen_failsClean (hr : Reliable sys.disk) (h : AllocInv (diskHeader sys.disk))
    (hn : NamesInv (diskHeader sys.disk)) {cwd path : List UInt8} {flags : UInt32} :
    ((abiOpen sys cwd path flags t).2.isDone = false →
      fsView (abiOpen sys cwd path flags t).1.disk = fsView sys.disk) ↔
      ∀ name, (checkedAppSlice path).bind (pfsResolvePath cwd) = some name →
        OpenStores (diskHeader sys.disk) name flags → (freeFd sys).isSome := by
  rw [abiOpen]
  cases hc : checkedAppSlice path with
  | none => exact iff_of_true (fun _ => rfl) fun _ he => by cases he
  | some p =>
    rw [Option.bind_some]
    dsimp only
    cases hp : pfsResolvePath cwd p with
    | some name =>
      rw [failsClean_abiOpenPfs hr h hn (validPfsPath_of_resolve hp)]
      exact ⟨fun hs _ he => Option.some.inj he ▸ hs, fun hs => hs name rfl⟩
    | none =>
      refine iff_of_true (fun _ => ?_) fun _ he => by cases he
      dsimp only
      split_ifs
      · rfl
      · rfl
      split
      · rfl
      · split <;> rfl

end Calls

/-- **On a drive that never fails the checks decide.** -/
theorem failsClean_of_reliable {sys : Sys} {act : FsAct} (hinv : FsInv sys)
    (hn : NamesInv (diskHeader sys.disk)) (hr : Reliable sys.disk)
    (hlen : ∀ fd data t, act = .write fd data t → data.length < 2 ^ 63) :
    FailsClean sys act ↔ ChecksFirst sys act := by
  -- a call whose state after a failure is the state before
  have clean : ∀ {s : Sys} {ok : Bool}, fsCall sys act = some (s, ok) →
      (ok = false → fsView s.disk = fsView sys.disk) → FailsClean sys act := fun he hs s' he' => by
    cases he.symm.trans he'
    exact hs rfl
  cases act with
  | «open» cwd path flags t =>
    rw [ChecksFirst, ← abiOpen_failsClean (t := t) hr hinv.alloc hn]
    exact ⟨fun hc hf => hc _ (by rw [fsCall, hf]), clean rfl⟩
  | pwrite name data t =>
    rw [ChecksFirst, ← failsClean_persistentWrite (t := t) hr hinv.alloc hn]
    refine ⟨fun hc disk' line he hl => ?_, fun hc s' he => ?_⟩
    · exact hc (sys.setDisk disk') (by rw [fsCall, he, Option.map_some, hl])
    · obtain ⟨⟨disk', line⟩, hw, hs⟩ := Option.map_eq_some_iff.mp he
      obtain ⟨rfl, hl⟩ := Prod.mk.inj hs
      exact hc _ _ hw hl
  | write fd data t =>
    refine iff_of_true (fun s' he => ?_) trivial
    obtain ⟨⟨s, r⟩, hw, hs⟩ := Option.map_eq_some_iff.mp he
    obtain ⟨rfl, hl⟩ := Prod.mk.inj hs
    refine fsView_of_abiWriteFd hr hinv.fds hinv.alloc hn (hlen _ _ _ rfl) hw fun n hd => ?_
    rw [hd] at hl
    cases hl
  | read fd n => exact iff_of_true (clean rfl fun _ => by rw [abiRead_disk]) trivial
  | seek fd offset => exact iff_of_true (clean rfl fun _ => by rw [abiSeek_disk]) trivial
  | close fd => exact iff_of_true (clean rfl fun _ => by rw [abiClose_disk]) trivial
  | mkdir cwd path t => exact iff_of_true (clean rfl fun hf => by rw [abiMkdir_failed hr hf]) trivial
  | unlink cwd path => exact iff_of_true (clean rfl fun hf => by rw [abiUnlink_failed hr hf]) trivial
  | rename cwd oldPath newPath t =>
    exact iff_of_true (clean rfl fun hf => by rw [abiRename_failed hr hf]) trivial
  | pmkdir name t =>
    exact iff_of_true (clean rfl fun hf => by rw [setDisk_disk, persistentMkdir_failed hr hf]) trivial
  | pdelete name =>
    exact iff_of_true (clean rfl fun hf => by rw [setDisk_disk, persistentDelete_failed hr hf]) trivial
  | fault readOk writeOk =>
    refine iff_of_true (fun s' he => ?_) trivial
    rw [fsCall] at he
    split_ifs at he
    cases he

/-! ## Calls no fault of the drive has a part in -/

/-- The drive is there and never fails. -/
def Sys.repaired (sys : Sys) : Sys :=
  sys.setDisk { sys.disk with present := true, readOk := fun _ => true, writeOk := fun _ => true }

/-- The call does what it would do on a drive that never fails. -/
def NoFault (sys : Sys) (act : FsAct) : Prop :=
  (fsCall sys act).map (fun r => (r.1.disk.sectors, r.2)) =
    (fsCall sys.repaired act).map fun r => (r.1.disk.sectors, r.2)

theorem repaired_of_reliable {sys : Sys} (hr : Reliable sys.disk) : sys.repaired = sys := by
  obtain ⟨⟨sectors, present, readOk, writeOk⟩, fds, pipes, bootfs⟩ := sys
  obtain ⟨rfl, hio⟩ := hr
  obtain rfl : readOk = fun _ => true := funext fun x => (hio x).1
  obtain rfl : writeOk = fun _ => true := funext fun x => (hio x).2
  rfl

theorem noFault_of_reliable {sys : Sys} (hr : Reliable sys.disk) (act : FsAct) : NoFault sys act := by
  rw [NoFault, repaired_of_reliable hr]

/-- The view is that of the sectors. -/
theorem fsView_of_sectors {disk disk' : Disk} (h : disk'.sectors = disk.sectors) :
    fsView disk' = fsView disk := by
  have hd := diskHeader_of_sectors h
  refine fsView_congr (fun j _ => by rw [hd]) fun j _ _ => entryView_congr (by rw [hd]) (by rw [hd])
    (by rw [diskSize, diskSize, hd]) fun p _ => by rw [fileByte, fileByte, hd, h]

theorem failsClean_repaired {sys : Sys} {act : FsAct} (hio : NoFault sys act) :
    FailsClean sys act ↔ FailsClean sys.repaired act := by
  have hstart : fsView sys.repaired.disk = fsView sys.disk := fsView_of_sectors rfl
  -- what one of the two calls leaves, the other leaves too
  have other : ∀ {s s' : Sys}, (fsCall s act).map (fun r => (r.1.disk.sectors, r.2)) =
      (fsCall s' act).map (fun r => (r.1.disk.sectors, r.2)) → ∀ {u}, fsCall s act = some (u, false) →
        ∃ v, fsCall s' act = some (v, false) ∧ fsView v.disk = fsView u.disk := by
    intro s s' hs u hu
    rw [hu, Option.map_some] at hs
    obtain ⟨⟨v, ok⟩, hv, he⟩ := Option.map_eq_some_iff.mp hs.symm
    obtain ⟨hsec, rfl⟩ := Prod.mk.inj he
    exact ⟨v, hv, fsView_of_sectors hsec⟩
  constructor
  · intro hc s' hs
    obtain ⟨v, hv, hview⟩ := other hio.symm hs
    rw [← hview, hc v hv, hstart]
  · intro hc s' hs
    obtain ⟨v, hv, hview⟩ := other hio hs
    rw [← hview, hc v hv, hstart]

/-- **A call that fails, and not by a fault of the drive, changes nothing one can see just when what
it needs after its first write is there.** -/
theorem failsClean_iff {sys : Sys} {act : FsAct} (h : Reach FsInit (fun _ _ => True) sysStep sys)
    (hio : NoFault sys act) (hlen : ∀ fd data t, act = .write fd data t → data.length < 2 ^ 63) :
    FailsClean sys act ↔ ChecksFirst sys act := by
  have hinv := fsInv_of_reach h
  have hrepaired : FsInv sys.repaired := ⟨fun _ _ => rfl, hinv.fds, hinv.alloc⟩
  have hn : NamesInv (diskHeader sys.disk) := namesInv_of_reach h
  have hr : Reliable sys.repaired.disk := ⟨rfl, fun _ => ⟨rfl, rfl⟩⟩
  rw [failsClean_repaired hio, failsClean_of_reliable hrepaired hn hr hlen]
  cases act <;> exact Iff.rfl

/-- Every descriptor is open, on a file of the boot archive. -/
def fullSys : Sys :=
  { blankSys with fds := fun _ => { AppFd.empty with isOpen := true, kind := .bootFs } }

theorem fsInit_fullSys : FsInit fullSys :=
  ⟨diskHeader_withHeader, (reliable_blankDisk _).headerWritable, fun _ h => AppFdKind.noConfusion h⟩

/-- The open of a new file `b`. -/
def openNew : FsAct := .open [] (pfsPath [98]) 7 fun _ => 0

theorem failsClean_iff_fullSys : FailsClean fullSys openNew ↔ ChecksFirst fullSys openNew :=
  failsClean_iff (.start fsInit_fullSys) (noFault_of_reliable (reliable_blankDisk _) _) nofun

/-- **An open without a free descriptor leaves the file it has made.** -/
theorem not_failsClean_fullSys :
    ¬ ∀ sys act, Reach FsInit (fun _ _ => True) sysStep sys → NoFault sys act →
      (∀ fd data t, act = .write fd data t → data.length < 2 ^ 63) → FailsClean sys act := by
  intro hall
  have hclean := hall fullSys openNew (.start fsInit_fullSys)
    (noFault_of_reliable (reliable_blankDisk _) _) nofun
  have hrun : (fsCall fullSys openNew).map (fun r =>
      (r.2, pfsEntryUsed (diskHeader r.1.disk) 0, pfsEntryName (diskHeader r.1.disk) 0)) =
        some (false, true, [98]) := by decide +kernel
  obtain ⟨⟨sys, ok⟩, hs, he⟩ := Option.map_eq_some_iff.mp hrun
  obtain ⟨rfl, he⟩ := Prod.mk.inj he
  obtain ⟨hu, hn⟩ := Prod.mk.inj he
  have hnone : pfsFindEntry (diskHeader fullSys.disk) [98] = none := pfsFindEntry_eq_none.mpr
    fun j _ hj => by
      rw [fsInit_fullSys.formatted, pfsEntryUsed_emptyHeader] at hj
      cases hj
  exact fsView_ne_of_new hnone (by decide) hu hn (hclean sys hs)

end Rymos
