import Mathlib.Tactic
import Rymos.Base.Stamps
import Rymos.Pfs.Unchanged

/-!
# Modification times

* `Readings`, `FileCall`, `callStep`: a successful call and the readings of `ns_since_boot` it makes.
  `Timed`, `timedStep`: runs of them, beside the time each file was created and last changed.
* `fileSlot`: the bytes and the times of the file in a slot. `slotSteps_abiOpen`,
  `slotSteps_abiRename`, **`slotSteps_abiWriteFd`**: a call keeps them or refreshes the time.
* `Refreshes`: a write makes the file longer, takes sectors, or changes no byte.
* **`timesKept_of_reach`**: with such writes no time is stale; **`not_timesKept_overwrite`**.
-/

namespace Rymos

open ByteBuf Extents Blocks Transition Stamps

/-- The readings of the clock in a call from `start` to `stop`: the clock does not go back. -/
structure Readings where
  start : ℕ
  reading : ℕ → ℕ
  stop : ℕ
  mono : Monotone reading
  start_le : ∀ k, start ≤ reading k
  le_stop : ∀ k, reading k ≤ stop
  stop_lt : stop < 2 ^ 64

/-- A call whose readings are all the same. -/
def Readings.at (now : ℕ) (h : now < 2 ^ 64) : Readings :=
  ⟨now, fun _ => now, now, monotone_const, fun _ => le_rfl, fun _ => le_rfl, h⟩

theorem Readings.mod (r : Readings) (k : ℕ) : r.reading k % 2 ^ 64 = r.reading k :=
  Nat.mod_eq_of_lt ((r.le_stop k).trans_lt r.stop_lt)

theorem Readings.start_le_stop (r : Readings) : r.start ≤ r.stop := (r.start_le 0).trans (r.le_stop 0)

inductive FileCall where
  | open (cwd path : List UInt8) (flags : UInt32)
  | write (fd : ℤ) (data : List UInt8)
  | rename (cwd oldPath newPath : List UInt8)
  | read (fd : ℤ) (bufferLen : ℕ)
  | seek (fd : ℤ) (offset : UInt64)
  | close (fd : ℤ)

/-- A call that opens, writes or renames succeeds; a write has a byte to store. -/
def callStep (sys : Sys) (t : ℕ → ℕ) : FileCall → Option Sys
  | .open cwd path flags =>
    match abiOpen sys cwd path flags t with
    | (sys, .done _) => some sys
    | _ => none
  | .write fd data =>
    if data = [] then none
    else
      match abiWriteFd sys fd data t with
      | some (sys, .done _) => some sys
      | _ => none
  | .rename cwd oldPath newPath =>
    match abiRename sys cwd oldPath newPath t with
    | (sys, .done _) => some sys
    | _ => none
  | .read fd bufferLen => some (abiRead sys fd bufferLen).1
  | .seek fd offset => some (abiSeek sys fd offset).1
  | .close fd => some (abiClose sys fd).1

/-- The file in slot `i`: its bytes and its times. -/
def fileSlot (disk : Disk) (i : ℕ) : Option (Stamped (List UInt8)) :=
  if i < pfsEntryCount ∧ pfsEntryIsFile (diskHeader disk) i = true then
    some
      { content := (List.range (diskSize disk i)).map (fileByte disk i)
        created := pfsEntryCreated (diskHeader disk) i
        modified := pfsEntryModified (diskHeader disk) i }
  else none

/-- The file system, and the times of the files. -/
structure Timed where
  sys : Sys
  log : Log ℕ

/-- A call that does not start before the last one has ended. A new file is given the first reading as
its time of creation. -/
def timedStep (x : Timed) (a : Readings × FileCall) : Option Timed :=
  if x.log.now ≤ a.1.start then
    (callStep x.sys a.1.reading a.2).map fun sys =>
      { sys := sys
        log := x.log.note a.1.start (a.1.reading 0) a.1.stop (fileSlot x.sys.disk)
          (fileSlot sys.disk) }
  else none

/-- Any file system; no file has been changed yet. -/
structure TimedInit (x : Timed) : Prop where
  inv : FsInv x.sys
  created : ∀ i, x.log.created i = pfsEntryCreated (diskHeader x.sys.disk) i
  changed : ∀ i, x.log.changed i = 0

/-- What `stat` reports of a file is no time before the last change of the file started, and the time
the file was created. -/
def TimesKept (x : Timed) : Prop :=
  ∀ name st, statName x.sys.disk name = some st → st.isDir = false →
    ∃ i, pfsFindEntry (diskHeader x.sys.disk) name = some i ∧
      x.log.changed i ≤ st.modifiedTicks ∧ st.createdTicks = x.log.created i

/-! ## The slots -/

section Slots

variable {disk disk' disk'' : Disk} {i : ℕ} {start birth : ℕ}

/-- A step of all slots. -/
def SlotSteps (start birth : ℕ) (disk disk' : Disk) : Prop :=
  ∀ j, SlotStep start birth (fileSlot disk j) (fileSlot disk' j)

theorem SlotSteps.refl (disk : Disk) : SlotSteps start birth disk disk := fun _ => .kept _

theorem SlotSteps.of_eq (h : disk' = disk) : SlotSteps start birth disk disk' := h ▸ .refl _

theorem SlotSteps.trans (h : SlotSteps start birth disk disk')
    (h' : SlotSteps start birth disk' disk'') : SlotSteps start birth disk disk'' :=
  fun j => (h j).trans (h' j)

theorem fileSlot_of_file (hi : i < pfsEntryCount)
    (hf : pfsEntryIsFile (diskHeader disk) i = true) :
    fileSlot disk i = some
      { content := (List.range (diskSize disk i)).map (fileByte disk i)
        created := pfsEntryCreated (diskHeader disk) i
        modified := pfsEntryModified (diskHeader disk) i } := if_pos ⟨hi, hf⟩

theorem fileSlot_of_not (hf : pfsEntryIsFile (diskHeader disk) i = false) : fileSlot disk i = none :=
  if_neg fun h => by
    rw [hf] at h
    exact Bool.false_ne_true h.2

/-- A slot whose entry and bytes are the same. -/
theorem fileSlot_congr (hs : SameBytes (diskHeader disk) (diskHeader disk') i)
    (hb : i < pfsEntryCount → pfsEntryIsFile (diskHeader disk) i = true →
      ∀ p, fileByte disk' i p = fileByte disk i p) :
    fileSlot disk' i = fileSlot disk i := by
  have hfile : pfsEntryIsFile (diskHeader disk') i = pfsEntryIsFile (diskHeader disk) i := by
    rw [pfsEntryIsFile, pfsEntryIsFile, hs.used, hs.isDir]
  rw [fileSlot, fileSlot, hfile, diskSize, diskSize, hs.size, hs.created, hs.modified]
  split_ifs with hf
  · rw [funext (hb hf.1 hf.2)]
  · rfl

/-- A slot whose bytes are the same under the same header. -/
theorem fileSlot_of_bytes (hh : diskHeader disk' = diskHeader disk)
    (hb : ∀ p < diskSize disk i, fileByte disk' i p = fileByte disk i p) :
    fileSlot disk' i = fileSlot disk i := by
  have hcontent : (List.range (diskSize disk i)).map (fileByte disk' i) =
      (List.range (diskSize disk i)).map (fileByte disk i) :=
    List.map_congr_left fun p hp => hb p (List.mem_range.mp hp)
  have hsize : diskSize disk' i = diskSize disk i := by rw [diskSize, diskSize, hh]
  rw [fileSlot, fileSlot, hsize, hcontent, hh]

/-- Only slot `i` steps. -/
theorem slotSteps_of_entry (ho : OnlyEntry (diskHeader disk) (diskHeader disk') i)
    (hb : ∀ j < pfsEntryCount, j ≠ i → pfsEntryIsFile (diskHeader disk) j = true →
      ∀ p, fileByte disk' j p = fileByte disk j p)
    (hi : SlotStep start birth (fileSlot disk i) (fileSlot disk' i)) :
    SlotSteps start birth disk disk' := by
  intro j
  by_cases hj : j = i
  · rw [hj]
    exact hi
  · rw [fileSlot_congr (ho.other hj) fun hlt hf => hb j hlt hj hf]
    exact .kept _

/-- A header that differs in entry `i` only leaves the bytes of the other files. -/
theorem slotSteps_withHeader (h : AllocInv (diskHeader disk)) {header : Header}
    (ho : OnlyEntry (diskHeader disk) header i)
    (hi : SlotStep start birth (fileSlot disk i) (fileSlot (withHeader disk header) i)) :
    SlotSteps start birth disk (withHeader disk header) := by
  refine slotSteps_of_entry (by rwa [diskHeader_withHeader]) (fun j hlt hj hf p => ?_) hi
  rw [fileByte, fileByte, diskHeader_withHeader, (ho.other hj).extents]
  exact byteAt_congr (fun x hx => sectors_withHeader (h.inside hlt hf hx).1) p

theorem slotStep_refreshed (hi : i < pfsEntryCount)
    (hf : pfsEntryIsFile (diskHeader disk) i = true)
    (hf' : pfsEntryIsFile (diskHeader disk') i = true)
    (hc : pfsEntryCreated (diskHeader disk') i = pfsEntryCreated (diskHeader disk) i)
    (hm : start ≤ pfsEntryModified (diskHeader disk') i) :
    SlotStep start birth (fileSlot disk i) (fileSlot disk' i) := by
  rw [fileSlot_of_file hi hf, fileSlot_of_file hi hf', hc]
  exact .refreshed hm

end Slots

/-! ## The calls -/

section Calls

variable {sys sys' : Sys} {disk disk' : Disk} {r : Readings}

/-- An entry that is written again, file or directory as it was, keeps its time of creation. -/
theorem slotSteps_setEntry (h : AllocInv (diskHeader disk)) {i size : ℕ} {name : List UInt8}
    {kind mode : UInt8} {extents : List PfsExtent} (hi : i < pfsEntryCount)
    (hn : name.length ≤ 96) (k : ℕ)
    (hk : pfsEntryIsFile (pfsSetEntry (diskHeader disk) i name size kind extents
      (pfsEntryCreated (diskHeader disk) i) mode (r.reading k)) i =
        pfsEntryIsFile (diskHeader disk) i) :
    SlotSteps r.start (r.reading 0) disk (withHeader disk (pfsSetEntry (diskHeader disk) i name size
      kind extents (pfsEntryCreated (diskHeader disk) i) mode (r.reading k))) := by
  refine slotSteps_withHeader h (onlyEntry_pfsSetEntry _ hn) ?_
  cases hf : pfsEntryIsFile (diskHeader disk) i with
  | true =>
    refine slotStep_refreshed hi hf ?_ ?_ ?_
    · rw [diskHeader_withHeader, hk, hf]
    · rw [diskHeader_withHeader, pfsEntryCreated_pfsSetEntry _ _ _ _ _ _ _ _ hi,
        Nat.mod_eq_of_lt (pfsEntryCreated_lt _ i)]
    · rw [diskHeader_withHeader, pfsEntryModified_pfsSetEntry _ _ _ _ _ _ _ _ hi, r.mod]
      exact r.start_le k
  | false =>
    rw [fileSlot_of_not hf, fileSlot_of_not (by rw [diskHeader_withHeader, hk, hf])]
    exact .kept _

/-- A new file is dated by the first reading. -/
theorem slotSteps_newFile (h : AllocInv (diskHeader disk)) {i : ℕ} {name : List UInt8}
    (hn : name.length ≤ 96) (hfree : pfsFreeEntry (diskHeader disk) = some i) :
    SlotSteps r.start (r.reading 0) disk (withHeader disk (pfsSetEntry (diskHeader disk) i name 0
      pfsKindFile [] (r.reading 0) pfsModeDefaultFile (r.reading 1))) := by
  obtain ⟨hi, hu⟩ := pfsFreeEntry_spec hfree
  refine slotSteps_withHeader h (onlyEntry_pfsSetEntry _ hn) ?_
  rw [fileSlot_of_not (by rw [pfsEntryIsFile, hu]; rfl), fileSlot_of_file hi
    (by rw [diskHeader_withHeader]; exact (emptied_pfsSetEntry hi hn).file), diskHeader_withHeader,
    pfsEntryCreated_pfsSetEntry _ _ _ _ _ _ _ _ hi, pfsEntryModified_pfsSetEntry _ _ _ _ _ _ _ _ hi,
    r.mod, r.mod]
  exact .made (r.start_le 1)

theorem openPfsFd_disk (sys : Sys) (header : Header) (i : ℕ) (flags : UInt32) :
    (openPfsFd sys header i flags).1.disk = sys.disk := by
  rw [openPfsFd]
  dsimp only
  split <;> rfl

theorem slotSteps_openPfsTruncate (sys : Sys) (hw : HeaderWritable sys.disk)
    (h : AllocInv (diskHeader sys.disk)) {i : ℕ} {name : List UInt8} (hi : i < pfsEntryCount)
    (hn : name.length ≤ 96) (hf : pfsEntryIsFile (diskHeader sys.disk) i = true) (flags : UInt32) :
    SlotSteps r.start (r.reading 0) sys.disk
      (openPfsTruncate sys (diskHeader sys.disk) i name flags r.reading).1.disk := by
  rw [openPfsTruncate]
  split_ifs
  · dsimp only
    rw [writeHeader_spec hw]
    dsimp only
    rw [openPfsFd_disk, setDisk_disk]
    refine slotSteps_setEntry h hi hn 2 ?_
    rw [hf]
    exact (emptied_pfsSetEntry hi hn).file
  · rw [openPfsFd_disk]
    exact .refl _

theorem slotSteps_abiOpenPfs (hw : HeaderWritable sys.disk) (h : AllocInv (diskHeader sys.disk))
    (name : List UInt8) (flags : UInt32) :
    SlotSteps r.start (r.reading 0) sys.disk (abiOpenPfs sys name flags r.reading).1.disk := by
  rw [abiOpenPfs]
  by_cases hv : validPfsPath name = true
  swap
  · rw [if_pos (by simpa using hv)]
    exact .refl _
  rw [if_neg (by simpa using hv)]
  have hn := (length_of_validPfsPath hv).2
  split_ifs
  iterate 3 exact .refl _
  cases hh : readHeaderSilent sys.disk with
  | none => exact .refl _
  | some header =>
    obtain ⟨rfl, -⟩ := readHeaderSilent_eq_some hh
    dsimp only
    split_ifs
    · exact .refl _
    cases ho : openEntry (diskHeader sys.disk) name flags r.reading with
    | error code => exact .refl _
    | ok p =>
      obtain ⟨i, o⟩ := p
      rcases openEntry_spec ho with ⟨rfl, hfind, hd⟩ | ⟨-, -, hfree, rfl⟩
      · obtain ⟨hi, hu, -⟩ := pfsFindEntry_eq_some.mp hfind
        exact slotSteps_openPfsTruncate sys hw h hi hn (pfsEntryIsFile_iff.mpr ⟨hu, hd⟩) flags
      · have hi := (pfsFreeEntry_spec hfree).1
        dsimp only
        rw [writeHeader_spec hw]
        dsimp only
        have hnew := slotSteps_newFile (r := r) h hn hfree
        have hfile : pfsEntryIsFile (pfsSetEntry (diskHeader sys.disk) i name 0 pfsKindFile []
            (r.reading 0) pfsModeDefaultFile (r.reading 1)) i = true :=
          (emptied_pfsSetEntry hi hn).file
        have halloc : AllocInv (pfsSetEntry (diskHeader sys.disk) i name 0 pfsKindFile []
            (r.reading 0) pfsModeDefaultFile (r.reading 1)) := h.setEmpty hi hn
        generalize pfsSetEntry (diskHeader sys.disk) i name 0 pfsKindFile [] (r.reading 0)
          pfsModeDefaultFile (r.reading 1) = header at hnew hfile halloc ⊢
        have htrunc := slotSteps_openPfsTruncate (r := r)
          (sys.setDisk (withHeader sys.disk header)) hw
          (by rw [setDisk_disk, diskHeader_withHeader]; exact halloc) hi hn
          (by rw [setDisk_disk, diskHeader_withHeader]; exact hfile) flags
        rw [setDisk_disk, diskHeader_withHeader] at htrunc
        exact hnew.trans htrunc

/-- **An open makes a file, empties one, or leaves them all.** -/
theorem slotSteps_abiOpen (hw : HeaderWritable sys.disk) (h : AllocInv (diskHeader sys.disk))
    (cwd path : List UInt8) (flags : UInt32) :
    SlotSteps r.start (r.reading 0) sys.disk (abiOpen sys cwd path flags r.reading).1.disk := by
  rw [abiOpen]
  cases checkedAppSlice path with
  | none => exact .refl _
  | some p =>
    dsimp only
    cases pfsResolvePath cwd p with
    | some name => exact slotSteps_abiOpenPfs hw h name flags
    | none =>
      dsimp only
      split_ifs
      iterate 2 exact .refl _
      split
      · exact .refl _
      · split <;> exact .refl _

theorem slotSteps_abiRename (hw : HeaderWritable sys.disk) (h : AllocInv (diskHeader sys.disk))
    (cwd oldPath newPath : List UInt8) :
    SlotSteps r.start (r.reading 0) sys.disk
      (abiRename sys cwd oldPath newPath r.reading).1.disk := by
  cases he : abiRename sys cwd oldPath newPath r.reading with
  | mk sys' reply =>
  rcases abiRename_header hw he with rfl | ⟨oldName, newName, h', -, -, hren, rfl⟩
  · exact .refl _
  · rw [setDisk_disk]
    obtain ⟨hv, -, -, i, hfind, -, rfl⟩ := pfsRenameHeader_eq_ok hren
    have hi := (pfsFindEntry_eq_some.mp hfind).1
    exact slotSteps_setEntry h hi (length_of_validPfsPath hv).2 0
      (entry_of_kind (pfsEntryKind_pfsSetEntry _ _ _ _ _ _ _ _ hi)).2

/-- A write through `handle` in a call from `start` on refreshes the time of its file: it comes past the
end the descriptor knows, or past the sectors of the file; or there is no need to: it changes no byte
of the file, or the clock has not moved on since the last refresh. -/
def Refreshes (disk : Disk) (handle : AppFd) (data : List UInt8) (start : ℕ) : Prop :=
  handle.len < writeOffset handle + data.length ∨
  pfsEntryTotalSectors (diskHeader disk) handle.pfsIndex <
    sectorsForLen (writeOffset handle + data.length) ∨
  (∀ p < diskSize disk handle.pfsIndex, writeOffset handle ≤ p →
    p < writeOffset handle + data.length →
      fileByte disk handle.pfsIndex p = data.getD (p - writeOffset handle) 0) ∨
  start ≤ pfsEntryModified (diskHeader disk) handle.pfsIndex

instance (disk : Disk) (handle : AppFd) (data : List UInt8) (start : ℕ) :
    Decidable (Refreshes disk handle data start) := by
  unfold Refreshes
  infer_instance

section Write

variable {handle : AppFd} {data : List UInt8}

/-- The other slots do not notice a write. -/
theorem slotSteps_wroteVia {mid : Disk} {index offset now m start birth : ℕ}
    (w : WroteVia disk mid disk' index offset data now m) (h : AllocInv (diskHeader disk))
    (hi : index < pfsEntryCount)
    (hs : SlotStep start birth (fileSlot disk index) (fileSlot disk' index)) :
    SlotSteps start birth disk disk' :=
  slotSteps_of_entry (w.onlyEntry h hi) (fun _ hlt hj hf p => w.fileByte_other h hi hlt hj hf p) hs

/-- Room for a write that takes sectors is made with a new time. -/
theorem Room.grown_of_lt {header header' : Header} {index size now : ℕ}
    (hr : Room header header' index size now) (h : AllocInv header) (hi : index < pfsEntryCount)
    (hlt : pfsEntryTotalSectors header index < sectorsForLen size) :
    pfsEntryModified header' index = now % 2 ^ 64 := by
  cases hr with
  | enough _ hf hle =>
    rw [pfsEntryTotalSectors_eq h hi hf] at hlt
    omega
  | grown _ hg => exact hg.modified_eq hi

/-- A write within the end the descriptor knows. -/
theorem slotSteps_within {mid : Disk} (h : AllocInv (diskHeader disk))
    (hi : handle.pfsIndex < pfsEntryCount)
    (w : WroteVia disk mid disk' handle.pfsIndex (writeOffset handle) data (r.reading 0)
      (writeOffset handle + data.length)) (hle : writeOffset handle + data.length ≤ handle.len)
    (hg : Refreshes disk handle data r.start) :
    SlotSteps r.start (r.reading 0) disk disk' := by
  refine slotSteps_wroteVia w h hi ?_
  have hroom := w.room
  rw [(w.end_le h hi).1, ← w.header h hi] at hroom
  have hf := hroom.file
  have hf' := hroom.file' hi
  have hc := hroom.created_eq hi
  cases hroom with
  | grown extents hgrow =>
    refine slotStep_refreshed hi hf hf' hc ?_
    rw [hgrow.modified_eq hi, r.mod]
    exact r.start_le 0
  | enough hsame _ henough =>
    rcases hg with hg | hg | hg | hg
    · omega
    · rw [pfsEntryTotalSectors_eq h hi hf] at hg
      omega
    · -- the bytes of the file are the ones there were
      have hbytes : ∀ p < diskSize disk handle.pfsIndex,
          fileByte disk' handle.pfsIndex p = fileByte disk handle.pfsIndex p := fun p hp => by
        have hcap := (h.size handle.pfsIndex hi hf).1
        have hsize : diskSize disk handle.pfsIndex =
          pfsEntrySize (diskHeader disk) handle.pfsIndex := rfl
        by_cases hin : writeOffset handle ≤ p ∧ p < writeOffset handle + data.length
        · rw [w.fileByte_in h hi (by omega) hin.2, writeVal, if_neg (by omega)]
          exact (hg p hp hin.1 hin.2).symm
        · exact w.fileByte_out h hi (by omega) (by omega)
      have hslot := fileSlot_of_bytes hsame hbytes
      rw [hslot]
      exact .kept _
    · refine slotStep_refreshed hi hf hf' hc ?_
      rw [hsame]
      exact hg

/-- A new size is a new time. -/
theorem times_pfsStoreSize (header : Header) {i : ℕ} (hi : i < pfsEntryCount) (size now : ℕ) :
    pfsEntryKind (pfsStoreSize header i size now) i = pfsEntryKind header i ∧
      pfsEntryCreated (pfsStoreSize header i size now) i = pfsEntryCreated header i ∧
      pfsEntryModified (pfsStoreSize header i size now) i = now % 2 ^ 64 := by
  have hentry := pfsEntry_pfsStoreSize header hi size now
  simp only [pfsEntry, PfsEntry.mk.injEq] at hentry
  exact ⟨hentry.1, hentry.2.2.2.2.1, hentry.2.2.2.2.2.1⟩

/-- A write past the end the descriptor knows. -/
theorem slotSteps_grown {mid : Disk} (h : AllocInv (diskHeader disk))
    (hi : handle.pfsIndex < pfsEntryCount)
    (w : WroteVia disk mid disk' handle.pfsIndex (writeOffset handle) data (r.reading 0)
      (writeOffset handle + data.length)) (size : ℕ) :
    SlotSteps r.start (r.reading 0) disk
      (withHeader disk' (pfsStoreSize (diskHeader disk') handle.pfsIndex size (r.reading 1))) := by
  have halloc := w.allocInv h hi
  have hf := w.room.file
  obtain ⟨-, -, hf', -⟩ := w.end_le h hi
  have hc : pfsEntryCreated (diskHeader disk') handle.pfsIndex =
      pfsEntryCreated (diskHeader disk) handle.pfsIndex := by
    rw [w.header h hi]
    exact w.room.created_eq hi
  obtain ⟨hkind, hcreated, hmodified⟩ := times_pfsStoreSize (diskHeader disk') hi size (r.reading 1)
  have hstore : OnlyEntry (diskHeader disk') (pfsStoreSize (diskHeader disk') handle.pfsIndex size
      (r.reading 1)) handle.pfsIndex := onlyEntry_pfsStoreSize _ _ _
  refine slotSteps_of_entry (i := handle.pfsIndex) ?_ (fun j hlt hj hfj p => ?_) ?_
  · rw [diskHeader_withHeader]
    exact (w.onlyEntry h hi).trans hstore
  · have hfj' : pfsEntryIsFile (diskHeader disk') j = true := by
      rw [isFile_of_onlyEntry (w.onlyEntry h hi) hj]
      exact hfj
    rw [fileByte_pfsStoreSize halloc hi hlt hfj']
    exact w.fileByte_other h hi hlt hj hfj p
  · refine slotStep_refreshed hi hf ?_ ?_ ?_
    · rw [diskHeader_withHeader, (entry_of_kind hkind).2]
      exact hf'
    · rw [diskHeader_withHeader, hcreated, hc]
    · rw [diskHeader_withHeader, hmodified, r.mod]
      exact r.start_le 1

/-- **A write refreshes the time of the file or keeps its bytes.** -/
theorem slotSteps_abiWriteFd (h : FsInv sys) {fd : ℤ} {n : ℕ}
    (hg : ∀ index, appFdIndex fd = some index → (sys.fds index).kind = .pfs →
      Refreshes sys.disk (sys.fds index) data r.start)
    (he : abiWriteFd sys fd data r.reading = some (sys', .done n)) :
    SlotSteps r.start (r.reading 0) sys.disk sys'.disk := by
  rcases abiWriteFd_spec h.fds h.writable h.alloc he with
    ⟨hd, -⟩ | ⟨index, handle', hx, hk, -, hs, -⟩
  · exact .of_eq hd
  · have hi := h.fds index hk
    generalize sys'.disk = disk' at hs ⊢
    cases hs with
    | within w hle => exact slotSteps_within h.alloc hi w hle (hg index hx hk)
    | grown w _ => exact slotSteps_grown h.alloc hi w _

end Write

end Calls

/-! ## Runs -/

/-- The act of the file system that the call is. -/
def FileCall.act (t : ℕ → ℕ) : FileCall → FsAct
  | .open cwd path flags => .open cwd path flags t
  | .write fd data => .write fd data t
  | .rename cwd oldPath newPath => .rename cwd oldPath newPath t
  | .read fd bufferLen => .read fd bufferLen
  | .seek fd offset => .seek fd offset
  | .close fd => .close fd

/-- Each write refreshes the time of its file, or does not have to. -/
def WritesRefresh (x : Timed) (a : Readings × FileCall) : Prop :=
  match a.2 with
  | .write fd data => ∀ index ∈ appFdIndex fd, (x.sys.fds index).kind = .pfs →
    Refreshes x.sys.disk (x.sys.fds index) data a.1.start
  | _ => True

instance (x : Timed) (a : Readings × FileCall) : Decidable (WritesRefresh x a) := by
  unfold WritesRefresh
  split <;> infer_instance

section Runs

variable {x x' : Timed} {sys sys' : Sys} {r : Readings} {call : FileCall}

theorem callStep_sysStep {t : ℕ → ℕ} (h : callStep sys t call = some sys') :
    sysStep sys (call.act t) = some sys' := by
  cases call with
  | «open» cwd path flags =>
    simp only [callStep] at h
    split at h
    · rename_i he
      cases h
      simp only [FileCall.act, sysStep, he]
    · cases h
  | write fd data =>
    simp only [callStep] at h
    split_ifs at h
    split at h
    · rename_i he
      cases h
      simp only [FileCall.act, sysStep, he, Option.map_some]
    · cases h
  | rename cwd oldPath newPath =>
    simp only [callStep] at h
    split at h
    · rename_i he
      cases h
      simp only [FileCall.act, sysStep, he]
    · cases h
  | read fd n => exact h
  | seek fd offset => exact h
  | close fd => exact h

/-- A call is a step of the slots. -/
theorem slotSteps_callStep (h : FsInv x.sys) (hg : WritesRefresh x (r, call))
    (hs : callStep x.sys r.reading call = some sys') :
    SlotSteps r.start (r.reading 0) x.sys.disk sys'.disk := by
  cases call with
  | «open» cwd path flags =>
    have hopen := slotSteps_abiOpen (r := r) h.writable h.alloc cwd path flags
    simp only [callStep] at hs
    split at hs
    · rename_i he
      cases hs
      rwa [he] at hopen
    · cases hs
  | write fd data =>
    simp only [callStep] at hs
    split_ifs at hs
    split at hs
    · rename_i he
      cases hs
      exact slotSteps_abiWriteFd h hg he
    · cases hs
  | rename cwd oldPath newPath =>
    have hrename := slotSteps_abiRename (r := r) h.writable h.alloc cwd oldPath newPath
    simp only [callStep] at hs
    split at hs
    · rename_i he
      cases hs
      rwa [he] at hrename
    · cases hs
  | read fd n => exact .of_eq (Option.some.inj hs ▸ abiRead_disk fd n)
  | seek fd offset => exact .of_eq (Option.some.inj hs ▸ abiSeek_disk fd offset)
  | close fd => exact .of_eq (Option.some.inj hs ▸ abiClose_disk fd)

/-- What is kept in every run: the files are no older than their times say. -/
structure TimedInv (x : Timed) : Prop where
  inv : FsInv x.sys
  bounds : x.log.Bounds (fileSlot x.sys.disk)

theorem fileSlot_eq_some {disk : Disk} {i : ℕ} {s : Stamped (List UInt8)}
    (h : fileSlot disk i = some s) : s.created = pfsEntryCreated (diskHeader disk) i := by
  rw [fileSlot] at h
  split_ifs at h
  cases h
  rfl

theorem TimedInit.timedInv (h : TimedInit x) : TimedInv x where
  inv := h.inv
  bounds :=
    { le_now := fun i => h.changed i ▸ Nat.zero_le _
      changed := fun i _ _ => h.changed i ▸ Nat.zero_le _
      created := fun i s hs => by rw [h.created i, fileSlot_eq_some hs] }

theorem TimedInv.step (h : TimedInv x) {a : Readings × FileCall} (hg : WritesRefresh x a)
    (hs : timedStep x a = some x') : TimedInv x' := by
  rw [timedStep] at hs
  split_ifs at hs with hnow
  obtain ⟨sys', hcall, rfl⟩ := Option.map_eq_some_iff.mp hs
  exact ⟨h.inv.step (callStep_sysStep hcall),
    h.bounds.note hnow a.1.start_le_stop (slotSteps_callStep h.inv hg hcall)⟩

theorem TimedInv.timesKept (h : TimedInv x) : TimesKept x := by
  intro name st hst hfile
  rw [statName] at hst
  obtain ⟨header, hh, hst⟩ := Option.bind_eq_some_iff.mp hst
  obtain ⟨rfl, -⟩ := readHeaderSilent_eq_some hh
  obtain ⟨i, hfind, rfl⟩ := Option.map_eq_some_iff.mp hst
  obtain ⟨hi, hu, -⟩ := pfsFindEntry_eq_some.mp hfind
  dsimp only at hfile ⊢
  have hslot := fileSlot_of_file hi (pfsEntryIsFile_iff.mpr ⟨hu, hfile⟩)
  have hchanged := h.bounds.changed i _ hslot
  have hcreated := h.bounds.created i _ hslot
  dsimp only at hchanged hcreated
  exact ⟨i, hfind, hchanged, hcreated⟩

/-- **As long as each write refreshes the time of its file or does not have to, no time is stale.** -/
theorem timesKept_of_reach (h : Reach TimedInit WritesRefresh timedStep x) : TimesKept x :=
  (h.inv (I := TimedInv) (fun _ hi => hi.timedInv) fun _ _ _ hi hg hs => hi.step hg hs).timesKept

end Runs

/-- A blank file system, before any call. -/
def blankTimed : Timed :=
  ⟨blankSys, ⟨0, fun i => pfsEntryCreated (diskHeader blankSys.disk) i, fun _ => 0⟩⟩

theorem timedInit_blankTimed : TimedInit blankTimed :=
  ⟨fsInit_blankSys.inv, fun _ => rfl, fun _ => rfl⟩

/-- A file `a` is created at 5, written at 6 and appended to at 7. -/
def growRun : List (Readings × FileCall) :=
  [(.at 5 (by decide), .open [] (pfsPath [97]) 7), (.at 6 (by decide), .write 3 [1, 2, 3]),
    (.at 7 (by decide), .write 3 [4])]

theorem timesKept_of_reach_growRun :
    ∃ x, exec timedStep blankTimed growRun = some x ∧ TimesKept x := by
  have hrun : (exec timedStep blankTimed growRun).isSome = true := by decide +kernel
  have hgood : AllGood WritesRefresh timedStep blankTimed growRun := by decide +kernel
  obtain ⟨x, hx⟩ := Option.isSome_iff_exists.mp hrun
  exact ⟨x, hx, timesKept_of_reach (reach_of_exec (.start timedInit_blankTimed) hgood hx)⟩

/-- The file `a` is created at 5 and written at 6; its first byte is written again at 7. -/
def overwriteRun : List (Readings × FileCall) :=
  [(.at 5 (by decide), .open [] (pfsPath [97]) 7), (.at 6 (by decide), .write 3 [1, 2, 3]),
    (.at 6 (by decide), .seek 3 0), (.at 7 (by decide), .write 3 [9])]

/-- **A write in place leaves the time of the write before.** -/
theorem not_timesKept_overwrite :
    ¬ ∀ x, Reach TimedInit (fun _ _ => True) timedStep x → TimesKept x := by
  intro hall
  have hrun : (exec timedStep blankTimed overwriteRun).map (fun x =>
      ((statName x.sys.disk [97]).map fun st => (st.isDir, st.modifiedTicks),
        pfsFindEntry (diskHeader x.sys.disk) [97], x.log.changed 0)) =
      some (some (false, 6), some 0, 7) := by decide +kernel
  obtain ⟨x, hx, he⟩ := Option.map_eq_some_iff.mp hrun
  obtain ⟨hst, he⟩ := Prod.mk.inj he
  obtain ⟨hfind, hchanged⟩ := Prod.mk.inj he
  obtain ⟨st, hst, hfields⟩ := Option.map_eq_some_iff.mp hst
  obtain ⟨hfile, hmodified⟩ := Prod.mk.inj hfields
  obtain ⟨i, hi, hle, -⟩ := hall x (reach_of_exec (.start timedInit_blankTimed)
    (allGood_true _ _) hx) [97] st hst hfile
  obtain rfl : i = 0 := Option.some.inj (hi.symm.trans hfind)
  rw [hchanged, hmodified] at hle
  omega

end Rymos
