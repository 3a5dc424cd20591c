import Mathlib.Tactic
import Rymos.Pfs.Reach

/-!
# What a descriptor reaches

A slot of the table is used for one file after another. The ghost state gives every file a number of
its own.

* `Files`: the file in each slot, the bytes written to each position of a file, the file a descriptor
  was opened on. `Confine`, `confStep`: the calls of programs beside it.
* `Confined`: a read returns what was written to the file opened, a write leaves the other files.
* `OnOwnFile`: the slot a call uses still holds the file opened, and a read stays inside the file.
* `Keeps`, `ConfInv`, **`ConfInv.step`**: every byte of every file was written to it.
* **`confined_of_reach`**; **`not_confined_reuseRun`**.
-/

namespace Rymos

open ByteBuf Extents Blocks Transition

/-- What is known of the files. -/
structure FileLog where
  /-- The file in a slot. -/
  fileAt : ℕ → Option ℕ
  /-- The byte was written to the position of the file, or is a zero of a hole there. -/
  written : ℕ → ℕ → UInt8 → Prop
  /-- The file a descriptor was opened on. -/
  opened : ℕ → Option ℕ
  next : ℕ

structure Confine where
  sys : Sys
  log : FileLog

/-- A new file gets a new number; a file without extents has lost what was written to it. -/
def FileLog.slots (log : FileLog) (header : Header) : FileLog :=
  let fileAt := fun i =>
    if i < pfsEntryCount ∧ pfsEntryIsFile header i = true then
      some ((log.fileAt i).getD (log.next + i))
    else none
  { fileAt := fileAt
    written := fun file p b => log.written file p b ∧
      ∀ i < pfsEntryCount, fileAt i = some file → pfsEntryExtents header i ≠ []
    opened := log.opened
    next := log.next + pfsEntryCount }

/-- The log after a write that succeeded or changed the disk. -/
def FileLog.store (log : FileLog) (sys sys' : Sys) (fd : ℤ) (data : List UInt8) (r : Reply ℕ) :
    FileLog :=
  { log with
    written := fun file p b => log.written file p b ∨
      ∃ index, appFdIndex fd = some index ∧ log.opened index = some file ∧
        (r ≠ .refused ∨ sys'.disk ≠ sys.disk) ∧
        (writeOffset (sys.fds index) ≤ p ∧
            data[p - writeOffset (sys.fds index)]? = some b ∨
          diskSize sys.disk (sys.fds index).pfsIndex ≤ p ∧ p < writeOffset (sys.fds index) ∧
            b = 0) }

/-- The descriptor a successful open returns is on the file in its slot. -/
def FileLog.open (log : FileLog) (sys : Sys) : Reply ℤ → FileLog
  | .done fd =>
    match appFdIndex fd with
    | some index => { log with
        opened := Function.update log.opened index
          (if (sys.fds index).kind = .pfs then log.fileAt (sys.fds index).pfsIndex else none) }
    | none => log
  | _ => log

/-- A call of a program; the console does not run. -/
def confStep (c : Confine) : FsAct → Option Confine
  | .open cwd path flags t =>
    let r := abiOpen c.sys cwd path flags t
    some { sys := r.1, log := (c.log.slots (diskHeader r.1.disk)).open r.1 r.2 }
  | .write fd data t =>
    (abiWriteFd c.sys fd data t).map fun r =>
      { sys := r.1, log := (c.log.store c.sys r.1 fd data r.2).slots (diskHeader r.1.disk) }
  | .pwrite .. | .pmkdir .. | .pdelete .. => none
  | act => (sysStep c.sys act).map fun sys => { sys := sys, log := c.log.slots (diskHeader sys.disk) }

/-- The log of a file system on which nothing is known to have been written but what is there. -/
def FileLog.start (disk : Disk) : FileLog where
  fileAt := fun i => if i < pfsEntryCount ∧ pfsEntryIsFile (diskHeader disk) i = true then some i else none
  written := fun file p b => p < diskSize disk file ∧ b = fileByte disk file p
  opened := fun _ => none
  next := pfsEntryCount

/-- A file system in which no descriptor is on a RYMFS file. -/
structure ConfInit (c : Confine) : Prop where
  fs : FsInv c.sys
  fds : ∀ index, (c.sys.fds index).kind ≠ .pfs
  log : c.log = .start c.sys.disk

/-- The step reaches no file but the one its descriptor was opened on. -/
def Confined (c : Confine) (c' : Confine) : FsAct → Prop
  | .read fd n => ∀ index, appFdIndex fd = some index → (c.sys.fds index).kind = .pfs →
    ∀ bytes, (abiRead c.sys fd n).2 = .done bytes → ∀ k b, bytes[k]? = some b →
      ∃ file, c.log.opened index = some file ∧
        c.log.written file ((c.sys.fds index).offset + k) b
  | .write fd _ _ => ∀ index, appFdIndex fd = some index → (c.sys.fds index).kind = .pfs →
    ∀ i < pfsEntryCount, ∀ file, c.log.fileAt i = some file → c.log.opened index ≠ some file →
      c'.log.fileAt i = some file ∧ diskSize c'.sys.disk i = diskSize c.sys.disk i ∧
        pfsEntryExtents (diskHeader c'.sys.disk) i = pfsEntryExtents (diskHeader c.sys.disk) i ∧
        ∀ p, fileByte c'.sys.disk i p = fileByte c.sys.disk i p
  | _ => True

/-- The slot the call uses holds the file its descriptor was opened on, if it holds one; a read ends
inside the file. -/
def OnOwnFile (c : Confine) : FsAct → Prop
  | .read fd n => ∀ index ∈ appFdIndex fd, (c.sys.fds index).kind = .pfs →
    (c.sys.fds index).allows fdRead = true → 0 < copyLen (c.sys.fds index) n →
    ∀ file ∈ c.log.fileAt (c.sys.fds index).pfsIndex, c.log.opened index = some file ∧
      (c.sys.fds index).offset + copyLen (c.sys.fds index) n ≤
        diskSize c.sys.disk (c.sys.fds index).pfsIndex
  | .write fd _ _ => ∀ index ∈ appFdIndex fd, (c.sys.fds index).kind = .pfs →
    (c.sys.fds index).allows fdWrite = true →
    ∀ file ∈ c.log.fileAt (c.sys.fds index).pfsIndex, c.log.opened index = some file
  | _ => True

instance (c : Confine) : (act : FsAct) → Decidable (OnOwnFile c act)
  | .read fd _ => inferInstanceAs (Decidable (∀ index ∈ appFdIndex fd, _))
  | .write fd _ _ => inferInstanceAs (Decidable (∀ index ∈ appFdIndex fd, _))
  | .open .. | .seek .. | .close .. | .mkdir .. | .unlink .. | .rename .. | .pwrite .. | .pmkdir ..
  | .pdelete .. | .fault .. => isTrue trivial

/-! ## What the calls keep of a file -/

/-- A file of `h'` is the file there was in its slot, or empty. -/
def Keeps (h h' : Header) : Prop :=
  ∀ i < pfsEntryCount, pfsEntryIsFile h' i = true →
    (pfsEntryIsFile h i = true ∧ pfsEntryExtents h' i = pfsEntryExtents h i ∧
      pfsEntrySize h' i = pfsEntrySize h i) ∨
    pfsEntryExtents h' i = [] ∧ pfsEntrySize h' i = 0

section Keeps

variable {h h' h'' : Header}

theorem Keeps.refl (h : Header) : Keeps h h := fun _ _ hf => Or.inl ⟨hf, rfl, rfl⟩

theorem Keeps.trans (k : Keeps h h') (k' : Keeps h' h'') : Keeps h h'' := by
  intro i hi hf
  rcases k' i hi hf with ⟨hf', he, hs⟩ | hempty
  · rcases k i hi hf' with ⟨hf, he', hs'⟩ | ⟨he', hs'⟩
    · exact Or.inl ⟨hf, he.trans he', hs.trans hs'⟩
    · exact Or.inr ⟨he.trans he', hs.trans hs'⟩
  · exact Or.inr hempty

/-- A write of one entry keeps the other files. -/
theorem Keeps.ofOnly {i : ℕ} (ho : OnlyEntry h h' i)
    (hi : pfsEntryIsFile h' i = true →
      (pfsEntryIsFile h i = true ∧ pfsEntryExtents h' i = pfsEntryExtents h i ∧
        pfsEntrySize h' i = pfsEntrySize h i) ∨
      pfsEntryExtents h' i = [] ∧ pfsEntrySize h' i = 0) : Keeps h h' := by
  intro j _ hf
  by_cases hji : j = i
  · subst hji
    exact hi hf
  · have hb := ho.other hji
    rw [isFile_of_onlyEntry ho hji] at hf
    exact Or.inl ⟨hf, hb.extents, hb.size⟩

theorem EntryWrite.keeps (hw : EntryWrite h h') : Keeps h h' := by
  cases hw with
  | @new i created now name kind mode hv _ _ hfree _ =>
    have hi := (pfsFreeEntry_spec hfree).1
    exact .ofOnly (onlyEntry_pfsSetEntry h (length_of_validPfsPath hv).2) fun _ => Or.inr
      ⟨pfsEntryExtents_pfsSetEntry h name 0 kind [] created mode now hi (Nat.zero_le _) nofun,
        pfsEntrySize_pfsSetEntry h name 0 kind [] created mode now hi⟩
  | @truncate i now name hv hi _ _ =>
    have he : Emptied h (truncateHeader h i name now) i name :=
      emptied_pfsSetEntry hi (length_of_validPfsPath hv).2
    exact .ofOnly he.only fun _ => Or.inr ⟨he.extents, he.size⟩
  | @unlink name _ he =>
    simp only [pfsUnlinkHeader] at he
    split at he
    · cases he
    split_ifs at he
    cases he
    rename_i i _ _
    refine .ofOnly (onlyEntry_pfsClearEntry h) fun hf => ?_
    rw [pfsEntryIsFile, pfsEntryUsed_pfsClearEntry] at hf
    cases hf

theorem keeps_rename (ha : AllocInv h) {oldName newName : List UInt8} {now : ℕ}
    (he : pfsRenameHeader h oldName newName now = .ok h') : Keeps h h' := by
  obtain ⟨hv, -, -, i, hf, -, rfl⟩ := pfsRenameHeader_eq_ok he
  obtain ⟨hi, hu, -⟩ := pfsFindEntry_eq_some.mp hf
  have hl := (length_of_validPfsPath hv).2
  refine .ofOnly (onlyEntry_pfsSetEntry h hl) fun hfile => ?_
  have hkind := pfsEntryKind_pfsSetEntry h newName (pfsEntrySize h i) (pfsEntryKind h i)
    (pfsEntryExtents h i) (pfsEntryCreated h i) (pfsEntryMode h i) now hi
  rw [(entry_of_kind hkind).2] at hfile
  refine Or.inl ⟨hfile, pfsEntryExtents_pfsSetEntry _ _ _ _ _ _ _ _ hi (length_pfsEntryExtents h i)
    fun e he => fits_of_fin (ha.extent hi hfile he).2.2, ?_⟩
  rw [pfsEntrySize_pfsSetEntry _ _ _ _ _ _ _ _ hi]
  exact Nat.mod_eq_of_lt (pfsEntrySize_lt h i)

theorem EntryEffect.keeps {disk disk' : Disk} (he : EntryEffect disk disk') :
    Keeps (diskHeader disk) (diskHeader disk') := by
  obtain ⟨-, -, hw⟩ := he
  generalize diskHeader disk' = h' at hw ⊢
  induction hw with
  | refl => exact .refl _
  | tail _ hw ih => exact ih.trans hw.keeps

end Keeps

/-! ## The invariant -/

/-- Every byte of every file was written to it. -/
structure ConfInv (c : Confine) : Prop where
  fs : FsInv c.sys
  files : ∀ i, (c.log.fileAt i).isSome = true ↔
    i < pfsEntryCount ∧ pfsEntryIsFile (diskHeader c.sys.disk) i = true
  old : ∀ i file, c.log.fileAt i = some file → file < c.log.next
  distinct : ∀ i j file, c.log.fileAt i = some file → c.log.fileAt j = some file → i = j
  bytes : ∀ i file, c.log.fileAt i = some file → ∀ p < diskSize c.sys.disk i,
    c.log.written file p (fileByte c.sys.disk i p)

theorem ConfInit.inv {c : Confine} (h : ConfInit c) : ConfInv c := by
  have hat : ∀ i file, c.log.fileAt i = some file → file = i ∧ i < pfsEntryCount ∧
      pfsEntryIsFile (diskHeader c.sys.disk) i = true := by
    intro i file hf
    rw [h.log, FileLog.start] at hf
    dsimp only at hf
    split_ifs at hf with hi
    exact ⟨(Option.some.inj hf).symm, hi⟩
  refine ⟨h.fs, fun i => ?_, fun i file hf => ?_, fun i j file hi hj => ?_, fun i file hf p hp => ?_⟩
  · rw [h.log, FileLog.start]
    dsimp only
    split_ifs with hi <;> simp [hi]
  · obtain ⟨rfl, hlt, -⟩ := hat i file hf
    rw [h.log]
    exact hlt
  · rw [← (hat i file hi).1, ← (hat j file hj).1]
  · obtain ⟨rfl, -, -⟩ := hat i file hf
    rw [h.log]
    exact ⟨hp, rfl⟩

section Inv

variable {c : Confine} {sys' : Sys} {log : FileLog} {i file : ℕ}

/-- A slot that holds a file before and after holds the same file. -/
theorem FileLog.slots_fileAt (hi : i < pfsEntryCount) {header : Header}
    (hf : pfsEntryIsFile header i = true) :
    (log.slots header).fileAt i = some ((log.fileAt i).getD (log.next + i)) := if_pos ⟨hi, hf⟩

theorem FileLog.slots_eq_some {header : Header} (h : (log.slots header).fileAt i = some file) :
    i < pfsEntryCount ∧ pfsEntryIsFile header i = true ∧
      (log.fileAt i = some file ∨ log.fileAt i = none ∧ file = log.next + i) := by
  rw [FileLog.slots] at h
  dsimp only at h
  split_ifs at h with hi
  refine ⟨hi.1, hi.2, ?_⟩
  cases ha : log.fileAt i with
  | none =>
    rw [ha] at h
    exact Or.inr ⟨rfl, (Option.some.inj h).symm⟩
  | some f =>
    rw [ha] at h
    exact Or.inl h

/-- **The log follows the slots** as long as the bytes of the files that stay were written. -/
theorem ConfInv.slots (h : ConfInv c) (hfs : FsInv sys') (hat : log.fileAt = c.log.fileAt)
    (hnext : log.next = c.log.next)
    (hb : ∀ i file, i < pfsEntryCount → pfsEntryIsFile (diskHeader sys'.disk) i = true →
      c.log.fileAt i = some file → ∀ p < diskSize sys'.disk i,
        log.written file p (fileByte sys'.disk i p))
    (hnew : ∀ i, i < pfsEntryCount → pfsEntryIsFile (diskHeader sys'.disk) i = true →
      c.log.fileAt i = none → diskSize sys'.disk i = 0) :
    ConfInv ⟨sys', log.slots (diskHeader sys'.disk)⟩ := by
  have hdistinct : ∀ i j file, (log.slots (diskHeader sys'.disk)).fileAt i = some file →
      (log.slots (diskHeader sys'.disk)).fileAt j = some file → i = j := by
    intro i j file hi hj
    obtain ⟨-, -, hi⟩ := FileLog.slots_eq_some hi
    obtain ⟨-, -, hj⟩ := FileLog.slots_eq_some hj
    rw [hat, hnext] at hi hj
    rcases hi with hi | ⟨-, rfl⟩ <;> rcases hj with hj | ⟨-, hj⟩
    · exact h.distinct i j file hi hj
    · have := h.old i file hi
      omega
    · have := h.old j _ hj
      omega
    · omega
  refine ⟨hfs, fun i => ?_, fun i file hf => ?_, hdistinct, fun i file hf p hp => ?_⟩
  · rw [FileLog.slots]
    dsimp only
    split_ifs with hi <;> simp [hi]
  · obtain ⟨hi, -, hc⟩ := FileLog.slots_eq_some hf
    have hn : (log.slots (diskHeader sys'.disk)).next = log.next + pfsEntryCount := rfl
    rw [hat, hnext] at hc
    dsimp only
    rw [hn, hnext]
    rcases hc with hc | ⟨-, rfl⟩
    · have := h.old i file hc
      omega
    · omega
  · obtain ⟨hi, hfile, hc⟩ := FileLog.slots_eq_some hf
    rw [hat] at hc
    rcases hc with hc | ⟨hc, -⟩
    · refine ⟨hb i file hi hfile hc p hp, fun j hj hjf he => ?_⟩
      -- a file without extents has no bytes
      obtain rfl := hdistinct i j file hf hjf
      have := (hfs.alloc.size i hj hfile).1
      rw [he, show total ([] : List PfsExtent) = 0 from rfl] at this
      dsimp only [diskSize] at hp
      omega
    · dsimp only at hp
      rw [hnew i hi hfile hc] at hp
      omega

/-- A step that keeps the files and their sectors. -/
theorem ConfInv.keeps (h : ConfInv c) (hfs : FsInv sys')
    (hk : Keeps (diskHeader c.sys.disk) (diskHeader sys'.disk))
    (hd : ∀ x, pfsDataStart ≤ x → sys'.disk.sectors x = c.sys.disk.sectors x) :
    ConfInv ⟨sys', c.log.slots (diskHeader sys'.disk)⟩ := by
  refine h.slots hfs rfl rfl (fun i file hi hf hat p hp => ?_) fun i hi hf hnone => ?_
  · rcases hk i hi hf with ⟨hf', he, hs⟩ | ⟨-, hs⟩
    · have hbyte : fileByte sys'.disk i p = fileByte c.sys.disk i p := by
        rw [fileByte, fileByte, he]
        exact byteAt_congr (fun x hx => hd x (h.fs.alloc.inside hi hf' hx).1) p
      rw [hbyte]
      rw [diskSize, hs] at hp
      exact h.bytes i file hat p hp
    · rw [diskSize, hs] at hp
      omega
  · rcases hk i hi hf with ⟨hf', -, -⟩ | ⟨-, hs⟩
    · have := (h.files i).mpr ⟨hi, hf'⟩
      rw [hnone] at this
      cases this
    · exact hs

/-- The log of a descriptor opened. -/
theorem ConfInv.open (h : ConfInv ⟨sys', log⟩) (r : Reply ℤ) : ConfInv ⟨sys', log.open sys' r⟩ := by
  cases r with
  | done fd =>
    rw [FileLog.open]
    split
    · exact ⟨h.fs, h.files, h.old, h.distinct, h.bytes⟩
    · exact h
  | error code => exact h
  | refused => exact h

end Inv

/-! ## Writing -/

section Write

variable {disk disk' mid : Disk} {handle handle' : AppFd} {data : List UInt8} {t : ℕ → ℕ}
  {r : Reply ℕ}

/-- The bytes of the file after a write that came to `m`. -/
theorem WroteVia.bytes {index offset now m : ℕ}
    (w : WroteVia disk mid disk' index offset data now m) (h : AllocInv (diskHeader disk))
    (hi : index < pfsEntryCount) {p : ℕ} (hp : p < diskSize disk index ∨ p < m) :
    (p < diskSize disk index ∧ fileByte disk' index p = fileByte disk index p) ∨
      (offset ≤ p ∧ data[p - offset]? = some (fileByte disk' index p) ∨
        diskSize disk index ≤ p ∧ p < offset ∧ fileByte disk' index p = 0) := by
  have hsize := (h.size index hi w.room.file).1
  have hle := w.hi_le
  by_cases hin : min (diskSize disk index) offset ≤ p ∧ p < m
  · right
    rw [w.fileByte_in h hi hin.1 hin.2, writeVal]
    by_cases hpo : p < offset
    · exact Or.inr ⟨by omega, hpo, if_pos hpo⟩
    · refine Or.inl ⟨by omega, ?_⟩
      rw [if_neg hpo, List.getD_eq_getElem?_getD, List.getElem?_eq_getElem (by omega),
        Option.getD_some]
  · left
    exact ⟨by omega, w.fileByte_out h hi (by omega) (by unfold diskSize at hp hin; omega)⟩

/-- **The bytes of the file after a write** were there, were written, or are zeros of the hole. -/
theorem Stored.bytes (hs : Stored disk handle data t disk' handle' r) (h : AllocInv (diskHeader disk))
    (hi : handle.pfsIndex < pfsEntryCount) {p : ℕ} (hp : p < diskSize disk' handle.pfsIndex) :
    (p < diskSize disk handle.pfsIndex ∧
        fileByte disk' handle.pfsIndex p = fileByte disk handle.pfsIndex p) ∨
      (writeOffset handle ≤ p ∧
          data[p - writeOffset handle]? = some (fileByte disk' handle.pfsIndex p) ∨
        diskSize disk handle.pfsIndex ≤ p ∧ p < writeOffset handle ∧
          fileByte disk' handle.pfsIndex p = 0) := by
  have hsize : ∀ {mid d : Disk} {m : ℕ},
      WroteVia disk mid d handle.pfsIndex (writeOffset handle) data (t 0) m →
      diskSize d handle.pfsIndex = diskSize disk handle.pfsIndex := fun w => by
    rw [diskSize, w.header h hi, w.room.size_eq hi, diskSize]
  cases hs with
  | idle => exact Or.inl ⟨hp, rfl⟩
  | part w => exact w.bytes h hi (Or.inl (hsize w ▸ hp))
  | unsized w _ => exact w.bytes h hi (Or.inl (hsize w ▸ hp))
  | within w _ => exact w.bytes h hi (Or.inl (hsize w ▸ hp))
  | grown w _ =>
    obtain ⟨-, hmax, hf, -⟩ := w.end_le h hi
    rw [diskSize_pfsStoreSize hi hmax] at hp
    rw [fileByte_pfsStoreSize (w.allocInv h hi) hi hi hf]
    exact w.bytes h hi (Or.inr hp)

/-- **The other files are as before.** -/
theorem Stored.other (hs : Stored disk handle data t disk' handle' r) (h : AllocInv (diskHeader disk))
    (hi : handle.pfsIndex < pfsEntryCount) {j : ℕ} (hj : j < pfsEntryCount)
    (hne : j ≠ handle.pfsIndex) (hf : pfsEntryIsFile (diskHeader disk) j = true) :
    diskSize disk' j = diskSize disk j ∧
      pfsEntryExtents (diskHeader disk') j = pfsEntryExtents (diskHeader disk) j ∧
      ∀ p, fileByte disk' j p = fileByte disk j p := by
  have hb := (hs.entry h hi).1.other hne
  refine ⟨hb.size, hb.extents, fun p => ?_⟩
  cases hs with
  | idle => rfl
  | part w => exact w.fileByte_other h hi hj hne hf p
  | unsized w _ => exact w.fileByte_other h hi hj hne hf p
  | within w _ => exact w.fileByte_other h hi hj hne hf p
  | grown w _ =>
    rw [fileByte_pfsStoreSize (w.allocInv h hi) hi hj
      (by rw [isFile_of_onlyEntry (w.onlyEntry h hi) hne]; exact hf)]
    exact w.fileByte_other h hi hj hne hf p

end Write

/-! ## Steps -/

section Step

variable {c c' : Confine} {act : FsAct}

theorem ConfInv.write (h : ConfInv c) {fd : ℤ} {data : List UInt8} {t : ℕ → ℕ} {sys' : Sys}
    {r : Reply ℕ} (hg : OnOwnFile c (.write fd data t))
    (hw : abiWriteFd c.sys fd data t = some (sys', r)) :
    ConfInv ⟨sys', (c.log.store c.sys sys' fd data r).slots (diskHeader sys'.disk)⟩ := by
  have hcall := callEffect_abiWriteFd h.fs.fds h.fs.writable h.fs.alloc hw
  have hfs : FsInv sys' := ⟨hcall.disk.only.headerWritable h.fs.writable, hcall.fds h.fs.fds,
    h.fs.alloc.effect hcall.disk⟩
  -- a call that leaves the disk writes nothing
  by_cases hsame : sys'.disk = c.sys.disk
  · refine h.slots hfs rfl rfl (fun i file _ _ hat p hp => Or.inl ?_) fun i hi hf hnone => ?_
    · rw [hsame] at hp ⊢
      exact h.bytes i file hat p hp
    · rw [hsame] at hf
      have := (h.files i).mpr ⟨hi, hf⟩
      rw [hnone] at this
      cases this
  rcases abiWriteFd_spec h.fs.fds h.fs.writable h.fs.alloc hw with ⟨hd, -, -⟩ |
      ⟨index, handle', hx, hk, hallow, hst, -⟩
  · exact absurd hd hsame
  have hi := h.fs.fds index hk
  have ho := (hst.entry h.fs.alloc hi).1
  have hfile : ∀ i, pfsEntryIsFile (diskHeader sys'.disk) i = true →
      pfsEntryIsFile (diskHeader c.sys.disk) i = true := by
    intro i hf
    by_cases hii : i = (c.sys.fds index).pfsIndex
    · rw [hii] at hf ⊢
      rwa [(entry_of_kind (hst.entry h.fs.alloc hi).2.1).2] at hf
    · rwa [isFile_of_onlyEntry ho hii] at hf
  refine h.slots hfs rfl rfl (fun i file hlt hf hat p hp => ?_) fun i hlt hf hnone => ?_
  · by_cases hii : i = (c.sys.fds index).pfsIndex
    · subst hii
      have hopen := hg index hx hk hallow file hat
      rcases hst.bytes h.fs.alloc hi hp with ⟨hlt', hb⟩ | hnew
      · rw [hb]
        exact Or.inl (h.bytes _ file hat p hlt')
      · exact Or.inr ⟨index, hx, hopen, Or.inr hsame, hnew⟩
    · obtain ⟨hs, -, hb⟩ := hst.other h.fs.alloc hi hlt hii (hfile i hf)
      rw [hb]
      rw [hs] at hp
      exact Or.inl (h.bytes i file hat p hp)
  · have := (h.files i).mpr ⟨hlt, hfile i hf⟩
    rw [hnone] at this
    cases this

/-- **Every byte of every file was written to it**, after a step on the file opened. -/
theorem ConfInv.step (h : ConfInv c) (hg : OnOwnFile c act) (hs : confStep c act = some c') :
    ConfInv c' := by
  have entry : ∀ {sys'}, EntryCall c.sys sys' →
      ConfInv ⟨sys', c.log.slots (diskHeader sys'.disk)⟩ := fun he =>
    h.keeps ⟨he.disk.only.headerWritable h.fs.writable, he.fds h.fs.fds,
      h.fs.alloc.effect he.disk.effect⟩ he.disk.keeps he.disk.data
  have hw := h.fs.writable
  cases act with
  | «open» cwd path flags t =>
    cases hs
    exact (entry (entryCall_abiOpen hw rfl)).open _
  | write fd data t =>
    obtain ⟨⟨sys', r⟩, hr, rfl⟩ := Option.map_eq_some_iff.mp hs
    exact h.write hg hr
  | read fd n => cases hs; exact entry (entryCall_abiRead rfl)
  | seek fd offset => cases hs; exact entry (entryCall_abiSeek rfl)
  | close fd => cases hs; exact entry (entryCall_abiClose rfl)
  | mkdir cwd path t => cases hs; exact entry (entryCall_abiMkdir hw rfl)
  | unlink cwd path => cases hs; exact entry (entryCall_abiUnlink hw rfl)
  | rename cwd oldPath newPath t =>
    cases hs
    have hren : abiRename c.sys cwd oldPath newPath t =
        ((abiRename c.sys cwd oldPath newPath t).1, (abiRename c.sys cwd oldPath newPath t).2) := rfl
    generalize (abiRename c.sys cwd oldPath newPath t).1 = sys' at hren ⊢
    rcases abiRename_header hw hren with rfl | ⟨oldName, newName, h', -, -, hr, rfl⟩
    · exact entry (.refl _)
    · have hd : diskHeader (c.sys.setDisk (withHeader c.sys.disk h')).disk = h' :=
        diskHeader_withHeader
      refine h.keeps ⟨hw, h.fs.fds, ?_⟩ ?_ fun x hx => sectors_withHeader hx
      · rw [hd]
        exact h.fs.alloc.renameHeader hr
      · rw [hd]
        exact keeps_rename h.fs.alloc hr
  | pwrite name data t => cases hs
  | pmkdir name t => cases hs
  | pdelete name => cases hs
  | fault readOk writeOk =>
    obtain ⟨sys', hf, rfl⟩ := Option.map_eq_some_iff.mp hs
    have hfs := h.fs.step hf
    simp only [sysStep] at hf
    split_ifs at hf
    cases hf
    exact h.keeps hfs (.refl _) fun _ _ => rfl

/-- A step from a state in which every byte of every file was written to it. -/
theorem ConfInv.confined (h : ConfInv c) (hg : OnOwnFile c act) (hs : confStep c act = some c') :
    Confined c c' act := by
  cases act with
  | read fd n =>
    intro index hx hk bytes hr k b hb
    have hi := h.fs.fds index hk
    have hpair : abiRead c.sys fd n = ((abiRead c.sys fd n).1, .done bytes) := Prod.ext rfl hr
    rcases abiRead_pfs hx hk hpair with ⟨-, rfl, -⟩ | ⟨hpos, hallow, hread, -⟩
    · cases hb
    have hfile := pfsReadAt_isFile h.fs.alloc hi hpos hread
    obtain ⟨file, hat⟩ := Option.isSome_iff_exists.mp ((h.files _).mpr ⟨hi, hfile⟩)
    obtain ⟨hopen, hend⟩ := hg index hx hk hallow hpos file hat
    have hmax := (h.fs.alloc.size _ hi hfile).2
    obtain rfl := pfsReadAt_eq_some h.fs.alloc hi hfile (hend.trans hmax) hread
    obtain ⟨hlt, rfl⟩ := List.getElem?_eq_some_iff.mp hb
    rw [List.length_map, List.length_range] at hlt
    refine ⟨file, hopen, ?_⟩
    rw [List.getElem_map, List.getElem_range]
    exact h.bytes _ file hat _ (by omega)
  | write fd data t =>
    obtain ⟨⟨sys', r⟩, hr, rfl⟩ := Option.map_eq_some_iff.mp hs
    intro index hx hk i hi file hat hne
    obtain ⟨-, hfile⟩ := (h.files i).mp (Option.isSome_iff_exists.mpr ⟨file, hat⟩)
    have hafter : ∀ {header : Header}, pfsEntryIsFile header i = true →
        ((c.log.store c.sys sys' fd data r).slots header).fileAt i = some file := fun hf => by
      rw [FileLog.slots_fileAt hi hf]
      exact congrArg some (by rw [FileLog.store, hat, Option.getD_some])
    rcases abiWriteFd_spec h.fs.fds h.fs.writable h.fs.alloc hr with ⟨hd, -, -⟩ |
        ⟨index', handle', hx', hk', hallow, hst, -⟩
    · dsimp only
      rw [hd]
      exact ⟨hafter hfile, rfl, rfl, fun _ => rfl⟩
    · obtain rfl : index' = index := Option.some.inj (hx'.symm.trans hx)
      have hii : i ≠ (c.sys.fds index').pfsIndex := by
        rintro rfl
        exact hne (hg index' hx hk hallow file hat)
      have hslot := h.fs.fds index' hk
      refine ⟨hafter ?_, hst.other h.fs.alloc hslot hi hii hfile⟩
      rwa [isFile_of_onlyEntry (hst.entry h.fs.alloc hslot).1 hii]
  | _ => trivial

/-- **A descriptor is confined to the file it opened** in every run whose calls find that file in the
slot they use and read inside it. -/
theorem confined_of_reach (h : Reach ConfInit OnOwnFile confStep c) (hg : OnOwnFile c act)
    (hs : confStep c act = some c') : Confined c c' act :=
  have hinv : ConfInv c := h.inv (fun _ hi => hi.inv) fun _ _ _ hi hg hs => hi.step hg hs
  hinv.confined hg hs

end Step

/-- A blank file system and its log. -/
def blankConfine : Confine := ⟨blankSys, .start blankSys.disk⟩

theorem confInit_blankConfine : ConfInit blankConfine :=
  ⟨fsInit_blankSys.inv, fun _ h => AppFdKind.noConfusion h, rfl⟩

/-- Two files are written, and the first is rewound. -/
def twoFilesRun : List FsAct :=
  [.open [] (pfsPath [97]) 7 fun _ => 0, .write 3 [1, 2, 3] fun _ => 0,
    .open [] (pfsPath [98]) 7 fun _ => 0, .write 4 [9] fun _ => 0, .seek 3 0]

theorem confined_of_reach_twoFilesRun : ∃ c c', exec confStep blankConfine twoFilesRun = some c ∧
    confStep c (.read 3 10) = some c' ∧ (abiRead c.sys 3 10).2 = .done [1, 2, 3] ∧
      Confined c c' (.read 3 10) := by
  have hrun : (exec confStep blankConfine twoFilesRun).map (fun c =>
      ((abiRead c.sys 3 10).2, decide (OnOwnFile c (.read 3 10)))) =
        some (.done [1, 2, 3], true) := by decide +kernel
  obtain ⟨c, hc, he⟩ := Option.map_eq_some_iff.mp hrun
  rw [Prod.mk.injEq, decide_eq_true_eq] at he
  have hgood : AllGood OnOwnFile confStep blankConfine twoFilesRun := by decide +kernel
  exact ⟨c, _, hc, rfl, he.1,
    confined_of_reach (reach_of_exec (.start confInit_blankConfine) hgood hc) he.2 rfl⟩

/-- A file `a` is opened and removed, and a file `b` takes its slot. -/
def reuseRun : List FsAct :=
  [.open [] (pfsPath [97]) 7 fun _ => 0, .unlink [] (pfsPath [97]),
    .open [] (pfsPath [98]) 7 fun _ => 0]

/-- **A write through the descriptor of the file removed makes the new file longer.** -/
theorem not_confined_reuseRun :
    ¬ ∀ c, Reach ConfInit (fun _ _ => True) confStep c →
      ∀ act c', confStep c act = some c' → Confined c c' act := by
  intro hall
  have hrun : (exec confStep blankConfine reuseRun).bind (fun c =>
      (confStep c (.write 3 [1] fun _ => 0)).map fun c' =>
        (c.log.fileAt 0, c.log.opened 0, (c.sys.fds 0).kind, diskSize c.sys.disk 0,
          diskSize c'.sys.disk 0)) = some (some 768, some 256, .pfs, 0, 1) := by decide +kernel
  obtain ⟨c, hc, he⟩ := Option.bind_eq_some_iff.mp hrun
  obtain ⟨c', hc', he⟩ := Option.map_eq_some_iff.mp he
  simp only [Prod.mk.injEq] at he
  obtain ⟨hat, hopen, hk, hsize, hsize'⟩ := he
  have hreach := reach_of_exec (.start confInit_blankConfine) (allGood_true _ reuseRun) hc
  have hconf := hall c hreach _ c' hc' 0 rfl hk 0 (by decide) 768 hat (by rw [hopen]; decide)
  rw [hsize, hsize'] at hconf
  exact absurd hconf.2.1 (by decide)

end Rymos
