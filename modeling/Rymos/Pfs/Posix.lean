import Mathlib.Data.UInt
import Mathlib.Tactic
import Rymos.Base.Files
import Rymos.Base.Runs
import Rymos.Pfs.Reach

/-!
# Several descriptors on one file

The calls on one file run beside the reference model of `Files`.

* `PosixAct`, `Posix`, `posixStep`: the calls that succeed, the file system and the reference model;
  `answers` keeps what `read` and `stat` returned beside what the model says.
* `PosixGood`: the length a descriptor keeps leads the call where the size of the file would.
* `fileContent`, `PosixInv`, **`PosixInv.step`**: the file is the array of the model.
* **`posix_of_reach`**: under `PosixGood` the calls answer as the model does;
  **`not_posix_appendRun`**.
-/

namespace Rymos

open ByteBuf Extents Blocks Transition Files

/-- A call on the file, or a change of the commands the drive accepts. -/
inductive PosixAct where
  | open (cwd path : List UInt8) (flags : UInt32) (t : ℕ → ℕ)
  | read (fd : ℤ) (bufferLen : ℕ)
  | write (fd : ℤ) (data : List UInt8) (t : ℕ → ℕ)
  | seek (fd : ℤ) (offset : UInt64)
  | close (fd : ℤ)
  | stat
  | fault (readOk writeOk : ℕ → Bool)

/-- What a call tells its process about the file. -/
inductive Answer where
  | bytes (bytes : List UInt8)
  | size (size : Option ℕ)
deriving DecidableEq

/-- The file system, the reference model, and their answers side by side. -/
structure Posix where
  sys : Sys
  ref : RefFile ℤ UInt8
  answers : List (Answer × Answer)

/-- A successful call on the file `name`, by the file system and by the reference model. -/
def posixStep (name : List UInt8) (p : Posix) : PosixAct → Option Posix
  | .open cwd path flags t =>
    if (checkedAppSlice path).bind (pfsResolvePath cwd) = some name then
      match abiOpen p.sys cwd path flags t with
      | (sys, .done fd) => some { p with
          sys := sys
          ref := p.ref.open fd (hasFlag flags fdTruncate) (hasFlag flags fdAppend) }
      | _ => none
    else none
  | .read fd bufferLen =>
    match p.ref.desc fd, abiRead p.sys fd bufferLen with
    | some d, (sys, .done bytes) => some
        { sys := sys
          ref := p.ref.read fd d bufferLen
          answers := (.bytes bytes, .bytes (p.ref.bytes d bufferLen)) :: p.answers }
    | _, _ => none
  | .write fd data t =>
    match p.ref.desc fd, abiWriteFd p.sys fd data t with
    | some d, some (sys, .done _) => some { p with sys := sys, ref := p.ref.store fd d data }
    | _, _ => none
  | .seek fd offset =>
    match p.ref.desc fd, abiSeek p.sys fd offset with
    | some d, (sys, .done _) => some { p with sys := sys, ref := p.ref.seek fd d offset.toNat }
    | _, _ => none
  | .close fd =>
    match p.ref.desc fd, abiClose p.sys fd with
    | some _, (sys, .done _) => some { p with sys := sys, ref := p.ref.close fd }
    | _, _ => none
  | .stat =>
    (statName p.sys.disk name).map fun st => { p with
      answers := (.size (some st.size), .size (p.ref.content.map List.length)) :: p.answers }
  | .fault readOk writeOk =>
    if (List.range pfsHeaderSectors).all writeOk then
      some { p with sys := p.sys.setDisk { p.sys.disk with readOk := readOk, writeOk := writeOk } }
    else none

/-- The bytes of the file `name`. -/
def fileContent (disk : Disk) (name : List UInt8) : Option (List UInt8) :=
  (pfsFindEntry (diskHeader disk) name).map fun i =>
    (List.range (diskSize disk i)).map (fileByte disk i)

/-- Any file system, with no descriptor on the file. -/
structure PosixInit (name : List UInt8) (p : Posix) : Prop where
  writable : HeaderWritable p.sys.disk
  fds : FdsOk p.sys
  alloc : AllocInv (diskHeader p.sys.disk)
  names : NamesFit (diskHeader p.sys.disk)
  file : ∀ i, pfsFindEntry (diskHeader p.sys.disk) name = some i →
    pfsEntryIsFile (diskHeader p.sys.disk) i = true
  content : p.ref.content = fileContent p.sys.disk name
  desc : ∀ fd, p.ref.desc fd = none
  answers : p.answers = []

/-- The length kept in descriptor `handle` gives a write the place and the effect on the size that the
size of the file gives it. -/
structure WriteGood (size : ℕ) (handle : AppFd) (data : List UInt8) : Prop where
  append : hasFlag handle.flags fdAppend = true → handle.len = size
  nothing : data = [] → handle.len < writeOffset handle → size = writeOffset handle
  grown : data ≠ [] → handle.len < writeOffset handle + data.length →
    size ≤ writeOffset handle + data.length
  within : data ≠ [] → writeOffset handle + data.length ≤ handle.len →
    writeOffset handle + data.length ≤ size

/-- The length kept in the descriptor leads the call where the size of the file would. -/
def PosixGood (p : Posix) : PosixAct → Prop
  | .read fd bufferLen => ∀ index ∈ appFdIndex fd,
    copyLen (p.sys.fds index) bufferLen =
      min bufferLen (diskSize p.sys.disk (p.sys.fds index).pfsIndex - (p.sys.fds index).offset)
  | .write fd data _ => ∀ index ∈ appFdIndex fd,
    WriteGood (diskSize p.sys.disk (p.sys.fds index).pfsIndex) (p.sys.fds index) data
  | _ => True

instance (size : ℕ) (handle : AppFd) (data : List UInt8) : Decidable (WriteGood size handle data) :=
  decidable_of_iff
    ((hasFlag handle.flags fdAppend = true → handle.len = size) ∧
      (data = [] → handle.len < writeOffset handle → size = writeOffset handle) ∧
      (data ≠ [] → handle.len < writeOffset handle + data.length →
        size ≤ writeOffset handle + data.length) ∧
      (data ≠ [] → writeOffset handle + data.length ≤ handle.len →
        writeOffset handle + data.length ≤ size))
    ⟨fun h => ⟨h.1, h.2.1, h.2.2.1, h.2.2.2⟩, fun h => ⟨h.append, h.nothing, h.grown, h.within⟩⟩

instance (p : Posix) : (act : PosixAct) → Decidable (PosixGood p act)
  | .read fd _ => inferInstanceAs (Decidable (∀ index ∈ appFdIndex fd, _))
  | .write fd _ _ => inferInstanceAs (Decidable (∀ index ∈ appFdIndex fd, _))
  | .open .. | .seek .. | .close .. | .stat | .fault .. => isTrue trivial

/-! ## The invariant -/

/-- Descriptor `index` is on the file `name` and where `d` is. -/
structure Tracks (name : List UInt8) (sys : Sys) (index : ℕ) (d : Desc) : Prop where
  isOpen : (sys.fds index).isOpen = true
  kind : (sys.fds index).kind = .pfs
  find : pfsFindEntry (diskHeader sys.disk) name = some (sys.fds index).pfsIndex
  offset : (sys.fds index).offset = d.offset
  append : hasFlag (sys.fds index).flags fdAppend = d.append

structure PosixInv (name : List UInt8) (p : Posix) : Prop where
  writable : HeaderWritable p.sys.disk
  fds : FdsOk p.sys
  alloc : AllocInv (diskHeader p.sys.disk)
  names : NamesFit (diskHeader p.sys.disk)
  file : ∀ i, pfsFindEntry (diskHeader p.sys.disk) name = some i →
    pfsEntryIsFile (diskHeader p.sys.disk) i = true
  content : p.ref.content = fileContent p.sys.disk name
  desc : ∀ fd d, p.ref.desc fd = some d →
    ∃ index, appFdIndex fd = some index ∧ Tracks name p.sys index d
  answers : ∀ a ∈ p.answers, a.1 = a.2

theorem PosixInit.inv {name : List UInt8} {p : Posix} (h : PosixInit name p) : PosixInv name p :=
  ⟨h.writable, h.fds, h.alloc, h.names, h.file, h.content,
    fun fd d hd => (by rw [h.desc fd] at hd; cases hd), fun a ha => (by rw [h.answers] at ha; cases ha)⟩

theorem appFdIndex_eq_some {fd : ℤ} {index : ℕ} :
    appFdIndex fd = some index ↔ fd = index + appFdBase ∧ index < appFdCount := by
  rw [appFdIndex]
  dsimp only
  split_ifs with h₁ h₂
  · simp only [false_iff]
    omega
  · simp only [Option.some.injEq]
    omega
  · simp only [false_iff]
    omega

theorem freeFd_spec {sys : Sys} {index : ℕ} (h : freeFd sys = some index) :
    index < appFdCount ∧ (sys.fds index).isOpen = false := by
  rw [freeFd, List.find?_range_eq_some] at h
  exact ⟨List.mem_range.mp h.2.1, by simpa using h.1⟩

section Content

variable {disk disk' : Disk} {name : List UInt8} {i : ℕ} {c : List UInt8}

theorem fileContent_of_find (hf : pfsFindEntry (diskHeader disk) name = some i) :
    fileContent disk name = some ((List.range (diskSize disk i)).map (fileByte disk i)) := by
  rw [fileContent, hf]
  rfl

/-- An array that agrees in its length and its bytes is the content. -/
theorem fileContent_eq_some (hf : pfsFindEntry (diskHeader disk) name = some i)
    (hl : c.length = diskSize disk i) (hb : ∀ p < c.length, c.getD p 0 = fileByte disk i p) :
    fileContent disk name = some c := by
  rw [fileContent_of_find hf]
  refine congrArg some (List.ext_getElem (by simp [hl]) fun p h₁ h₂ => ?_)
  have := hb p h₂
  rw [List.getD_eq_getElem?_getD, List.getElem?_eq_getElem h₂, Option.getD_some] at this
  simp [this]

/-- The entries are found where they were before the write. -/
theorem Stored.find {handle handle' : AppFd} {data : List UInt8} {t : ℕ → ℕ} {r : Reply ℕ}
    (hs : Stored disk handle data t disk' handle' r) (h : AllocInv (diskHeader disk))
    (hi : handle.pfsIndex < pfsEntryCount) (hn : NamesFit (diskHeader disk)) :
    NamesFit (diskHeader disk') ∧
      ∀ name, pfsFindEntry (diskHeader disk') name = pfsFindEntry (diskHeader disk) name := by
  obtain ⟨ho, hk, hnm⟩ := hs.entry h hi
  have hu := (entry_of_kind hk).1
  refine ⟨hn.onlyEntry ho fun hused => ?_, pfsFindEntry_keep ho hn hu hnm⟩
  rw [hnm, length_pfsEntryName]
  exact hn _ hi (hu ▸ hused)

/-- The content of the file after a complete write, up to its length. -/
theorem WroteVia.content {mid : Disk} {index offset now : ℕ} {data : List UInt8}
    (w : WroteVia disk mid disk' index offset data now (offset + data.length))
    (h : AllocInv (diskHeader disk)) (hi : index < pfsEntryCount)
    (hl : c.length = diskSize disk index) (hb : ∀ p < c.length, c.getD p 0 = fileByte disk index p)
    {p : ℕ} (hp : p < (write c offset data).length) :
    (write c offset data).getD p 0 = fileByte disk' index p := by
  have hsize := (h.size index hi w.room.file).1
  have hin : p < diskSize disk index ∨ p < offset + data.length := by
    by_cases hd : data = []
    · rw [hd, write_nil, hl] at hp
      exact Or.inl hp
    · rw [length_write _ _ hd, hl] at hp
      omega
  rw [getD_write c offset data hp]
  by_cases hrange : min (diskSize disk index) offset ≤ p ∧ p < offset + data.length
  · rw [w.fileByte_in h hi hrange.1 hrange.2, writeVal]
    by_cases hpo : p < offset
    · rw [if_neg (by omega), if_pos hpo, List.getD_eq_getElem?_getD,
        List.getElem?_eq_none (by omega), Option.getD_none]
    · rw [if_pos (by omega), if_neg hpo]
  · rw [w.fileByte_out h hi (by omega) (by unfold diskSize at hin hrange; omega), if_neg (by omega)]
    exact hb p (by omega)

/-- **A good write does to the file what it does to the array.** -/
theorem Stored.content {handle handle' : AppFd} {data : List UInt8} {t : ℕ → ℕ} {r : ℕ}
    (hs : Stored disk handle data t disk' handle' (.done r)) (h : AllocInv (diskHeader disk))
    (hi : handle.pfsIndex < pfsEntryCount) (hn : NamesFit (diskHeader disk))
    (hf : pfsFindEntry (diskHeader disk) name = some handle.pfsIndex)
    (hc : fileContent disk name = some c) (hg : WriteGood (diskSize disk handle.pfsIndex) handle data) :
    fileContent disk' name = some (write c (writeOffset handle) data) ∧
      handle'.offset = writeOffset handle + data.length := by
  have hf' := (hs.find h hi hn).2 name
  rw [hf] at hf'
  rw [fileContent_of_find hf, Option.some.injEq] at hc
  have hl : c.length = diskSize disk handle.pfsIndex := by rw [← hc]; simp
  have hb : ∀ p < c.length, c.getD p 0 = fileByte disk handle.pfsIndex p := by
    rw [← hc]
    intro p hp
    exact getD_map_range (by simpa using hp)
  cases hs with
  | within w hle =>
    refine ⟨fileContent_eq_some hf' ?_ fun p hp => w.content h hi hl hb hp, rfl⟩
    have hsize : diskSize disk' handle.pfsIndex = diskSize disk handle.pfsIndex := by
      rw [diskSize, w.header h hi, w.room.size_eq hi, diskSize]
    by_cases hd : data = []
    · rw [hd, write_nil, hl, hsize]
    · have := hg.within hd hle
      rw [length_write _ _ hd, hl, hsize]
      omega
  | @grown _ d w hlt =>
    have h' := w.allocInv h hi
    obtain ⟨-, hmax, hfile, -⟩ := w.end_le h hi
    refine ⟨fileContent_eq_some hf' ?_ fun p hp => ?_, rfl⟩
    · rw [diskSize_pfsStoreSize hi hmax]
      by_cases hd : data = []
      · have := hg.nothing hd (by simpa [hd] using hlt)
        rw [hd, write_nil, hl, this, List.length_nil, Nat.add_zero]
      · have := hg.grown hd hlt
        rw [length_write _ _ hd, hl]
        omega
    · rw [fileByte_pfsStoreSize h' hi hi hfile]
      exact w.content h hi hl hb hp

end Content

/-! ## Steps -/

section Step

variable {name : List UInt8} {p p' : Posix}

/-- The descriptors a step leaves alone stay where they are. -/
theorem Tracks.congr {sys sys' : Sys} {index : ℕ} {d : Desc} (h : Tracks name sys index d)
    (hf : pfsFindEntry (diskHeader sys'.disk) name = pfsFindEntry (diskHeader sys.disk) name)
    (hfd : sys'.fds index = sys.fds index) : Tracks name sys' index d :=
  ⟨hfd ▸ h.isOpen, hfd ▸ h.kind, by rw [hf, hfd]; exact h.find, hfd ▸ h.offset, hfd ▸ h.append⟩

/-- Descriptor `fd` moves to `d'`; the others stay. -/
theorem PosixInv.moveDesc (h : PosixInv name p) {sys' : Sys} {fd : ℤ} {index : ℕ} {handle : AppFd}
    {d' : Desc} (hx : appFdIndex fd = some index)
    (hf : ∀ fd' d, p.ref.desc fd' = some d →
      pfsFindEntry (diskHeader sys'.disk) name = pfsFindEntry (diskHeader p.sys.disk) name)
    (hfds : sys'.fds = Function.update p.sys.fds index handle)
    (hd : Tracks name sys' index d') (fd' : ℤ) (d : Desc)
    (hdesc : Function.update p.ref.desc fd (some d') fd' = some d) :
    ∃ index, appFdIndex fd' = some index ∧ Tracks name sys' index d := by
  by_cases hfd : fd' = fd
  · subst hfd
    rw [Function.update_self] at hdesc
    cases hdesc
    exact ⟨index, hx, hd⟩
  · rw [Function.update_of_ne hfd] at hdesc
    obtain ⟨k, hk, htr⟩ := h.desc fd' d hdesc
    refine ⟨k, hk, htr.congr (hf fd' d hdesc) ?_⟩
    rw [hfds, Function.update_of_ne]
    rintro rfl
    exact hfd ((appFdIndex_eq_some.mp hk).1.trans (appFdIndex_eq_some.mp hx).1.symm)

theorem abiOpen_resolved {sys : Sys} {cwd path : List UInt8} {flags : UInt32} {t : ℕ → ℕ}
    (h : (checkedAppSlice path).bind (pfsResolvePath cwd) = some name) :
    abiOpen sys cwd path flags t = abiOpenPfs sys name flags t := by
  obtain ⟨q, hq, hr⟩ := Option.bind_eq_some_iff.mp h
  rw [abiOpen, hq]
  dsimp only
  rw [hr]

theorem PosixInv.open (h : PosixInv name p) {cwd path : List UInt8} {flags : UInt32} {t : ℕ → ℕ}
    (hs : posixStep name p (.open cwd path flags t) = some p') : PosixInv name p' := by
  rw [posixStep] at hs
  split_ifs at hs with hname
  rw [abiOpen_resolved hname] at hs
  split at hs <;> cases hs
  rename_i sys' fd ho
  have hcall := entryCall_abiOpenPfs h.writable ho
  obtain ⟨index, i, hfree, hfd, hi, hfile, hfds⟩ := abiOpenPfs_done h.writable ho
  have hl := (length_of_validPfsPath (validPfsPath_of_bind hname)).2
  obtain ⟨hlt, hclosed⟩ := freeFd_spec hfree
  have hfind := hfile.find h.names hi
  -- the content, and the length the new descriptor starts with
  have hcontent : fileContent sys'.disk name =
      some (if hasFlag flags fdTruncate then [] else p.ref.content.getD []) := by
    rw [fileContent_of_find hfind]
    cases hfile with
    | existing hf _ hsame hk =>
      rw [h.content, hk, fileContent_of_find hf, hsame]
      rfl
    | emptied hst _ _ he =>
      rw [diskSize, he.size]
      rcases hst with ⟨-, ht⟩ | ⟨hnone, -⟩
      · rw [ht]
        rfl
      · rw [h.content, fileContent, hnone]
        split_ifs <;> rfl
  have hlen : diskSize sys'.disk i =
      (if hasFlag flags fdTruncate then [] else p.ref.content.getD []).length := by
    rw [fileContent_of_find hfind, Option.some.injEq] at hcontent
    rw [← hcontent]
    simp
  have hx : appFdIndex fd = some index := appFdIndex_eq_some.mpr ⟨hfd, hlt⟩
  refine ⟨hfile.only.headerWritable h.writable, hcall.fds h.fds, h.alloc.effect hcall.disk.effect, ?_,
    fun j hj => ?_, hcontent.symm, ?_, h.answers⟩
  · cases hfile with
    | existing _ _ hsame _ => rw [hsame]; exact h.names
    | emptied _ _ _ he => exact h.names.onlyEntry he.only fun _ => he.name_eq ▸ hl
  · rw [hfind] at hj
    cases hj
    exact hfile.file
  · refine h.moveDesc hx (fun fd' d hd => ?_) hfds ⟨?_, ?_, ?_, ?_, ?_⟩
    · -- another descriptor is open, so that the file was there
      obtain ⟨k, -, htr⟩ := h.desc fd' d hd
      cases hfile with
      | existing hf _ _ _ => rw [hfind, hf]
      | emptied hst _ _ _ =>
        rcases hst with ⟨hf, -⟩ | ⟨hnone, -⟩
        · rw [hfind, hf]
        · rw [htr.find] at hnone
          cases hnone
    all_goals rw [hfds, Function.update_self]; try rfl
    · exact hfind
    · rw [openedFd, hlen]

theorem PosixInv.read (h : PosixInv name p) {fd : ℤ} {n : ℕ} (hg : PosixGood p (.read fd n))
    (hs : posixStep name p (.read fd n) = some p') : PosixInv name p' := by
  rw [posixStep] at hs
  split at hs <;> cases hs
  rename_i d sys' bytes hd hr
  obtain ⟨index, hx, htr⟩ := h.desc fd d hd
  have hi := h.fds index htr.kind
  have hfile := h.file _ htr.find
  have hlen := hg index hx
  have hcontent := h.content
  rw [fileContent_of_find htr.find] at hcontent
  have hsize := (h.alloc.size _ hi hfile).2
  have hexp : p.ref.bytes d n = (List.range (copyLen (p.sys.fds index) n)).map fun k =>
      fileByte p.sys.disk (p.sys.fds index).pfsIndex ((p.sys.fds index).offset + k) := by
    rw [RefFile.bytes, hcontent, Option.getD_some, ← htr.offset]
    refine List.ext_getElem ?_ fun k h₁ h₂ => ?_
    · simp only [List.length_take, List.length_drop, List.length_map, List.length_range, hlen]
    · simp
  rcases abiRead_pfs hx htr.kind hr with ⟨hz, rfl, rfl⟩ | ⟨hpos, -, hread, rfl⟩
  · have hnil : p.ref.bytes d n = [] := by rw [hexp, hz]; rfl
    refine ⟨h.writable, h.fds, h.alloc, h.names, h.file, h.content, ?_, ?_⟩
    · refine h.moveDesc hx (fun _ _ _ => rfl) (Function.update_eq_self index p.sys.fds).symm ?_
      rw [hnil]
      exact htr
    · intro a ha
      rcases List.mem_cons.mp ha with rfl | ha
      · rw [hnil]
      · exact h.answers a ha
  · have hend : (p.sys.fds index).offset + copyLen (p.sys.fds index) n ≤ pfsFileMax := by
      unfold diskSize at hlen
      omega
    have hbytes := pfsReadAt_eq_some h.alloc hi hfile hend hread
    rw [pfsFileMax_eq] at hend
    refine ⟨h.writable, h.fds.setFd fun hk => h.fds index hk, h.alloc, h.names, h.file, h.content,
      ?_, ?_⟩
    · refine h.moveDesc hx (fun _ _ _ => rfl) rfl ⟨?_, ?_, ?_, ?_, ?_⟩
      all_goals rw [setFd_fds, Function.update_self]
      · exact htr.isOpen
      · exact htr.kind
      · exact htr.find
      · dsimp only
        rw [hexp, List.length_map, List.length_range, usize_of_lt (by omega), htr.offset]
      · exact htr.append
    · intro a ha
      rcases List.mem_cons.mp ha with rfl | ha
      · rw [hexp, hbytes]
      · exact h.answers a ha

theorem PosixInv.write (h : PosixInv name p) {fd : ℤ} {data : List UInt8} {t : ℕ → ℕ}
    (hg : PosixGood p (.write fd data t)) (hs : posixStep name p (.write fd data t) = some p') :
    PosixInv name p' := by
  rw [posixStep] at hs
  split at hs <;> cases hs
  rename_i d sys' r hd hr
  obtain ⟨index, hx, htr⟩ := h.desc fd d hd
  have hcall := callEffect_abiWriteFd h.fds h.writable h.alloc hr
  rcases abiWriteFd_spec h.fds h.writable h.alloc hr with ⟨-, -, hno⟩ |
      ⟨index', handle', hx', hk, -, hst, hfds⟩
  · cases hno index hx htr.kind
  obtain rfl : index' = index := Option.some.inj (hx'.symm.trans hx)
  have hi := h.fds _ hk
  obtain ⟨hnames, hfind⟩ := hst.find h.alloc hi h.names
  have hcontent := h.content
  rw [fileContent_of_find htr.find] at hcontent
  have hgood := hg _ hx
  obtain ⟨hnew, hoff⟩ := hst.content h.alloc hi h.names htr.find (fileContent_of_find htr.find) hgood
  -- the model writes at the same place
  have htarget : p.ref.target d = writeOffset (p.sys.fds index') := by
    rw [RefFile.target, hcontent, Option.getD_some, writeOffset, htr.append, List.length_map,
      List.length_range, htr.offset]
    split_ifs with ha
    · exact (hgood.append (htr.append.trans ha)).symm
    · rfl
  refine ⟨hcall.disk.only.headerWritable h.writable, hcall.fds h.fds, h.alloc.effect hcall.disk, hnames,
    fun i hf => ?_, ?_, ?_, h.answers⟩
  · rw [hfind, htr.find] at hf
    cases hf
    rw [(entry_of_kind (hst.entry h.alloc hi).2.1).2]
    exact h.file _ htr.find
  · rw [hnew, RefFile.store, hcontent, htarget]
    rfl
  · rw [RefFile.store, htarget]
    refine h.moveDesc hx (fun _ _ _ => hfind name) hfds ⟨?_, ?_, ?_, ?_, ?_⟩
    all_goals rw [hfds, Function.update_self]
    · rw [hst.handle.2.2.2]
      exact htr.isOpen
    · exact hst.handle.1.trans htr.kind
    · rw [hfind, hst.handle.2.1]
      exact htr.find
    · exact hoff
    · rw [hst.handle.2.2.1]
      exact htr.append

theorem PosixInv.seek (h : PosixInv name p) {fd : ℤ} {offset : UInt64}
    (hs : posixStep name p (.seek fd offset) = some p') : PosixInv name p' := by
  rw [posixStep] at hs
  split at hs <;> cases hs
  rename_i d sys' r hd hr
  obtain ⟨index, hx, htr⟩ := h.desc fd d hd
  rw [abiSeek, hx] at hr
  dsimp only at hr
  split_ifs at hr <;> cases hr
  refine ⟨h.writable, h.fds.setFd fun hk => h.fds index hk, h.alloc, h.names, h.file, h.content, ?_,
    h.answers⟩
  refine h.moveDesc hx (fun _ _ _ => rfl) rfl ⟨?_, ?_, ?_, ?_, ?_⟩
  all_goals rw [setFd_fds, Function.update_self]
  · exact htr.isOpen
  · exact htr.kind
  · exact htr.find
  · exact htr.append

theorem PosixInv.close (h : PosixInv name p) {fd : ℤ}
    (hs : posixStep name p (.close fd) = some p') : PosixInv name p' := by
  rw [posixStep] at hs
  split at hs <;> cases hs
  rename_i d sys' r hd hr
  obtain ⟨index, hx, htr⟩ := h.desc fd d hd
  have hcall := entryCall_abiClose hr
  rw [abiClose, hx] at hr
  obtain ⟨hfd, hlt⟩ := appFdIndex_eq_some.mp hx
  have hbase : appFdBase = 3 := rfl
  rw [if_neg (by omega), if_neg (by omega)] at hr
  dsimp only at hr
  split_ifs at hr
  · cases hr
  cases hr
  refine ⟨?_, hcall.fds h.fds, ?_, ?_, ?_, ?_, fun fd' d' hdesc => ?_, h.answers⟩
  · rw [setFd_disk, closePipe_disk]; exact h.writable
  · rw [setFd_disk, closePipe_disk]; exact h.alloc
  · rw [setFd_disk, closePipe_disk]; exact h.names
  · rw [setFd_disk, closePipe_disk]; exact h.file
  · rw [setFd_disk, closePipe_disk]; exact h.content
  · simp only [RefFile.close] at hdesc
    by_cases hne : fd' = fd
    · rw [hne, Function.update_self] at hdesc
      cases hdesc
    · rw [Function.update_of_ne hne] at hdesc
      obtain ⟨k, hk, htr'⟩ := h.desc fd' d' hdesc
      refine ⟨k, hk, htr'.congr (by rw [setFd_disk, closePipe_disk]) ?_⟩
      rw [setFd_fds, closePipe_fds, Function.update_of_ne]
      rintro rfl
      exact hne ((appFdIndex_eq_some.mp hk).1.trans hfd.symm)

theorem PosixInv.stat (h : PosixInv name p) (hs : posixStep name p .stat = some p') :
    PosixInv name p' := by
  obtain ⟨st, hst, rfl⟩ := Option.map_eq_some_iff.mp hs
  obtain ⟨header, hh, hst⟩ := Option.bind_eq_some_iff.mp hst
  obtain ⟨rfl, -⟩ := readHeaderSilent_eq_some hh
  obtain ⟨i, hf, rfl⟩ := Option.map_eq_some_iff.mp hst
  refine ⟨h.writable, h.fds, h.alloc, h.names, h.file, h.content, h.desc, fun a ha => ?_⟩
  rcases List.mem_cons.mp ha with rfl | ha
  · rw [h.content, fileContent_of_find hf]
    simp [diskSize]
  · exact h.answers a ha

theorem PosixInv.fault (h : PosixInv name p) {readOk writeOk : ℕ → Bool}
    (hs : posixStep name p (.fault readOk writeOk) = some p') : PosixInv name p' := by
  rw [posixStep] at hs
  split_ifs at hs with hall
  cases hs
  exact ⟨fun x hx => List.all_eq_true.mp hall x (List.mem_range.mpr hx), h.fds, h.alloc, h.names,
    h.file, h.content, fun fd d hd => (h.desc fd d hd).imp fun _ hk =>
      ⟨hk.1, hk.2.isOpen, hk.2.kind, hk.2.find, hk.2.offset, hk.2.append⟩, h.answers⟩

/-- **A good call keeps the file the array of the model.** -/
theorem PosixInv.step (h : PosixInv name p) {act : PosixAct} (hg : PosixGood p act)
    (hs : posixStep name p act = some p') : PosixInv name p' := by
  cases act with
  | «open» cwd path flags t => exact h.open hs
  | read fd n => exact h.read hg hs
  | write fd data t => exact h.write hg hs
  | seek fd offset => exact h.seek hs
  | close fd => exact h.close hs
  | stat => exact h.stat hs
  | fault readOk writeOk => exact h.fault hs

/-! ## Runs -/

/-- **Several descriptors on one file answer as the reference model does** as long as the length each
of them keeps leads it where the size of the file would. No write then shrinks the file, and one that
appends keeps the bytes there were. -/
theorem posix_of_reach
    (h : Reach (PosixInit name) PosixGood (posixStep name) p) :
    (∀ a ∈ p.answers, a.1 = a.2) ∧ fileContent p.sys.disk name = p.ref.content ∧
      ∀ fd data t p', PosixGood p (.write fd data t) →
        posixStep name p (.write fd data t) = some p' →
        ∀ c, fileContent p.sys.disk name = some c →
          ∃ c', fileContent p'.sys.disk name = some c' ∧ c.length ≤ c'.length ∧
            ((p.ref.desc fd).any Desc.append = true → c <+: c') := by
  have hinv : PosixInv name p := h.inv (fun _ hi => hi.inv) fun _ _ _ hi hg hs => hi.step hg hs
  refine ⟨hinv.answers, hinv.content.symm, fun fd data t p' hg hs c hc => ?_⟩
  have hinv' := hinv.step hg hs
  rw [← hinv'.content]
  rw [← hinv.content] at hc
  rw [posixStep] at hs
  split at hs <;> cases hs
  rename_i d sys' r hd hr
  refine ⟨_, by rw [RefFile.store, hc]; rfl, length_le_write _ _ _, fun happ => ?_⟩
  rw [hd] at happ
  rw [RefFile.target, if_pos (by simpa using happ), hc]
  exact prefix_write c data

end Step

/-- A blank file system and no descriptors. -/
def blankPosix : Posix := ⟨blankSys, ⟨none, fun _ => none⟩, []⟩

theorem posixInit_blankPosix : PosixInit [97] blankPosix := by
  have hh : diskHeader blankPosix.sys.disk = emptyHeader := diskHeader_withHeader
  have hnone : pfsFindEntry emptyHeader [97] = none :=
    pfsFindEntry_eq_none.mpr fun j _ hu => by rw [pfsEntryUsed_emptyHeader] at hu; cases hu
  refine ⟨fsInit_blankSys.writable, fsInit_blankSys.fds, ?_, ?_, fun i hf => ?_, ?_, fun _ => rfl, rfl⟩
  · rw [hh]; exact allocInv_emptyHeader
  · rw [hh]; exact treeInv_emptyHeader.namesFit
  · rw [hh, hnone] at hf; cases hf
  · rw [fileContent, hh, hnone]; rfl

/-- Two descriptors, the second of which starts at the size the first one left, and a third that
appends. -/
def sharedRun : List PosixAct :=
  [.open [] (pfsPath [97]) 7 fun _ => 0, .write 3 [1, 2] fun _ => 0,
    .open [] (pfsPath [97]) 3 fun _ => 0, .write 4 [9] fun _ => 0, .seek 3 0, .read 3 10,
    .open [] (pfsPath [97]) 19 fun _ => 0, .write 5 [7] fun _ => 0, .stat]

theorem posix_of_reach_sharedRun : ∃ p, exec (posixStep [97]) blankPosix sharedRun = some p ∧
    p.answers.map Prod.fst = [.size (some 3), .bytes [9, 2]] ∧ (∀ a ∈ p.answers, a.1 = a.2) ∧
      fileContent p.sys.disk [97] = p.ref.content := by
  have hrun : (exec (posixStep [97]) blankPosix sharedRun).map
      (fun p => p.answers.map Prod.fst) = some [.size (some 3), .bytes [9, 2]] := by decide +kernel
  obtain ⟨p, hp, ha⟩ := Option.map_eq_some_iff.mp hrun
  have hgood : AllGood PosixGood (posixStep [97]) blankPosix sharedRun := by decide +kernel
  have := posix_of_reach (reach_of_exec (.start posixInit_blankPosix) hgood hp)
  exact ⟨p, hp, ha, this.1, this.2.1⟩

/-- Two descriptors append one byte each, and the first reads. -/
def appendRun : List PosixAct :=
  [.open [] (pfsPath [97]) 23 fun _ => 0, .open [] (pfsPath [97]) 18 fun _ => 0,
    .write 3 [1] fun _ => 0, .write 4 [2] fun _ => 0, .seek 3 0, .read 3 10]

/-- **The second append overwrites the first.** -/
theorem not_posix_appendRun :
    ¬ ∀ name p, Reach (PosixInit name) (fun _ _ => True) (posixStep name) p →
      ∀ a ∈ p.answers, a.1 = a.2 := by
  intro hall
  have hrun : (exec (posixStep [97]) blankPosix appendRun).map Posix.answers =
      some [(.bytes [2], .bytes [1, 2])] := by decide +kernel
  obtain ⟨p, hp, ha⟩ := Option.map_eq_some_iff.mp hrun
  have hreach := reach_of_exec (.start posixInit_blankPosix) (allGood_true _ appendRun) hp
  have := hall [97] p hreach (.bytes [2], .bytes [1, 2]) (by rw [ha]; exact List.mem_cons_self)
  revert this
  decide

end Rymos
