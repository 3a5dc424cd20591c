import Mathlib.Tactic
import Rymos.Stdish.Streams

/-!
# Programs on the tree

* `Caller.tree`, `CallerOk`: the tree a program sees, and when its calls follow it.
* `FsOp.hasRoom`, `FsOp.Fits`: the sectors there are for what a call stores.
* `Kept`: no descriptor is left open or closed. **`FsOp.run_meaning`**: a call does what it is for.
* `runAll`, `meaningAll`, **`runAll_eq`**: so does a run of calls.
-/

namespace Rymos

open ByteBuf Extents FileTree

def Caller.tree (c : Caller) : FsTree := ⟨pfsMap c.io.sys.disk, c.cwd⟩

def Caller.setError (c : Caller) (code : ℕ) : Caller := { c with proc := { c.proc with lastError := code } }

/-- The disk is in order, and a descriptor is free. -/
structure CallerOk (c : Caller) : Prop where
  disk : DiskOk c.io.sys.disk
  fds : FdsOk c.io.sys
  free : freeFd c.io.sys ≠ none
  boot : ∀ path data, c.io.sys.bootfs path = some data → data.length < 2 ^ 63

/-- The same descriptors are open, on the same files, and nothing else of the program's changes. -/
structure Kept (c c' : Caller) : Prop where
  isOpen : ∀ j, (c'.io.sys.fds j).isOpen = (c.io.sys.fds j).isOpen
  same : ∀ j, (c.io.sys.fds j).isOpen = true → c'.io.sys.fds j = c.io.sys.fds j
  pipes : c'.io.sys.pipes = c.io.sys.pipes
  boot : c'.io.sys.bootfs = c.io.sys.bootfs
  stdFds : c'.io.stdFds = c.io.stdFds
  env : c'.proc.env = c.proc.env

section Caller

variable (c : Caller) (code : ℕ)

@[simp] theorem setError_io : (c.setError code).io = c.io := rfl

@[simp] theorem setError_cwd : (c.setError code).cwd = c.cwd := rfl

@[simp] theorem setError_tree : (c.setError code).tree = c.tree := rfl

@[simp] theorem setError_lastError : (c.setError code).lastError = code := rfl

@[simp] theorem setSys_setError (sys : Sys) :
    (c.setError code).setSys sys = (c.setSys sys).setError code := rfl

theorem answer_done {α : Type} (value : α) : c.answer (.done value) = (c.setError 0, some value) := rfl

theorem answer_error {α : Type} : c.answer (.error code : Reply α) = (c.setError code, none) := rfl

theorem Caller.setSys_self : c.setSys c.io.sys = c := rfl

end Caller

section Kept

variable {c c' c'' : Caller}

theorem Kept.refl (c : Caller) : Kept c c := ⟨fun _ => rfl, fun _ _ => rfl, rfl, rfl, rfl, rfl⟩

theorem Kept.setError (h : Kept c c') (code : ℕ) : Kept c (c'.setError code) :=
  ⟨h.isOpen, h.same, h.pipes, h.boot, h.stdFds, h.env⟩

theorem kept_setDisk (c : Caller) (disk : Disk) : Kept c (c.setSys (c.io.sys.setDisk disk)) :=
  ⟨fun _ => rfl, fun _ _ => rfl, rfl, rfl, rfl, rfl⟩

/-- A descriptor opened and closed again. -/
theorem kept_closed {index : ℕ} (hfree : freeFd c.io.sys = some index) (disk : Disk) :
    Kept c (c.setSys ((c.io.sys.setDisk disk).setFd index .empty)) := by
  have hno := (freeFd_spec hfree).2
  refine ⟨fun j => ?_, fun j hj => ?_, rfl, rfl, rfl, rfl⟩
  · by_cases hji : j = index
    · rw [hji, hno, setSys_sys, setFd_fds, Function.update_self]
      rfl
    · rw [setSys_sys, setFd_fds, Function.update_of_ne hji]
      rfl
  · have hji : j ≠ index := by
      rintro rfl
      rw [hno] at hj
      cases hj
    rw [setSys_sys, setFd_fds, Function.update_of_ne hji]
    rfl

theorem Kept.freeFd (h : Kept c c') : freeFd c'.io.sys = freeFd c.io.sys := by
  unfold Rymos.freeFd
  simp only [h.isOpen]

theorem Kept.callerOk (h : Kept c c') (hc : CallerOk c) (hd : DiskOk c'.io.sys.disk)
    (hf : FdsOk c'.io.sys) : CallerOk c' :=
  ⟨hd, hf, by rw [h.freeFd]; exact hc.free, by rw [h.boot]; exact hc.boot⟩

end Kept

/-! ## One call -/

/-- The disk has the sectors for what the call stores, once the file is open. -/
def FsOp.hasRoom (c : Caller) : FsOp → Prop
  | .write path data t => ∃ name i, nameFor c.cwd path = some name ∧
      pfsFindEntry (diskHeader (c.openMode path createFlags (t 0)).1.io.sys.disk) name = some i ∧
      RoomFor (c.openMode path createFlags (t 0)).1.io.sys.disk i data.length
  | .append path data t => ∃ name i, nameFor c.cwd path = some name ∧
      pfsFindEntry (diskHeader (c.openMode path appendFlags (t 0)).1.io.sys.disk) name = some i ∧
      RoomFor (c.openMode path appendFlags (t 0)).1.io.sys.disk i data.length
  | _ => True

/-- No slice is longer than `isize::MAX`. -/
def FsOp.Fits : FsOp → Prop
  | .write _ data _ | .append _ data _ => data.length < 2 ^ 63
  | _ => True

section Call

variable {c : Caller} {path name : List UInt8} {flags : UInt32}

/-- `File::open_mode` of a name. -/
theorem openMode_named (h : CallerOk c) (hname : nameFor c.cwd path = some name) (flags : UInt32)
    (t : ℕ → ℕ) :
    (∃ code, openFile (pfsMap c.io.sys.disk) name flags = .error code ∧
      c.openMode path flags t = (c.setError code, none)) ∨
    ∃ disk i index, freeFd c.io.sys = some index ∧ DiskOk disk ∧
      openFile (pfsMap c.io.sys.disk) name flags = .ok (pfsMap disk) ∧
      pfsFindEntry (diskHeader disk) name = some i ∧ pfsEntryIsFile (diskHeader disk) i = true ∧
      c.openMode path flags t =
        ((c.setSys ((c.io.sys.setDisk disk).setFd index (openedFd disk flags i))).setError 0,
          some (index + appFdBase)) := by
  obtain ⟨index, hfree⟩ := Option.ne_none_iff_exists'.mp h.free
  have hopen := abiOpenPfs_opensAs h.disk (validPfsPath_of_bind hname) hfree flags t
  have hcall : abiOpen c.io.sys c.cwd path flags t = abiOpenPfs c.io.sys name flags t :=
    abiOpen_resolved hname
  rw [Caller.openMode, hcall]
  cases htree : openFile (pfsMap c.io.sys.disk) name flags with
  | error code =>
    rw [htree] at hopen
    have hout : abiOpenPfs c.io.sys name flags t = (c.io.sys, .error code) := hopen
    rw [hout]
    exact .inl ⟨code, rfl, rfl⟩
  | ok M =>
    rw [htree] at hopen
    obtain ⟨disk, i, hd, rfl, hf, hfile, hout⟩ := hopen
    have hneg : ¬ (index + appFdBase : ℤ) < 0 := by simp only [appFdBase]; omega
    rw [hout]
    refine .inr ⟨disk, i, index, hfree, hd, rfl, hf, hfile, ?_⟩
    dsimp only
    rw [answer_done, Option.bind_some, if_neg hneg]

/-- A file opened, and closed again whatever was done. -/
theorem closeFd_opened (process : ℕ) {index : ℕ} (hfree : freeFd c.io.sys = some index) (disk : Disk)
    {handle : AppFd} (ho : handle.isOpen = true) (hk : handle.kind = .pfs ∨ handle.kind = .bootFs)
    (code : ℕ) :
    ((c.setSys ((c.io.sys.setDisk disk).setFd index handle)).setError code).closeFd process
        (index + appFdBase) =
      (c.setSys ((c.io.sys.setDisk disk).setFd index .empty)).setError code := by
  have hfd : ((c.setSys ((c.io.sys.setDisk disk).setFd index handle)).setError code).io.sys.fds index =
      handle := by
    rw [setError_io, setSys_sys, setFd_fds, Function.update_self]
  rw [closeFd_file process _ index (freeFd_spec hfree).1 (by rw [hfd, ho]) (by rw [hfd]; exact hk),
    setSys_setError, setSys_setSys, setError_io, setSys_sys, setFd_setFd]

/-- A call on names is done, and nothing but the disk and the error changes. -/
structure Done (c c' : Caller) : Prop where
  ok : CallerOk c'
  kept : Kept c c'

theorem done_closed (h : CallerOk c) {index : ℕ} (hfree : freeFd c.io.sys = some index) {disk : Disk}
    (hd : DiskOk disk) (code : ℕ) :
    Done c ((c.setSys ((c.io.sys.setDisk disk).setFd index .empty)).setError code) := by
  have hkept := (kept_closed hfree disk).setError code
  refine ⟨hkept.callerOk h hd ?_, hkept⟩
  exact FdsOk.setFd h.fds fun hk => by cases hk

theorem done_setDisk (h : CallerOk c) {disk : Disk} (hd : DiskOk disk) (code : ℕ) :
    Done c ((c.setSys (c.io.sys.setDisk disk)).setError code) := by
  have hkept := (kept_setDisk c disk).setError code
  exact ⟨hkept.callerOk h hd h.fds, hkept⟩

theorem done_setError (h : CallerOk c) (code : ℕ) : Done c (c.setError code) :=
  ⟨((Kept.refl c).setError code).callerOk h h.disk h.fds, (Kept.refl c).setError code⟩

/-- What is written through a descriptor just opened goes behind the end of its file. -/
theorem writeOffset_openedFd {disk : Disk} {i : ℕ}
    (h : hasFlag flags fdAppend = true ∨ diskSize disk i = 0) :
    writeOffset (openedFd disk flags i) = diskSize disk i := by
  unfold writeOffset openedFd
  dsimp only
  split_ifs with ha
  · rfl
  · exact (h.resolve_left ha).symm

/-- A file opened with `FD_TRUNCATE` is empty. -/
theorem openFile_truncate {M M' : NameMap} (h : openFile M name flags = .ok M')
    (ht : hasFlag flags fdTruncate = true) : M' name = some (.file []) := by
  unfold openFile at h
  split_ifs at h
  · cases h
    exact Function.update_self ..
  · cases h
    exact Function.update_self ..

/-- **A store** opens, writes and closes. -/
theorem fsStore_named (h : CallerOk c) (process : ℕ) (hname : nameFor c.cwd path = some name)
    (hw : hasFlag flags fdWrite = true)
    (hend : hasFlag flags fdAppend = true ∨ hasFlag flags fdTruncate = true) {data : List UInt8}
    (hlen : data.length < 2 ^ 63) (t : ℕ → ℕ → ℕ) :
    ∃ c' r, fsStore process flags path data t c = some (c', r) ∧ Done c c' ∧
      (c'.tree, r.map fun _ => FsValue.unit) = c.tree.store flags name data
        (∃ i, pfsFindEntry (diskHeader (c.openMode path flags (t 0)).1.io.sys.disk) name = some i ∧
          RoomFor (c.openMode path flags (t 0)).1.io.sys.disk i data.length) := by
  rw [fsStore]
  rcases openMode_named h hname flags (t 0) with
    ⟨code, htree, hopen⟩ | ⟨disk, i, index, hfree, hd, htree, hf, hfile, hopen⟩
  · have htree' : openFile c.tree.map name flags = .error code := htree
    refine ⟨_, _, by rw [hopen], done_setError h code, ?_⟩
    rw [FsTree.store, htree']
    rfl
  have htree' : openFile c.tree.map name flags = .ok (pfsMap disk) := htree
  have hempty : hasFlag flags fdAppend = true ∨ diskSize disk i = 0 := by
    refine hend.imp_right fun ht => ?_
    rw [← (hd.content hf hfile).2.1, contentOf, openFile_truncate htree ht]
    rfl
  rw [hopen, FsTree.store, htree']
  dsimp only
  rw [setError_io, setSys_sys, setFd_disk, setDisk_disk]
  obtain ⟨hm, -, -⟩ := hd.content hf hfile
  have hroom : (∃ j, pfsFindEntry (diskHeader disk) name = some j ∧ RoomFor disk j data.length) ↔
      RoomFor disk i data.length := by
    simp [hf]
  rw [hroom]
  by_cases hne : data = []
  · refine ⟨_, _, by rw [writeAll, dif_pos hne, Option.map_some], ?_, ?_⟩
    · rw [closeFd_opened process hfree disk rfl (.inl rfl)]
      exact done_closed h hfree hd 0
    · rw [closeFd_opened process hfree disk rfl (.inl rfl), if_pos (.inl hne), hne, List.append_nil, ← hm,
        Function.update_eq_self]
      rfl
  -- the write
  obtain ⟨sys, hsys⟩ : ∃ sys, sys = (c.io.sys.setDisk disk).setFd index (openedFd disk flags i) :=
    ⟨_, rfl⟩
  have hdisk : sys.disk = disk := by rw [hsys]; rfl
  have hfd : sys.fds index = openedFd sys.disk flags i := by
    rw [hdisk, hsys, setFd_fds, Function.update_self]
  have hok : FdsOk sys := hsys ▸ FdsOk.setFd h.fds fun _ => (pfsFindEntry_eq_some.mp hf).1
  have hcollapse (disk' : Disk) (handle : AppFd) : (sys.setDisk disk').setFd index handle =
      (c.io.sys.setDisk disk').setFd index handle := by
    rw [hsys]
    simp only [Sys.setFd, Sys.setDisk, Function.update_idem]
  rw [← hdisk] at hd hf hfile hempty
  obtain ⟨disk', handle, r, hd', ho, hk, hwrite, hcases⟩ := abiWriteFd_end hd hok
    (freeFd_spec hfree).1 hf hfile hfd hw (writeOffset_openedFd hempty) hne hlen (t data.length)
  rw [hdisk] at hcases
  have hcall : ((c.setSys sys).setError 0).fileWrite process (index + appFdBase) data (t data.length) =
      some ((c.setSys ((c.io.sys.setDisk disk').setFd index handle)).setError 0, r.toOption) := by
    rw [fileWrite_file, setError_io, setSys_sys, hwrite, Option.map_some, setSys_setError,
      setSys_setSys, hcollapse]
  rw [← hsys, writeAll, dif_neg hne, hcall, Option.bind_some]
  rcases hcases with ⟨hroom, rfl, hmap⟩ | ⟨hroom, rfl, hmap⟩
  · have hlength := List.length_pos_of_ne_nil hne
    dsimp only [Reply.toOption]
    rw [dif_neg (by omega), List.drop_length, writeAll, dif_pos rfl, Option.map_some]
    refine ⟨_, _, rfl, ?_, ?_⟩
    · rw [closeFd_opened process hfree disk' ho (.inl hk)]
      exact done_closed h hfree hd' 0
    · rw [closeFd_opened process hfree disk' ho (.inl hk), if_pos (.inr hroom), ← hmap]
      rfl
  · dsimp only [Reply.toOption]
    refine ⟨_, _, rfl, ?_, ?_⟩
    · rw [closeFd_opened process hfree disk' ho (.inl hk)]
      exact done_closed h hfree hd' 0
    · rw [closeFd_opened process hfree disk' ho (.inl hk), if_neg (by simp [hne, hroom]), ← hmap]
      rfl

/-- An open for reading changes no name. -/
theorem openFile_read {M M' : NameMap} (h : openFile M name fdRead = .ok M') : M' = M := by
  have hcreate : hasFlag fdRead fdCreate = false := by decide
  have htrunc : hasFlag fdRead fdTruncate = false := by decide
  have hnew : hasFlag fdRead fdCreateNew = false := by decide
  unfold openFile at h
  rw [hcreate, htrunc, hnew] at h
  simp only [Bool.false_eq_true, false_and, not_false_eq_true, if_false, if_true] at h
  split_ifs at h
  cases h
  rfl

/-- **A read** opens, reads to the end and closes. -/
theorem fsRead_named (h : CallerOk c) (process : ℕ) (hname : nameFor c.cwd path = some name)
    (t : ℕ → ℕ) :
    ∃ c' r, fsRead process path t c = some (c', r) ∧ Done c c' ∧ c'.tree = c.tree ∧
      r.map FsValue.bytes = c.tree.read name := by
  rw [fsRead]
  rcases openMode_named h hname fdRead t with
    ⟨code, htree, hopen⟩ | ⟨disk, i, index, hfree, hd, htree, hf, hfile, hopen⟩
  · have htree' : openFile c.tree.map name fdRead = .error code := htree
    refine ⟨_, _, by rw [hopen], done_setError h code, rfl, ?_⟩
    rw [FsTree.read, htree']
    rfl
  have htree' : openFile c.tree.map name fdRead = .ok (pfsMap disk) := htree
  obtain ⟨-, hsize, hholds⟩ := hd.content hf hfile
  have hhandle : openedFd disk fdRead i = fdAt i (contentOf (pfsMap disk) name).length 0 := by
    rw [openedFd, fdAt, if_neg (by decide), hsize]
  have hserves : Serves (c.io.sys.setDisk disk) index (contentOf (pfsMap disk) name)
      (fdAt i (contentOf (pfsMap disk) name).length) := serves_pfs hholds (freeFd_spec hfree).1
  have hturns : readTurns (index + appFdBase) ((c.setSys ((c.io.sys.setDisk disk).setFd index
      (openedFd disk fdRead i))).setError 0) = diskSize disk i + 1 := by
    rw [readTurns, setError_io, setSys_sys, setFd_fds, Int.add_sub_cancel, Int.toNat_natCast,
      Function.update_self, openedFd]
  have hread := readToEnd_serves hserves process (c.setError 0) (Nat.zero_le _)
    (show (contentOf (pfsMap disk) name).length < diskSize disk i + 1 + 0 by omega) []
  rw [setSys_setError, setSys_setError, ← hhandle, List.nil_append, List.drop_zero] at hread
  rw [hopen]
  dsimp only
  rw [hturns, hread, Option.map_some]
  refine ⟨_, _, rfl, ?_, ?_, ?_⟩
  · rw [closeFd_opened process hfree disk rfl (.inl rfl)]
    exact done_closed h hfree hd 0
  · rw [closeFd_opened process hfree disk rfl (.inl rfl), setError_tree, Caller.tree, Caller.tree,
      setSys_sys, setFd_disk, setDisk_disk, openFile_read htree]
    rfl
  · rw [FsTree.read, htree']
    rfl

theorem checkedAppSlice_eq_none :
    checkedAppSlice path = none ↔ path.length = 0 ∨ path.length > inputMax := by
  unfold checkedAppSlice
  split_ifs with hbad
  · simpa using hbad
  · simpa using hbad

/-- **A read of a file of the boot archive.** -/
theorem fsRead_boot (h : CallerOk c) (process : ℕ) (hname : nameFor c.cwd path = none) (t : ℕ → ℕ) :
    ∃ c' r, fsRead process path t c = some (c', r) ∧ Done c c' ∧ c'.tree = c.tree ∧
      r.map FsValue.bytes = bootRead c.io.sys.bootfs path := by
  obtain ⟨index, hfree⟩ := Option.ne_none_iff_exists'.mp h.free
  -- an open that returns an error
  have herror {code : ℕ} (ho : abiOpen c.io.sys c.cwd path fdRead t = (c.io.sys, .error code))
      (hb : bootRead c.io.sys.bootfs path = .error code) :
      ∃ c' r, fsRead process path t c = some (c', r) ∧ Done c c' ∧ c'.tree = c.tree ∧
        r.map FsValue.bytes = bootRead c.io.sys.bootfs path := by
    refine ⟨_, _, by rw [fsRead, Caller.openMode, ho]; rfl, done_setError h code, rfl, ?_⟩
    rw [hb]
    rfl
  cases hs : checkedAppSlice path with
  | none =>
    have hbad := checkedAppSlice_eq_none.mp hs
    exact herror (by rw [abiOpen, hs]) (by rw [bootRead, if_pos (hbad.imp_right .inl)])
  | some path' =>
    obtain rfl := checkedAppSlice_eq hs
    have hr : pfsResolvePath c.cwd path' = none := by rwa [nameFor, hs] at hname
    by_cases hp : startsWith path' pfsPrefix = true
    · refine herror ?_ (by rw [bootRead, if_pos (.inr (.inr hp))])
      rw [abiOpen, hs]
      dsimp only
      rw [hr]
      dsimp only
      rw [if_pos hp]
    have hgood := mt checkedAppSlice_eq_none.mpr (hs ▸ Option.some_ne_none _)
    have hno : ¬ (path'.length = 0 ∨ path'.length > inputMax ∨ startsWith path' pfsPrefix = true) := by
      rintro (hbad | hbad | hbad)
      · exact hgood (.inl hbad)
      · exact hgood (.inr hbad)
      · exact hp hbad
    cases hdata : c.io.sys.bootfs path' with
    | none =>
      refine herror ?_ (by rw [bootRead, if_neg hno, hdata])
      rw [abiOpen, hs]
      dsimp only
      rw [hr]
      dsimp only
      rw [if_neg hp, if_neg (by decide), hfree, hdata]
    | some data =>
      have hopen : abiOpen c.io.sys c.cwd path' fdRead t =
          (c.io.sys.setFd index (bootFd data 0), .done (index + appFdBase)) := by
        rw [abiOpen, hs]
        dsimp only
        rw [hr]
        dsimp only
        rw [if_neg hp, if_neg (by decide), hfree, hdata]
        rfl
      have hboot : bootRead c.io.sys.bootfs path' = .ok (.bytes data) := by
        rw [bootRead, if_neg hno, hdata]
      have hserves : Serves c.io.sys index data (bootFd data) :=
        serves_boot _ (freeFd_spec hfree).1 (h.boot path' data hdata)
      have hread := readToEnd_serves hserves process (c.setError 0) (Nat.zero_le _)
        (show data.length < data.length + 1 + 0 by omega) []
      rw [setSys_setError, setSys_setError, List.nil_append, List.drop_zero] at hread
      have hneg : ¬ (index + appFdBase : ℤ) < 0 := by simp only [appFdBase]; omega
      have hmode : c.openMode path' fdRead t =
          ((c.setSys (c.io.sys.setFd index (bootFd data 0))).setError 0, some (index + appFdBase)) := by
        rw [Caller.openMode, hopen]
        dsimp only
        rw [answer_done, Option.bind_some, if_neg hneg]
      have hturns : readTurns (index + appFdBase)
          ((c.setSys (c.io.sys.setFd index (bootFd data 0))).setError 0) = data.length + 1 := by
        rw [readTurns, setError_io, setSys_sys, setFd_fds, Int.add_sub_cancel, Int.toNat_natCast,
          Function.update_self, bootFd]
      have hclose := @closeFd_opened c process index hfree c.io.sys.disk (bootFd data data.length) rfl
        (.inr rfl) 0
      rw [fsRead, hmode]
      dsimp only
      rw [hturns, hread, Option.map_some]
      refine ⟨_, _, rfl, ?_, ?_, by rw [hboot]; rfl⟩
      · exact hclose ▸ done_closed h hfree h.disk 0
      · exact hclose ▸ rfl

/-- Nothing is written to the boot archive. -/
theorem fsStore_boot (process : ℕ) (hname : nameFor c.cwd path = none)
    (hw : hasFlag flags fdWrite = true) (data : List UInt8) (t : ℕ → ℕ → ℕ) :
    fsStore process flags path data t c = some (c.setError errInval, .error errInval) := by
  have hopen : abiOpen c.io.sys c.cwd path flags (t 0) = (c.io.sys, .error errInval) := by
    rw [abiOpen]
    cases hs : checkedAppSlice path with
    | none => rfl
    | some path' =>
      obtain rfl := checkedAppSlice_eq hs
      have hr : pfsResolvePath c.cwd path' = none := by rwa [nameFor, hs] at hname
      dsimp only
      rw [hr]
      dsimp only
      rw [if_pos hw, ite_self]
  rw [fsStore, Caller.openMode, hopen]
  rfl

/-- **A call that changes a name.** -/
theorem orLast_follows (h : CallerOk c) {out : Sys × Reply ℕ} {tree : Except ℕ NameMap}
    (hf : Follows c.io.sys out 0 tree) :
    Done c (orLast ((c.setSys out.1).answer out.2)).1 ∧
      told (fun _ => .unit) (orLast ((c.setSys out.1).answer out.2)) =
        ((orLast ((c.setSys out.1).answer out.2)).1, (c.tree.put tree).2) ∧
      (orLast ((c.setSys out.1).answer out.2)).1.tree = (c.tree.put tree).1 := by
  cases tree with
  | error code =>
    have hout : out = (c.io.sys, .error code) := hf
    subst hout
    exact ⟨done_setError h code, rfl, rfl⟩
  | ok M =>
    obtain ⟨disk, rfl, hd, rfl⟩ := hf
    exact ⟨done_setDisk h hd 0, rfl, rfl⟩

/-! ## What every call does -/

/-- The call panics or faults, or it returns the value and leaves the tree. -/
def Means (c : Caller) (out : Option (Caller × Except ℕ FsValue)) :
    Option (FsTree × Except ℕ FsValue) → Prop
  | none => out = none
  | some (T, value) => ∃ c', out = some (c', value) ∧ Done c c' ∧ c'.tree = T

theorem means_error (h : CallerOk c) (code : ℕ) (value : Except ℕ FsValue) :
    Means c (some (c.setError code, value)) (some (c.tree, value)) :=
  ⟨_, rfl, done_setError h code, rfl⟩

/-- `stat` of a name. -/
theorem fsMetadata_named (h : CallerOk c) (fs : BootFs) (hname : nameFor c.cwd path = some name) :
    Means c ((fsMetadata fs path c).map (told RymosStat.value)) (some (c.tree, c.tree.stat name)) := by
  rw [fsMetadata, abiStat_named hname, h.disk.header, Option.bind_some]
  have hmap : c.tree.map name = pfsMap c.io.sys.disk name := rfl
  rw [FsTree.stat, hmap]
  cases hm : pfsMap c.io.sys.disk name with
  | none =>
    rw [h.disk.find_none hm]
    exact means_error h errNoent _
  | some node =>
    obtain ⟨i, hf, hnode⟩ := h.disk.find hm
    refine ⟨c.setError 0, ?_, done_setError h 0, rfl⟩
    rw [hf]
    cases node with
    | dir =>
      have hdir := node_eq_dir.mp hnode
      simp [Option.map, told, RymosStat.value, pfsStat, hdir, answer_done, Except.map]
    | file content =>
      obtain ⟨hdir, hcontent⟩ := node_eq_file.mp hnode
      have hsize : content.length = pfsEntrySize (diskHeader c.io.sys.disk) i := by
        rw [← hcontent, List.length_map, List.length_range, diskSize]
      simp [Option.map, told, RymosStat.value, pfsStat, hdir, answer_done, Except.map, hsize]

/-- `stat` of a path in the boot archive. -/
theorem fsMetadata_boot (h : CallerOk c) (fs : BootFs) (hname : nameFor c.cwd path = none) :
    Means c ((fsMetadata fs path c).map (told RymosStat.value))
      ((bootStat fs path).map fun value => (c.tree, value)) := by
  rw [fsMetadata, abiStat, bootStat]
  cases hs : checkedAppSlice path with
  | none =>
    rw [if_pos (checkedAppSlice_eq_none.mp hs)]
    exact means_error h errInval _
  | some path' =>
    obtain rfl := checkedAppSlice_eq hs
    have hr : pfsResolvePath c.cwd path' = none := by rwa [nameFor, hs] at hname
    rw [if_neg (mt checkedAppSlice_eq_none.mpr (hs ▸ Option.some_ne_none _))]
    dsimp only
    rw [statPath, hr]
    dsimp only
    cases fs.findEntry path' with
    | none => rfl
    | some entry =>
      cases entry with
      | none => exact means_error h errNoent _
      | some entry => exact means_error h 0 _

theorem done_setCwd (h : CallerOk c) (cwd : List UInt8) : Done c ((c.setCwd cwd).setError 0) := by
  have hkept : Kept c ((c.setCwd cwd).setError 0) :=
    ⟨fun _ => rfl, fun _ _ => rfl, rfl, rfl, rfl, rfl⟩
  exact ⟨hkept.callerOk h h.disk h.fds, hkept⟩

/-- **`chdir`**, on the map of names. -/
theorem setCurrentDir_means (h : CallerOk c) (path : List UInt8) :
    Means c ((setCurrentDir path c).map (told fun _ => .unit)) (c.tree.chdir path) := by
  rw [setCurrentDir, Caller.chdir, abiChdir, FsTree.chdir]
  cases hs : checkedAppSlice path with
  | none =>
    rw [if_pos (checkedAppSlice_eq_none.mp hs)]
    exact means_error h errInval _
  | some path' =>
    obtain rfl := checkedAppSlice_eq hs
    rw [if_neg (mt checkedAppSlice_eq_none.mpr (hs ▸ Option.some_ne_none _))]
    dsimp only
    simp only [beq_iff_eq, Bool.or_eq_true, h.disk.header]
    by_cases hroot : path' = [slash]
    · rw [if_pos hroot, if_pos hroot]
      exact ⟨_, rfl, done_setCwd h [slash], rfl⟩
    by_cases hpfs : path' = pfsPrefix ∨ path' = pfsPrefix ++ [slash]
    · rw [if_neg hroot, if_neg hroot, if_pos hpfs, if_pos hpfs]
      exact ⟨_, rfl, done_setCwd h pfsPrefix, rfl⟩
    rw [if_neg hroot, if_neg hroot, if_neg hpfs, if_neg hpfs]
    have hcwd : c.tree.cwd = c.cwd := rfl
    rw [hcwd]
    cases pfsResolvePath c.cwd path' with
    | none => exact means_error h errInval _
    | some name =>
      have hmap : c.tree.map name = pfsMap c.io.sys.disk name := rfl
      dsimp only
      rw [hmap]
      cases hm : pfsMap c.io.sys.disk name with
      | none =>
        rw [h.disk.find_none hm]
        exact means_error h errNoent _
      | some node =>
        obtain ⟨i, hf, hnode⟩ := h.disk.find hm
        rw [hf]
        dsimp only
        cases node with
        | file content =>
          rw [(node_eq_file.mp hnode).1]
          exact means_error h errNotdir _
        | dir =>
          rw [node_eq_dir.mp hnode]
          dsimp only
          rw [if_neg (by decide)]
          split_ifs
          · rfl
          · exact ⟨_, rfl, done_setCwd h (pfsPrefix ++ name), rfl⟩

/-! A path without a name is refused. -/

theorem abiUnlink_unnamed {sys : Sys} (hname : nameFor c.cwd path = none) :
    abiUnlink sys c.cwd path = (sys, .error errInval) := by
  rw [nameFor] at hname
  rw [abiUnlink, hname]

theorem abiMkdir_unnamed {sys : Sys} (hname : nameFor c.cwd path = none) (t : ℕ → ℕ) :
    abiMkdir sys c.cwd path t = (sys, .error errInval) := by
  rw [nameFor] at hname
  rw [abiMkdir, hname]

theorem abiRename_unnamed {sys : Sys} {target : List UInt8}
    (hname : nameFor c.cwd path = none ∨ nameFor c.cwd target = none) (t : ℕ → ℕ) :
    abiRename sys c.cwd path target t = (sys, .error errInval) := by
  rw [nameFor, nameFor] at hname
  rw [abiRename]
  cases hname with
  | inl hsource => rw [hsource]
  | inr htarget =>
    rw [htarget]
    cases (checkedAppSlice path).bind (pfsResolvePath c.cwd) <;> rfl

/-- A store, whatever its path. -/
theorem fsStore_means (h : CallerOk c) (process : ℕ) (path : List UInt8)
    (hw : hasFlag flags fdWrite = true)
    (hend : hasFlag flags fdAppend = true ∨ hasFlag flags fdTruncate = true) {data : List UInt8}
    (hlen : data.length < 2 ^ 63) (t : ℕ → ℕ → ℕ) {spec : Option (FsTree × Except ℕ FsValue)}
    (hnone : nameFor c.cwd path = none → spec = some (c.tree, .error errInval))
    (hsome : ∀ name, nameFor c.cwd path = some name → spec = some (c.tree.store flags name data
      (∃ name i, nameFor c.cwd path = some name ∧
        pfsFindEntry (diskHeader (c.openMode path flags (t 0)).1.io.sys.disk) name = some i ∧
        RoomFor (c.openMode path flags (t 0)).1.io.sys.disk i data.length))) :
    Means c ((fsStore process flags path data t c).map (told fun _ => .unit)) spec := by
  cases hname : nameFor c.cwd path with
  | none =>
    rw [fsStore_boot process hname hw, hnone hname]
    exact means_error h errInval _
  | some name =>
    obtain ⟨c', r, hrun, hdone, hstore⟩ := fsStore_named h process hname hw hend hlen t
    rw [hsome name hname]
    simp only [hname, Option.some.injEq, exists_eq_left', exists_and_left]
    rw [← hstore, hrun]
    exact ⟨c', rfl, hdone, rfl⟩

/-- **A call does what it is for.** -/
theorem FsOp.run_meaning (fs : BootFs) (process : ℕ) (h : CallerOk c) {op : FsOp} (hop : op.Fits) :
    Means c (op.run fs process c) (op.meaning fs c.io.sys.bootfs c.tree (op.hasRoom c)) := by
  have hcwd : c.tree.cwd = c.cwd := rfl
  cases op with
  | read path t =>
    rw [FsOp.run, FsOp.meaning, hcwd]
    cases hname : nameFor c.cwd path with
    | none =>
      obtain ⟨c', r, hrun, hdone, htree, hr⟩ := fsRead_boot h process hname t
      exact ⟨c', by rw [hrun, ← hr]; rfl, hdone, htree⟩
    | some name =>
      obtain ⟨c', r, hrun, hdone, htree, hr⟩ := fsRead_named h process hname t
      exact ⟨c', by rw [hrun, ← hr]; rfl, hdone, htree⟩
  | write path data t =>
    refine fsStore_means h process path (by decide) (.inr (by decide)) hop t (fun hname => ?_)
      fun name hname => ?_
    · rw [FsOp.meaning, hcwd, hname]
    · simp only [FsOp.meaning, FsOp.hasRoom, hcwd, hname]
  | append path data t =>
    refine fsStore_means h process path (by decide) (.inl (by decide)) hop t (fun hname => ?_)
      fun name hname => ?_
    · rw [FsOp.meaning, hcwd, hname]
    · simp only [FsOp.meaning, FsOp.hasRoom, hcwd, hname]
  | removeFile path =>
    rw [FsOp.run, FsOp.meaning, hcwd]
    cases hname : nameFor c.cwd path with
    | none =>
      rw [Rymos.removeFile, abiUnlink_unnamed hname]
      exact means_error h errInval _
    | some name =>
      obtain ⟨hdone, htold, htree⟩ := orLast_follows h (abiUnlink_follows h.disk hname)
      exact ⟨_, congrArg some htold, hdone, htree⟩
  | rename source target t =>
    rw [FsOp.run, FsOp.meaning, hcwd]
    cases hsource : nameFor c.cwd source with
    | none =>
      rw [fsRename, abiRename_unnamed (.inl hsource)]
      exact means_error h errInval _
    | some name =>
      cases htarget : nameFor c.cwd target with
      | none =>
        rw [fsRename, abiRename_unnamed (.inr htarget)]
        exact means_error h errInval _
      | some newName =>
        obtain ⟨hdone, htold, htree⟩ := orLast_follows h (abiRename_follows h.disk hsource htarget t)
        exact ⟨_, congrArg some htold, hdone, htree⟩
  | createDir path t =>
    rw [FsOp.run, FsOp.meaning, hcwd]
    cases hname : nameFor c.cwd path with
    | none =>
      rw [Rymos.createDir, abiMkdir_unnamed hname]
      exact means_error h errInval _
    | some name =>
      obtain ⟨hdone, htold, htree⟩ := orLast_follows h (abiMkdir_follows h.disk hname t)
      exact ⟨_, congrArg some htold, hdone, htree⟩
  | metadata path =>
    rw [FsOp.run, FsOp.meaning, hcwd]
    cases hname : nameFor c.cwd path with
    | none => exact fsMetadata_boot h fs hname
    | some name => exact fsMetadata_named h fs hname
  | setCurrentDir path => exact setCurrentDir_means h path

end Call

/-! ## A run of calls -/

/-- The calls of a program one after the other, with what they return. -/
def runAll (fs : BootFs) (process : ℕ) :
    Caller → List FsOp → Option (Caller × List (Except ℕ FsValue))
  | c, [] => some (c, [])
  | c, op :: ops =>
    (op.run fs process c).bind fun r => (runAll fs process r.1 ops).map fun s => (s.1, r.2 :: s.2)

/-- For each call, whether the disk has the room when it is made. -/
def roomsAlong (fs : BootFs) (process : ℕ) : Caller → List FsOp → List Prop
  | _, [] => []
  | c, op :: ops => op.hasRoom c ::
    match op.run fs process c with
    | none => []
    | some r => roomsAlong fs process r.1 ops

noncomputable def meaningAll (fs : BootFs) (boot : List UInt8 → Option (List UInt8)) :
    FsTree → List (FsOp × Prop) → Option (FsTree × List (Except ℕ FsValue))
  | T, [] => some (T, [])
  | T, (op, room) :: ops =>
    (op.meaning fs boot T room).bind fun r => (meaningAll fs boot r.1 ops).map fun s => (s.1, r.2 :: s.2)

theorem Kept.trans {c c' c'' : Caller} (h : Kept c c') (h' : Kept c' c'') : Kept c c'' where
  isOpen j := (h'.isOpen j).trans (h.isOpen j)
  same j hj := (h'.same j ((h.isOpen j).trans hj)).trans (h.same j hj)
  pipes := h'.pipes.trans h.pipes
  boot := h'.boot.trans h.boot
  stdFds := h'.stdFds.trans h.stdFds
  env := h'.env.trans h.env

/-- **A run of calls on the kernel's disk is the run of what they are for on the tree**; it leaves no
descriptor open and closes none. -/
theorem runAll_eq (fs : BootFs) (process : ℕ) {c : Caller} (h : CallerOk c) {ops : List FsOp}
    (hops : ∀ op ∈ ops, op.Fits) :
    (runAll fs process c ops).map (fun r => (r.1.tree, r.2)) =
        meaningAll fs c.io.sys.bootfs c.tree (ops.zip (roomsAlong fs process c ops)) ∧
      ∀ c' values, runAll fs process c ops = some (c', values) → CallerOk c' ∧ Kept c c' := by
  induction ops generalizing c with
  | nil =>
    refine ⟨rfl, fun c' values hrun => ?_⟩
    cases hrun
    exact ⟨h, Kept.refl c⟩
  | cons op ops ih =>
    have hmeans := FsOp.run_meaning fs process h (hops op (.head _))
    rw [runAll, roomsAlong, List.zip_cons_cons, meaningAll]
    cases hspec : op.meaning fs c.io.sys.bootfs c.tree (op.hasRoom c) with
    | none =>
      rw [hspec] at hmeans
      have hout : op.run fs process c = none := hmeans
      rw [hout]
      exact ⟨rfl, fun c' values hrun => by cases hrun⟩
    | some r =>
      rw [hspec] at hmeans
      obtain ⟨c₁, hout, hdone, htree⟩ := hmeans
      obtain ⟨hrest, hkept⟩ := ih hdone.ok fun op' hop' => hops op' (.tail _ hop')
      rw [hout, Option.bind_some, Option.bind_some, ← htree, ← hdone.kept.boot, ← hrest]
      refine ⟨?_, fun c' values hrun => ?_⟩
      · simp only [Option.map_map]
        rfl
      · obtain ⟨s, hs, hpair⟩ := Option.map_eq_some_iff.mp hrun
        cases hpair
        obtain ⟨hok, hk⟩ := hkept s.1 s.2 hs
        exact ⟨hok, hdone.kept.trans hk⟩

/-- A program in the root of an empty disk. -/
def blankCaller : Caller := ⟨⟨blankSys, fun _ _ => 0⟩, pfsPrefix, .empty⟩

theorem callerOk_blankCaller : CallerOk blankCaller := by
  have hh : diskHeader blankCaller.io.sys.disk = emptyHeader := diskHeader_withHeader
  refine ⟨⟨reliable_blankDisk _, ?_, ?_⟩, fsInit_blankSys.fds, by decide, fun path data hdata => ?_⟩
  · rw [hh]; exact namesInv_emptyHeader
  · rw [hh]; exact allocInv_emptyHeader
  · cases hdata

/-- A directory, a file in it written twice, moved and read. -/
def noteOps : List FsOp :=
  [.createDir (ascii "d") fun _ => 0, .write (ascii "d/a") [1, 2] fun _ _ => 0,
    .append (ascii "d/a") [3] fun _ _ => 0, .setCurrentDir (ascii "d"),
    .rename (ascii "a") (ascii "../b") fun _ => 0, .read (ascii "../b") fun _ => 0,
    .removeFile (ascii "../d"), .metadata (ascii "a")]

theorem runAll_eq_noteOps :
    (runAll pfsArchive 0 blankCaller noteOps).map (fun r => (r.1.tree, r.2)) =
        meaningAll pfsArchive blankCaller.io.sys.bootfs blankCaller.tree
          (noteOps.zip (roomsAlong pfsArchive 0 blankCaller noteOps)) ∧
      ∀ c' values, runAll pfsArchive 0 blankCaller noteOps = some (c', values) →
        CallerOk c' ∧ Kept blankCaller c' :=
  runAll_eq pfsArchive 0 callerOk_blankCaller fun op hop => by
    simp only [noteOps, List.mem_cons, List.not_mem_nil, or_false] at hop
    rcases hop with rfl | rfl | rfl | rfl | rfl | rfl | rfl | rfl
    all_goals simp [FsOp.Fits]

end Rymos
