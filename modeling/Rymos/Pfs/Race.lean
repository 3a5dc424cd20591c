import Mathlib.Tactic
import Rymos.Base.Overlap
import Rymos.Pfs.Reach

/-!
# Metadata operations of preempted processes

* `MetaOp`, `MetaOp.header`: the header an operation writes after it has read one. `MetaOp.run`: the
  call of the kernel; **`diskHeader_run`**: alone, the call reads, applies `header` and writes.
* `Race`, `raceStep`: each operation in two steps, a read of the header and a write of all of it, with
  the steps of the other processes between them. `Race.state`, **`raceStep_sim`**: the header as the
  cell of `Overlap`.
* `FindsItsHeader`, **`serial_of_race`**: under it the header is that of the calls one after another;
  **`not_serial_mkdirRace`**.
-/

namespace Rymos

open ByteBuf Transition Overlap

inductive MetaOp where
  | mkdir (cwd path : List UInt8) (t : ℕ → ℕ)
  | open (cwd path : List UInt8) (flags : UInt32) (t : ℕ → ℕ)
  | unlink (cwd path : List UInt8)
  | rename (cwd oldPath newPath : List UInt8) (t : ℕ → ℕ)
  | updateSize (index size now : ℕ)
  | ensureCapacity (index size now : ℕ)

/-- The header `abi_open_pfs` leaves: with a new entry, with an entry emptied, or as it was. -/
def openHeader (header : Header) (name : List UInt8) (flags : UInt32) (t : ℕ → ℕ) : Option Header :=
  if !validPfsPath name then none
  else if hasFlag flags fdCreateNew && !hasFlag flags fdCreate then none
  else if hasFlag flags fdTruncate && !hasFlag flags fdWrite then none
  else if hasFlag flags fdAppend && !hasFlag flags fdWrite then none
  else if !pfsParentExists header name then none
  else
    match openEntry header name flags t with
    | .error _ => none
    | .ok (index, created) =>
      if hasFlag flags fdTruncate then
        some (truncateHeader (created.getD header) index name (t 2))
      else created

/-- The name a path of a program stands for. -/
def resolveName (cwd path : List UInt8) : Option (List UInt8) :=
  (checkedAppSlice path).bind (pfsResolvePath cwd)

/-- The header the operation writes after it has read `header`. -/
def MetaOp.header : MetaOp → Header → Option Header
  | .mkdir cwd path t, header =>
    (resolveName cwd path).bind fun name => (mkdirHeader header name t).toOption
  | .open cwd path flags t, header =>
    (resolveName cwd path).bind fun name => openHeader header name flags t
  | .unlink cwd path, header =>
    (resolveName cwd path).bind fun name => (pfsUnlinkHeader header name).toOption
  | .rename cwd oldPath newPath t, header =>
    (resolveName cwd oldPath).bind fun oldName =>
    (resolveName cwd newPath).bind fun newName =>
      (pfsRenameHeader header oldName newName (t 0)).toOption
  | .updateSize index size now, header =>
    if pfsEntryUsed header index then some (pfsStoreSize header index size now) else none
  | .ensureCapacity index size now, header =>
    match capacityHeader header index size now with
    | .grown header => some header
    | _ => none

/-- The call; a panic stops it where it is. -/
def MetaOp.run (sys : Sys) : MetaOp → Sys
  | .mkdir cwd path t => (abiMkdir sys cwd path t).1
  | .open cwd path flags t => (abiOpen sys cwd path flags t).1
  | .unlink cwd path => (abiUnlink sys cwd path).1
  | .rename cwd oldPath newPath t => (abiRename sys cwd oldPath newPath t).1
  | .updateSize index size now => sys.setDisk (pfsUpdateSize sys.disk index size now).2
  | .ensureCapacity index size now =>
    sys.setDisk (((pfsEnsureFileCapacity sys.disk index size now).map Prod.snd).getD sys.disk)

/-! ## One operation alone -/

section Run

variable {sys : Sys} {disk : Disk}

/-- What a drive reads when its header is `header`. -/
def readsHeader (disk : Disk) (header : Header) : Option Header :=
  readHeaderSilent (withHeader disk header)

theorem readsHeader_eq (disk : Disk) : readsHeader disk (diskHeader disk) = readHeaderSilent disk := by
  rw [readsHeader, readHeaderSilent, readHeaderSilent, diskHeader_withHeader]
  rfl

/-- A read of the header, and a write of what the operation made of it. -/
def leavesHeader (disk : Disk) (f : Header → Option Header) : Disk :=
  ((readHeaderSilent disk).bind f).elim disk (withHeader disk)

theorem leavesHeader_none {f : Header → Option Header} (h : readHeaderSilent disk = none) :
    leavesHeader disk f = disk := by
  rw [leavesHeader, h]
  rfl

theorem leavesHeader_some {f : Header → Option Header} {header : Header}
    (h : readHeaderSilent disk = some header) :
    leavesHeader disk f = (f header).elim disk (withHeader disk) := by
  rw [leavesHeader, h]
  rfl

theorem run_open {name : List UInt8} {flags : UInt32} {t : ℕ → ℕ} (hw : HeaderWritable sys.disk) :
    (abiOpenPfs sys name flags t).1.disk =
      leavesHeader sys.disk fun header => openHeader header name flags t := by
  -- opening the descriptor leaves the disk
  have hfd : ∀ (s : Sys) header i, (openPfsFd s header i flags).1.disk = s.disk := by
    intro s header i
    rw [openPfsFd]
    dsimp only
    split <;> rfl
  have htrunc : ∀ (s : Sys) header i, HeaderWritable s.disk →
      (openPfsTruncate s header i name flags t).1.disk =
        if hasFlag flags fdTruncate = true then
          withHeader s.disk (truncateHeader header i name (t 2)) else s.disk := by
    intro s header i hs
    rw [openPfsTruncate]
    dsimp only
    split_ifs
    · rw [writeHeader_spec hs]
      exact hfd _ _ _
    · exact hfd _ _ _
  cases hh : readHeaderSilent sys.disk with
  | none =>
    rw [leavesHeader_none hh, abiOpenPfs]
    split_ifs <;> first | rfl | rw [hh]
  | some header =>
    rw [leavesHeader_some hh, abiOpenPfs, openHeader, hh]
    dsimp only
    cases openEntry header name flags t with
    | error code => split_ifs <;> rfl
    | ok p =>
      obtain ⟨i, o⟩ := p
      cases o with
      | none =>
        have ht := htrunc sys header i hw
        split_ifs at ht ⊢ <;> first | rfl | exact ht
      | some created =>
        dsimp only
        rw [writeHeader_spec hw]
        have ht := htrunc (sys.setDisk (withHeader sys.disk created)) created i hw
        split_ifs at ht ⊢ <;>
          first | rfl | exact ht | exact ht.trans (withHeader_withHeader _ _ _)

theorem disk_replyHeader (hw : HeaderWritable sys.disk) (header : Header) :
    (replyHeader sys header).1.disk = withHeader sys.disk header := by
  rw [replyHeader, writeHeader_spec hw]
  rfl

/-- Opening a BootFS file leaves the disk. -/
theorem disk_abiOpen (cwd path : List UInt8) (flags : UInt32) (t : ℕ → ℕ) :
    (abiOpen sys cwd path flags t).1.disk =
      (resolveName cwd path).elim sys.disk fun name => (abiOpenPfs sys name flags t).1.disk := by
  rw [abiOpen, resolveName]
  cases checkedAppSlice path with
  | none => rfl
  | some path =>
    rw [Option.bind_some]
    dsimp only
    cases pfsResolvePath cwd path with
    | some name => rfl
    | none =>
      dsimp only
      split_ifs
      · rfl
      · rfl
      · split
        · rfl
        · split <;> rfl

/-- **Alone, a call reads the header and writes what `header` makes of it.** -/
theorem disk_run (hw : HeaderWritable sys.disk) (op : MetaOp) :
    (op.run sys).disk = leavesHeader sys.disk op.header := by
  cases op with
  | mkdir cwd path t =>
    rw [MetaOp.run, leavesHeader, abiMkdir, ← resolveName]
    cases readHeaderSilent sys.disk with
    | none => cases resolveName cwd path <;> rfl
    | some header =>
      dsimp only [Option.bind_some, MetaOp.header]
      cases resolveName cwd path with
      | none => rfl
      | some name =>
        dsimp only [Option.bind_some]
        cases mkdirHeader header name t with
        | error code => rfl
        | ok h' => exact disk_replyHeader hw h'
  | «open» cwd path flags t =>
    rw [MetaOp.run, disk_abiOpen]
    cases hn : resolveName cwd path with
    | none =>
      have hnone : ∀ header, (MetaOp.open cwd path flags t).header header = none := fun header => by
        rw [MetaOp.header, hn]
        rfl
      rw [leavesHeader]
      cases readHeaderSilent sys.disk with
      | none => rfl
      | some header => rw [Option.bind_some, hnone]; rfl
    | some name =>
      dsimp only [Option.elim_some]
      rw [run_open hw]
      congr 1
      funext header
      rw [MetaOp.header, hn]
      rfl
  | unlink cwd path =>
    rw [MetaOp.run, leavesHeader, abiUnlink, ← resolveName]
    cases readHeaderSilent sys.disk with
    | none => cases resolveName cwd path <;> rfl
    | some header =>
      dsimp only [Option.bind_some, MetaOp.header]
      cases resolveName cwd path with
      | none => rfl
      | some name =>
        dsimp only [Option.bind_some]
        cases pfsUnlinkHeader header name with
        | error code => rfl
        | ok h' => exact disk_replyHeader hw h'
  | rename cwd oldPath newPath t =>
    rw [MetaOp.run, leavesHeader, abiRename, ← resolveName, ← resolveName]
    cases readHeaderSilent sys.disk with
    | none => cases resolveName cwd oldPath <;> cases resolveName cwd newPath <;> rfl
    | some header =>
      dsimp only [Option.bind_some, MetaOp.header]
      cases resolveName cwd oldPath with
      | none => rfl
      | some oldName =>
        cases resolveName cwd newPath with
        | none => rfl
        | some newName =>
          dsimp only [Option.bind_some]
          cases pfsRenameHeader header oldName newName (t 0) with
          | error code => rfl
          | ok h' => exact disk_replyHeader hw h'
  | updateSize index size now =>
    rw [MetaOp.run, leavesHeader, pfsUpdateSize]
    cases readHeaderSilent sys.disk with
    | none => rfl
    | some header =>
      dsimp only [Option.bind_some, MetaOp.header]
      rw [writeHeader_spec hw]
      cases pfsEntryUsed header index <;> rfl
  | ensureCapacity index size now =>
    rw [MetaOp.run, leavesHeader, pfsEnsureFileCapacity]
    cases readHeaderSilent sys.disk with
    | none => rfl
    | some header =>
      dsimp only [Option.bind_some, MetaOp.header]
      cases capacityHeader header index size now with
      | grown h' =>
        dsimp only
        rw [writeHeader_spec hw]
        rfl
      | _ => rfl

end Run

/-! ## Operations in two steps -/

/-- The disk and the operations that have read its header; `issued` and `order` as in `Overlap`. -/
structure Race where
  disk : Disk
  windows : List (Window ℕ MetaOp Header)
  issued : List MetaOp
  order : List MetaOp

/-- `read_header_silent` and the work on the copy, or `write_header`. -/
def raceStep (r : Race) : Act ℕ MetaOp → Option Race
  | .read process op =>
    if r.windows.any (·.process = process) then none
    else
      match readHeaderSilent r.disk with
      | none => some { r with issued := op :: r.issued, order := r.order ++ [op] }
      | some header =>
        match op.header header with
        | none => some { r with issued := op :: r.issued, order := r.order ++ [op] }
        | some next => some { r with
            windows := ⟨process, op, header, next⟩ :: r.windows
            issued := op :: r.issued }
  | .write process =>
    (r.windows.find? (·.process = process)).map fun w =>
      { disk := (writeHeader r.disk w.next).2
        windows := r.windows.eraseP (·.process = process)
        issued := r.issued
        order := r.order ++ [w.op] }

structure RaceInit (disk : Disk) (r : Race) : Prop where
  disk_eq : r.disk = disk
  windows : r.windows = []
  issued : r.issued = []
  order : r.order = []

/-- A write finds on the disk the header its operation has read. -/
def FindsItsHeader (r : Race) : Act ℕ MetaOp → Prop
  | .read _ _ => True
  | .write process => ∀ w ∈ r.windows.find? (·.process = process), w.seen = diskHeader r.disk

/-- The header as a cell. -/
def Race.state (r : Race) : State ℕ MetaOp Header := ⟨diskHeader r.disk, r.windows, r.issued, r.order⟩

/-- What an operation writes after it has read `header` from a drive like `disk`. -/
def applyOn (disk : Disk) (op : MetaOp) (header : Header) : Option Header :=
  (readsHeader disk header).bind op.header

/-- The drive answers as `disk` does. -/
def SameDrive (disk disk' : Disk) : Prop := HeaderWritable disk' ∧ disk'.readOk = disk.readOk

section Race

variable {disk disk' : Disk} {r r' : Race} {a : Act ℕ MetaOp} {sys : Sys}

theorem SameDrive.readsHeader (h : SameDrive disk disk') :
    readsHeader disk (diskHeader disk') = readHeaderSilent disk' := by
  rw [Rymos.readsHeader, readHeaderSilent, readHeaderSilent, diskHeader_withHeader, h.2]
  rfl

/-- **The two steps are those of a cell that is read and written back.** -/
theorem raceStep_sim (h : SameDrive disk r.disk) (hs : raceStep r a = some r') :
    SameDrive disk r'.disk ∧ step (applyOn disk) r.state a = some r'.state := by
  cases a with
  | read process op =>
    rw [raceStep] at hs
    rw [step, Race.state]
    dsimp only
    split_ifs at hs ⊢
    rw [applyOn, h.readsHeader]
    cases hh : readHeaderSilent r.disk with
    | none =>
      rw [hh] at hs
      cases hs
      exact ⟨h, rfl⟩
    | some header =>
      obtain ⟨rfl, -⟩ := readHeaderSilent_eq_some hh
      rw [hh] at hs
      dsimp only [Option.bind_some] at hs ⊢
      cases hn : op.header (diskHeader r.disk) <;> rw [hn] at hs <;> cases hs <;> exact ⟨h, rfl⟩
  | write process =>
    obtain ⟨w, hw, rfl⟩ := Option.map_eq_some_iff.mp hs
    rw [writeHeader_spec h.1]
    refine ⟨⟨h.1, h.2⟩, ?_⟩
    rw [step, Race.state, hw, Race.state]
    dsimp only [Option.map_some]
    rw [diskHeader_withHeader]

/-- The calls one after another, and the cell. -/
theorem foldl_run (ops : List MetaOp) (hw : HeaderWritable sys.disk) :
    SameDrive sys.disk (ops.foldl MetaOp.run sys).disk ∧
      diskHeader (ops.foldl MetaOp.run sys).disk =
        serial (applyOn sys.disk) (diskHeader sys.disk) ops := by
  induction ops using List.reverseRecOn with
  | nil => exact ⟨⟨hw, rfl⟩, rfl⟩
  | append_singleton ops op ih =>
    obtain ⟨hd, hh⟩ := ih
    rw [List.foldl_append, serial_append, ← hh]
    dsimp only [List.foldl_cons, List.foldl_nil]
    generalize ops.foldl MetaOp.run sys = s at hd
    rw [disk_run hd.1, applyOn, hd.readsHeader, leavesHeader]
    cases (readHeaderSilent s.disk).bind op.header with
    | none => exact ⟨hd, rfl⟩
    | some header => exact ⟨⟨hd.1, hd.2⟩, diskHeader_withHeader⟩

/-- **Operations that find their header are serial**: when all are over, the header on the disk is
that of the calls one after another, in some order. -/
theorem serial_of_race (hw : HeaderWritable sys.disk)
    (h : Reach (RaceInit sys.disk) FindsItsHeader raceStep r) (hd : r.windows = []) :
    ∃ order : List MetaOp, order.Perm r.issued ∧
      diskHeader r.disk = diskHeader (order.foldl MetaOp.run sys).disk := by
  have hsim : SameDrive sys.disk r.disk ∧
      Reach (Init (diskHeader sys.disk)) Undisturbed (step (applyOn sys.disk)) r.state := by
    refine h.sim Race.state id (J := fun r => SameDrive sys.disk r.disk) (fun r hi => ?_)
      fun r a r' hj hg hs => ?_
    · exact ⟨⟨hi.disk_eq ▸ hw, by rw [hi.disk_eq]⟩, by rw [Race.state, hi.disk_eq], hi.windows,
        hi.issued, hi.order⟩
    · obtain ⟨hj', hs'⟩ := raceStep_sim hj hs
      refine ⟨hj', ?_, hs'⟩
      cases a with
      | read process op => trivial
      | write process => exact hg
  obtain ⟨hperm, hcell⟩ := serial_of_reach hsim.2 hd
  exact ⟨r.order, hperm, hcell.trans (foldl_run r.order hw).2.symm⟩

/-- The operations a run begins are those issued. -/
theorem issued_of_exec {acts : List (Act ℕ MetaOp)} (hs : exec raceStep r acts = some r') :
    r'.issued = (acts.filterMap fun
      | .read _ op => some op
      | .write _ => none).reverse ++ r.issued := by
  induction acts generalizing r with
  | nil => cases hs; rfl
  | cons a acts ih =>
    simp only [exec] at hs
    obtain ⟨mid, hmid, hs⟩ := Option.bind_eq_some_iff.mp hs
    rw [ih hs]
    cases a with
    | read process op =>
      have hop : mid.issued = op :: r.issued := by
        rw [raceStep] at hmid
        split_ifs at hmid
        split at hmid
        · cases hmid; rfl
        · split at hmid <;> cases hmid <;> rfl
      rw [hop]
      simp
    | write process =>
      obtain ⟨w, -, rfl⟩ := Option.map_eq_some_iff.mp hmid
      rfl

/-- An operation whose two steps follow each other finds its header. -/
theorem findsItsHeader_of_read {process : ℕ} {op : MetaOp}
    (hs : raceStep r (.read process op) = some r') : FindsItsHeader r' (.write process) := by
  rw [raceStep] at hs
  split_ifs at hs with hany
  have hnone : ∀ w ∈ r.windows, ¬ w.process = process := by simpa using hany
  have hfind : r.windows.find? (·.process = process) = none :=
    List.find?_eq_none.mpr fun w hw => by simpa using hnone w hw
  intro w hw
  cases hh : readHeaderSilent r.disk with
  | none =>
    rw [hh] at hs
    cases hs
    rw [hfind] at hw
    cases hw
  | some header =>
    obtain ⟨rfl, -⟩ := readHeaderSilent_eq_some hh
    rw [hh] at hs
    dsimp only at hs
    cases hn : op.header (diskHeader r.disk) with
    | none =>
      rw [hn] at hs
      cases hs
      rw [hfind] at hw
      cases hw
    | some next =>
      rw [hn] at hs
      cases hs
      rw [List.find?_cons_of_pos (by simp)] at hw
      cases hw
      rfl

end Race

/-- Nothing under way on a blank disk. -/
def blankRace : Race := ⟨blankSys.disk, [], [], []⟩

def mkdirOp (name : List UInt8) : MetaOp := .mkdir [] (pfsPath name) fun _ => 0

/-- Two processes make a directory each, one after the other. -/
def mkdirsRun : List (Act ℕ MetaOp) :=
  [.read 1 (mkdirOp [97]), .write 1, .read 2 (mkdirOp [98]), .write 2]

theorem serial_of_race_mkdirsRun : ∃ r, exec raceStep blankRace mkdirsRun = some r ∧
    ∃ order : List MetaOp, order.Perm r.issued ∧
      diskHeader r.disk = diskHeader (order.foldl MetaOp.run blankSys).disk := by
  have hrun : (exec raceStep blankRace mkdirsRun).map (fun r => r.windows.isEmpty) = some true := by
    decide +kernel
  obtain ⟨r, hr, hd⟩ := Option.map_eq_some_iff.mp hrun
  have hgood : AllGood FindsItsHeader raceStep blankRace mkdirsRun :=
    ⟨trivial, fun _ h₁ => ⟨findsItsHeader_of_read h₁, fun _ _ => ⟨trivial, fun _ h₂ =>
      ⟨findsItsHeader_of_read h₂, fun _ _ => trivial⟩⟩⟩⟩
  exact ⟨r, hr, serial_of_race fsInit_blankSys.writable
    (reach_of_exec (.start ⟨rfl, rfl, rfl, rfl⟩) hgood hr) (List.isEmpty_iff.mp hd)⟩

/-- Both processes read the header before either of them writes it. -/
def mkdirRace : List (Act ℕ MetaOp) :=
  [.read 1 (mkdirOp [97]), .read 2 (mkdirOp [98]), .write 1, .write 2]

/-- **The second write erases the directory the first one made.** -/
theorem not_serial_mkdirRace :
    ¬ ∀ (sys : Sys) (r : Race), HeaderWritable sys.disk →
      Reach (RaceInit sys.disk) (fun _ _ => True) raceStep r → r.windows = [] →
        ∃ order : List MetaOp, order.Perm r.issued ∧
          diskHeader r.disk = diskHeader (order.foldl MetaOp.run sys).disk := by
  intro hall
  have hrun : (exec raceStep blankRace mkdirRace).map (fun r =>
      (r.windows.isEmpty, pfsFindEntry (diskHeader r.disk) [97])) = some (true, none) := by
    decide +kernel
  obtain ⟨r, hr, he⟩ := Option.map_eq_some_iff.mp hrun
  rw [Prod.mk.injEq] at he
  have hissued : r.issued = [mkdirOp [98], mkdirOp [97]] := issued_of_exec hr
  have hreach : Reach (RaceInit blankSys.disk) (fun _ _ => True) raceStep r :=
    reach_of_exec (.start ⟨rfl, rfl, rfl, rfl⟩) (allGood_true _ mkdirRace) hr
  obtain ⟨order, hperm, heq⟩ := hall blankSys r fsInit_blankSys.writable hreach
    (List.isEmpty_iff.mp he.1)
  rw [hissued] at hperm
  -- in both orders the directory is there
  have hboth : ∀ order ∈ [[mkdirOp [98], mkdirOp [97]], [mkdirOp [97], mkdirOp [98]]],
      pfsFindEntry (diskHeader (order.foldl MetaOp.run blankSys).disk) [97] ≠ none := by
    decide +kernel
  refine hboth order ?_ (by rw [← heq]; exact he.2)
  rcases List.perm_pair.mp hperm with rfl | rfl
  · exact List.mem_cons_self
  · exact List.mem_cons_of_mem _ List.mem_cons_self

end Rymos
