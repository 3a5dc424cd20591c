import Mathlib.Tactic
import Rymos.Pfs.Effect

/-!
# Runs of the file system

* `FsAct`, `sysStep`: the file calls of any process, the console commands and changes of the drive's
  answers, one after another. `FsInit`: a freshly formatted disk.
* `StepEffect`, **`sysStep_cases`**: a step is an effect, a rename, or a change of the drive.
* **`allocInv_of_reach`**, `namesInv_of_reach`, `validNames_of_reach`: every reachable header meets the
  allocation invariant; its names fit their fields, are distinct and valid.
* `StaysBeside`, **`treeInv_of_reach`**: as long as no rename takes a directory right below itself,
  every reachable header is a tree; **`not_treeInv_belowRun`**.
-/

namespace Rymos

open ByteBuf Extents Transition

inductive FsAct where
  | open (cwd path : List UInt8) (flags : UInt32) (t : ℕ → ℕ)
  | read (fd : ℤ) (bufferLen : ℕ)
  | write (fd : ℤ) (data : List UInt8) (t : ℕ → ℕ)
  | seek (fd : ℤ) (offset : UInt64)
  | close (fd : ℤ)
  | mkdir (cwd path : List UInt8) (t : ℕ → ℕ)
  | unlink (cwd path : List UInt8)
  | rename (cwd oldPath newPath : List UInt8) (t : ℕ → ℕ)
  | pwrite (name data : List UInt8) (t : ℕ → ℕ)
  | pmkdir (name : List UInt8) (t : ℕ → ℕ)
  | pdelete (name : List UInt8)
  /-- The drive changes which commands succeed; header sectors stay writable. -/
  | fault (readOk writeOk : ℕ → Bool)

/-- One step; `none` if the kernel panics. -/
def sysStep (sys : Sys) : FsAct → Option Sys
  | .open cwd path flags t => some (abiOpen sys cwd path flags t).1
  | .read fd bufferLen => some (abiRead sys fd bufferLen).1
  | .write fd data t => (abiWriteFd sys fd data t).map Prod.fst
  | .seek fd offset => some (abiSeek sys fd offset).1
  | .close fd => some (abiClose sys fd).1
  | .mkdir cwd path t => some (abiMkdir sys cwd path t).1
  | .unlink cwd path => some (abiUnlink sys cwd path).1
  | .rename cwd oldPath newPath t => some (abiRename sys cwd oldPath newPath t).1
  | .pwrite name data t => (persistentWrite sys.disk name data t).map fun r => sys.setDisk r.1
  | .pmkdir name t => some (sys.setDisk (persistentMkdir sys.disk name t).1)
  | .pdelete name => some (sys.setDisk (persistentDelete sys.disk name).1)
  | .fault readOk writeOk =>
    if (List.range pfsHeaderSectors).all writeOk then
      some (sys.setDisk { sys.disk with readOk := readOk, writeOk := writeOk })
    else none

/-- A freshly formatted disk, and descriptors that are closed or name entries of the table. -/
structure FsInit (sys : Sys) : Prop where
  formatted : diskHeader sys.disk = emptyHeader
  writable : HeaderWritable sys.disk
  fds : FdsOk sys

/-! ## Steps of the console -/

section Console

variable {disk disk' : Disk} {t : ℕ → ℕ}

theorem readHeader_eq_some {header : Header} (h : readHeader disk = some header) :
    header = diskHeader disk := by
  rw [readHeader] at h
  split_ifs at h
  exact (readHeaderSilent_eq_some h).1

theorem effect_persistentFill {index : ℕ} {data : List UInt8} {line : String}
    (hw : HeaderWritable disk) (h : AllocInv (diskHeader disk)) (hi : index < pfsEntryCount)
    (he : persistentFill disk index data t = some (disk', line)) : Effect disk disk' := by
  rw [persistentFill] at he
  cases hwr : pfsWriteAt disk index 0 data (t 2) with
  | none => rw [hwr] at he; cases he
  | some p =>
    obtain ⟨ok, mid⟩ := p
    rw [hwr] at he
    rcases pfsWriteAt_spec hw h hi hwr with ⟨rfl, rfl⟩ | ⟨room, m, w, hm⟩
    · cases he
      exact .refl _
    have heff := w.effect h hi
    cases ok with
    | false =>
      cases he
      exact heff
    | true =>
      obtain rfl := hm rfl
      obtain ⟨-, hmax, hf, hcap⟩ := w.end_le h hi
      rw [Nat.zero_add] at hmax hcap
      dsimp only at he
      cases hu : pfsUpdateSize mid index data.length (t 3) with
      | mk ok last =>
        have hup := effect_pfsUpdateSize (heff.only.headerWritable hw) hi hf hcap hmax hu
        rw [hu] at he
        cases ok <;> cases he <;> exact heff.trans hup

theorem effect_persistentWrite {name data : List UInt8} {line : String} (hw : HeaderWritable disk)
    (h : AllocInv (diskHeader disk))
    (he : persistentWrite disk name data t = some (disk', line)) : Effect disk disk' := by
  rw [persistentWrite] at he
  by_cases hv : validPfsPath name = true
  swap
  · rw [if_pos (by simpa using hv)] at he
    cases he
    exact .refl _
  rw [if_neg (by simpa using hv)] at he
  by_cases hm : data.length > pfsFileMax
  · rw [if_pos hm] at he
    cases he
    exact .refl _
  rw [if_neg hm] at he
  cases hh : readHeader disk with
  | none =>
    rw [hh] at he
    cases he
    exact .refl _
  | some header =>
    obtain rfl := readHeader_eq_some hh
    rw [hh] at he
    dsimp only at he
    by_cases hp : (!pfsParentExists (diskHeader disk) name) = true
    · rw [if_pos hp] at he
      cases he
      exact .refl _
    rw [if_neg hp] at he
    cases hf : pfsFindEntry (diskHeader disk) name with
    | some index =>
      rw [hf] at he
      dsimp only at he
      split_ifs at he
      · cases he
        exact .refl _
      · exact effect_persistentFill hw h (pfsFindEntry_eq_some.mp hf).1 he
    | none =>
      rw [hf] at he
      dsimp only at he
      cases hi : pfsFreeEntry (diskHeader disk) with
      | none =>
        rw [hi] at he
        cases he
        exact .refl _
      | some index =>
        rw [hi] at he
        dsimp only at he
        rw [writeHeader_spec hw] at he
        dsimp only at he
        have hnew : Effect disk (withHeader disk (pfsSetEntry (diskHeader disk) index name 0
            pfsKindFile [] (t 0) pfsModeDefaultFile (t 1))) :=
          effect_withHeader (.entry (.new hv (by simpa using hp) hf hi (by decide)))
        exact hnew.trans (effect_persistentFill (hnew.only.headerWritable hw) (h.effect hnew)
          (pfsFreeEntry_spec hi).1 he)

theorem effect_persistentMkdir {name : List UInt8} (hw : HeaderWritable disk) :
    Effect disk (persistentMkdir disk name t).1 := by
  rw [persistentMkdir]
  cases hh : readHeader disk with
  | none => exact .refl _
  | some header =>
    obtain rfl := readHeader_eq_some hh
    dsimp only
    split_ifs with hv
    · exact .refl _
    · cases hm : mkdirHeader (diskHeader disk) name t with
      | error code => exact .refl _
      | ok h' =>
        dsimp only
        rw [writeHeader_spec hw]
        exact (entryEffect_withHeader (.mkdir (by simpa using hv) hm)).effect

theorem effect_persistentDelete {name : List UInt8} (hw : HeaderWritable disk) :
    Effect disk (persistentDelete disk name).1 := by
  rw [persistentDelete]
  cases hh : readHeader disk with
  | none => exact .refl _
  | some header =>
    obtain rfl := readHeader_eq_some hh
    dsimp only
    cases hm : pfsUnlinkHeader (diskHeader disk) name with
    | error code => exact .refl _
    | ok h' =>
      dsimp only
      rw [writeHeader_spec hw]
      exact (entryEffect_withHeader (.unlink hm)).effect

end Console

/-! ## A blank disk -/

/-- A file system on a freshly formatted drive. -/
def blankSys : Sys where
  disk := blankDisk emptyHeader
  fds := fun _ => .empty
  pipes := fun _ => .empty
  bootfs := fun _ => none

theorem fsInit_blankSys : FsInit blankSys :=
  ⟨diskHeader_withHeader, (reliable_blankDisk _).headerWritable, fun _ h => AppFdKind.noConfusion h⟩

/-- `pfs:` and a name. -/
def pfsPath (name : List UInt8) : List UInt8 := pfsPrefix ++ name

/-! ## Steps -/

/-- A step that writes the header `pfs_rename_header` made. -/
def Renames (sys sys' : Sys) (act : FsAct) : Prop :=
  ∃ cwd oldPath newPath t oldName newName h', act = .rename cwd oldPath newPath t ∧
    (checkedAppSlice oldPath).bind (pfsResolvePath cwd) = some oldName ∧
    (checkedAppSlice newPath).bind (pfsResolvePath cwd) = some newName ∧
    pfsRenameHeader (diskHeader sys.disk) oldName newName (t 0) = .ok h' ∧
    sys' = sys.setDisk (withHeader sys.disk h')

/-- What is kept of a state in every run. -/
structure FsInv (sys : Sys) : Prop where
  writable : HeaderWritable sys.disk
  fds : FdsOk sys
  alloc : AllocInv (diskHeader sys.disk)

section Step

variable {sys sys' : Sys} {act : FsAct}

/-- **A step is an effect on the disk, a rename, or a change of the drive.** -/
theorem sysStep_cases (h : FsInv sys) (hs : sysStep sys act = some sys') :
    CallEffect sys sys' ∨ Renames sys sys' act ∨
      (HeaderWritable sys'.disk ∧ sys'.disk.sectors = sys.disk.sectors ∧ sys'.fds = sys.fds) := by
  have hw := h.writable
  cases act with
  | «open» cwd path flags t => cases hs; exact Or.inl ((entryCall_abiOpen hw rfl).callEffect)
  | read fd n => cases hs; exact Or.inl ((entryCall_abiRead rfl).callEffect)
  | write fd data t =>
    obtain ⟨⟨s, r⟩, hr, rfl⟩ := Option.map_eq_some_iff.mp hs
    exact Or.inl (callEffect_abiWriteFd h.fds hw h.alloc hr)
  | seek fd offset => cases hs; exact Or.inl ((entryCall_abiSeek rfl).callEffect)
  | close fd => cases hs; exact Or.inl ((entryCall_abiClose rfl).callEffect)
  | mkdir cwd path t => cases hs; exact Or.inl ((entryCall_abiMkdir hw rfl).callEffect)
  | unlink cwd path => cases hs; exact Or.inl ((entryCall_abiUnlink hw rfl).callEffect)
  | rename cwd oldPath newPath t =>
    simp only [sysStep, Option.some.injEq] at hs
    cases hren : abiRename sys cwd oldPath newPath t with
    | mk s r =>
      obtain rfl : s = sys' := by rw [← hs, hren]
      rcases abiRename_header hw hren with rfl | ⟨oldName, newName, h', h₁, h₂, h₃, h₄⟩
      · exact Or.inl (.refl _)
      · exact Or.inr (Or.inl ⟨_, _, _, _, oldName, newName, h', rfl, h₁, h₂, h₃, h₄⟩)
  | pwrite name data t =>
    obtain ⟨⟨d, line⟩, hr, rfl⟩ := Option.map_eq_some_iff.mp hs
    exact Or.inl (callEffect_setDisk (effect_persistentWrite hw h.alloc hr))
  | pmkdir name t => cases hs; exact Or.inl (callEffect_setDisk (effect_persistentMkdir hw))
  | pdelete name => cases hs; exact Or.inl (callEffect_setDisk (effect_persistentDelete hw))
  | fault readOk writeOk =>
    simp only [sysStep] at hs
    split_ifs at hs with hall
    cases hs
    exact Or.inr (Or.inr ⟨fun x hx => List.all_eq_true.mp hall x (List.mem_range.mpr hx), rfl, rfl⟩)

theorem diskHeader_of_sectors {d d' : Disk} (h : d'.sectors = d.sectors) :
    diskHeader d' = diskHeader d := diskHeader_congr fun x _ => congrFun h x

theorem FsInv.step (h : FsInv sys) (hs : sysStep sys act = some sys') : FsInv sys' := by
  rcases sysStep_cases h hs with he | ⟨_, _, _, _, _, _, h', -, -, -, hr, rfl⟩ | ⟨hw, hd, hf⟩
  · exact ⟨he.disk.only.headerWritable h.writable, he.fds h.fds, h.alloc.effect he.disk⟩
  · refine ⟨h.writable, h.fds, ?_⟩
    rw [setDisk_disk, diskHeader_withHeader]
    exact h.alloc.renameHeader hr
  · refine ⟨hw, fun k hk => ?_, ?_⟩
    · rw [hf] at hk ⊢
      exact h.fds k hk
    · rw [diskHeader_of_sectors hd]
      exact h.alloc

theorem FsInit.inv (h : FsInit sys) : FsInv sys :=
  ⟨h.writable, h.fds, h.formatted ▸ allocInv_emptyHeader⟩

theorem fsInv_of_reach {good : Sys → FsAct → Prop} (h : Reach FsInit good sysStep sys) :
    FsInv sys := h.inv (fun _ hi => hi.inv) fun _ _ _ hi _ hs => hi.step hs

/-- **Every reachable header meets the allocation invariant.** -/
theorem allocInv_of_reach (h : Reach FsInit (fun _ _ => True) sysStep sys) :
    AllocInv (diskHeader sys.disk) := (fsInv_of_reach h).alloc

theorem NamesInv.step (hn : NamesInv (diskHeader sys.disk)) (h : FsInv sys)
    (hs : sysStep sys act = some sys') : NamesInv (diskHeader sys'.disk) := by
  rcases sysStep_cases h hs with he | ⟨_, _, _, _, _, _, h', -, -, -, hr, rfl⟩ | ⟨-, hd, -⟩
  · exact hn.effect he.disk
  · obtain ⟨i, hw⟩ := nameWrite_rename hr
    rw [setDisk_disk, diskHeader_withHeader]
    exact hn.write hw
  · rw [diskHeader_of_sectors hd]
    exact hn

/-- **In every run the header is readable, and its names fit and are distinct.** -/
theorem namesInv_of_reach (h : Reach FsInit (fun _ _ => True) sysStep sys) :
    NamesInv (diskHeader sys.disk) := by
  refine (h.inv (I := fun s => FsInv s ∧ NamesInv (diskHeader s.disk)) (fun s hi => ⟨hi.inv, ?_⟩)
    fun s act s' hi _ hs => ⟨hi.1.step hs, hi.2.step hi.1 hs⟩).2
  rw [hi.formatted]
  exact namesInv_emptyHeader

/-- A file `a` is created, and written at its end and behind a hole. -/
def holeRun : List FsAct :=
  [.open [] (pfsPath [97]) 7 fun _ => 0, .write 3 [1, 2, 3] fun _ => 0, .seek 3 1000,
    .write 3 [4] fun _ => 0]

theorem allocInv_of_reach_holeRun :
    ∃ sys, exec sysStep blankSys holeRun = some sys ∧ AllocInv (diskHeader sys.disk) := by
  have hrun : (exec sysStep blankSys holeRun).isSome = true := by decide +kernel
  obtain ⟨sys, hs⟩ := Option.isSome_iff_exists.mp hrun
  exact ⟨sys, hs, allocInv_of_reach (reach_of_exec (.start fsInit_blankSys) (allGood_true _ _) hs)⟩

/-! ## The directory tree -/

/-- The step renames no empty directory to a free name right below itself. -/
def StaysBeside (sys : Sys) : FsAct → Prop
  | .rename cwd oldPath newPath _ => ∀ oldName newName,
    (checkedAppSlice oldPath).bind (pfsResolvePath cwd) = some oldName →
    (checkedAppSlice newPath).bind (pfsResolvePath cwd) = some newName →
      ¬ RenamesBelow (diskHeader sys.disk) oldName newName
  | _ => True

theorem TreeInv.step (h : FsInv sys) (ht : TreeInv (diskHeader sys.disk))
    (hg : StaysBeside sys act) (hs : sysStep sys act = some sys') :
    TreeInv (diskHeader sys'.disk) := by
  rcases sysStep_cases h hs with he | ⟨_, _, _, _, oldName, newName, h', rfl, h₁, h₂, hr, rfl⟩ |
      ⟨-, hd, -⟩
  · exact ht.effect he.disk
  · rw [setDisk_disk, diskHeader_withHeader]
    exact ht.rename (hg oldName newName h₁ h₂) hr
  · rw [diskHeader_of_sectors hd]
    exact ht

theorem length_pfsParent {name dir : List UInt8} (h : pfsParent name = some dir) :
    dir.length < name.length := (pfsParent_spec h).1

/-- **Without a rename of a directory right below itself, every reachable header is a tree**: the
invariant holds and every entry is found by walking from the root. -/
theorem treeInv_of_reach (h : Reach FsInit StaysBeside sysStep sys) :
    TreeInv (diskHeader sys.disk) ∧
      ∀ i name b, pfsTable (diskHeader sys.disk) i = some (name, b) →
        Forest.Walk pfsParent (pfsTable (diskHeader sys.disk)) name := by
  have hinv : FsInv sys ∧ TreeInv (diskHeader sys.disk) := by
    refine h.inv (I := fun s => FsInv s ∧ TreeInv (diskHeader s.disk)) (fun s hi => ⟨hi.inv, ?_⟩)
      fun s act s' hi hg hs => ⟨hi.1.step hs, hi.2.step hi.1 hg hs⟩
    rw [hi.formatted]
    exact treeInv_emptyHeader
  exact ⟨hinv.2, fun i name b hi => hinv.2.walk List.length (fun _ _ => length_pfsParent) hi⟩

/-- A directory `a/b` moves to `c`. -/
def moveRun : List FsAct :=
  [.mkdir [] (pfsPath [97]) fun _ => 0, .mkdir [] (pfsPath [97, 47, 98]) fun _ => 0,
    .rename [] (pfsPath [97, 47, 98]) (pfsPath [99]) fun _ => 0]

theorem treeInv_of_reach_moveRun :
    ∃ sys, exec sysStep blankSys moveRun = some sys ∧ TreeInv (diskHeader sys.disk) := by
  have hrun : (exec sysStep blankSys moveRun).isSome = true := by decide +kernel
  obtain ⟨sys, hs⟩ := Option.isSome_iff_exists.mp hrun
  have hgood : AllGood StaysBeside sysStep blankSys moveRun := by
    refine ⟨trivial, fun _ _ => ⟨trivial, fun _ _ => ⟨fun oldName newName _ hnew hb => ?_,
      fun _ _ => trivial⟩⟩⟩
    have hc : (checkedAppSlice (pfsPath [99])).bind (pfsResolvePath []) = some [99] := by decide
    rw [hc] at hnew
    cases hnew
    have hp : pfsParent [99] = none := by decide
    exact absurd (hp.symm.trans hb.1) nofun
  exact ⟨sys, hs, (treeInv_of_reach (reach_of_exec (.start fsInit_blankSys) hgood hs)).1⟩

/-- A directory `a` moves to `a/b`. -/
def belowRun : List FsAct :=
  [.mkdir [] (pfsPath [97]) fun _ => 0, .rename [] (pfsPath [97]) (pfsPath [97, 47, 98]) fun _ => 0]

/-- **A rename of a directory right below itself leaves an entry without a parent.** -/
theorem not_treeInv_belowRun :
    ¬ ∀ sys, Reach FsInit (fun _ _ => True) sysStep sys → TreeInv (diskHeader sys.disk) := by
  intro hall
  have hrun : (exec sysStep blankSys belowRun).map (fun sys =>
      (pfsTable (diskHeader sys.disk) ⟨0, by decide⟩, pfsFindEntry (diskHeader sys.disk) [97])) =
        some (some ([97, 47, 98], true), none) := by decide +kernel
  obtain ⟨sys, hs, he⟩ := Option.map_eq_some_iff.mp hrun
  obtain ⟨h₀, hnone⟩ := Prod.mk.inj he
  have ht := hall sys (reach_of_exec (.start fsInit_blankSys) (allGood_true _ _) hs)
  obtain ⟨j, hj⟩ := ht.rooted h₀ (d := [97]) (by decide)
  exact pfsTable_ne_of_find hnone j true hj

end Step

end Rymos
