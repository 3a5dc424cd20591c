import Mathlib.Tactic
import Rymos.Stdish.Tree

/-!
# Opening files of the tree

* `OpensAs`: an open returns an error and changes nothing, or comes to the file of its name.
* `openPfsTruncate_opensAs`, **`abiOpenPfs_opensAs`**: `open` follows the tree.
-/

namespace Rymos

open ByteBuf Extents FileTree

/-- The open returns the error and changes nothing, or it takes descriptor `index` for the file `name`
on a disk with the map. -/
def OpensAs (sys : Sys) (out : Sys × Reply ℤ) (name : List UInt8) (flags : UInt32) (index : ℕ) :
    Except ℕ NameMap → Prop
  | .error code => out = (sys, .error code)
  | .ok M => ∃ disk i, DiskOk disk ∧ pfsMap disk = M ∧ pfsFindEntry (diskHeader disk) name = some i ∧
      pfsEntryIsFile (diskHeader disk) i = true ∧
      out = ((sys.setDisk disk).setFd index (openedFd disk flags i), .done (index + appFdBase))

section Open

variable {sys : Sys} {name : List UInt8} {flags : UInt32} {i index : ℕ}

theorem openPfsFd_eq {header : Header} (hh : diskHeader sys.disk = header)
    (hfree : freeFd sys = some index) (i : ℕ) (flags : UInt32) :
    openPfsFd sys header i flags =
      (sys.setFd index (openedFd sys.disk flags i), .done (index + appFdBase)) := by
  rw [openPfsFd, hfree, openedFd, diskSize, hh]

/-- The end of an open, on a file that is there. -/
theorem openPfsTruncate_opensAs (h : DiskOk sys.disk) (hv : validPfsPath name = true)
    (hf : pfsFindEntry (diskHeader sys.disk) name = some i)
    (hfile : pfsEntryIsFile (diskHeader sys.disk) i = true) (hfree : freeFd sys = some index)
    (flags : UInt32) (t : ℕ → ℕ) :
    OpensAs sys (openPfsTruncate sys (diskHeader sys.disk) i name flags t) name flags index
      (.ok (if hasFlag flags fdTruncate then
        Function.update (pfsMap sys.disk) name (some (.file [])) else pfsMap sys.disk)) := by
  obtain ⟨hi, hu, hname, -⟩ := pfsFindEntry_eq_some.mp hf
  rw [openPfsTruncate]
  split_ifs with ht
  · dsimp only
    rw [writeHeader_spec h.reliable.headerWritable]
    dsimp only
    have hem : Emptied (diskHeader sys.disk) (truncateHeader (diskHeader sys.disk) i name (t 2)) i
        name := emptied_pfsSetEntry hi (length_of_validPfsPath hv).2
    have hok : DiskOk (withHeader sys.disk (truncateHeader (diskHeader sys.disk) i name (t 2))) :=
      h.effect (entryEffect_withHeader (.truncate hv hi hfile hname)).effect
    generalize truncateHeader (diskHeader sys.disk) i name (t 2) = header' at hem hok ⊢
    have hfree' : freeFd (sys.setDisk (withHeader sys.disk header')) = some index := hfree
    rw [openPfsFd_eq diskHeader_withHeader hfree']
    refine ⟨withHeader sys.disk header', i, hok, ?_, ?_, ?_, rfl⟩
    · exact Emptied.pfsMap (by rwa [diskHeader_withHeader]) hi h.names h.alloc
        (fun x hx => sectors_withHeader hx) (.inl hf)
    · rw [diskHeader_withHeader, pfsFindEntry_keep hem.only h.names.fit
        ((pfsEntryIsFile_iff.mp hem.file).1.trans hu.symm) (hem.name_eq.trans hname.symm), hf]
    · rw [diskHeader_withHeader, hem.file]
  · rw [openPfsFd_eq rfl hfree]
    exact ⟨sys.disk, i, h, rfl, hf, hfile, rfl⟩

/-- **`open` follows the tree.** -/
theorem abiOpenPfs_opensAs (h : DiskOk sys.disk) (hv : validPfsPath name = true)
    (hfree : freeFd sys = some index) (flags : UInt32) (t : ℕ → ℕ) :
    OpensAs sys (abiOpenPfs sys name flags t) name flags index
      (openFile (pfsMap sys.disk) name flags) := by
  have hparent := pfsParentExists_iff_hasParent h.names hv
  unfold openFile abiOpenPfs
  rw [hv, Bool.not_true, if_neg Bool.false_ne_true, h.header]
  dsimp only
  by_cases hp : HasParent (pfsMap sys.disk) name
  swap
  · rw [if_pos hp, Bool.eq_false_iff.mpr (mt hparent.mp hp)]
    simp only [Bool.and_eq_true, Bool.not_eq_true', ← Bool.not_eq_true, Bool.not_false, if_true]
    split_ifs <;> rfl
  rw [if_neg (not_not.mpr hp), hparent.mpr hp, Bool.not_true, if_neg Bool.false_ne_true]
  simp only [Bool.and_eq_true, Bool.not_eq_true', ← Bool.not_eq_true]
  split_ifs with hnew htrunc happend hdir hnone hcreate hfull hexcl ht
  iterate 3 (rfl)
  · obtain ⟨i, hf, -⟩ := h.find hdir
    rw [openEntry, hf]
    dsimp only
    rw [if_pos ((h.isDir_iff hf).mpr hdir)]
    rfl
  · rw [openEntry, h.find_none hnone]
    dsimp only
    rw [if_pos hcreate, (pfsFreeEntry_eq_none_iff h.names).mpr hfull]
    rfl
  · -- a new file, which is emptied again under `FD_TRUNCATE`
    have hf := h.find_none hnone
    obtain ⟨i, hslot⟩ := Option.ne_none_iff_exists'.mp (mt (pfsFreeEntry_eq_none_iff h.names).mp hfull)
    obtain ⟨hi, hu⟩ := pfsFreeEntry_spec hslot
    have hem : Emptied (diskHeader sys.disk) (newFileHeader (diskHeader sys.disk) i name t) i name :=
      emptied_newFileHeader hv hslot
    have hok : DiskOk (withHeader sys.disk (newFileHeader (diskHeader sys.disk) i name t)) :=
      h.effect (entryEffect_withHeader (.new hv (hparent.mpr hp) hf hslot (by decide))).effect
    rw [openEntry, hf]
    dsimp only
    rw [if_pos hcreate, hslot]
    dsimp only
    rw [writeHeader_spec h.reliable.headerWritable]
    dsimp only
    rw [← newFileHeader]
    generalize newFileHeader (diskHeader sys.disk) i name t = header' at hem hok ⊢
    have hem' : Emptied (diskHeader sys.disk) (diskHeader (withHeader sys.disk header')) i name := by
      rwa [diskHeader_withHeader]
    have hmap := hem'.pfsMap hi h.names h.alloc (fun x hx => sectors_withHeader hx) (.inr ⟨hf, hu⟩)
    have hf' : pfsFindEntry (diskHeader (withHeader sys.disk header')) name = some i := by
      have := hok.names.find hi (pfsEntryIsFile_iff.mp hem'.file).1
      rwa [hem'.name_eq] at this
    have hfree' : freeFd (sys.setDisk (withHeader sys.disk header')) = some index := hfree
    have hok' : DiskOk (sys.setDisk (withHeader sys.disk header')).disk := hok
    obtain ⟨disk, j, hd, hm, hfind, hfile, hout⟩ :=
      openPfsTruncate_opensAs hok' hv hf' hem'.file hfree' flags t
    refine ⟨disk, j, hd, ?_, hfind, hfile, ?_⟩
    · rw [hm, setDisk_disk, hmap]
      split_ifs
      · rw [Function.update_idem]
      · rfl
    · rw [setDisk_disk, diskHeader_withHeader] at hout
      rw [hout]
      rfl
  · rw [openEntry, h.find_none hnone]
    dsimp only
    rw [if_neg hcreate]
    rfl
  all_goals
    -- the file is there
    obtain ⟨node, hnode⟩ := Option.ne_none_iff_exists'.mp hnone
    obtain ⟨i, hf, -⟩ := h.find hnode
    have hd : pfsEntryIsDir (diskHeader sys.disk) i = false :=
      Bool.eq_false_iff.mpr (mt (h.isDir_iff hf).mp hdir)
    have hfile : pfsEntryIsFile (diskHeader sys.disk) i = true :=
      pfsEntryIsFile_iff.mpr ⟨(pfsFindEntry_eq_some.mp hf).2.1, hd⟩
    have hopen := openPfsTruncate_opensAs h hv hf hfile hfree flags t
    rw [openEntry, hf]
    dsimp only
    rw [hd, if_neg Bool.false_ne_true]
  · rw [if_pos hexcl]
    rfl
  · rw [if_neg hexcl]
    rwa [if_pos ht] at hopen
  · rw [if_neg hexcl]
    rwa [if_neg ht] at hopen

end Open

end Rymos
