import Mathlib.Tactic
import Rymos.Path.MissingDirs
import Rymos.Pfs.Codec
import Rymos.Pfs.Contents

/-!
# The tree of files

What the calls on names are for, on the map of names.

* `FileTree.mkdir`, `FileTree.unlink`, `FileTree.rename`, `FileTree.openFile`: what a call makes of the
  map, or the error it returns.
* `HasParent`, `Occupied`, `Full`: what they depend on; the kernel's scans of the table compute them.
* `DiskOk`, `Follows`: a call does on the disk what it is for.
* **`abiMkdir_follows`**, **`abiUnlink_follows`**, **`abiRename_follows`**.
-/

namespace Rymos

open ByteBuf Extents

namespace FileTree

variable (M : NameMap) (name : List UInt8)

/-- The directory the name lies in is there. -/
def HasParent : Prop := ∀ dir, pfsParent name = some dir → dir ≠ [] ∧ M dir = some .dir

/-- Something lies below the name. -/
def Occupied : Prop := ∃ other, M other ≠ none ∧ name ++ [slash] <+: other

/-- There are as many names as entries. -/
def Full : Prop := pfsEntryCount ≤ {other | M other ≠ none}.ncard

open Classical in
noncomputable def mkdir : Except ℕ NameMap :=
  if ¬ HasParent M name then .error errNoent
  else if M name ≠ none then .error errExist
  else if Full M then .error errNospc
  else .ok (Function.update M name (some .dir))

open Classical in
noncomputable def unlink : Except ℕ NameMap :=
  if M name = none then .error errNoent
  else if M name = some .dir ∧ Occupied M name then .error errInval
  else .ok (Function.update M name none)

open Classical in
noncomputable def rename (newName : List UInt8) : Except ℕ NameMap :=
  if M name = none then .error errNoent
  else if M newName ≠ none then .error errExist
  else if ¬ HasParent M newName then .error errNoent
  else if M name = some .dir ∧ Occupied M name then .error errInval
  else .ok (Function.update (Function.update M name none) newName (M name))

open Classical in
/-- An open makes a file, or empties one, or leaves everything as it is. -/
noncomputable def openFile (flags : UInt32) : Except ℕ NameMap :=
  if hasFlag flags fdCreateNew ∧ ¬ hasFlag flags fdCreate then .error errInval
  else if hasFlag flags fdTruncate ∧ ¬ hasFlag flags fdWrite then .error errInval
  else if hasFlag flags fdAppend ∧ ¬ hasFlag flags fdWrite then .error errInval
  else if ¬ HasParent M name then .error errNoent
  else if M name = some .dir then .error errIsdir
  else if M name = none then
    if ¬ hasFlag flags fdCreate then .error errNoent
    else if Full M then .error errNospc
    else .ok (Function.update M name (some (.file [])))
  else if hasFlag flags fdCreateNew then .error errExist
  else if hasFlag flags fdTruncate then .ok (Function.update M name (some (.file [])))
  else .ok M

end FileTree

open FileTree

/-! ## The scans of the table -/

section Scans

variable {disk : Disk} {name dir : List UInt8}

theorem hasDir_iff (hn : NamesInv (diskHeader disk)) :
    HasDir (diskHeader disk) dir ↔ pfsMap disk dir = some .dir := by
  rw [pfsMap_eq_some hn, HasDir]
  simp only [node_eq_dir]

theorem pfsParentExists_iff_hasParent (hn : NamesInv (diskHeader disk))
    (hv : validPfsPath name = true) :
    pfsParentExists (diskHeader disk) name = true ↔ HasParent (pfsMap disk) name := by
  rw [pfsParentExists_iff hv, HasParent]
  simp only [hasDir_iff hn]

/-- A name lies below another just if it goes on with `/`. -/
theorem below_iff {other : List UInt8} :
    (other.length > name.length && startsWith other name && other.getD name.length 0 == slash) = true ↔
      name ++ [slash] <+: other := by
  rw [Bool.and_eq_true, Bool.and_eq_true, decide_eq_true_eq, beq_iff_eq, startsWith,
    List.isPrefixOf_iff_prefix]
  constructor
  · rintro ⟨⟨hlen, rest, rfl⟩, hs⟩
    cases rest with
    | nil => simp at hlen
    | cons byte rest =>
      have hbyte : byte = slash := by simpa using hs
      exact ⟨rest, by rw [hbyte, List.append_assoc, List.singleton_append]⟩
  · rintro ⟨rest, rfl⟩
    rw [List.append_assoc, List.singleton_append]
    exact ⟨⟨by simp, List.prefix_append _ _⟩, by simp⟩

theorem pfsDirEmpty_iff (hn : NamesInv (diskHeader disk)) :
    pfsDirEmpty (diskHeader disk) dir = true ↔ ¬ Occupied (pfsMap disk) dir := by
  rw [pfsDirEmpty, List.all_eq_true, Occupied]
  constructor
  · rintro h ⟨other, hm, hbelow⟩
    obtain ⟨node, hnode⟩ := Option.ne_none_iff_exists'.mp hm
    obtain ⟨i, hf, -⟩ := (pfsMap_eq_some hn).mp hnode
    obtain ⟨hi, hu, rfl, -⟩ := pfsFindEntry_eq_some.mp hf
    have hno := h i (List.mem_range.mpr hi)
    rw [hu] at hno
    dsimp only at hno
    rw [if_neg (by decide), Bool.not_eq_true', below_iff.mpr hbelow] at hno
    cases hno
  · intro h i hi
    split_ifs with hu
    · rfl
    have hused : pfsEntryUsed (diskHeader disk) i = true := by simpa using hu
    rw [Bool.not_eq_true', ← Bool.not_eq_true]
    intro hbelow
    refine h ⟨_, ?_, below_iff.mp hbelow⟩
    rw [(pfsMap_eq_some hn).mpr ⟨i, hn.find (List.mem_range.mp hi) hused, rfl⟩]
    exact Option.some_ne_none _

theorem pfsFreeEntry_eq_none_iff (hn : NamesInv (diskHeader disk)) :
    pfsFreeEntry (diskHeader disk) = none ↔ Full (pfsMap disk) := by
  rw [Full, pfsMap, ← (distinct_pfsSlots hn).free_eq_none_iff, Slots.free_eq_none, pfsFreeEntry,
    List.find?_eq_none]
  simp only [List.mem_range, Bool.not_eq_true', Bool.not_eq_false]
  constructor
  · intro h i hi
    rw [pfsSlots_eq_none, h i i.2] at hi
    cases hi
  · intro h i hi
    by_contra hu
    exact h ⟨i, hi⟩ (pfsSlots_eq_none.mpr (Bool.not_eq_true _ ▸ hu))

end Scans

/-! ## A disk in order -/

/-- The drive never fails, and the table of entries is in order. -/
structure DiskOk (disk : Disk) : Prop where
  reliable : Reliable disk
  names : NamesInv (diskHeader disk)
  alloc : AllocInv (diskHeader disk)

theorem DiskOk.header {disk : Disk} (h : DiskOk disk) :
    readHeaderSilent disk = some (diskHeader disk) :=
  readHeaderSilent_of_reliable h.reliable h.names.magic

theorem DiskOk.effect {disk disk' : Disk} (h : DiskOk disk) (he : Effect disk disk') :
    DiskOk disk' :=
  ⟨he.only.reliable h.reliable, h.names.effect he, h.alloc.effect he⟩

/-- The call returns the error and changes nothing, or it returns `value` and leaves a disk with the
map. -/
def Follows {α : Type} (sys : Sys) (out : Sys × Reply α) (value : α) : Except ℕ NameMap → Prop
  | .error code => out = (sys, .error code)
  | .ok M => ∃ disk, out = (sys.setDisk disk, .done value) ∧ DiskOk disk ∧ pfsMap disk = M

section Calls

variable {sys : Sys} {disk : Disk} {header' : Header} {cwd path name : List UInt8} {i : ℕ}

/-- A new header is stored. -/
theorem replyHeader_of_ok (h : DiskOk sys.disk) (header' : Header) :
    replyHeader sys header' = (sys.setDisk (withHeader sys.disk header'), .done 0) := by
  rw [replyHeader, writeHeader_spec h.reliable.headerWritable]

/-- What the table has of a name. -/
theorem DiskOk.find (h : DiskOk disk) {node : Node} (hm : pfsMap disk name = some node) :
    ∃ i, pfsFindEntry (diskHeader disk) name = some i ∧ (entryView disk i).node = node :=
  (pfsMap_eq_some h.names).mp hm

theorem DiskOk.find_none (h : DiskOk disk) (hm : pfsMap disk name = none) :
    pfsFindEntry (diskHeader disk) name = none :=
  (pfsMap_eq_none h.names).mp hm

theorem DiskOk.isDir_iff (h : DiskOk disk) (hf : pfsFindEntry (diskHeader disk) name = some i) :
    pfsEntryIsDir (diskHeader disk) i = true ↔ pfsMap disk name = some .dir := by
  rw [pfsMap_eq h.names, hf, Option.map_some, Option.some.injEq, node_eq_dir]

/-- The kernel refuses a directory with something below it. -/
theorem DiskOk.occupied_iff (h : DiskOk disk) (hf : pfsFindEntry (diskHeader disk) name = some i) :
    (pfsEntryIsDir (diskHeader disk) i && !pfsDirEmpty (diskHeader disk) name) = true ↔
      pfsMap disk name = some .dir ∧ Occupied (pfsMap disk) name := by
  rw [Bool.and_eq_true, h.isDir_iff hf, Bool.not_eq_true', ← Bool.not_eq_true, pfsDirEmpty_iff h.names,
    not_not]

/-- The data sectors stay under a new header. -/
theorem oneEntry_withHeader (h : DiskOk disk) (ho : OnlyEntry (diskHeader disk) header' i)
    (hi : i < pfsEntryCount) : OneEntry disk (withHeader disk header') i :=
  OnlyEntry.oneEntry_of_data (by rwa [diskHeader_withHeader]) hi h.names.fit h.alloc
    fun _ hx => sectors_withHeader hx

/-- **`mkdir` follows the tree.** -/
theorem abiMkdir_follows (h : DiskOk sys.disk) (hname : nameFor cwd path = some name) (t : ℕ → ℕ) :
    Follows sys (abiMkdir sys cwd path t) 0 (FileTree.mkdir (pfsMap sys.disk) name) := by
  have hv := validPfsPath_of_bind hname
  have hparent := pfsParentExists_iff_hasParent h.names hv
  rw [nameFor] at hname
  rw [abiMkdir, hname]
  dsimp only
  rw [h.header]
  dsimp only
  unfold FileTree.mkdir
  split_ifs with hp hm hfull
  · rw [← hparent] at hp
    obtain ⟨node, hnode⟩ := Option.ne_none_iff_exists'.mp hm
    obtain ⟨i, hf, -⟩ := h.find hnode
    rw [mkdirHeader, hp, hf]
    rfl
  · rw [← hparent] at hp
    rw [mkdirHeader, hp, h.find_none (not_not.mp hm), (pfsFreeEntry_eq_none_iff h.names).mpr hfull]
    rfl
  · rw [← hparent] at hp
    have hnone := h.find_none (not_not.mp hm)
    obtain ⟨i, hfree⟩ := Option.ne_none_iff_exists'.mp (mt (pfsFreeEntry_eq_none_iff h.names).mp hfull)
    obtain ⟨hi, hu⟩ := pfsFreeEntry_spec hfree
    have hlen := (length_of_validPfsPath hv).2
    obtain ⟨header', hheader⟩ : ∃ header', header' = pfsSetEntry (diskHeader sys.disk) i name 0
      pfsKindDir [] (t 0) pfsModeDefaultDir (t 1) := ⟨_, rfl⟩
    have honly : OnlyEntry (diskHeader sys.disk) header' i := hheader ▸ onlyEntry_pfsSetEntry _ hlen
    have hkind : pfsEntryKind header' i = pfsKindDir := by
      rw [hheader, pfsEntryKind_pfsSetEntry _ _ _ _ _ _ _ _ hi]
    have hdir : (entryView (withHeader sys.disk header') i).node = .dir := by
      rw [node_eq_dir, diskHeader_withHeader, pfsEntryIsDir]
      exact beq_iff_eq.mpr hkind
    have hused : pfsEntryUsed (diskHeader (withHeader sys.disk header')) i = true := by
      rw [diskHeader_withHeader, pfsEntryUsed]
      rw [pfsEntryKind] at hkind
      rw [hkind]
      rfl
    have hwrite : EntryWrite (diskHeader sys.disk) header' :=
      hheader ▸ .new hv hp hnone hfree (by decide)
    rw [mkdirHeader, hp, hnone, hfree]
    dsimp only
    rw [if_neg (by decide), if_neg (by decide), ← hheader]
    refine ⟨withHeader sys.disk header', replyHeader_of_ok h header',
      h.effect (entryEffect_withHeader hwrite).effect, ?_⟩
    rw [pfsMap_put h.names (oneEntry_withHeader h honly hi) (.inr ⟨hnone, hu⟩) hused, hdir]
    rw [diskHeader_withHeader, hheader, pfsEntryName_pfsSetEntry _ _ _ _ _ _ _ _ hi hlen]
  · rw [← hparent, Bool.not_eq_true] at hp
    rw [mkdirHeader, hp]
    rfl

/-- **`unlink` follows the tree.** -/
theorem abiUnlink_follows (h : DiskOk sys.disk) (hname : nameFor cwd path = some name) :
    Follows sys (abiUnlink sys cwd path) 0 (FileTree.unlink (pfsMap sys.disk) name) := by
  rw [nameFor] at hname
  rw [abiUnlink, hname]
  dsimp only
  rw [h.header]
  dsimp only
  unfold FileTree.unlink
  split_ifs with hm hocc
  · rw [pfsUnlinkHeader, h.find_none hm]
    rfl
  · obtain ⟨i, hf, -⟩ := h.find hocc.1
    rw [pfsUnlinkHeader, hf]
    dsimp only
    rw [if_pos ((h.occupied_iff hf).mpr hocc)]
    rfl
  · obtain ⟨node, hnode⟩ := Option.ne_none_iff_exists'.mp hm
    obtain ⟨i, hf, -⟩ := h.find hnode
    have hok : pfsUnlinkHeader (diskHeader sys.disk) name =
        .ok (pfsClearEntry (diskHeader sys.disk) i) := by
      rw [pfsUnlinkHeader, hf]
      dsimp only
      rw [if_neg (mt (h.occupied_iff hf).mp hocc)]
    rw [hok]
    refine ⟨_, replyHeader_of_ok h _, h.effect (entryEffect_withHeader (.unlink hok)).effect, ?_⟩
    refine pfsMap_clear h.names
      (oneEntry_withHeader h (onlyEntry_pfsClearEntry _) (pfsFindEntry_eq_some.mp hf).1) hf ?_
    rw [diskHeader_withHeader, pfsEntryUsed_pfsClearEntry]

/-- The kind, the size and the extents of an entry, and the sectors there, are all it holds. -/
theorem node_congr {disk disk' : Disk}
    (hd : pfsEntryIsDir (diskHeader disk') i = pfsEntryIsDir (diskHeader disk) i)
    (hs : pfsEntrySize (diskHeader disk') i = pfsEntrySize (diskHeader disk) i)
    (he : pfsEntryExtents (diskHeader disk') i = pfsEntryExtents (diskHeader disk) i)
    (hx : ∀ x, Covers (pfsEntryExtents (diskHeader disk) i) x → disk'.sectors x = disk.sectors x) :
    (entryView disk' i).node = (entryView disk i).node := by
  have hbytes : fileByte disk' i = fileByte disk i := by
    funext p
    rw [fileByte, fileByte, he]
    exact Blocks.byteAt_congr hx p
  unfold FileView.node entryView
  dsimp only
  rw [hd, diskSize, diskSize, hs, hbytes]

/-- A name that is not given to a header. -/
theorem abiRename_error {oldPath newPath oldName newName : List UInt8} (h : DiskOk sys.disk)
    (hold : nameFor cwd oldPath = some oldName) (hnew : nameFor cwd newPath = some newName)
    {t : ℕ → ℕ} {code : ℤ} (he : pfsRenameHeader (diskHeader sys.disk) oldName newName (t 0) = .error code) :
    abiRename sys cwd oldPath newPath t =
      (sys, .error (if code = -2 then errNoent else if code = -3 then errExist
        else if code = -4 then errNoent else errInval)) := by
  rw [nameFor] at hold hnew
  simp only [abiRename, hold, hnew, h.header, he]

/-- A name that is given to a header. -/
theorem abiRename_ok {oldPath newPath oldName newName : List UInt8} {header : Header} (h : DiskOk sys.disk)
    (hold : nameFor cwd oldPath = some oldName) (hnew : nameFor cwd newPath = some newName)
    {t : ℕ → ℕ} (he : pfsRenameHeader (diskHeader sys.disk) oldName newName (t 0) = .ok header) :
    abiRename sys cwd oldPath newPath t = replyHeader sys header := by
  rw [nameFor] at hold hnew
  simp only [abiRename, hold, hnew, h.header, he]

/-- **`rename` follows the tree.** -/
theorem abiRename_follows {oldPath newPath oldName newName : List UInt8} (h : DiskOk sys.disk)
    (hold : nameFor cwd oldPath = some oldName) (hnew : nameFor cwd newPath = some newName)
    (t : ℕ → ℕ) :
    Follows sys (abiRename sys cwd oldPath newPath t) 0
      (FileTree.rename (pfsMap sys.disk) oldName newName) := by
  have hv := validPfsPath_of_bind hold
  have hv' := validPfsPath_of_bind hnew
  have hparent := pfsParentExists_iff_hasParent h.names hv'
  have hvalid : (!validPfsPath oldName || !validPfsPath newName) = false := by rw [hv, hv']; rfl
  unfold FileTree.rename
  split_ifs with hm hm' hp hocc
  · have he : pfsRenameHeader (diskHeader sys.disk) oldName newName (t 0) = .error (-2) := by
      rw [pfsRenameHeader, hvalid, if_neg Bool.false_ne_true, h.find_none hm]
    rw [abiRename_error h hold hnew he]
    rfl
  all_goals
    obtain ⟨node, hnode⟩ := Option.ne_none_iff_exists'.mp hm
    obtain ⟨i, hf, -⟩ := h.find hnode
  · obtain ⟨node', hnode'⟩ := Option.ne_none_iff_exists'.mp hm'
    obtain ⟨j, hf', -⟩ := h.find hnode'
    have he : pfsRenameHeader (diskHeader sys.disk) oldName newName (t 0) = .error (-3) := by
      rw [pfsRenameHeader, hvalid, if_neg Bool.false_ne_true, hf]
      dsimp only
      rw [hf', if_pos (by rfl)]
    rw [abiRename_error h hold hnew he]
    rfl
  · rw [← hparent] at hp
    have he : pfsRenameHeader (diskHeader sys.disk) oldName newName (t 0) = .error (-5) := by
      rw [pfsRenameHeader, hvalid, if_neg Bool.false_ne_true, hf]
      dsimp only
      rw [h.find_none (not_not.mp hm'), if_neg (by decide), hp, if_neg (by decide),
        if_pos ((h.occupied_iff hf).mpr hocc)]
    rw [abiRename_error h hold hnew he]
    rfl
  · rw [← hparent] at hp
    have hnone := h.find_none (not_not.mp hm')
    obtain ⟨hi, hu, -⟩ := pfsFindEntry_eq_some.mp hf
    have hlen := (length_of_validPfsPath hv').2
    obtain ⟨header', hheader⟩ : ∃ header', header' = pfsSetEntry (diskHeader sys.disk) i newName
      (pfsEntrySize (diskHeader sys.disk) i) (pfsEntryKind (diskHeader sys.disk) i)
      (pfsEntryExtents (diskHeader sys.disk) i) (pfsEntryCreated (diskHeader sys.disk) i)
      (pfsEntryMode (diskHeader sys.disk) i) (t 0) := ⟨_, rfl⟩
    have honly : OnlyEntry (diskHeader sys.disk) header' i := hheader ▸ onlyEntry_pfsSetEntry _ hlen
    have hok : pfsRenameHeader (diskHeader sys.disk) oldName newName (t 0) = .ok header' := by
      rw [pfsRenameHeader, hvalid, if_neg Bool.false_ne_true, hf]
      dsimp only
      rw [hnone, if_neg (by decide), hp, if_neg (by decide), if_neg (mt (h.occupied_iff hf).mp hocc),
        hheader]
    have hkind : pfsEntryKind header' i = pfsEntryKind (diskHeader sys.disk) i := by
      rw [hheader, pfsEntryKind_pfsSetEntry _ _ _ _ _ _ _ _ hi]
    have hext : pfsEntryExtents header' i = pfsEntryExtents (diskHeader sys.disk) i := by
      rw [hheader, pfsEntryExtents_pfsSetEntry _ _ _ _ _ _ _ _ hi (length_pfsEntryExtents _ _)
        fun _ he => fits_of_read _ _ he]
    have hsize : pfsEntrySize header' i = pfsEntrySize (diskHeader sys.disk) i := by
      rw [hheader, pfsEntrySize_pfsSetEntry _ _ _ _ _ _ _ _ hi,
        Nat.mod_eq_of_lt (pfsEntrySize_lt _ _)]
    have hused : pfsEntryUsed (diskHeader (withHeader sys.disk header')) i = true := by
      rw [diskHeader_withHeader, (entry_of_kind hkind).1, hu]
    have hname : pfsEntryName (diskHeader (withHeader sys.disk header')) i = newName := by
      rw [diskHeader_withHeader, hheader, pfsEntryName_pfsSetEntry _ _ _ _ _ _ _ _ hi hlen]
    have hnode : (entryView (withHeader sys.disk header') i).node = (entryView sys.disk i).node := by
      have hdir : pfsEntryIsDir header' i = pfsEntryIsDir (diskHeader sys.disk) i :=
        congrArg (· == pfsKindDir) hkind
      cases hd : pfsEntryIsDir (diskHeader sys.disk) i with
      | true => rw [node_eq_dir.mpr hd, node_eq_dir, diskHeader_withHeader, hdir, hd]
      | false =>
        refine node_congr ?_ ?_ ?_ fun x hx => sectors_withHeader
          (h.alloc.inside hi (pfsEntryIsFile_iff.mpr ⟨hu, hd⟩) hx).1
        · rw [diskHeader_withHeader, hdir]
        · rw [diskHeader_withHeader, hsize]
        · rw [diskHeader_withHeader, hext]
    rw [abiRename_ok h hold hnew hok]
    refine ⟨withHeader sys.disk header', replyHeader_of_ok h _, ⟨h.reliable, ?_, ?_⟩,
      pfsMap_rekey h.names (oneEntry_withHeader h honly hi) hf hnone hused hname hnode⟩
    · rw [diskHeader_withHeader]
      obtain ⟨j, hw⟩ := nameWrite_rename hok
      exact h.names.write hw
    · rw [diskHeader_withHeader]
      exact h.alloc.renameHeader hok
  · rw [← hparent, Bool.not_eq_true] at hp
    have he : pfsRenameHeader (diskHeader sys.disk) oldName newName (t 0) = .error (-4) := by
      rw [pfsRenameHeader, hvalid, if_neg Bool.false_ne_true, hf]
      dsimp only
      rw [h.find_none (not_not.mp hm'), if_neg (by decide), hp, if_pos (by rfl)]
    rw [abiRename_error h hold hnew he]
    rfl

end Calls

end Rymos
