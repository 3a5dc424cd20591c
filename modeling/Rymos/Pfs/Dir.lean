import Mathlib.Tactic
import Rymos.Base.Forest
import Rymos.Pfs.Path

/-!
# Directory operations on a header

Directories exist only as full paths in the table of entries.

* `pfsFindEntry`, `pfsParentExists`, `pfsDirEmpty`, `pfsFreeEntry`: the scans of the table.
* `mkdirHeader`, `openEntry`, `truncateHeader`, `pfsUnlinkHeader`, `pfsRenameHeader`: what the
  operations do to the header they have read.
* `pfsTable`, `TreeInv`: the header as a table of paths; the directory-tree invariant.
* **`TreeInv.mkdir`**, **`TreeInv.create`**, **`TreeInv.truncate`**, **`TreeInv.unlink`**,
  **`TreeInv.rename`**: the operations keep it, a rename under a condition on its names;
  **`RenamesBelow.not_treeInv`**: without it a rename breaks it.
-/

namespace Rymos

open ByteBuf Extents Forest

abbrev errInval : ℕ := 22
abbrev errNoent : ℕ := 2
abbrev errNospc : ℕ := 28
abbrev errIsdir : ℕ := 21
abbrev errExist : ℕ := 17
abbrev errIo : ℕ := 5

abbrev fdRead : UInt32 := 1
abbrev fdWrite : UInt32 := 2
abbrev fdCreate : UInt32 := 4
abbrev fdTruncate : UInt32 := 8
abbrev fdAppend : UInt32 := 16
abbrev fdCreateNew : UInt32 := 32

/-- `flags & flag != 0`. -/
def hasFlag (flags flag : UInt32) : Bool := flags &&& flag != 0

/-! ## Scans -/

def pfsFindEntry (header : Header) (name : List UInt8) : Option ℕ :=
  (List.range pfsEntryCount).find? fun index =>
    pfsEntryUsed header index && pfsEntryName header index == name

def pfsParentExists (header : Header) (name : List UInt8) : Bool :=
  match findLastByte name slash with
  | none => true
  | some at_ =>
    if at_ == 0 || at_ + 1 ≥ name.length then false
    else
      match pfsFindEntry header (name.take at_) with
      | none => false
      | some index => pfsEntryIsDir header index

def pfsDirEmpty (header : Header) (dir : List UInt8) : Bool :=
  (List.range pfsEntryCount).all fun index =>
    if !pfsEntryUsed header index then true
    else
      let name := pfsEntryName header index
      !(name.length > dir.length && startsWith name dir && name.getD dir.length 0 == slash)

def pfsFreeEntry (header : Header) : Option ℕ :=
  (List.range pfsEntryCount).find? fun index => !pfsEntryUsed header index

/-! ## Operations

`t` gives the readings of `ns_since_boot` in the order the operation makes them. -/

/-- The header part of `abi_mkdir`; errors are `ERR_` codes. -/
def mkdirHeader (header : Header) (name : List UInt8) (t : ℕ → ℕ) : Except ℕ Header :=
  if !pfsParentExists header name then .error errNoent
  else if (pfsFindEntry header name).isSome then .error errExist
  else
    match pfsFreeEntry header with
    | none => .error errNospc
    | some index =>
      .ok (pfsSetEntry header index name 0 pfsKindDir [] (t 0) pfsModeDefaultDir (t 1))

/-- The entry `abi_open_pfs` opens, and the header it writes if it has to create that entry. -/
def openEntry (header : Header) (name : List UInt8) (flags : UInt32) (t : ℕ → ℕ) :
    Except ℕ (ℕ × Option Header) :=
  match pfsFindEntry header name with
  | some index =>
    if pfsEntryIsDir header index then .error errIsdir
    else if hasFlag flags fdCreateNew then .error errExist
    else .ok (index, none)
  | none =>
    if hasFlag flags fdCreate then
      match pfsFreeEntry header with
      | none => .error errNospc
      | some index => .ok (index,
          some (pfsSetEntry header index name 0 pfsKindFile [] (t 0) pfsModeDefaultFile (t 1)))
    else .error errNoent

/-- The header written under `FD_TRUNCATE`. -/
def truncateHeader (header : Header) (index : ℕ) (name : List UInt8) (now : ℕ) : Header :=
  pfsSetEntry header index name 0 pfsKindFile [] (pfsEntryCreated header index)
    (pfsEntryMode header index) now

def pfsUnlinkHeader (header : Header) (name : List UInt8) : Except ℤ Header :=
  match pfsFindEntry header name with
  | none => .error (-1)
  | some index =>
    if pfsEntryIsDir header index && !pfsDirEmpty header name then .error (-2)
    else .ok (pfsClearEntry header index)

def pfsRenameHeader (header : Header) (oldName newName : List UInt8) (now : ℕ) :
    Except ℤ Header :=
  if !validPfsPath oldName || !validPfsPath newName then .error (-1)
  else
    match pfsFindEntry header oldName with
    | none => .error (-2)
    | some index =>
      if (pfsFindEntry header newName).isSome then .error (-3)
      else if !pfsParentExists header newName then .error (-4)
      else if pfsEntryIsDir header index && !pfsDirEmpty header oldName then .error (-5)
      else
        .ok (pfsSetEntry header index newName (pfsEntrySize header index)
          (pfsEntryKind header index) (pfsEntryExtents header index)
          (pfsEntryCreated header index) (pfsEntryMode header index) now)

/-! ## What the scans find -/

section Scans

variable {header : Header} {name dir : List UInt8} {i : ℕ}

/-- The first used entry with that name. -/
theorem pfsFindEntry_eq_some : pfsFindEntry header name = some i ↔
    i < pfsEntryCount ∧ pfsEntryUsed header i = true ∧ pfsEntryName header i = name ∧
      ∀ j < i, pfsEntryUsed header j = true → pfsEntryName header j ≠ name := by
  rw [pfsFindEntry, List.find?_range_eq_some]
  simp only [Bool.and_eq_true, beq_iff_eq, List.mem_range, Bool.not_eq_true', Bool.and_eq_false_imp,
    beq_eq_false_iff_ne]
  tauto

theorem pfsFindEntry_eq_none : pfsFindEntry header name = none ↔
    ∀ j < pfsEntryCount, pfsEntryUsed header j = true → pfsEntryName header j ≠ name := by
  rw [pfsFindEntry, List.find?_eq_none]
  simp only [List.mem_range, Bool.and_eq_true, beq_iff_eq, not_and]

theorem pfsFreeEntry_spec (h : pfsFreeEntry header = some i) :
    i < pfsEntryCount ∧ pfsEntryUsed header i = false := by
  rw [pfsFreeEntry, List.find?_range_eq_some] at h
  exact ⟨List.mem_range.mp h.2.1, by simpa using h.1⟩

theorem pfsParentExists_spec (h : pfsParentExists header name = true) (hp : pfsParent name = some dir) :
    ∃ j < pfsEntryCount, pfsEntryUsed header j = true ∧ pfsEntryName header j = dir ∧
      pfsEntryIsDir header j = true := by
  obtain ⟨k, hk, rfl⟩ := Option.map_eq_some_iff.mp hp
  simp only [pfsParentExists, hk] at h
  split_ifs at h
  cases hf : pfsFindEntry header (name.take k) with
  | none => rw [hf] at h; cases h
  | some j =>
    rw [hf] at h
    obtain ⟨hj, hu, hn, -⟩ := pfsFindEntry_eq_some.mp hf
    exact ⟨j, hj, hu, hn, h⟩

theorem pfsDirEmpty_spec (h : pfsDirEmpty header dir = true) {j : ℕ} (hj : j < pfsEntryCount)
    (hu : pfsEntryUsed header j = true) : pfsParent (pfsEntryName header j) ≠ some dir := by
  intro hp
  obtain ⟨hlen, hs, hb⟩ := pfsParent_spec hp
  have := List.all_eq_true.mp h j (List.mem_range.mpr hj)
  dsimp only at this
  rw [hu, hs, hb] at this
  simp [hlen] at this

end Scans

/-! ## The table of paths -/

/-- The used entries as a table of names. -/
def pfsTable (header : Header) : Table (Fin pfsEntryCount) (List UInt8) := fun i =>
  if pfsEntryUsed header i then some (pfsEntryName header i, pfsEntryIsDir header i) else none

/-- **The directory-tree invariant**: distinct valid names, and every name with a `/` has its parent
among the directories. -/
def TreeInv (header : Header) : Prop :=
  WF (fun name => validPfsPath name = true) pfsParent (pfsTable header)

section Tree

variable {header header' : Header} {name dir : List UInt8} {i : ℕ}

theorem pfsTable_eq_some {i : Fin pfsEntryCount} {b : Bool} : pfsTable header i = some (name, b) ↔
    pfsEntryUsed header i = true ∧ pfsEntryName header i = name ∧ pfsEntryIsDir header i = b := by
  unfold pfsTable
  split_ifs with h
  · simp [h]
  · simp [h]

theorem length_pfsEntryName (header : Header) (i : ℕ) : (pfsEntryName header i).length =
    (header.byte (pfsEntryOffset i + 1)).toNat := by simp [pfsEntryName]

/-- The names of the used entries fit their fields. -/
def NamesFit (header : Header) : Prop :=
  ∀ j < pfsEntryCount, pfsEntryUsed header j = true →
    (header.byte (pfsEntryOffset j + 1)).toNat ≤ 96

theorem TreeInv.namesFit (h : TreeInv header) : NamesFit header := by
  intro j hj hu
  have hv := h.valid (i := ⟨j, hj⟩) (pfsTable_eq_some.mpr ⟨hu, rfl, rfl⟩)
  rw [← length_pfsEntryName]
  exact (length_of_validPfsPath hv).2

theorem NamesFit.onlyEntry (hn : NamesFit header) (ho : OnlyEntry header header' i)
    (hi : pfsEntryUsed header' i = true → (pfsEntryName header' i).length ≤ 96) :
    NamesFit header' := by
  intro j hj hu
  by_cases hji : j = i
  · subst hji
    rw [← length_pfsEntryName]
    exact hi hu
  · have hb := ho.other hji
    rw [hb.used] at hu
    rw [hb.nameLen]
    exact hn j hj hu

/-- A write that keeps the name of its entry finds what was found before. -/
theorem pfsFindEntry_keep (ho : OnlyEntry header header' i) (hn : NamesFit header)
    (hu : pfsEntryUsed header' i = pfsEntryUsed header i)
    (hnm : pfsEntryName header' i = pfsEntryName header i) (name : List UInt8) :
    pfsFindEntry header' name = pfsFindEntry header name := by
  unfold pfsFindEntry
  refine List.find?_congr fun j hj => ?_
  have hj := List.mem_range.mp hj
  by_cases hji : j = i
  · rw [hji, hu, hnm]
  · have hb := ho.other hji
    rw [hb.used]
    cases hused : pfsEntryUsed header j with
    | false => rfl
    | true => rw [hb.name (hn j hj hused)]

/-- A write of one entry changes one slot of the table. -/
theorem pfsTable_onlyEntry (h : OnlyEntry header header' i) (hn : NamesFit header)
    (hi : i < pfsEntryCount) :
    pfsTable header' = Function.update (pfsTable header) ⟨i, hi⟩ (pfsTable header' ⟨i, hi⟩) := by
  funext j
  by_cases hj : j = ⟨i, hi⟩
  · rw [hj, Function.update_self]
  · rw [Function.update_of_ne hj]
    have hb := h.other (j := j) fun e => hj (Fin.ext e)
    unfold pfsTable
    rw [hb.used]
    split_ifs with hu
    · rw [hb.name (hn j j.2 hu), hb.isDir]
    · rfl

/-- A write that keeps the name and the kind of its entry keeps the tree. -/
theorem TreeInv.keep (h : TreeInv header) (ho : OnlyEntry header header' i)
    (hi : i < pfsEntryCount) (hu : pfsEntryUsed header' i = pfsEntryUsed header i)
    (hn : pfsEntryName header' i = pfsEntryName header i)
    (hd : pfsEntryIsDir header' i = pfsEntryIsDir header i) : TreeInv header' := by
  have : pfsTable header' = pfsTable header := by
    rw [pfsTable_onlyEntry ho h.namesFit hi,
      show pfsTable header' ⟨i, hi⟩ = pfsTable header ⟨i, hi⟩ by simp only [pfsTable, hu, hn, hd],
      Function.update_eq_self]
  rw [TreeInv, this]
  exact h

theorem pfsTable_pfsSetEntry {size : ℕ} {kind : UInt8} {extents : List PfsExtent} {created : ℕ}
    {mode : UInt8} {now : ℕ} (hf : NamesFit header) (hi : i < pfsEntryCount) (hn : name.length ≤ 96)
    (hk : kind ≠ 0) :
    pfsTable (pfsSetEntry header i name size kind extents created mode now) =
      Function.update (pfsTable header) ⟨i, hi⟩ (some (name, kind == pfsKindDir)) := by
  rw [pfsTable_onlyEntry (onlyEntry_pfsSetEntry header hn) hf hi]
  congr 1
  have hkind := pfsEntryKind_pfsSetEntry header name size kind extents created mode now hi
  rw [pfsTable_eq_some]
  rw [pfsEntryKind] at hkind
  exact ⟨by rw [pfsEntryUsed, hkind]; simpa using hk,
    pfsEntryName_pfsSetEntry header name size kind extents created mode now hi hn,
    by rw [pfsEntryIsDir, hkind]⟩

theorem pfsTable_pfsClearEntry (hf : NamesFit header) (hi : i < pfsEntryCount) :
    pfsTable (pfsClearEntry header i) = Function.update (pfsTable header) ⟨i, hi⟩ none := by
  rw [pfsTable_onlyEntry (onlyEntry_pfsClearEntry header) hf hi]
  simp only [pfsTable, pfsEntryUsed_pfsClearEntry, Bool.false_eq_true, if_false]

theorem pfsTable_ne_of_find (h : pfsFindEntry header name = none) (j : Fin pfsEntryCount) (c : Bool) :
    pfsTable header j ≠ some (name, c) := fun hj =>
  pfsFindEntry_eq_none.mp h j j.2 (pfsTable_eq_some.mp hj).1 (pfsTable_eq_some.mp hj).2.1

theorem pfsTable_parent (h : pfsParentExists header name = true) (hp : pfsParent name = some dir) :
    ∃ j, pfsTable header j = some (dir, true) := by
  obtain ⟨j, hj, hu, hn, hd⟩ := pfsParentExists_spec h hp
  exact ⟨⟨j, hj⟩, pfsTable_eq_some.mpr ⟨hu, hn, hd⟩⟩

/-- A directory passes the emptiness check only without children; a file has none. -/
theorem no_children (hd : ¬ (pfsEntryIsDir header i && !pfsDirEmpty header name) = true)
    (hb : pfsEntryIsDir header i = true) (j : Fin pfsEntryCount) (m : List UInt8) (c : Bool)
    (hj : pfsTable header j = some (m, c)) : pfsParent m ≠ some name := by
  have he : pfsDirEmpty header name = true := by simpa [hb] using hd
  obtain ⟨hu, rfl, -⟩ := pfsTable_eq_some.mp hj
  exact pfsDirEmpty_spec he j.2 hu

/-- A new entry at a free index. -/
theorem TreeInv.newEntry (h : TreeInv header) {kind : UInt8} {mode : UInt8} {created now : ℕ}
    (hv : validPfsPath name = true) (hp : pfsParentExists header name = true)
    (hf : pfsFindEntry header name = none) (hi : pfsFreeEntry header = some i) (hk : kind ≠ 0) :
    TreeInv (pfsSetEntry header i name 0 kind [] created mode now) := by
  obtain ⟨hlt, hu⟩ := pfsFreeEntry_spec hi
  rw [TreeInv, pfsTable_pfsSetEntry h.namesFit hlt (length_of_validPfsPath hv).2 hk]
  exact WF.create h (by simp [pfsTable, hu]) hv (pfsTable_ne_of_find hf)
    fun d hd => pfsTable_parent hp hd

/-- **`mkdir` keeps the tree.** -/
theorem TreeInv.mkdir (h : TreeInv header) {t : ℕ → ℕ} (hv : validPfsPath name = true)
    (he : mkdirHeader header name t = .ok header') : TreeInv header' := by
  simp only [mkdirHeader] at he
  split_ifs at he with hp hf
  cases hi : pfsFreeEntry header with
  | none => rw [hi] at he; cases he
  | some i =>
    rw [hi] at he
    cases he
    exact h.newEntry hv (by simpa using hp) (by simpa using hf) hi (by decide)

/-- **Opening with `FD_CREATE` keeps the tree.** -/
theorem TreeInv.create (h : TreeInv header) {t : ℕ → ℕ} {flags : UInt32}
    (hv : validPfsPath name = true) (hp : pfsParentExists header name = true)
    (he : openEntry header name flags t = .ok (i, some header')) : TreeInv header' := by
  simp only [openEntry] at he
  cases hf : pfsFindEntry header name with
  | some j =>
    rw [hf] at he
    simp only at he
    split_ifs at he
    cases he
  | none =>
    rw [hf] at he
    simp only at he
    split_ifs at he
    cases hi : pfsFreeEntry header with
    | none => rw [hi] at he; cases he
    | some j =>
      rw [hi] at he
      cases he
      exact h.newEntry hv hp hf hi (by decide)

/-- **Truncating a file keeps the tree.** -/
theorem TreeInv.truncate (h : TreeInv header) {now : ℕ} (hi : i < pfsEntryCount)
    (hu : pfsEntryUsed header i = true) (hn : pfsEntryName header i = name)
    (hd : pfsEntryIsDir header i = false) : TreeInv (truncateHeader header i name now) := by
  have hl : name.length ≤ 96 := by rw [← hn, length_pfsEntryName]; exact h.namesFit i hi hu
  have hkind := pfsEntryKind_pfsSetEntry header name 0 pfsKindFile []
    (pfsEntryCreated header i) (pfsEntryMode header i) now hi
  rw [pfsEntryKind] at hkind
  rw [truncateHeader]
  refine h.keep (onlyEntry_pfsSetEntry header hl) hi ?_ ?_ ?_
  · rw [hu, pfsEntryUsed, hkind]
    rfl
  · rw [hn]
    exact pfsEntryName_pfsSetEntry header name 0 _ _ _ _ _ hi hl
  · rw [hd, pfsEntryIsDir, hkind]
    rfl

/-- **`unlink` keeps the tree.** -/
theorem TreeInv.unlink (h : TreeInv header) (he : pfsUnlinkHeader header name = .ok header') :
    TreeInv header' := by
  simp only [pfsUnlinkHeader] at he
  cases hf : pfsFindEntry header name with
  | none => rw [hf] at he; cases he
  | some i =>
    rw [hf] at he
    simp only at he
    split_ifs at he with hd
    cases he
    obtain ⟨hi, hu, hn, -⟩ := pfsFindEntry_eq_some.mp hf
    rw [TreeInv, pfsTable_pfsClearEntry h.namesFit hi]
    exact WF.remove h (pfsTable_eq_some.mpr ⟨hu, hn, rfl⟩) (no_children hd)

/-- The rename takes an empty directory to a free name right below itself. -/
def RenamesBelow (header : Header) (oldName newName : List UInt8) : Prop :=
  pfsParent newName = some oldName ∧ pfsFindEntry header newName = none ∧
    pfsDirEmpty header oldName = true ∧
      ∃ i, pfsFindEntry header oldName = some i ∧ pfsEntryIsDir header i = true

/-- A successful rename writes its entry again under the new name. -/
theorem pfsRenameHeader_eq_ok {oldName newName : List UInt8} {now : ℕ}
    (he : pfsRenameHeader header oldName newName now = .ok header') :
    validPfsPath newName = true ∧ pfsFindEntry header newName = none ∧
    pfsParentExists header newName = true ∧ ∃ i, pfsFindEntry header oldName = some i ∧
      ¬ (pfsEntryIsDir header i && !pfsDirEmpty header oldName) = true ∧
      header' = pfsSetEntry header i newName (pfsEntrySize header i) (pfsEntryKind header i)
        (pfsEntryExtents header i) (pfsEntryCreated header i) (pfsEntryMode header i) now := by
  cases hf : pfsFindEntry header oldName with
  | none =>
    simp only [pfsRenameHeader, hf] at he
    split_ifs at he
  | some i =>
    simp only [pfsRenameHeader, hf] at he
    split_ifs at he with hv hm hp hd
    cases he
    rw [Bool.or_eq_true, not_or, Bool.not_eq_true, Bool.not_eq_true, Bool.not_eq_false',
      Bool.not_eq_false'] at hv
    exact ⟨hv.2, by simpa using hm, by simpa using hp, i, rfl, hd, rfl⟩

/-- **A rename keeps the tree unless it takes a directory right below itself.** -/
theorem TreeInv.rename (h : TreeInv header) {oldName newName : List UInt8} {now : ℕ}
    (hne : ¬ RenamesBelow header oldName newName)
    (he : pfsRenameHeader header oldName newName now = .ok header') : TreeInv header' := by
  obtain ⟨hv, hm, hp, i, hf, hd, rfl⟩ := pfsRenameHeader_eq_ok he
  obtain ⟨hi, hu, hn, -⟩ := pfsFindEntry_eq_some.mp hf
  have hk : pfsEntryKind header i ≠ 0 := by simpa [pfsEntryUsed, pfsEntryKind] using hu
  have hold : pfsTable header ⟨i, hi⟩ = some (oldName, pfsEntryIsDir header i) :=
    pfsTable_eq_some.mpr ⟨hu, hn, rfl⟩
  rw [TreeInv, pfsTable_pfsSetEntry h.namesFit hi (length_of_validPfsPath hv).2 hk]
  refine WF.rename h hold hv (pfsTable_ne_of_find hm) (fun d hd => pfsTable_parent hp hd)
    (no_children hd) fun hpar => hne ?_
  -- the parent of the new name is a directory, and the old name has one entry
  obtain ⟨j, hj⟩ := pfsTable_parent hp hpar
  obtain rfl := h.distinct hj hold
  have hdir : pfsEntryIsDir header i = true := (pfsTable_eq_some.mp hj).2.2
  exact ⟨hpar, hm, by simpa [hdir] using hd, i, hf, hdir⟩

/-- **A rename of a directory right below itself goes through and leaves it without a parent.** -/
theorem RenamesBelow.not_treeInv (h : TreeInv header) {oldName newName : List UInt8} {now : ℕ}
    (hb : RenamesBelow header oldName newName)
    (he : pfsRenameHeader header oldName newName now = .ok header') : ¬ TreeInv header' := by
  obtain ⟨hv, -, -, i, hf, -, rfl⟩ := pfsRenameHeader_eq_ok he
  obtain ⟨hi, hu, hn, -⟩ := pfsFindEntry_eq_some.mp hf
  have hk : pfsEntryKind header i ≠ 0 := by simpa [pfsEntryUsed, pfsEntryKind] using hu
  have hold : pfsTable header ⟨i, hi⟩ = some (oldName, pfsEntryIsDir header i) :=
    pfsTable_eq_some.mpr ⟨hu, hn, rfl⟩
  have hne : newName ≠ oldName := by
    rintro rfl
    exact lt_irrefl _ (pfsParent_spec hb.1).1
  intro ht
  rw [TreeInv, pfsTable_pfsSetEntry h.namesFit hi (length_of_validPfsPath hv).2 hk] at ht
  have hdir : (pfsEntryKind header i == pfsKindDir) = pfsEntryIsDir header i := rfl
  rw [hdir] at ht
  exact not_wf_rename_below h hold hb.1 hne ht

end Tree

end Rymos
