import Mathlib.Tactic
import Rymos.Pfs.AllocInv
import Rymos.Pfs.Disk

/-!
# The codec of an entry

* `EntryDecodes`, `entryDecodes_pfsSetEntry`: what every accessor returns after `pfs_set_entry`.
* `pfsRenameHeaderIn`: `pfs_rename_header` on the header it changes. `Renamed`: all that a rename changes.
* **`entryCodec_law`**.
-/

namespace Rymos

open ByteBuf Extents

/-- The accessors return the values given; the sum of the lengths is one of 32 bits. -/
structure EntryDecodes (header : Header) (index : ℕ) (name : List UInt8) (size : ℕ) (kind : UInt8)
    (extents : List PfsExtent) (created : ℕ) (mode : UInt8) : Prop where
  kind_eq : pfsEntryKind header index = kind
  name_eq : pfsEntryName header index = name
  size_eq : pfsEntrySize header index = size
  count_eq : pfsEntryExtentCount header index = extents.length
  extent_eq : ∀ slot (h : slot < extents.length), pfsEntryExtent header index slot = extents[slot]
  total_eq : pfsEntryTotalSectors header index = total extents % 2 ^ 32
  created_eq : pfsEntryCreated header index = created
  mode_eq : pfsEntryMode header index = mode

theorem foldl_u32 (extents : List PfsExtent) (n : ℕ) :
    extents.foldl (fun total extent => u32 (total + extent.sectors)) (u32 n) =
      (n + total extents) % 2 ^ 32 := by
  induction extents generalizing n with
  | nil => rfl
  | cons e es ih =>
    have hstep : u32 (u32 n + e.sectors) = u32 (n + e.sectors) := by
      simp only [u32]
      omega
    rw [List.foldl_cons, hstep, ih, total_cons, Nat.add_assoc]

section Codec

variable {header : Header} {index : ℕ} {name : List UInt8} {size : ℕ} {kind : UInt8}
  {extents : List PfsExtent} {created : ℕ} {mode : UInt8} {now : ℕ}

/-- **What was written is read back** by each accessor. -/
theorem entryDecodes_pfsSetEntry (hi : index < pfsEntryCount) (hn : name.length ≤ 96) (hs : size < 2 ^ 32)
    (hl : extents.length ≤ 4) (hf : ∀ e ∈ extents, Fits e) (hc : created < 2 ^ 64) :
    EntryDecodes (pfsSetEntry header index name size kind extents created mode now) index name size kind
      extents created mode where
  kind_eq := pfsEntryKind_pfsSetEntry _ _ _ _ _ _ _ _ hi
  name_eq := pfsEntryName_pfsSetEntry _ _ _ _ _ _ _ _ hi hn
  size_eq := by rw [pfsEntrySize_pfsSetEntry _ _ _ _ _ _ _ _ hi, Nat.mod_eq_of_lt hs]
  count_eq := by rw [pfsEntryExtentCount_pfsSetEntry _ _ _ _ _ _ _ _ hi, min_eq_left hl]
  extent_eq slot h :=
    pfsEntryExtent_pfsSetEntry _ _ _ _ _ _ _ _ hi hl h (hf _ (List.getElem_mem h))
  total_eq := by
    rw [pfsEntryTotalSectors, pfsEntryExtents_pfsSetEntry _ _ _ _ _ _ _ _ hi hl hf]
    have := foldl_u32 extents 0
    rwa [Nat.zero_add] at this
  created_eq := by rw [pfsEntryCreated_pfsSetEntry _ _ _ _ _ _ _ _ hi, Nat.mod_eq_of_lt hc]
  mode_eq := pfsEntryMode_pfsSetEntry _ _ _ _ _ _ _ _ hi

theorem readLe32_lt (bytes : List UInt8) : readLe32FromSlice bytes < 2 ^ 32 := by
  have hlt := leValue_lt (bytes.take 4)
  have hlen : (bytes.take 4).length ≤ 4 := List.length_take_le _ _
  exact hlt.trans_le ((Nat.pow_le_pow_right (n := 256) (by decide) hlen).trans (by norm_num))

/-- The fields of an extent that is read have 32 bits. -/
theorem fits_of_read (header : Header) (index : ℕ) {e : PfsExtent} (he : e ∈ pfsEntryExtents header index) :
    Fits e := by
  obtain ⟨slot, -, rfl⟩ := List.mem_map.mp he
  exact ⟨readLe32_lt _, readLe32_lt _⟩

end Codec

/-! ## Renaming -/

/-- `pfs_rename_header`: the header it leaves, and its result. -/
def pfsRenameHeaderIn (header : Header) (oldName newName : List UInt8) (now : ℕ) :
    Header × Except ℤ Unit :=
  if !validPfsPath oldName || !validPfsPath newName then (header, .error (-1))
  else
    match pfsFindEntry header oldName with
    | none => (header, .error (-2))
    | some index =>
      if (pfsFindEntry header newName).isSome then (header, .error (-3))
      else if !pfsParentExists header newName then (header, .error (-4))
      else if pfsEntryIsDir header index && !pfsDirEmpty header oldName then (header, .error (-5))
      else
        (pfsSetEntry header index newName (pfsEntrySize header index)
          (pfsEntryKind header index) (pfsEntryExtents header index)
          (pfsEntryCreated header index) (pfsEntryMode header index) now, .ok ())

section Rename

variable {header header' : Header} {oldName newName : List UInt8} {now i : ℕ}

theorem pfsRenameHeaderIn_eq (header : Header) (oldName newName : List UInt8) (now : ℕ) :
    pfsRenameHeaderIn header oldName newName now =
      match pfsRenameHeader header oldName newName now with
      | .ok header' => (header', .ok ())
      | .error code => (header, .error code) := by
  unfold pfsRenameHeaderIn pfsRenameHeader
  by_cases hv : (!validPfsPath oldName || !validPfsPath newName) = true
  · rw [if_pos hv, if_pos hv]
  · rw [if_neg hv, if_neg hv]
    cases pfsFindEntry header oldName with
    | none => rfl
    | some index =>
      dsimp only
      split_ifs <;> rfl

/-- The name and the modification time of entry `i` are new, and nothing else; the new name leads to the
entry, and each of its sectors is where it was. -/
structure Renamed (header header' : Header) (i : ℕ) (newName : List UInt8) (now : ℕ) : Prop where
  only : OnlyEntry header header' i
  entry : pfsEntry header' i = { pfsEntry header i with name := newName, modified := now % 2 ^ 64 }
  find : pfsFindEntry header' newName = some i
  lba : ∀ k, pfsEntryLbaForSector header' i k = pfsEntryLbaForSector header i k

/-- A name that was not there is found where it is written. -/
theorem pfsFindEntry_written (ho : OnlyEntry header header' i) (hn : NamesFit header)
    (hnone : pfsFindEntry header newName = none) (hi : i < pfsEntryCount)
    (hu : pfsEntryUsed header' i = true) (hname : pfsEntryName header' i = newName) :
    pfsFindEntry header' newName = some i := by
  refine pfsFindEntry_eq_some.mpr ⟨hi, hu, hname, fun j hj hused => ?_⟩
  have hb := ho.other (show j ≠ i by omega)
  rw [hb.used] at hused
  rw [hb.name (hn j (by omega) hused)]
  exact pfsFindEntry_eq_none.mp hnone j (by omega) hused

/-- **A rename that succeeds** changes nothing else. -/
theorem renamed_of_ok (hn : NamesFit header)
    (he : pfsRenameHeader header oldName newName now = .ok header') :
    ∃ i, pfsFindEntry header oldName = some i ∧ Renamed header header' i newName now := by
  obtain ⟨hv, hnone, -, i, hf, -, heq⟩ := pfsRenameHeader_eq_ok he
  obtain ⟨hi, hu, -, -⟩ := pfsFindEntry_eq_some.mp hf
  have hlen := (length_of_validPfsPath hv).2
  have ho : OnlyEntry header (pfsSetEntry header i newName (pfsEntrySize header i) (pfsEntryKind header i)
      (pfsEntryExtents header i) (pfsEntryCreated header i) (pfsEntryMode header i) now) i :=
    onlyEntry_pfsSetEntry header hlen
  have hentry := pfsEntry_pfsSetEntry header newName (pfsEntrySize header i) (pfsEntryKind header i)
    (pfsEntryExtents header i) (pfsEntryCreated header i) (pfsEntryMode header i) now hi hlen
    (length_pfsEntryExtents header i) fun e he => fits_of_read header i he
  rw [Nat.mod_eq_of_lt (pfsEntrySize_lt header i), Nat.mod_eq_of_lt (pfsEntryCreated_lt header i)] at hentry
  rw [← heq] at ho hentry
  have hkind : pfsEntryKind header' i = pfsEntryKind header i := congrArg PfsEntry.kind hentry
  have hext : pfsEntryExtents header' i = pfsEntryExtents header i := congrArg PfsEntry.extents hentry
  refine ⟨i, hf, ho, hentry, pfsFindEntry_written ho hn hnone hi ?_ (congrArg PfsEntry.name hentry),
    fun k => by rw [pfsEntryLbaForSector, pfsEntryLbaForSector, hext]⟩
  rw [pfsEntryKind, pfsEntryKind] at hkind
  rw [pfsEntryUsed, hkind]
  exact hu

end Rename

/-- **The codec and the rename keep the data.** -/
theorem entryCodec_law :
    (∀ (header : Header) (index : ℕ) (name : List UInt8) (size : ℕ) (kind : UInt8)
      (extents : List PfsExtent) (created : ℕ) (mode : UInt8) (now : ℕ), index < pfsEntryCount →
      name.length ≤ 96 → size < 2 ^ 32 → extents.length ≤ 4 → (∀ e ∈ extents, Fits e) →
      created < 2 ^ 64 →
      EntryDecodes (pfsSetEntry header index name size kind extents created mode now) index name size kind
        extents created mode ∧
      OnlyEntry header (pfsSetEntry header index name size kind extents created mode now) index) ∧
    ∀ (header header' : Header) (oldName newName : List UInt8) (now : ℕ) (r : Except ℤ Unit),
      TreeInv header → pfsRenameHeaderIn header oldName newName now = (header', r) →
      match r with
      | .ok () => ∃ i, pfsFindEntry header oldName = some i ∧ Renamed header header' i newName now
      | .error _ => header' = header := by
  refine ⟨fun header index name size kind extents created mode now hi hn hs hl hf hc =>
    ⟨entryDecodes_pfsSetEntry hi hn hs hl hf hc, onlyEntry_pfsSetEntry header hn⟩,
    fun header header' oldName newName now r ht he => ?_⟩
  rw [pfsRenameHeaderIn_eq] at he
  cases hr : pfsRenameHeader header oldName newName now with
  | ok h =>
    rw [hr] at he
    cases he
    exact renamed_of_ok ht.namesFit hr
  | error code =>
    rw [hr] at he
    cases he
    rfl

/-- A header with the directory `a`. -/
def oneDirHeader : Header := pfsSetEntry emptyHeader 0 [97] 0 pfsKindDir [] 1 pfsModeDefaultDir 2

theorem treeInv_oneDirHeader : TreeInv oneDirHeader :=
  treeInv_emptyHeader.newEntry (by decide) (by decide)
    (pfsFindEntry_eq_none.mpr fun j _ hu => by rw [pfsEntryUsed_emptyHeader] at hu; cases hu)
    (by decide +kernel) (by decide)

/-- `a` becomes `b`. -/
theorem entryCodec_law_oneDir : EntryDecodes (pfsSetEntry emptyHeader 255 [97] 5 pfsKindFile [⟨77, 1⟩] 3 3 4)
      255 [97] 5 pfsKindFile [⟨77, 1⟩] 3 3 ∧
    ∃ header' i, pfsFindEntry oneDirHeader [97] = some i ∧ Renamed oneDirHeader header' i [98] 5 := by
  refine ⟨(entryCodec_law.1 emptyHeader 255 [97] 5 pfsKindFile [⟨77, 1⟩] 3 3 4 (by decide) (by decide)
    (by decide) (by decide) (by simp [Fits]) (by decide)).1, ?_⟩
  have hok : (pfsRenameHeader oneDirHeader [97] [98] 5).toOption.isSome = true := by decide +kernel
  cases h : pfsRenameHeader oneDirHeader [97] [98] 5 with
  | error code =>
    rw [h] at hok
    cases hok
  | ok header' =>
    exact ⟨header', entryCodec_law.2 oneDirHeader header' [97] [98] 5 (.ok ()) treeInv_oneDirHeader
      (by rw [pfsRenameHeaderIn_eq, h])⟩

/-- Two extents of `2 ^ 31` sectors have a sum of `2 ^ 32`, which the accessor returns as `0`. -/
theorem not_total_written : ¬ ∀ (header : Header) (index : ℕ) (name : List UInt8) (size : ℕ)
    (kind : UInt8) (extents : List PfsExtent) (created : ℕ) (mode : UInt8) (now : ℕ),
    index < pfsEntryCount → 1 ≤ name.length → name.length ≤ 96 → size < 2 ^ 32 →
    kind = pfsKindFile ∨ kind = pfsKindDir → extents.length ≤ 4 → (∀ e ∈ extents, Fits e) →
    created < 2 ^ 64 →
    pfsEntryTotalSectors (pfsSetEntry header index name size kind extents created mode now) index =
      total extents := by
  intro hall
  have hfits : ∀ e ∈ [Run.mk 77 (2 ^ 31), Run.mk 77 (2 ^ 31)], Fits e := by simp [Fits]
  have htotal := hall emptyHeader 0 [97] 0 pfsKindFile [⟨77, 2 ^ 31⟩, ⟨77, 2 ^ 31⟩] 0 3 0 (by decide)
    (by decide) (by decide) (by decide) (.inl rfl) (by decide) hfits (by decide)
  rw [(entryDecodes_pfsSetEntry (by decide) (by decide) (by decide) (by decide) hfits (by decide)).total_eq]
    at htotal
  exact absurd htotal (by decide)

end Rymos
