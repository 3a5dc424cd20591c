import Mathlib.Tactic
import Rymos.Pfs.Alloc

/-!
# The allocation invariant

* `fileExtents`, `AllocInv`: the extents of the files are spread, inside the data area and disjoint;
  directories have none; sizes fit.
* **`AllocInv.setEmpty`**, **`AllocInv.clear`**, **`AllocInv.rename`**, **`AllocInv.grown`**,
  **`AllocInv.storeSize`**: the header writes of the kernel keep it.
* `capacityHeader_grown`, `capacityHeader_enough`: what `pfs_ensure_file_capacity` achieves.
* `pfsEntryLbaForSector_eq`: under the invariant a logical sector is a position in the extents.
-/

namespace Rymos

open ByteBuf Extents

/-- A used entry that is not a directory. -/
def pfsEntryIsFile (header : Header) (i : ℕ) : Bool :=
  pfsEntryUsed header i && !pfsEntryIsDir header i

/-- The extents of entry `i` if it is a file. -/
def fileExtents (header : Header) (i : Fin pfsEntryCount) : List PfsExtent :=
  if pfsEntryIsFile header i then pfsEntryExtents header i else []

/-- **The allocation invariant.** -/
structure AllocInv (header : Header) : Prop where
  /-- The extents of a file are nonempty, increasing, not adjacent, and inside the data area; those
  of different files do not overlap. -/
  placed : Placed pfsDataStart pfsDiskSectors (fileExtents header)
  count : ∀ i < pfsEntryCount, pfsEntryUsed header i = true →
    (header.byte (pfsEntryOffset i + pfsExtentCountOffset)).toNat ≤ pfsMaxExtents
  dirs : ∀ i < pfsEntryCount, pfsEntryIsDir header i = true → pfsEntryExtents header i = []
  size : ∀ i < pfsEntryCount, pfsEntryIsFile header i = true →
    pfsEntrySize header i ≤ 512 * total (pfsEntryExtents header i) ∧
      pfsEntrySize header i ≤ pfsFileMax

section Basic

variable {header : Header} {i : ℕ}

theorem pfsEntryIsFile_iff : pfsEntryIsFile header i = true ↔
    pfsEntryUsed header i = true ∧ pfsEntryIsDir header i = false := by
  simp [pfsEntryIsFile]

theorem fileExtents_of_file {i : Fin pfsEntryCount} (hf : pfsEntryIsFile header i = true) :
    fileExtents header i = pfsEntryExtents header i := by rw [fileExtents, if_pos hf]

theorem AllocInv.spread (h : AllocInv header) (hi : i < pfsEntryCount)
    (hf : pfsEntryIsFile header i = true) : Spread (pfsEntryExtents header i) := by
  rw [← fileExtents_of_file (i := ⟨i, hi⟩) hf]
  exact h.placed.spread _

theorem AllocInv.inside (h : AllocInv header) (hi : i < pfsEntryCount)
    (hf : pfsEntryIsFile header i = true) {x : ℕ} (hx : Covers (pfsEntryExtents header i) x) :
    pfsDataStart ≤ x ∧ x < pfsDiskSectors := by
  rw [← fileExtents_of_file (i := ⟨i, hi⟩) hf] at hx
  exact h.placed.inside _ x hx

/-- **Different files share no sector.** -/
theorem AllocInv.apart (h : AllocInv header) {j x : ℕ} (hi : i < pfsEntryCount)
    (hj : j < pfsEntryCount) (hfi : pfsEntryIsFile header i = true)
    (hfj : pfsEntryIsFile header j = true) (hxi : Covers (pfsEntryExtents header i) x)
    (hxj : Covers (pfsEntryExtents header j) x) : i = j := by
  rw [← fileExtents_of_file (i := ⟨i, hi⟩) hfi] at hxi
  rw [← fileExtents_of_file (i := ⟨j, hj⟩) hfj] at hxj
  exact congrArg Fin.val (h.placed.apart _ _ x hxi hxj)

theorem AllocInv.extent (h : AllocInv header) (hi : i < pfsEntryCount)
    (hf : pfsEntryIsFile header i = true) {e : PfsExtent} (he : e ∈ pfsEntryExtents header i) :
    1 ≤ e.sectors ∧ pfsDataStart ≤ e.start ∧ e.fin ≤ pfsDiskSectors :=
  have hpos := (h.spread hi hf).pos e he
  ⟨hpos, Run.bounds he hpos fun _ hx => h.inside hi hf hx⟩

theorem fits_of_fin {e : PfsExtent} (h : e.fin ≤ pfsDiskSectors) : Fits e := by
  rw [pfsDiskSectors_eq] at h
  simp only [Run.fin] at h
  constructor <;> omega

theorem length_pfsEntryExtents (header : Header) (i : ℕ) :
    (pfsEntryExtents header i).length ≤ 4 := by
  simp only [pfsEntryExtents, List.length_map, List.length_range]
  exact min_le_right _ _

theorem isFile_of_onlyEntry {header' : Header} {j : ℕ} (ho : OnlyEntry header header' i)
    (hj : j ≠ i) : pfsEntryIsFile header' j = pfsEntryIsFile header j := by
  rw [pfsEntryIsFile, pfsEntryIsFile, (ho.other hj).used, (ho.other hj).isDir]

theorem fileExtents_onlyEntry {header' : Header} (ho : OnlyEntry header header' i)
    (hi : i < pfsEntryCount) : fileExtents header' =
      Function.update (fileExtents header) ⟨i, hi⟩ (fileExtents header' ⟨i, hi⟩) := by
  funext j
  by_cases hj : j = ⟨i, hi⟩
  · rw [hj, Function.update_self]
  · have hne : (j : ℕ) ≠ i := fun e => hj (Fin.ext e)
    rw [Function.update_of_ne hj, fileExtents, fileExtents, isFile_of_onlyEntry ho hne,
      (ho.other hne).extents]

/-- A write of one entry keeps the invariant if the new entry meets it. -/
theorem AllocInv.update (h : AllocInv header) {header' : Header} (ho : OnlyEntry header header' i)
    (hi : i < pfsEntryCount)
    (hp : Placed pfsDataStart pfsDiskSectors
      (Function.update (fileExtents header) ⟨i, hi⟩ (fileExtents header' ⟨i, hi⟩)))
    (hc : (header'.byte (pfsEntryOffset i + pfsExtentCountOffset)).toNat ≤ pfsMaxExtents)
    (hd : pfsEntryIsDir header' i = true → pfsEntryExtents header' i = [])
    (hs : pfsEntryIsFile header' i = true →
      pfsEntrySize header' i ≤ 512 * total (pfsEntryExtents header' i) ∧
        pfsEntrySize header' i ≤ pfsFileMax) : AllocInv header' := by
  refine ⟨fileExtents_onlyEntry ho hi ▸ hp, fun j hj hu => ?_, fun j hj hu => ?_,
    fun j hj hu => ?_⟩
  · by_cases hji : j = i
    · exact hji ▸ hc
    · rw [(ho.other hji).used] at hu
      rw [show pfsExtentCountOffset = 6 from rfl, ho.other hji _ (by omega) (by omega)]
      exact h.count j hj hu
  · by_cases hji : j = i
    · subst hji
      exact hd hu
    · rw [(ho.other hji).isDir] at hu
      rw [(ho.other hji).extents]
      exact h.dirs j hj hu
  · by_cases hji : j = i
    · subst hji
      exact hs hu
    · rw [isFile_of_onlyEntry ho hji] at hu
      rw [(ho.other hji).size, (ho.other hji).extents]
      exact h.size j hj hu

end Basic

/-! ## The writes of the kernel keep it -/

section Writes

variable {header : Header} {i : ℕ}

theorem count_pfsSetEntry {name : List UInt8} {size : ℕ} {kind : UInt8} {extents : List PfsExtent}
    {created : ℕ} {mode : UInt8} {now : ℕ} (hi : i < pfsEntryCount) :
    ((pfsSetEntry header i name size kind extents created mode now).byte
      (pfsEntryOffset i + pfsExtentCountOffset)).toNat ≤ pfsMaxExtents := by
  rw [show pfsExtentCountOffset = 6 from rfl,
    byte_extentCount_pfsSetEntry header name size kind extents created mode now hi]
  simp only [pfsMaxExtents, UInt8.toNat_ofNat']
  omega

/-- **An entry written without extents and with size `0`**: `mkdir`, creation, truncation. -/
theorem AllocInv.setEmpty (h : AllocInv header) {name : List UInt8} {kind : UInt8} {created : ℕ}
    {mode : UInt8} {now : ℕ} (hi : i < pfsEntryCount) (hn : name.length ≤ 96) :
    AllocInv (pfsSetEntry header i name 0 kind [] created mode now) := by
  have he : pfsEntryExtents (pfsSetEntry header i name 0 kind [] created mode now) i = [] :=
    pfsEntryExtents_pfsSetEntry header name 0 kind [] created mode now hi (by simp) (by simp)
  have hz : pfsEntrySize (pfsSetEntry header i name 0 kind [] created mode now) i = 0 :=
    pfsEntrySize_pfsSetEntry header name 0 kind [] created mode now hi
  have hfe : fileExtents (pfsSetEntry header i name 0 kind [] created mode now) ⟨i, hi⟩ = [] := by
    rw [fileExtents, he, ite_self]
  refine h.update (onlyEntry_pfsSetEntry header hn) hi ?_ (count_pfsSetEntry hi) (fun _ => he)
    fun _ => ?_
  · rw [hfe]
    exact h.placed.drop _
  · rw [hz]
    exact ⟨Nat.zero_le _, Nat.zero_le _⟩

/-- **A cleared entry.** -/
theorem AllocInv.clear (h : AllocInv header) (hi : i < pfsEntryCount) :
    AllocInv (pfsClearEntry header i) := by
  have hu : pfsEntryUsed (pfsClearEntry header i) i = false := pfsEntryUsed_pfsClearEntry header
  have hb : pfsEntryIsFile (pfsClearEntry header i) i = false := by simp [pfsEntryIsFile, hu]
  have hd : pfsEntryIsDir (pfsClearEntry header i) i = false := by
    rw [pfsEntryUsed] at hu
    rw [pfsEntryIsDir, show (pfsClearEntry header i).byte (pfsEntryOffset i) = 0 by simpa using hu]
    rfl
  refine h.update (onlyEntry_pfsClearEntry header) hi ?_ ?_ (fun hc => ?_) fun hc => ?_
  · rw [fileExtents, hb]
    exact h.placed.drop _
  · rw [pfsClearEntry, show pfsExtentCountOffset = 6 from rfl, show pfsEntrySizeBytes = 152 from rfl,
      Buf.byte_fill, if_pos (by omega)]
    exact Nat.zero_le _
  · rw [hd] at hc; cases hc
  · rw [hb] at hc; cases hc

/-- The extents written back are those of the entry. -/
theorem AllocInv.rename (h : AllocInv header) {name : List UInt8} {created : ℕ} {mode : UInt8}
    {now : ℕ} (hi : i < pfsEntryCount) (hn : name.length ≤ 96) (hu : pfsEntryUsed header i = true) :
    AllocInv (pfsSetEntry header i name (pfsEntrySize header i) (pfsEntryKind header i)
      (pfsEntryExtents header i) created mode now) := by
  generalize hh : pfsSetEntry header i name (pfsEntrySize header i) (pfsEntryKind header i)
    (pfsEntryExtents header i) created mode now = header'
  have hfit : ∀ e ∈ pfsEntryExtents header i, Fits e := by
    intro e he
    cases hd : pfsEntryIsDir header i with
    | true => rw [h.dirs i hi hd] at he; cases he
    | false => exact fits_of_fin (h.extent hi (pfsEntryIsFile_iff.mpr ⟨hu, hd⟩) he).2.2
  have hk : pfsEntryKind header' i = pfsEntryKind header i := by
    rw [← hh, pfsEntryKind_pfsSetEntry _ _ _ _ _ _ _ _ hi]
  have he : pfsEntryExtents header' i = pfsEntryExtents header i := by
    rw [← hh, pfsEntryExtents_pfsSetEntry _ _ _ _ _ _ _ _ hi (length_pfsEntryExtents header i) hfit]
  have hs : pfsEntrySize header' i = pfsEntrySize header i := by
    rw [← hh, pfsEntrySize_pfsSetEntry _ _ _ _ _ _ _ _ hi]
    exact Nat.mod_eq_of_lt (pfsEntrySize_lt header i)
  have hd : pfsEntryIsDir header' i = pfsEntryIsDir header i := by
    rw [pfsEntryKind, pfsEntryKind] at hk
    rw [pfsEntryIsDir, pfsEntryIsDir, hk]
  have hu' : pfsEntryUsed header' i = pfsEntryUsed header i := by
    rw [pfsEntryKind, pfsEntryKind] at hk
    rw [pfsEntryUsed, pfsEntryUsed, hk]
  have hf : pfsEntryIsFile header' i = pfsEntryIsFile header i := by
    rw [pfsEntryIsFile, pfsEntryIsFile, hu', hd]
  refine h.update (hh ▸ onlyEntry_pfsSetEntry header hn) hi ?_ (hh ▸ count_pfsSetEntry hi)
    (fun hc => ?_) fun hc => ?_
  · rw [show fileExtents header' ⟨i, hi⟩ = fileExtents header ⟨i, hi⟩ by
      simp only [fileExtents, hf, he], Function.update_eq_self]
    exact h.placed
  · rw [he]
    exact h.dirs i hi (hd ▸ hc)
  · rw [hs, he]
    exact h.size i hi (hf ▸ hc)

/-- **A size that fits the extents.** -/
theorem AllocInv.storeSize (h : AllocInv header) {size now : ℕ} (hi : i < pfsEntryCount)
    (hu : pfsEntryUsed header i = true) (hs : size ≤ 512 * total (pfsEntryExtents header i))
    (hm : size ≤ pfsFileMax) : AllocInv (pfsStoreSize header i size now) := by
  have hentry := pfsEntry_pfsStoreSize header hi size now
  simp only [pfsEntry, PfsEntry.mk.injEq] at hentry
  obtain ⟨hk, -, hz, he, -⟩ := hentry
  have hz' : pfsEntrySize (pfsStoreSize header i size now) i = size := by
    rw [hz]
    exact Nat.mod_eq_of_lt (by rw [pfsFileMax_eq] at hm; omega)
  have hd : pfsEntryIsDir (pfsStoreSize header i size now) i = pfsEntryIsDir header i := by
    rw [pfsEntryKind, pfsEntryKind] at hk
    rw [pfsEntryIsDir, pfsEntryIsDir, hk]
  have hf : pfsEntryIsFile (pfsStoreSize header i size now) i = pfsEntryIsFile header i := by
    rw [pfsEntryKind, pfsEntryKind] at hk
    rw [pfsEntryIsFile, pfsEntryIsFile, hd, pfsEntryUsed, pfsEntryUsed, hk]
  refine h.update (onlyEntry_pfsStoreSize header size now) hi ?_ ?_ (fun hc => ?_) fun _ => ?_
  · rw [show fileExtents (pfsStoreSize header i size now) ⟨i, hi⟩ = fileExtents header ⟨i, hi⟩ by
      simp only [fileExtents, hf, he], Function.update_eq_self]
    exact h.placed
  · rw [show pfsExtentCountOffset = 6 from rfl, byte_pfsStoreSize header size now (by omega)]
    exact h.count i hi hu
  · rw [he]
    exact h.dirs i hi (hd ▸ hc)
  · rw [hz', he]
    exact ⟨hs, hm⟩

end Writes

/-! ## Growing a file -/

section Capacity

variable {header header' : Header} {i size now : ℕ}

/-- The sectors of file `j` are not free for another entry. -/
theorem covers_otherExtents (h : AllocInv header) {j : Fin pfsEntryCount} (hj : (j : ℕ) ≠ i) {x : ℕ}
    (hx : Covers (fileExtents header j) x) : Covers (otherExtents header (some i)) x := by
  obtain ⟨e, he, hm⟩ := hx
  have hpos := (h.placed.spread j).pos e he
  rw [fileExtents] at he
  split_ifs at he with hf
  · rw [pfsEntryIsFile_iff] at hf
    refine ⟨e, List.mem_flatMap.mpr ⟨j, List.mem_range.mpr j.2, ?_⟩, hm⟩
    have hne : (some (j : ℕ) == some i) = false := by simpa using hj
    rw [hne, hf.1, hf.2, Bool.not_true, Bool.or_self, Bool.or_self, if_neg (by simp)]
    exact List.mem_filter.mpr ⟨he, by simp; omega⟩
  · cases he

theorem otherExtents_fin (h : AllocInv header) {skip : Option ℕ} {e : PfsExtent}
    (he : e ∈ otherExtents header skip) : e.fin < 2 ^ 32 := by
  obtain ⟨j, hj, he⟩ := List.mem_flatMap.mp he
  split_ifs at he with hc
  · cases he
  · simp only [Bool.or_eq_true, not_or, Bool.not_eq_true, Bool.not_eq_false'] at hc
    have hf : pfsEntryIsFile header j = true := pfsEntryIsFile_iff.mpr ⟨hc.1.2, hc.2⟩
    have := (h.extent (List.mem_range.mp hj) hf (List.mem_filter.mp he).1).2.2
    rw [pfsDiskSectors_eq] at this
    omega

theorem foldl_u32_total (extents : List PfsExtent) (n : ℕ) (h : n + total extents < 2 ^ 32) :
    extents.foldl (fun total extent => u32 (total + extent.sectors)) n = n + total extents := by
  induction extents generalizing n with
  | nil => simp
  | cons e es ih =>
    rw [total_cons] at h ⊢
    rw [List.foldl_cons, u32_of_lt (by omega), ih _ (by omega)]
    omega

theorem pfsEntryTotalSectors_eq (h : AllocInv header) (hi : i < pfsEntryCount)
    (hf : pfsEntryIsFile header i = true) :
    pfsEntryTotalSectors header i = total (pfsEntryExtents header i) := by
  have hle := (h.spread hi hf).total_le fun _ hx => h.inside hi hf hx
  rw [pfsDataStart_eq, pfsDiskSectors_eq] at hle
  rw [pfsEntryTotalSectors, foldl_u32_total _ _ (by omega), Nat.zero_add]

/-- Enough sectors for the bytes of a file. -/
theorem le_sectorsForLen (h : size ≤ pfsFileMax) : size ≤ 512 * sectorsForLen size := by
  rw [pfsFileMax_eq] at h
  rw [sectorsForLen]
  split_ifs with hz
  · omega
  · rw [usize_of_lt (by omega), u32_of_lt (by omega)]
    omega

theorem capacityHeader_enough (h : AllocInv header) (hi : i < pfsEntryCount)
    (he : capacityHeader header i size now = .enough) : pfsEntryIsFile header i = true ∧
      sectorsForLen size ≤ total (pfsEntryExtents header i) := by
  simp only [capacityHeader, Bool.or_eq_true, Bool.not_eq_true'] at he
  split_ifs at he with hu hs hn
  · rw [not_or, Bool.not_eq_false, Bool.not_eq_true] at hu
    have hf := pfsEntryIsFile_iff.mpr hu
    exact ⟨hf, pfsEntryTotalSectors_eq h hi hf ▸ hs⟩
  · split at he <;> cases he
  · split at he <;> cases he

/-- What a file has after it has grown. -/
structure Grown (header header' : Header) (i size now : ℕ) (extents : List PfsExtent) : Prop where
  file : pfsEntryIsFile header i = true
  name : (pfsEntryName header i).length ≤ 96
  eq : header' = pfsSetEntry header i (pfsEntryName header i) (pfsEntrySize header i)
    (pfsEntryKind header i) extents (pfsEntryCreated header i) (pfsEntryMode header i) now
  growth : Growth (FreeFor header (some i)) (pfsEntryExtents header i) extents
  spread : Spread extents
  fits : ∀ e ∈ extents, Fits e
  length : extents.length ≤ 4
  total : total extents = sectorsForLen size

/-- **The header written has room for the size asked for.** -/
theorem capacityHeader_grown (h : AllocInv header) (hi : i < pfsEntryCount)
    (he : capacityHeader header i size now = .grown header') :
    ∃ extents, Grown header header' i size now extents := by
  simp only [capacityHeader, Bool.or_eq_true, Bool.not_eq_true'] at he
  split_ifs at he with hu hs hn
  · split at he <;> cases he
  rw [not_or, Bool.not_eq_false, Bool.not_eq_true] at hu
  have hf := pfsEntryIsFile_iff.mpr hu
  rw [pfsEntryTotalSectors_eq h hi hf] at hs he
  cases hg : pfsGrowExtents header (pfsEntryExtents header i)
      (sectorsForLen size - total (pfsEntryExtents header i)) (some i) with
  | none => rw [hg] at he; cases he
  | some extents =>
    rw [hg] at he
    cases he
    obtain ⟨h₁, h₂, h₃, h₄, h₅⟩ := pfsGrowExtents_spec (fun e he => otherExtents_fin h he)
      (h.spread hi hf) (fun x hx => h.inside hi hf hx) (length_pfsEntryExtents header i) hg
    exact ⟨extents, hf, not_lt.mp hn, rfl, h₁, h₂, fun e he => fits_of_fin (h₃ e he), h₄, by omega⟩

section Grown

variable {extents : List PfsExtent}

theorem Grown.onlyEntry (hg : Grown header header' i size now extents) :
    OnlyEntry header header' i := hg.eq ▸ onlyEntry_pfsSetEntry header hg.name

/-- The grown entry: only the extents and the modification time change. -/
theorem Grown.entry (hg : Grown header header' i size now extents) (hi : i < pfsEntryCount) :
    pfsEntry header' i =
      { pfsEntry header i with extents := extents, modified := now % 2 ^ 64 } := by
  rw [hg.eq, pfsEntry_pfsSetEntry header _ _ _ _ _ _ _ hi hg.name hg.length hg.fits]
  simp only [pfsEntry, Nat.mod_eq_of_lt (pfsEntrySize_lt header i),
    Nat.mod_eq_of_lt (pfsEntryCreated_lt header i)]

theorem Grown.extents_eq (hg : Grown header header' i size now extents) (hi : i < pfsEntryCount) :
    pfsEntryExtents header' i = extents := congrArg PfsEntry.extents (hg.entry hi)

theorem Grown.modified_eq (hg : Grown header header' i size now extents) (hi : i < pfsEntryCount) :
    pfsEntryModified header' i = now % 2 ^ 64 := by
  rw [hg.eq, pfsEntryModified_pfsSetEntry header _ _ _ _ _ _ _ hi]

theorem Grown.size_eq (hg : Grown header header' i size now extents) (hi : i < pfsEntryCount) :
    pfsEntrySize header' i = pfsEntrySize header i := congrArg PfsEntry.size (hg.entry hi)

theorem Grown.kind_eq (hg : Grown header header' i size now extents) (hi : i < pfsEntryCount) :
    pfsEntryKind header' i = pfsEntryKind header i := congrArg PfsEntry.kind (hg.entry hi)

end Grown

/-- **A file that has grown.** -/
theorem AllocInv.grown (h : AllocInv header) {extents : List PfsExtent} (hi : i < pfsEntryCount)
    (hg : Grown header header' i size now extents) : AllocInv header' := by
  have hk := hg.kind_eq hi
  rw [pfsEntryKind, pfsEntryKind] at hk
  have hf : pfsEntryIsFile header' i = true := by
    rw [pfsEntryIsFile, pfsEntryUsed, pfsEntryIsDir, hk]
    exact hg.file
  have hfe : fileExtents header' ⟨i, hi⟩ = extents := by
    rw [fileExtents_of_file (i := ⟨i, hi⟩) hf, hg.extents_eq hi]
  have hcount : (header'.byte (pfsEntryOffset i + pfsExtentCountOffset)).toNat ≤ pfsMaxExtents := by
    rw [hg.eq]
    exact count_pfsSetEntry hi
  refine h.update hg.onlyEntry hi ?_ hcount (fun hc => ?_) fun _ => ?_
  · have hgr : Growth (FreeFor header (some i)) (fileExtents header ⟨i, hi⟩) extents := by
      rw [fileExtents_of_file (i := ⟨i, hi⟩) hg.file]
      exact hg.growth
    rw [hfe]
    exact h.placed.grow hgr hg.spread fun x hx => ⟨hx.1, hx.2.1, fun j hj hc =>
      hx.2.2 (covers_otherExtents h (fun e => hj (Fin.ext e)) hc)⟩
  · rw [pfsEntryIsDir, hk] at hc
    have := (pfsEntryIsFile_iff.mp hg.file).2
    rw [pfsEntryIsDir, hc] at this
    cases this
  · have hle := hg.growth.le
    rw [hg.size_eq hi, hg.extents_eq hi]
    have := h.size i hi hg.file
    exact ⟨by omega, this.2⟩

end Capacity

/-! ## Logical sectors -/

theorem lbaWalk_eq_nth {extents : List PfsExtent} {k : ℕ}
    (h : ∀ e ∈ extents, 1 ≤ e.sectors ∧ e.fin ≤ pfsDiskSectors) :
    lbaWalk extents k = nth extents k := by
  induction extents generalizing k with
  | nil => rfl
  | cons e es ih =>
    obtain ⟨hpos, hfin⟩ := h e (by simp)
    rw [pfsDiskSectors_eq] at hfin
    simp only [Run.fin] at hfin
    rw [lbaWalk, nth, if_neg (by omega)]
    split_ifs with hk
    · rw [u32_of_lt (by omega)]
    · exact ih fun s hs => h s (List.mem_cons_of_mem _ hs)

/-- **A logical sector of a file is a position in its extents.** -/
theorem pfsEntryLbaForSector_eq {header : Header} {i : ℕ} (h : AllocInv header)
    (hi : i < pfsEntryCount) (hf : pfsEntryIsFile header i = true) (k : ℕ) :
    pfsEntryLbaForSector header i k = nth (pfsEntryExtents header i) k :=
  lbaWalk_eq_nth fun _ he => ⟨(h.extent hi hf he).1, (h.extent hi hf he).2.2⟩

end Rymos
