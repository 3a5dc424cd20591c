import Mathlib.Tactic
import Rymos.Base.FirstFit
import Rymos.Pfs.WriteLaw

/-!
# When a file can grow

`pfs_grow_extents` takes the free runs after the last extent of the file as it meets them.

* **`pfsFindFreeRun_firstFree`**, **`pfsGrowExtents_isSome_iff`**: the search is first fit; growth
  succeeds just when the first runs have the sectors asked for.
* `FreeSector`, `FirstRunsSuffice`, **`pfsEnsureFileCapacity_iff`**: the same over the sectors that no
  entry covers.
* **`pfsWriteAt_reliable`**: on a drive that never fails a write needs room, and no more.
-/

namespace Rymos

open ByteBuf Extents Blocks

/-! ## The search is first fit -/

section Search

variable {extents : List PfsExtent} {candidate maxLen fuel : ℕ}

theorem scan_blocked {next : Option ℕ} {c : ℕ}
    (h : scanExtents candidate next extents = .blocked c) :
    ∃ e ∈ extents, e.start ≤ candidate ∧ c = u32 (e.start + e.sectors) := by
  induction extents generalizing next with
  | nil => cases h
  | cons e es ih =>
    simp only [scanExtents, Bool.and_eq_true, decide_eq_true_eq] at h
    split_ifs at h with h₁ h₂
    · cases h
      exact ⟨e, List.mem_cons_self, h₁.1, rfl⟩
    · obtain ⟨s, hs, hc⟩ := ih h
      exact ⟨s, List.mem_cons_of_mem _ hs, hc⟩
    · obtain ⟨s, hs, hc⟩ := ih h
      exact ⟨s, List.mem_cons_of_mem _ hs, hc⟩

/-- The obstacle is the start of an extent after the candidate. -/
theorem scan_obstacle {next : Option ℕ} {m : ℕ}
    (h : scanExtents candidate next extents = .clear (some m)) :
    next = some m ∨ ∃ e ∈ extents, candidate < m ∧ e.start = m := by
  induction extents generalizing next with
  | nil =>
    cases h
    exact Or.inl rfl
  | cons e es ih =>
    simp only [scanExtents, Bool.and_eq_true, decide_eq_true_eq] at h
    split_ifs at h with h₁ h₂
    · rcases ih h with he | ⟨s, hs, hm⟩
      · obtain rfl := Option.some.inj he
        exact Or.inr ⟨e, List.mem_cons_self, h₂.1, rfl⟩
      · exact Or.inr ⟨s, List.mem_cons_of_mem _ hs, hm⟩
    · rcases ih h with he | ⟨s, hs, hm⟩
      · exact Or.inl he
      · exact Or.inr ⟨s, List.mem_cons_of_mem _ hs, hm⟩

/-- **What the loop finds is the first free run; it finds none if no sector is free.** -/
theorem findFreeLoop_firstFree (hfit : ∀ e ∈ extents, 1 ≤ e.sectors ∧ e.fin < 2 ^ 32)
    (hmax : 0 < maxLen) (hfuel : pfsDiskSectors ≤ candidate + fuel) :
    match findFreeLoop extents maxLen fuel candidate with
    | some (s, n) =>
      FirstFree (fun x => x < pfsDiskSectors ∧ ¬ Covers extents x) candidate maxLen s n
    | none => ∀ x, candidate ≤ x → ¬ (x < pfsDiskSectors ∧ ¬ Covers extents x) := by
  induction fuel generalizing candidate with
  | zero => exact fun x hx hfree => by omega
  | succ fuel ih =>
    rw [findFreeLoop]
    by_cases hc : candidate ≥ pfsDiskSectors
    · rw [if_pos hc]
      exact fun x hx hfree => by omega
    rw [if_neg hc]
    cases hs : scanExtents candidate none extents with
    | blocked c =>
      have hlt := lt_of_scan_blocked hs
      obtain ⟨e, he, hle, rfl⟩ := scan_blocked hs
      obtain ⟨-, hfin⟩ := hfit e he
      -- the blocks before the new candidate belong to `e`
      have hcov : ∀ x, candidate ≤ x → x < u32 (e.start + e.sectors) → Covers extents x := by
        intro x hx hlt
        have hw : u32 (e.start + e.sectors) = e.fin := u32_of_lt hfin
        exact ⟨e, he, by omega, hw ▸ hlt⟩
      have := @ih (u32 (e.start + e.sectors)) (by omega)
      dsimp only
      cases hf : findFreeLoop extents maxLen fuel (u32 (e.start + e.sectors)) with
      | none =>
        rw [hf] at this
        intro x hx hfree
        by_cases hx' : x < u32 (e.start + e.sectors)
        · exact hfree.2 (hcov x hx hx')
        · exact this x (not_lt.mp hx') hfree
      | some run =>
        obtain ⟨s, n⟩ := run
        rw [hf] at this
        refine ⟨hlt.le.trans this.le, fun x hx hxs hfree => ?_, this.pos, this.mem, this.fits,
          this.stop⟩
        by_cases hx' : x < u32 (e.start + e.sectors)
        · exact hfree.2 (hcov x hx hx')
        · exact this.skip x (not_lt.mp hx') hxs hfree
    | clear next =>
      obtain ⟨ha, hn, -⟩ := scan_clear hs
      have hobs : ∀ m, next = some m → candidate < m ∧ Covers extents m := by
        rintro m rfl
        rcases scan_obstacle hs with hm | ⟨e, he, hlt, rfl⟩
        · cases hm
        · have hpos := (hfit e he).1
          exact ⟨hlt, e, he, le_rfl, by simp only [Run.fin]; omega⟩
      have hend : candidate < min (next.getD pfsDiskSectors) pfsDiskSectors := by
        cases next with
        | none => simpa using hc
        | some m =>
          have := (hobs m rfl).1
          simp only [Option.getD_some, ge_iff_le, not_le] at hc ⊢
          omega
      dsimp only
      rw [if_neg (by omega), if_neg (by omega)]
      refine ⟨le_rfl, fun x hx hxs => by omega, by omega, fun x hx hlt => ⟨by omega, ?_⟩,
        by omega, fun hlt hfree => ?_⟩
      · rintro ⟨e, he, hm⟩
        have hfin := (hfit e he).2
        simp only [Run.Mem, Run.fin] at hm hfin
        rcases Nat.lt_or_ge candidate e.start with hlt' | hle
        · obtain ⟨m, rfl, hmle⟩ := hn e he hlt'
          rw [Option.getD_some] at hlt
          omega
        · have := ha e he hle
          rw [u32_of_lt hfin] at this
          omega
      · cases next with
        | none =>
          simp only [Option.getD_none, min_self] at hlt hfree hend
          omega
        | some m =>
          obtain ⟨hm, hcov⟩ := hobs m rfl
          simp only [Option.getD_some] at hlt hfree hend
          rcases Nat.le_total m pfsDiskSectors with hle | hle
          · rw [show candidate + min (min m pfsDiskSectors - candidate) maxLen = m by omega] at hfree
            exact hfree.2 hcov
          · omega

end Search

/-- Sectors below the end of the disk outside the extents of the other entries. -/
def OpenFor (header : Header) (skip : Option ℕ) (x : ℕ) : Prop :=
  x < pfsDiskSectors ∧ ¬ Covers (otherExtents header skip) x

/-- **`pfs_find_free_run` is first fit.** -/
theorem pfsFindFreeRun_firstFree {header : Header} {startFrom maxLen : ℕ} {skip : Option ℕ}
    (hfit : ∀ e ∈ otherExtents header skip, 1 ≤ e.sectors ∧ e.fin < 2 ^ 32) (hmax : 0 < maxLen) :
    match pfsFindFreeRun header startFrom maxLen skip with
    | some (s, n) => FirstFree (OpenFor header skip) startFrom maxLen s n
    | none => ∀ x, startFrom ≤ x → ¬ OpenFor header skip x :=
  findFreeLoop_firstFree hfit hmax (by omega)

/-! ## Growth takes the first runs -/

/-- Where the search for room after the extents starts. -/
def searchStart (extents : List PfsExtent) : ℕ :=
  match extents.getLast? with
  | some last => last.fin
  | none => pfsDataStart

section Grow

variable {header : Header} {skip : Option ℕ} {extents : List PfsExtent}

open Classical in
/-- The number of runs that extents may take: an extent for each, but none for a run that continues
the last one. -/
noncomputable def runBudget (free : ℕ → Prop) (extents : List PfsExtent) : ℕ :=
  pfsMaxExtents - extents.length + if extents ≠ [] ∧ free (searchStart extents) then 1 else 0

theorem runBudget_nil (free : ℕ → Prop) : runBudget free [] = pfsMaxExtents := by simp [runBudget]

theorem runBudget_of_free {free : ℕ → Prop} (hne : extents ≠ []) (hf : free (searchStart extents)) :
    runBudget free extents = pfsMaxExtents - extents.length + 1 := by
  rw [runBudget, if_pos ⟨hne, hf⟩]

theorem runBudget_of_not_free {free : ℕ → Prop} (hf : ¬ free (searchStart extents)) :
    runBudget free extents = pfsMaxExtents - extents.length := by
  rw [runBudget, if_neg fun h => hf h.2, Nat.add_zero]

theorem searchStart_concat (init : List PfsExtent) (last : PfsExtent) :
    searchStart (init ++ [last]) = last.fin := by rw [searchStart, List.getLast?_concat]

/-- A turn of the loop spends a run of the budget; no run is left for it just if it fails. -/
theorem growStep_budget {free : ℕ → Prop} {remaining s n searchFrom : ℕ}
    (hlast : extents ≠ [] → searchFrom = searchStart extents) (hdisk : searchFrom ≤ pfsDiskSectors)
    (hend : s + n ≤ pfsDiskSectors) (h : FirstFree free searchFrom remaining s n) :
    (growStep extents s n = none ∧ runBudget free extents = 0) ∨
    ∃ extents', growStep extents s n = some extents' ∧ extents' ≠ [] ∧ searchStart extents' = s + n ∧
      (n < remaining → runBudget free extents = runBudget free extents' + 1) ∧
      runBudget free extents ≠ 0 := by
  rw [pfsDiskSectors_eq] at hdisk hend
  rcases List.eq_nil_or_concat' extents with rfl | ⟨init, last, rfl⟩
  · refine Or.inr ⟨[⟨s, n⟩], rfl, by simp, rfl, fun hlt => ?_, by rw [runBudget_nil]; decide⟩
    have : ¬ free (searchStart [⟨s, n⟩]) := h.stop hlt
    rw [runBudget_nil, runBudget_of_not_free this]
    rfl
  · have hs := hlast (by simp)
    rw [searchStart_concat] at hs
    have hw : u32 (last.start + last.sectors) = last.fin :=
      u32_of_lt (by simp only [Run.fin] at hs; omega)
    simp only [growStep, List.getLast?_concat, List.dropLast_concat, hw]
    by_cases hc : s = last.fin
    · have hpos := h.pos
      have hfree : free (searchStart (init ++ [last])) := by
        rw [searchStart_concat, ← hc]
        exact h.mem s le_rfl (by omega)
      have hsec : u32 (last.sectors + n) = last.sectors + n :=
        u32_of_lt (by simp only [Run.fin] at hs; omega)
      have hfin : searchStart (init ++ [⟨last.start, last.sectors + n⟩]) = s + n := by
        rw [searchStart_concat, hc]
        simp only [Run.fin]
        omega
      rw [if_pos hc, hsec, runBudget_of_free (by simp) hfree]
      refine Or.inr ⟨_, rfl, by simp, hfin, fun hlt => ?_, by omega⟩
      have : ¬ free (searchStart (init ++ [⟨last.start, last.sectors + n⟩])) :=
        hfin ▸ h.stop hlt
      rw [runBudget_of_not_free this]
      simp
    · have hnot : ¬ free (searchStart (init ++ [last])) := by
        rw [searchStart_concat]
        have := h.le
        exact h.skip _ hs.le (by omega)
      rw [if_neg hc, runBudget_of_not_free hnot]
      by_cases hl : (init ++ [last]).length ≥ pfsMaxExtents
      · rw [if_pos hl]
        exact Or.inl ⟨rfl, by omega⟩
      · rw [if_neg hl]
        have hfin : searchStart (init ++ [last] ++ [⟨s, n⟩]) = s + n := searchStart_concat _ _
        refine Or.inr ⟨_, rfl, by simp, hfin, fun hlt => ?_, by omega⟩
        have : ¬ free (searchStart (init ++ [last] ++ [⟨s, n⟩])) := hfin ▸ h.stop hlt
        rw [runBudget_of_not_free this, @List.length_append _ (init ++ [last])]
        simp only [List.length_singleton]
        omega

/-- **The loop succeeds just when the runs of its budget have the sectors that remain.** -/
theorem growLoop_isSome_iff
    (hfit : ∀ e ∈ otherExtents header skip, 1 ≤ e.sectors ∧ e.fin < 2 ^ 32)
    {fuel remaining searchFrom : ℕ} (hfuel : remaining ≤ fuel)
    (hlast : extents ≠ [] → searchFrom = searchStart extents)
    (hdisk : searchFrom ≤ pfsDiskSectors) :
    (growLoop header skip fuel extents remaining searchFrom).isSome ↔
      Takes (OpenFor header skip) searchFrom remaining (runBudget (OpenFor header skip) extents) := by
  induction fuel generalizing extents remaining searchFrom with
  | zero =>
    obtain rfl : remaining = 0 := by omega
    simp [growLoop, takes_zero]
  | succ fuel ih =>
    rw [growLoop]
    by_cases hr : remaining = 0
    · rw [if_pos hr, hr]
      simp [takes_zero]
    rw [if_neg hr]
    have hfind := @pfsFindFreeRun_firstFree _ searchFrom _ _ hfit (Nat.pos_of_ne_zero hr)
    cases hf : pfsFindFreeRun header searchFrom remaining skip with
    | none =>
      rw [hf] at hfind
      simpa using not_takes_none (Nat.pos_of_ne_zero hr) hfind
    | some run =>
      obtain ⟨s, n⟩ := run
      rw [hf] at hfind
      have hfirst : FirstFree _ searchFrom remaining s n := hfind
      have hpos := hfirst.pos
      have hend : s + n ≤ pfsDiskSectors := by
        have := (hfirst.mem (s + n - 1) (by omega) (by omega)).1
        omega
      dsimp only
      rcases growStep_budget hlast hdisk hend hfirst with ⟨hg, hb⟩ | ⟨mid, hg, hne, hfin, hb, hb₀⟩
      · rw [hg, hb]
        simpa using not_takes_no_runs (Nat.pos_of_ne_zero hr)
      · obtain ⟨k, hk⟩ := Nat.exists_eq_succ_of_ne_zero hb₀
        have hw : u32 (s + n) = s + n := u32_of_lt (by rw [pfsDiskSectors_eq] at hend; omega)
        rw [hg, hk, hfirst.takes_iff fun x hx => hx.1]
        dsimp only
        rw [hw, ih (by omega) (fun _ => hfin.symm) hend]
        rcases Nat.lt_or_ge n remaining with hlt | hge
        · rw [show runBudget (OpenFor header skip) mid = k by have := hb hlt; omega]
        · rw [Nat.sub_eq_zero_of_le hge]
          exact iff_of_true (takes_zero _ _) (takes_zero _ _)

end Grow

/-- **Growth succeeds just when the first runs at or after the end of the extents suffice.** -/
theorem pfsGrowExtents_isSome_iff {header : Header} {skip : Option ℕ} {extents : List PfsExtent}
    {additional : ℕ} (hfit : ∀ e ∈ otherExtents header skip, 1 ≤ e.sectors ∧ e.fin < 2 ^ 32)
    (hdisk : searchStart extents ≤ pfsDiskSectors) :
    (pfsGrowExtents header extents additional skip).isSome ↔
      Takes (OpenFor header skip) (searchStart extents) additional
        (runBudget (OpenFor header skip) extents) := by
  have hloop : pfsGrowExtents header extents additional skip =
      growLoop header skip additional extents additional (searchStart extents) := by
    rw [searchStart] at hdisk ⊢
    rw [pfsGrowExtents]
    cases hl : extents.getLast? with
    | none => rfl
    | some last =>
      rw [hl, pfsDiskSectors_eq] at hdisk
      dsimp only at hdisk ⊢
      rw [show u32 (last.start + last.sectors) = last.fin from
        u32_of_lt (lt_of_le_of_lt hdisk (by decide))]
  rw [hloop]
  exact growLoop_isSome_iff hfit le_rfl (fun _ => rfl) hdisk

/-! ## Room on the disk -/

/-- A sector of the data area that no entry covers. -/
def FreeSector (header : Header) (x : ℕ) : Prop :=
  pfsDataStart ≤ x ∧ x < pfsDiskSectors ∧
    ∀ i < pfsEntryCount, pfsEntryUsed header i = true → ¬ Covers (pfsEntryExtents header i) x

instance (header : Header) (x : ℕ) : Decidable (FreeSector header x) := by
  unfold FreeSector
  infer_instance

/-- The first free runs at or after the end of the last extent of file `i` have the sectors for
`size` bytes: as many runs as it has extents left, and the one that continues its last extent. -/
def FirstRunsSuffice (header : Header) (i size : ℕ) : Prop :=
  Takes (FreeSector header) (searchStart (pfsEntryExtents header i))
    (sectorsForLen size - pfsEntryTotalSectors header i)
    (runBudget (FreeSector header) (pfsEntryExtents header i))

section Room

variable {header : Header} {i : ℕ}

theorem otherExtents_pos (h : AllocInv header) {skip : Option ℕ} {e : PfsExtent}
    (he : e ∈ otherExtents header skip) : 1 ≤ e.sectors ∧ e.fin < 2 ^ 32 := by
  refine ⟨?_, otherExtents_fin h he⟩
  obtain ⟨j, -, he⟩ := List.mem_flatMap.mp he
  split_ifs at he
  · cases he
  · have := (List.mem_filter.mp he).2
    simp only [bne_iff_ne, ne_eq] at this
    omega

theorem searchStart_bounds (h : AllocInv header) (hi : i < pfsEntryCount)
    (hf : pfsEntryIsFile header i = true) :
    pfsDataStart ≤ searchStart (pfsEntryExtents header i) ∧
      searchStart (pfsEntryExtents header i) ≤ pfsDiskSectors ∧
      ∀ e ∈ pfsEntryExtents header i, e.fin ≤ searchStart (pfsEntryExtents header i) := by
  have hspread := h.spread hi hf
  have hext := fun e he => h.extent hi hf (e := e) he
  rcases List.eq_nil_or_concat' (pfsEntryExtents header i) with he | ⟨init, last, he⟩
  · rw [he]
    exact ⟨le_rfl, by rw [pfsDiskSectors_eq, searchStart, List.getLast?_nil, pfsDataStart_eq]; decide,
      by simp⟩
  · rw [he] at hspread hext ⊢
    rw [searchStart_concat]
    obtain ⟨hpos, hlo, hhi⟩ := hext last (by simp)
    refine ⟨hlo.trans (Nat.le_add_right _ _), hhi, hspread.fin_le_last⟩

/-- After the last extent of a file the sectors that no other entry covers are free. -/
theorem openFor_iff_freeSector (h : AllocInv header) (hi : i < pfsEntryCount)
    (hf : pfsEntryIsFile header i = true) {x : ℕ}
    (hx : searchStart (pfsEntryExtents header i) ≤ x) :
    OpenFor header (some i) x ↔ FreeSector header x := by
  obtain ⟨hlo, -, hfin⟩ := searchStart_bounds h hi hf
  constructor
  · rintro ⟨hd, hc⟩
    refine ⟨hlo.trans hx, hd, fun j hj hu hcov => ?_⟩
    by_cases hji : j = i
    · obtain ⟨e, he, hm⟩ := hji ▸ hcov
      have := hfin e he
      exact absurd hm.2 (by omega)
    · cases hdir : pfsEntryIsDir header j with
      | true =>
        rw [h.dirs j hj hdir] at hcov
        exact covers_nil x hcov
      | false =>
        have hfile : pfsEntryIsFile header j = true := pfsEntryIsFile_iff.mpr ⟨hu, hdir⟩
        refine hc (covers_otherExtents h (j := ⟨j, hj⟩) hji ?_)
        rwa [fileExtents_of_file (i := ⟨j, hj⟩) hfile]
  · rintro ⟨-, hd, hc⟩
    refine ⟨hd, ?_⟩
    rintro ⟨e, he, hm⟩
    obtain ⟨j, hj, he⟩ := List.mem_flatMap.mp he
    split_ifs at he with hskip
    · cases he
    · simp only [Bool.or_eq_true, not_or, Bool.not_eq_true, Bool.not_eq_false'] at hskip
      exact hc j (List.mem_range.mp hj) hskip.1.2 ⟨e, (List.mem_filter.mp he).1, hm⟩

theorem pfsGrowExtents_isSome_iff_suffice (h : AllocInv header) (hi : i < pfsEntryCount)
    (hf : pfsEntryIsFile header i = true) (size : ℕ) :
    (pfsGrowExtents header (pfsEntryExtents header i)
        (sectorsForLen size - pfsEntryTotalSectors header i) (some i)).isSome ↔
      FirstRunsSuffice header i size := by
  obtain ⟨-, hdisk, -⟩ := searchStart_bounds h hi hf
  have hiff := fun x hx => openFor_iff_freeSector h hi hf (x := x) hx
  rw [pfsGrowExtents_isSome_iff (fun e he => otherExtents_pos h he) hdisk, Takes.congr hiff,
    FirstRunsSuffice, runBudget, runBudget, hiff _ le_rfl]

/-- **Room is made just when the first runs suffice**, and else nothing is written. -/
theorem pfsEnsureFileCapacity_cases {disk : Disk} {size now : ℕ} (hw : HeaderWritable disk)
    (hh : readHeaderSilent disk = some header) (h : AllocInv header) (hn : NamesFit header)
    (hi : i < pfsEntryCount) (hf : pfsEntryIsFile header i = true) :
    (FirstRunsSuffice header i size ∧
      ∃ disk', pfsEnsureFileCapacity disk i size now = some (true, disk')) ∨
    (¬ FirstRunsSuffice header i size ∧
      pfsEnsureFileCapacity disk i size now = some (false, disk)) := by
  obtain ⟨hu, hd⟩ := pfsEntryIsFile_iff.mp hf
  rw [pfsEnsureFileCapacity, hh]
  dsimp only
  rw [capacityHeader, hu, hd, if_neg (by simp)]
  dsimp only
  by_cases hle : sectorsForLen size ≤ pfsEntryTotalSectors header i
  · rw [if_pos hle, FirstRunsSuffice, Nat.sub_eq_zero_of_le hle]
    exact Or.inl ⟨takes_zero _ _, _, rfl⟩
  · have hname : ¬ (pfsEntryName header i).length > pfsNameMax := by
      rw [length_pfsEntryName]
      exact not_lt.mpr (hn i hi hu)
    rw [if_neg hle, ← pfsGrowExtents_isSome_iff_suffice h hi hf]
    cases hg : pfsGrowExtents header (pfsEntryExtents header i)
        (sectorsForLen size - pfsEntryTotalSectors header i) (some i) with
    | none => exact Or.inr ⟨by simp, rfl⟩
    | some extents =>
      dsimp only
      rw [if_neg hname]
      dsimp only
      rw [writeHeader_spec hw]
      exact Or.inl ⟨rfl, _, rfl⟩

/-- The header written when the file must grow and can. -/
theorem pfsEnsureFileCapacity_grow {disk : Disk} {size now : ℕ} {extents : List PfsExtent}
    (hw : HeaderWritable disk) (hh : readHeaderSilent disk = some header) (hn : NamesFit header)
    (hi : i < pfsEntryCount) (hf : pfsEntryIsFile header i = true)
    (hlt : pfsEntryTotalSectors header i < sectorsForLen size)
    (hg : pfsGrowExtents header (pfsEntryExtents header i)
      (sectorsForLen size - pfsEntryTotalSectors header i) (some i) = some extents) :
    pfsEnsureFileCapacity disk i size now = some (true, withHeader disk (pfsSetEntry header i
      (pfsEntryName header i) (pfsEntrySize header i) (pfsEntryKind header i) extents
      (pfsEntryCreated header i) (pfsEntryMode header i) now)) := by
  obtain ⟨hu, hd⟩ := pfsEntryIsFile_iff.mp hf
  have hname : ¬ (pfsEntryName header i).length > pfsNameMax := by
    rw [length_pfsEntryName]
    exact not_lt.mpr (hn i hi hu)
  rw [pfsEnsureFileCapacity, hh]
  dsimp only
  rw [capacityHeader, hu, hd, if_neg (by simp)]
  dsimp only
  rw [if_neg (not_le.mpr hlt), hg]
  dsimp only
  rw [if_neg hname]
  dsimp only
  rw [writeHeader_spec hw]

theorem pfsEnsureFileCapacity_iff {disk : Disk} {size now : ℕ} (hw : HeaderWritable disk)
    (hh : readHeaderSilent disk = some header) (h : AllocInv header) (hn : NamesFit header)
    (hi : i < pfsEntryCount) (hf : pfsEntryIsFile header i = true) :
    (∃ disk', pfsEnsureFileCapacity disk i size now = some (true, disk')) ↔
      FirstRunsSuffice header i size := by
  rcases @pfsEnsureFileCapacity_cases _ _ _ size now hw hh h hn hi hf with
    ⟨hs, hd⟩ | ⟨hs, hd⟩
  · exact iff_of_true hd hs
  · rw [hd]
    exact iff_of_false (fun ⟨_, hc⟩ => by cases hc) hs

end Room

/-! ## Writes on a drive that never fails -/

section Reliable

variable {header : Header} {index : ℕ}

/-- On a drive that never fails a turn of `body` stores its chunk if its position has a sector. -/
def Completes (header : Header) (index offset : ℕ) (body : ℕ → ℕ → Disk → Bool × Disk) : Prop :=
  ∀ copied count disk, Reliable disk →
    (pfsEntryLbaForSector header index (u32 (usize (offset + copied) / 512))).isSome →
      (body copied count disk).1 = true ∧ OnlySectors disk (body copied count disk).2

theorem ataReadSector_reliable {disk : Disk} (hr : Reliable disk) (lba : ℕ) :
    ataReadSector disk lba = some (disk.sectors (lba28 lba)) := by
  rw [ataReadSector, if_pos (hr.2 _).1]

theorem ataWriteSector_reliable {disk : Disk} (hr : Reliable disk) (lba : ℕ) (sector : Sector) :
    ataWriteSector disk lba sector =
      (true, { disk with sectors := Function.update disk.sectors (lba28 lba) sector }) := by
  rw [ataWriteSector, if_pos (hr.2 _).2]

theorem completes_writeBody (header : Header) (index offset : ℕ) (data : List UInt8) :
    Completes header index offset (writeBody header index offset data) := by
  intro copied count disk hr hl
  obtain ⟨lba, hl⟩ := Option.isSome_iff_exists.mp hl
  simp only [writeBody, hl, ataReadSector_reliable hr, ataWriteSector_reliable hr]
  exact ⟨trivial, rfl⟩

theorem completes_zeroBody (header : Header) (index start : ℕ) :
    Completes header index start (zeroBody header index start) := by
  intro written count disk hr hl
  obtain ⟨lba, hl⟩ := Option.isSome_iff_exists.mp hl
  simp only [zeroBody, hl, ataReadSector_reliable hr, ataWriteSector_reliable hr]
  split_ifs <;> exact ⟨rfl, rfl⟩

/-- **Within the extents of a file a loop that stores chunks comes to its end.** -/
theorem storeLoop_complete (h : AllocInv header) (hi : index < pfsEntryCount)
    (hf : pfsEntryIsFile header index = true) {offset len : ℕ}
    {val : ℕ → UInt8} {body : ℕ → ℕ → Disk → Bool × Disk}
    (hs : Stores header index offset len val body) (hb : Completes header index offset body)
    {disk disk' : Disk} (hr : Reliable disk)
    (hcap : offset + len ≤ 512 * total (pfsEntryExtents header index)) {ok : Bool}
    (he : chunkLoop 512 (fun copied => usize (offset + copied)) body len len 0 disk = (ok, disk')) :
    ok = true ∧ OnlySectors disk disk' ∧ diskHeader disk' = diskHeader disk := by
  have htot := total_lt h hi hf
  obtain ⟨m, -, -, -, -, hw, -⟩ := storeLoop_spec h hi hf hs (by omega) he
  have hheader : diskHeader disk' = diskHeader disk := diskHeader_congr fun x hx =>
    hw.frame x fun hc => by
      have := h.inside hi hf hc
      omega
  have hloop := chunkLoop_spec (I := fun _ d => OnlySectors disk d) (F := fun _ => False) (by omega)
    he (.refl _) fun copied count d hI hlt hc => by
      obtain ⟨lba, hl⟩ := @nth_of_lt (pfsEntryExtents header index)
        ((offset + copied) / 512) (by omega)
      have := hb copied count d (hI.reliable hr)
        (by rw [lba_of_position h hi hf (by omega), hl]; rfl)
      exact ⟨fun _ => hI.trans this.2, fun hno => by rw [this.1] at hno; cases hno⟩
  cases ok with
  | true => exact ⟨rfl, hloop.1 rfl, hheader⟩
  | false => exact (hloop.2 rfl).elim

/-- **A write within the size limit needs room, and no more**; without room it changes nothing. -/
theorem pfsWriteAt_reliable {disk : Disk} {offset now : ℕ} {data : List UInt8} (hr : Reliable disk)
    (hh : readHeaderSilent disk = some header) (h : AllocInv header) (hn : NamesFit header)
    (hi : index < pfsEntryCount) (hf : pfsEntryIsFile header index = true)
    (hmax : offset + data.length ≤ pfsFileMax) :
    (FirstRunsSuffice header index (offset + data.length) ∧ ∃ mid disk',
      pfsEnsureFileCapacity disk index (offset + data.length) now = some (true, mid) ∧
        pfsWriteAt disk index offset data now = some (true, disk') ∧
        diskHeader disk' = diskHeader mid ∧ OnlySectors disk disk') ∨
    (¬ FirstRunsSuffice header index (offset + data.length) ∧
      pfsWriteAt disk index offset data now = some (false, disk)) := by
  obtain ⟨rfl, hmagic⟩ := readHeaderSilent_eq_some hh
  have hus : usize (offset + data.length) = offset + data.length :=
    usize_of_lt (by rw [pfsFileMax_eq] at hmax; omega)
  rw [pfsWriteAt, hus]
  dsimp only
  rw [if_neg (not_lt.mpr hmax), hh]
  dsimp only
  rw [if_pos (pfsEntryIsFile_iff.mp hf).1]
  dsimp only
  rcases @pfsEnsureFileCapacity_cases _ _ _ (offset + data.length) now hr.headerWritable hh
    h hn hi hf with ⟨hs, mid, hd⟩ | ⟨hs, hd⟩
  swap
  · rw [hd]
    exact Or.inr ⟨hs, rfl⟩
  refine Or.inl ⟨hs, mid, ?_⟩
  rw [hd]
  dsimp only
  rcases pfsEnsureFileCapacity_spec hr.headerWritable h hi hd with ⟨hc, -⟩ | ⟨-, hroom, honly, -⟩
  · cases hc
  have hr' := honly.reliable hr
  have hinv := hroom.allocInv h hi
  have hfile := hroom.file' hi
  have hcap : offset + data.length ≤ 512 * total (pfsEntryExtents (diskHeader mid) index) :=
    (le_sectorsForLen hmax).trans (Nat.mul_le_mul_left 512 (hroom.total hi))
  rw [readHeaderSilent_of_reliable hr' (hroom.onlyEntry.slice_magic.trans hmagic)]
  dsimp only
  -- the data loop comes to its end from wherever the hole has been filled
  have fill : ∀ d, Reliable d → diskHeader d = diskHeader mid →
      ∃ d', pfsWriteData d (diskHeader mid) index offset data = (true, d') ∧
        diskHeader d' = diskHeader mid ∧ OnlySectors d d' := by
    intro d hrd hhd
    cases hl : pfsWriteData d (diskHeader mid) index offset data with
    | mk ok d' =>
      obtain ⟨rfl, ho, hh'⟩ := storeLoop_complete hinv hi hfile
        (stores_writeBody (diskHeader mid) index offset data) (completes_writeBody _ _ _ _) hrd hcap
        hl
      exact ⟨d', rfl, hh'.trans hhd, ho⟩
  by_cases hgap : offset > pfsEntrySize (diskHeader disk) index
  · rw [if_pos hgap]
    cases hz : pfsZeroRange mid (diskHeader mid) index (pfsEntrySize (diskHeader disk) index)
        (offset - pfsEntrySize (diskHeader disk) index) with
    | mk ok dz =>
      obtain ⟨rfl, hdz, hhz⟩ := storeLoop_complete hinv hi hfile
        (stores_zeroBody (diskHeader mid) index _ _) (completes_zeroBody _ _ _) hr' (by omega) hz
      obtain ⟨d', hd', hh', ho⟩ := fill dz (hdz.reliable hr') hhz
      exact ⟨d', rfl, by dsimp only; rw [hd'], hh', honly.trans (hdz.trans ho)⟩
  · rw [if_neg hgap]
    obtain ⟨d', hd', hh', ho⟩ := fill mid hr' rfl
    exact ⟨d', rfl, by rw [hd'], hh', honly.trans ho⟩

end Reliable

end Rymos
