import Mathlib.Tactic
import Rymos.Pfs.Space

/-!
# The search for a free run, on any header

* `freeRunTurns`: the loop of `pfs_find_free_run`, which may still run. **`freeRunTurns_eq`**: it ends.
* `TakenBy`, `mem_otherExtents_iff`: the sectors of the files that are not skipped.
* **`pfsFindFreeRun_law`**: the search ends on every header; where no extent ends past `2 ^ 32`, it finds
  the first free run.
-/

namespace Rymos

open ByteBuf Extents

/-- The loop of `pfs_find_free_run` for at most `turns` turns; `none` while it still runs. -/
def freeRunTurns (extents : List PfsExtent) (maxLen : ℕ) : ℕ → ℕ → Option (Option (ℕ × ℕ))
  | 0, _ => none
  | turns + 1, candidate =>
    if candidate ≥ pfsDiskSectors then some none
    else
      match scanExtents candidate none extents with
      | .blocked candidate => freeRunTurns extents maxLen turns candidate
      | .clear nextObstacle =>
        let endBound := min (nextObstacle.getD pfsDiskSectors) pfsDiskSectors
        if endBound ≤ candidate then some none
        else
          let take := min (endBound - candidate) maxLen
          if take = 0 then some none else some (some (candidate, take))

/-- **The loop ends**: every turn but the last one moves the candidate on, whatever the extents are. -/
theorem freeRunTurns_eq {extents : List PfsExtent} {maxLen fuel candidate : ℕ}
    (h : pfsDiskSectors ≤ candidate + fuel) :
    freeRunTurns extents maxLen (fuel + 1) candidate =
      some (findFreeLoop extents maxLen fuel candidate) := by
  induction fuel generalizing candidate with
  | zero =>
    rw [freeRunTurns, if_pos (by omega)]
    rfl
  | succ fuel ih =>
    rw [freeRunTurns, findFreeLoop]
    by_cases hc : candidate ≥ pfsDiskSectors
    · rw [if_pos hc, if_pos hc]
    · rw [if_neg hc, if_neg hc]
      cases hs : scanExtents candidate none extents with
      | blocked c =>
        have := lt_of_scan_blocked hs
        exact ih (by omega)
      | clear next =>
        dsimp only
        split_ifs <;> rfl

/-- Sector `x` lies in an extent of a file other than `skip`. -/
def TakenBy (header : Header) (skip : Option ℕ) (x : ℕ) : Prop :=
  ∃ index < pfsEntryCount, some index ≠ skip ∧ pfsEntryIsFile header index = true ∧
    Covers (pfsEntryExtents header index) x

section Search

variable {header : Header} {skip : Option ℕ} {startFrom maxLen x : ℕ}

/-- The extents that the search looks at. -/
theorem mem_otherExtents_iff {e : PfsExtent} : e ∈ otherExtents header skip ↔
    ∃ index < pfsEntryCount, some index ≠ skip ∧ pfsEntryIsFile header index = true ∧
      e ∈ pfsEntryExtents header index ∧ 1 ≤ e.sectors := by
  simp only [otherExtents, List.mem_flatMap, List.mem_range, pfsEntryIsFile_iff]
  refine exists_congr fun index => and_congr_right fun _ => ?_
  by_cases hc : (some index == skip || !pfsEntryUsed header index || pfsEntryIsDir header index) = true
  · rw [if_pos hc]
    simp only [Bool.or_eq_true, beq_iff_eq, Bool.not_eq_true'] at hc
    refine iff_of_false (List.not_mem_nil) ?_
    rintro ⟨hne, ⟨hu, hd⟩, -⟩
    rcases hc with (hc | hc) | hc
    · exact hne hc
    · rw [hu] at hc
      cases hc
    · rw [hd] at hc
      cases hc
  · rw [if_neg hc]
    simp only [Bool.or_eq_true, beq_iff_eq, Bool.not_eq_true', not_or, Bool.not_eq_false,
      Bool.not_eq_true] at hc
    obtain ⟨⟨hne, hu⟩, hd⟩ := hc
    rw [List.mem_filter, bne_iff_ne, ← Nat.one_le_iff_ne_zero]
    exact ⟨fun h => ⟨hne, ⟨hu, hd⟩, h⟩, fun h => h.2.2⟩

/-- An extent without sectors covers none. -/
theorem covers_otherExtents_iff : Covers (otherExtents header skip) x ↔ TakenBy header skip x := by
  constructor
  · rintro ⟨e, he, hm⟩
    obtain ⟨index, hi, hne, hf, he, -⟩ := mem_otherExtents_iff.mp he
    exact ⟨index, hi, hne, hf, e, he, hm⟩
  · rintro ⟨index, hi, hne, hf, e, he, hm⟩
    refine ⟨e, mem_otherExtents_iff.mpr ⟨index, hi, hne, hf, he, ?_⟩, hm⟩
    simp only [Run.Mem, Run.fin] at hm
    omega

/-- **`pfs_find_free_run`** ends on every header. Where no extent of a file ends past `2 ^ 32 - 1`, it
finds the first free sector and as many after it as are free and asked for, and nothing just if no sector
is free. -/
theorem pfsFindFreeRun_law (header : Header) (skip : Option ℕ) (startFrom maxLen : ℕ)
    (hmax : 1 ≤ maxLen) :
    (∃ turns, freeRunTurns (otherExtents header skip) maxLen turns startFrom =
      some (pfsFindFreeRun header startFrom maxLen skip)) ∧
    ((∀ index < pfsEntryCount, pfsEntryIsFile header index = true →
        ∀ e ∈ pfsEntryExtents header index, e.start + e.sectors ≤ 2 ^ 32 - 1) →
      (∀ s n, pfsFindFreeRun header startFrom maxLen skip = some (s, n) →
        startFrom ≤ s ∧ 1 ≤ n ∧ n ≤ maxLen ∧ s + n ≤ pfsDiskSectors ∧
          (∀ x, s ≤ x → x < s + n → ¬ TakenBy header skip x) ∧
          (∀ x, startFrom ≤ x → x < s → TakenBy header skip x) ∧
          (n = maxLen ∨ TakenBy header skip (s + n) ∨ s + n = pfsDiskSectors)) ∧
      (pfsFindFreeRun header startFrom maxLen skip = none ↔
        ∀ x, startFrom ≤ x → x < pfsDiskSectors → TakenBy header skip x)) := by
  refine ⟨⟨pfsDiskSectors + 1, freeRunTurns_eq (by omega)⟩, fun hfit => ?_⟩
  have hends : ∀ e ∈ otherExtents header skip, 1 ≤ e.sectors ∧ e.fin < 2 ^ 32 := fun e he => by
    obtain ⟨index, hi, -, hf, he, hpos⟩ := mem_otherExtents_iff.mp he
    have := hfit index hi hf e he
    exact ⟨hpos, by simp only [Run.fin]; omega⟩
  have hfirst := @pfsFindFreeRun_firstFree header startFrom maxLen skip hends (by omega)
  have hopen : OpenFor header skip = fun x => x < pfsDiskSectors ∧ ¬ TakenBy header skip x := by
    funext x
    rw [OpenFor, covers_otherExtents_iff]
  rw [hopen] at hfirst
  cases hfind : pfsFindFreeRun header startFrom maxLen skip with
  | none =>
    rw [hfind] at hfirst
    refine ⟨fun _ _ he => (by cases he), iff_of_true rfl fun x hx hlt => ?_⟩
    by_contra hfree
    exact hfirst x hx ⟨hlt, hfree⟩
  | some run =>
    obtain ⟨s, n⟩ := run
    rw [hfind] at hfirst
    have hpos := hfirst.pos
    obtain ⟨hlast, -⟩ := hfirst.mem (s + n - 1) (by omega) (by omega)
    refine ⟨fun s' n' he => ?_, iff_of_false (Option.some_ne_none _) fun hall => ?_⟩
    · obtain ⟨rfl, rfl⟩ := Prod.mk.inj (Option.some.inj he)
      refine ⟨hfirst.le, hpos, hfirst.fits, by omega, fun x hx hlt => (hfirst.mem x hx hlt).2,
        fun x hx hlt => ?_, ?_⟩
      · by_contra hfree
        have hs := (hfirst.mem s le_rfl (by omega)).1
        exact hfirst.skip x hx hlt ⟨by omega, hfree⟩
      · by_cases hn : n = maxLen
        · exact .inl hn
        · have hstop := hfirst.stop (lt_of_le_of_ne hfirst.fits hn)
          by_cases htaken : TakenBy header skip (s + n)
          · exact .inr (.inl htaken)
          · have : ¬ s + n < pfsDiskSectors := fun hlt => hstop ⟨hlt, htaken⟩
            exact .inr (.inr (by omega))
    · have hs := hfirst.mem s le_rfl (by omega)
      exact hs.2 (hall s hfirst.le hs.1)

end Search

/-- The whole data area of an empty header is free. -/
theorem pfsFindFreeRun_law_empty : pfsFindFreeRun emptyHeader 77 5 none = none ↔
    ∀ x, 77 ≤ x → x < pfsDiskSectors → TakenBy emptyHeader none x :=
  ((pfsFindFreeRun_law emptyHeader none 77 5 (by decide)).2 fun index _ hf => by
    rw [pfsEntryIsFile_iff, pfsEntryUsed_emptyHeader] at hf
    cases hf.1).2

end Rymos
