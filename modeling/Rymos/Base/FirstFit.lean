import Mathlib.Tactic
import Rymos.Base.Extents

/-!
# First fit

A search from a block on takes free runs in increasing order, each in full.

* `FirstRuns free c rs`: `rs` are the first maximal runs of free blocks at or after `c`. `Takes`: the
  first `k` of them have `n` blocks. `Takes.congr`.
* `FirstFree`: what one search finds. **`FirstFree.takes_iff`**: one run fewer, and its blocks.
-/

namespace Extents

variable {free : ℕ → Prop} {c k m n s : ℕ}

/-- The first runs of free blocks at or after `c`, each as long as it can be. -/
inductive FirstRuns (free : ℕ → Prop) : ℕ → List Run → Prop
  | nil (c : ℕ) : FirstRuns free c []
  | cons {c : ℕ} {r : Run} {rs : List Run} (pos : 1 ≤ r.sectors) (le : c ≤ r.start)
      (skip : ∀ x, c ≤ x → x < r.start → ¬ free x) (mem : ∀ x, r.Mem x → free x)
      (stop : ¬ free r.fin) (rest : FirstRuns free r.fin rs) : FirstRuns free c (r :: rs)

/-- The first `k` free runs at or after `c` have `n` blocks. -/
def Takes (free : ℕ → Prop) (c n k : ℕ) : Prop :=
  ∃ rs, FirstRuns free c rs ∧ rs.length ≤ k ∧ n ≤ total rs

/-- The first free block at or after `c` is `s`, and the `n` blocks from there on are free; `n` is
`limit`, or the next block is taken. -/
structure FirstFree (free : ℕ → Prop) (c limit s n : ℕ) : Prop where
  le : c ≤ s
  skip : ∀ x, c ≤ x → x < s → ¬ free x
  pos : 1 ≤ n
  mem : ∀ x, s ≤ x → x < s + n → free x
  fits : n ≤ limit
  stop : n < limit → ¬ free (s + n)

/-- Only the blocks from `c` on matter. -/
theorem Takes.congr {free' : ℕ → Prop} (hf : ∀ x, c ≤ x → (free x ↔ free' x)) :
    Takes free c n k ↔ Takes free' c n k := by
  suffices h : ∀ (p q : ℕ → Prop) (d : ℕ) (rs : List Run), c ≤ d → (∀ x, c ≤ x → (p x ↔ q x)) →
      FirstRuns p d rs → FirstRuns q d rs by
    exact ⟨fun ⟨rs, hrs, hl⟩ => ⟨rs, h _ _ _ _ le_rfl hf hrs, hl⟩,
      fun ⟨rs, hrs, hl⟩ => ⟨rs, h _ _ _ _ le_rfl (fun x hx => (hf x hx).symm) hrs, hl⟩⟩
  intro p q d rs hd hpq hrs
  induction hrs with
  | nil => exact .nil _
  | cons pos le skip mem stop _ ih =>
    have hfin : c ≤ Run.fin _ := hd.trans (le.trans (Nat.le_add_right _ _))
    exact .cons pos le (fun x hx hlt hq => skip x hx hlt ((hpq x (hd.trans hx)).mpr hq))
      (fun x hx => (hpq x (hd.trans (le.trans hx.1))).mp (mem x hx))
      (fun hq => stop ((hpq _ hfin).mpr hq)) (ih hfin)

theorem takes_zero (c k : ℕ) : Takes free c 0 k := ⟨[], .nil c, Nat.zero_le _, Nat.zero_le _⟩

theorem not_takes_none (hn : 0 < n) (hf : ∀ x, c ≤ x → ¬ free x) : ¬ Takes free c n k := by
  rintro ⟨rs, hrs, -, hle⟩
  cases hrs with
  | nil => simp at hle; omega
  | cons pos le _ mem _ _ => exact hf _ le (mem _ ⟨le_rfl, by simp only [Run.fin]; omega⟩)

theorem not_takes_no_runs (hn : 0 < n) : ¬ Takes free c n 0 := by
  rintro ⟨rs, -, hlen, hle⟩
  obtain rfl := List.length_eq_zero_iff.mp (Nat.le_zero.mp hlen)
  rw [total_nil] at hle
  omega

/-- A free run has an end if the free blocks do. -/
theorem exists_maximal {hi : ℕ} (hfin : ∀ x, free x → x < hi)
    (hmem : ∀ x, s ≤ x → x < s + n → free x) :
    ∃ l, n ≤ l ∧ (∀ x, s ≤ x → x < s + l → free x) ∧ ¬ free (s + l) := by
  classical
  have hex : ∃ l, n ≤ l ∧ ¬ free (s + l) :=
    ⟨max n hi, le_max_left _ _, fun h => by have := hfin _ h; omega⟩
  obtain ⟨hle, hstop⟩ := Nat.find_spec hex
  refine ⟨Nat.find hex, hle, fun x hx hlt => ?_, hstop⟩
  by_cases hn : x < s + n
  · exact hmem x hx hn
  · have hmin := Nat.find_min hex (m := x - s) (by omega)
    by_contra hc
    exact hmin ⟨by omega, by rwa [show s + (x - s) = x by omega]⟩

/-- **A search takes the first run, and the next one looks for the rest.** -/
theorem FirstFree.takes_iff {hi : ℕ} (h : FirstFree free c n s m) (hfin : ∀ x, free x → x < hi) :
    Takes free c n (k + 1) ↔ Takes free (s + m) (n - m) k := by
  have hpos := h.pos
  constructor
  · rintro ⟨rs, hrs, hlen, hle⟩
    by_cases hm : m < n
    swap
    · rw [show n - m = 0 from Nat.sub_eq_zero_of_le (not_lt.mp hm)]
      exact takes_zero _ _
    cases hrs with
    | nil => simp at hle; omega
    | @cons _ r rs pos le skip mem stop rest =>
      -- both are the first free block and the first taken block after it
      have hs : r.start = s := by
        rcases Nat.lt_trichotomy r.start s with hlt | heq | hlt
        · exact absurd (mem _ ⟨le_rfl, by simp only [Run.fin]; omega⟩) (h.skip _ le hlt)
        · exact heq
        · exact absurd (h.mem s le_rfl (by omega)) (skip s h.le hlt)
      have hf : r.fin = s + m := by
        rcases Nat.lt_trichotomy r.fin (s + m) with hlt | heq | hlt
        · exact absurd (h.mem r.fin (by simp only [Run.fin]; omega) hlt) stop
        · exact heq
        · exact absurd (mem (s + m) ⟨by omega, hlt⟩) (h.stop hm)
      refine ⟨rs, hf ▸ rest, by simpa using hlen, ?_⟩
      rw [total_cons] at hle
      simp only [Run.fin] at hf
      omega
  · rintro ⟨rs, hrs, hlen, hle⟩
    by_cases hm : m < n
    · refine ⟨⟨s, m⟩ :: rs, .cons hpos h.le h.skip (fun x hx => h.mem x hx.1 hx.2) (h.stop hm) hrs,
        by simpa using hlen, ?_⟩
      rw [total_cons]
      simp only
      omega
    · obtain ⟨l, hl, hmem, hstop⟩ := exists_maximal hfin h.mem
      refine ⟨[⟨s, l⟩], .cons (by simp only; omega) h.le h.skip (fun x hx => hmem x hx.1 hx.2) hstop
        (.nil _), by simp, ?_⟩
      simp only [total_cons, total_nil]
      omega

end Extents
