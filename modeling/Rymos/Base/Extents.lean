import Mathlib.Tactic
import Mathlib.Data.List.Chain

/-!
# Extent lists

A list of runs of consecutive numbers (disk blocks, pages), read as the list of the blocks it
covers, in order.

* `Run`, `Run.fin`, `Covers`, `total`: one run, the blocks of a list and their number.
* `nth`: the `k`-th block covered. **`nth_isSome_iff`**, `nth_covers`, **`nth_inj`** (the runs of a
  `Spread` list do not meet), `nth_append`, `nth_grow_last`.
* `Spread`: nonempty runs, increasing, with a gap between any two.
* `Growth`: a list that extends another without moving a block; it is transitive.
* `Placed`: lists, one for each owner, inside a range and without a common block; **`Placed.grow`**
  and `Placed.drop` keep it.
-/

namespace Extents

/-- The blocks `start, start + 1, …`, `sectors` of them. -/
structure Run where
  start : ℕ
  sectors : ℕ
deriving DecidableEq, Repr

/-- The first block after the run. -/
def Run.fin (r : Run) : ℕ := r.start + r.sectors

/-- Block `x` lies in the run. -/
def Run.Mem (r : Run) (x : ℕ) : Prop := r.start ≤ x ∧ x < r.fin

instance (r : Run) (x : ℕ) : Decidable (r.Mem x) := by unfold Run.Mem; infer_instance

/-- Block `x` lies in one of the runs. -/
def Covers (rs : List Run) (x : ℕ) : Prop := ∃ r ∈ rs, r.Mem x

instance (rs : List Run) (x : ℕ) : Decidable (Covers rs x) := by unfold Covers; infer_instance

/-- The number of blocks covered. -/
def total (rs : List Run) : ℕ := (rs.map Run.sectors).sum

/-- The `k`-th block covered. -/
def nth : List Run → ℕ → Option ℕ
  | [], _ => none
  | r :: rs, k => if k < r.sectors then some (r.start + k) else nth rs (k - r.sectors)

/-- Nonempty runs in increasing order, with a gap between any two. -/
structure Spread (rs : List Run) : Prop where
  pos : ∀ r ∈ rs, 1 ≤ r.sectors
  gap : rs.Pairwise fun a b => a.fin < b.start

@[simp] theorem total_nil : total [] = 0 := rfl

@[simp] theorem total_cons (r : Run) (rs : List Run) : total (r :: rs) = r.sectors + total rs := by
  simp [total]

@[simp] theorem total_append (rs ss : List Run) : total (rs ++ ss) = total rs + total ss := by
  simp [total]

@[simp] theorem covers_nil (x : ℕ) : ¬ Covers [] x := by simp [Covers]

theorem covers_cons {r : Run} {rs : List Run} {x : ℕ} :
    Covers (r :: rs) x ↔ r.Mem x ∨ Covers rs x := by simp [Covers]

theorem covers_append {rs ss : List Run} {x : ℕ} :
    Covers (rs ++ ss) x ↔ Covers rs x ∨ Covers ss x := by
  simp only [Covers, List.mem_append, or_and_right, exists_or]

theorem spread_nil : Spread [] := ⟨by simp, List.Pairwise.nil⟩

theorem Spread.tail {r : Run} {rs : List Run} (h : Spread (r :: rs)) : Spread rs :=
  ⟨fun s hs => h.pos s (List.mem_cons_of_mem _ hs), (List.pairwise_cons.mp h.gap).2⟩

theorem Spread.head_lt {r : Run} {rs : List Run} (h : Spread (r :: rs)) {x : ℕ}
    (hx : Covers rs x) : r.fin < x := by
  obtain ⟨s, hs, hm⟩ := hx
  exact lt_of_lt_of_le ((List.pairwise_cons.mp h.gap).1 s hs) hm.1

/-- **The `k`-th block exists below the total, and only there.** -/
theorem nth_isSome_iff (rs : List Run) (k : ℕ) : (nth rs k).isSome ↔ k < total rs := by
  induction rs generalizing k with
  | nil => simp [nth]
  | cons r rs ih =>
    simp only [nth, total_cons]
    split_ifs with h
    · simp only [Option.isSome_some, true_iff]; omega
    · rw [ih]; omega

theorem nth_of_lt {rs : List Run} {k : ℕ} (h : k < total rs) : ∃ x, nth rs k = some x :=
  Option.isSome_iff_exists.mp ((nth_isSome_iff rs k).mpr h)

theorem lt_total_of_nth {rs : List Run} {k x : ℕ} (h : nth rs k = some x) : k < total rs :=
  (nth_isSome_iff rs k).mp (by rw [h]; rfl)

theorem nth_eq_none {rs : List Run} {k : ℕ} (h : total rs ≤ k) : nth rs k = none := by
  by_contra hc
  exact absurd ((nth_isSome_iff rs k).mp (Option.isSome_iff_ne_none.mpr hc)) (by omega)

theorem nth_covers {rs : List Run} {k x : ℕ} (h : nth rs k = some x) : Covers rs x := by
  induction rs generalizing k with
  | nil => simp [nth] at h
  | cons r rs ih =>
    simp only [nth] at h
    split_ifs at h with hk
    · cases h
      exact covers_cons.mpr (Or.inl ⟨by omega, by simp only [Run.fin]; omega⟩)
    · exact covers_cons.mpr (Or.inr (ih h))

/-- Every block covered has a position. -/
theorem exists_nth {rs : List Run} {x : ℕ} (h : Covers rs x) : ∃ k, nth rs k = some x := by
  induction rs with
  | nil => exact absurd h (covers_nil x)
  | cons r rs ih =>
    rcases covers_cons.mp h with ⟨hlo, hhi⟩ | h
    · refine ⟨x - r.start, ?_⟩
      rw [Run.fin] at hhi
      rw [nth, if_pos (by omega)]
      congr 1
      omega
    · obtain ⟨k, hk⟩ := ih h
      refine ⟨r.sectors + k, ?_⟩
      rw [nth, if_neg (by omega), Nat.add_sub_cancel_left]
      exact hk

/-- **Different positions of a spread list are different blocks.** -/
theorem nth_inj {rs : List Run} (hs : Spread rs) {j k x : ℕ} (hj : nth rs j = some x)
    (hk : nth rs k = some x) : j = k := by
  induction rs generalizing j k with
  | nil => simp [nth] at hj
  | cons r rs ih =>
    simp only [nth] at hj hk
    split_ifs at hj hk with h₁ h₂ h₂
    · have := hj.trans hk.symm
      simp only [Option.some.injEq] at this
      omega
    · cases hj
      have := hs.head_lt (nth_covers hk)
      simp only [Run.fin] at this; omega
    · cases hk
      have := hs.head_lt (nth_covers hj)
      simp only [Run.fin] at this; omega
    · have := ih hs.tail hj hk
      omega

theorem nth_append {rs : List Run} (ss : List Run) {k : ℕ} (h : k < total rs) :
    nth (rs ++ ss) k = nth rs k := by
  induction rs generalizing k with
  | nil => simp at h
  | cons r rs ih =>
    simp only [total_cons] at h
    simp only [List.cons_append, nth]
    split_ifs with hk
    · rfl
    · exact ih (by omega)

/-! ## Growing a list -/

/-- `rs'` covers at least what `rs` does and moves no block of it; every new block satisfies `P`. -/
structure Growth (P : ℕ → Prop) (rs rs' : List Run) : Prop where
  keep : ∀ k < total rs, nth rs' k = nth rs k
  new : ∀ x, Covers rs' x → Covers rs x ∨ P x
  le : total rs ≤ total rs'

variable {P : ℕ → Prop} {rs rs' rs'' : List Run}

theorem Growth.refl (rs : List Run) : Growth P rs rs := ⟨fun _ _ => rfl, fun _ => Or.inl, le_rfl⟩

theorem Growth.trans (h : Growth P rs rs') (h' : Growth P rs' rs'') : Growth P rs rs'' where
  keep k hk := (h'.keep k (lt_of_lt_of_le hk h.le)).trans (h.keep k hk)
  new x hx := (h'.new x hx).elim (h.new x) Or.inr
  le := h.le.trans h'.le

/-- Appending a run of blocks that satisfy `P`. -/
theorem growth_append {r : Run} (hr : ∀ x, r.Mem x → P x) : Growth P rs (rs ++ [r]) where
  keep _ hk := nth_append _ hk
  new x hx := by
    rcases covers_append.mp hx with hx | hx
    · exact Or.inl hx
    · rcases covers_cons.mp hx with hx | hx
      · exact Or.inr (hr x hx)
      · exact absurd hx (covers_nil x)
  le := by simp

/-- Lengthening the last run by blocks that satisfy `P`. -/
theorem growth_last {r : Run} {n : ℕ} (hr : ∀ x, r.fin ≤ x → x < r.fin + n → P x) :
    Growth P (rs ++ [r]) (rs ++ [{ r with sectors := r.sectors + n }]) where
  keep k hk := by
    induction rs generalizing k with
    | nil =>
      simp only [List.nil_append, total_cons, total_nil] at hk
      simp only [List.nil_append, nth]
      rw [if_pos (by omega), if_pos (by omega)]
    | cons s rs ih =>
      simp only [List.cons_append, total_cons] at hk
      simp only [List.cons_append, nth]
      split_ifs with h
      · rfl
      · exact ih _ (by omega)
  new x hx := by
    rcases covers_append.mp hx with hx | hx
    · exact Or.inl (covers_append.mpr (Or.inl hx))
    · rcases covers_cons.mp hx with hx | hx
      · simp only [Run.Mem, Run.fin] at hx
        by_cases h : x < r.fin
        · refine Or.inl (covers_append.mpr (Or.inr (covers_cons.mpr (Or.inl ⟨hx.1, h⟩))))
        · refine Or.inr (hr x (by omega) ?_)
          simp only [Run.fin]; omega
      · exact absurd hx (covers_nil x)
  le := by simp

theorem spread_append {r : Run} (h : Spread rs) (hr : 1 ≤ r.sectors)
    (hgap : ∀ s ∈ rs, s.fin < r.start) : Spread (rs ++ [r]) where
  pos s hs := by
    rcases List.mem_append.mp hs with hs | hs
    · exact h.pos s hs
    · rw [List.mem_singleton.mp hs]; exact hr
  gap := List.pairwise_append.mpr ⟨h.gap, List.pairwise_singleton _ _, fun s hs t ht => by
    rw [List.mem_singleton.mp ht]; exact hgap s hs⟩

theorem Spread.grow_last {r : Run} (h : Spread (rs ++ [r])) (n : ℕ) :
    Spread (rs ++ [{ r with sectors := r.sectors + n }]) := by
  obtain ⟨h₁, -, h₂⟩ := List.pairwise_append.mp h.gap
  refine spread_append ⟨fun s hs => h.pos s (by simp [hs]), h₁⟩ ?_ fun s hs => h₂ s hs r (by simp)
  have := h.pos r (by simp)
  simp only; omega

/-- The last run of a spread list ends after all others. -/
theorem Spread.fin_le_last {r : Run} (h : Spread (rs ++ [r])) : ∀ s ∈ rs ++ [r], s.fin ≤ r.fin := by
  intro s hs
  rcases List.mem_append.mp hs with hs | hs
  · have := (List.pairwise_append.mp h.gap).2.2 s hs r (by simp)
    simp only [Run.fin] at this ⊢; omega
  · rw [List.mem_singleton.mp hs]

/-- A spread list inside a range covers no more blocks than the range has. -/
theorem Spread.total_le {lo hi : ℕ} (h : Spread rs)
    (hin : ∀ x, Covers rs x → lo ≤ x ∧ x < hi) : total rs ≤ hi - lo := by
  induction rs generalizing lo with
  | nil => simp
  | cons r rs ih =>
    have hpos := h.pos r (by simp)
    have hfirst := hin r.start (covers_cons.mpr (Or.inl ⟨le_rfl, by simp only [Run.fin]; omega⟩))
    have hlast := hin (r.start + (r.sectors - 1))
      (covers_cons.mpr (Or.inl ⟨by omega, by simp only [Run.fin]; omega⟩))
    have hrest : ∀ x, Covers rs x → r.fin ≤ x ∧ x < hi := fun x hx =>
      ⟨(h.head_lt hx).le, (hin x (covers_cons.mpr (Or.inr hx))).2⟩
    have := ih h.tail hrest
    simp only [total_cons, Run.fin] at this ⊢
    omega

/-- The ends of a run of a list that covers only blocks of a range. -/
theorem Run.bounds {r : Run} {lo hi : ℕ} (hr : r ∈ rs) (hpos : 1 ≤ r.sectors)
    (hin : ∀ x, Covers rs x → lo ≤ x ∧ x < hi) : lo ≤ r.start ∧ r.fin ≤ hi := by
  have hfirst := hin r.start ⟨r, hr, le_rfl, by simp only [Run.fin]; omega⟩
  have hlast := hin (r.start + (r.sectors - 1)) ⟨r, hr, by omega, by simp only [Run.fin]; omega⟩
  simp only [Run.fin]
  omega

/-! ## Lists with owners -/

section Placed

variable {ι : Type} [DecidableEq ι] {lo hi : ℕ} {f : ι → List Run}

/-- Spread lists inside `[lo, hi)`, no two with a common block. -/
structure Placed (lo hi : ℕ) (f : ι → List Run) : Prop where
  spread : ∀ i, Spread (f i)
  inside : ∀ i x, Covers (f i) x → lo ≤ x ∧ x < hi
  apart : ∀ i j x, Covers (f i) x → Covers (f j) x → i = j

theorem Placed.update (h : Placed lo hi f) {i : ι} {rs : List Run} (hs : Spread rs)
    (hin : ∀ x, Covers rs x → lo ≤ x ∧ x < hi)
    (hap : ∀ j ≠ i, ∀ x, Covers rs x → ¬ Covers (f j) x) :
    Placed lo hi (Function.update f i rs) := by
  have pick : ∀ {j x}, Covers (Function.update f i rs j) x →
      j = i ∧ Covers rs x ∨ j ≠ i ∧ Covers (f j) x := by
    intro j x hx
    by_cases hj : j = i
    · subst hj
      rw [Function.update_self] at hx
      exact Or.inl ⟨rfl, hx⟩
    · rw [Function.update_of_ne hj] at hx
      exact Or.inr ⟨hj, hx⟩
  refine ⟨fun j => ?_, fun j x hx => ?_, fun j k x hj hk => ?_⟩
  · by_cases hj : j = i
    · subst hj
      rwa [Function.update_self]
    · rw [Function.update_of_ne hj]
      exact h.spread j
  · rcases pick hx with ⟨-, hx⟩ | ⟨-, hx⟩
    · exact hin x hx
    · exact h.inside j x hx
  · rcases pick hj with ⟨hj', hxj⟩ | ⟨hj', hxj⟩ <;> rcases pick hk with ⟨hk', hxk⟩ | ⟨hk', hxk⟩
    · rw [hj', hk']
    · exact absurd hxk (hap k hk' x hxj)
    · exact absurd hxj (hap j hj' x hxk)
    · exact h.apart j k x hxj hxk

/-- **A list may grow into blocks of the range that nobody else owns.** -/
theorem Placed.grow (h : Placed lo hi f) {i : ι} {rs' : List Run} {P : ℕ → Prop}
    (hg : Growth P (f i) rs') (hs : Spread rs')
    (hP : ∀ x, P x → lo ≤ x ∧ x < hi ∧ ∀ j ≠ i, ¬ Covers (f j) x) :
    Placed lo hi (Function.update f i rs') := by
  refine h.update hs (fun x hx => ?_) fun j hj x hx hc => ?_
  · rcases hg.new x hx with hx | hx
    · exact h.inside i x hx
    · exact ⟨(hP x hx).1, (hP x hx).2.1⟩
  · rcases hg.new x hx with hx | hx
    · exact hj (h.apart j i x hc hx)
    · exact (hP x hx).2.2 j hj hc

/-- An owner may give all its blocks back. -/
theorem Placed.drop (h : Placed lo hi f) (i : ι) : Placed lo hi (Function.update f i []) :=
  h.update spread_nil (fun x hx => absurd hx (covers_nil x)) fun _ _ x hx => absurd hx (covers_nil x)

end Placed

end Extents
