import Mathlib.Tactic

/-!
# Intervals that are apart

* `Interval`, `Interval.Mem`, `Interval.Within`, `Interval.Apart`: the numbers from `lo` up to `hi`.
* **`Interval.Apart.within`**: what is within intervals that are apart is apart.
* **`total_le`**: intervals that are apart have no more numbers than the range they are in.
-/

namespace Intervals

/-- The numbers `lo, lo + 1, …` below `hi`. -/
structure Interval where
  lo : ℕ
  hi : ℕ
deriving DecidableEq

namespace Interval

def length (I : Interval) : ℕ := I.hi - I.lo

/-- `I` is a part of `J`. -/
def Within (I J : Interval) : Prop := J.lo ≤ I.lo ∧ I.hi ≤ J.hi

/-- `I` is before `J`, or after it. -/
def Apart (I J : Interval) : Prop := I.hi ≤ J.lo ∨ J.hi ≤ I.lo

instance (I J : Interval) : Decidable (I.Within J) := inferInstanceAs (Decidable (_ ∧ _))
instance (I J : Interval) : Decidable (I.Apart J) := inferInstanceAs (Decidable (_ ∨ _))

variable {I J K L : Interval}

theorem Apart.symm (h : I.Apart J) : J.Apart I := Or.symm h

theorem Apart.within (h : I.Apart J) (hK : K.Within I) (hL : L.Within J) : K.Apart L :=
  h.imp (fun hc => hK.2.trans (hc.trans hL.1)) fun hc => hL.2.trans (hc.trans hK.1)

theorem Within.refl (I : Interval) : I.Within I := ⟨le_rfl, le_rfl⟩

theorem Within.trans (h : I.Within J) (h' : J.Within K) : I.Within K :=
  ⟨h'.1.trans h.1, h.2.trans h'.2⟩

end Interval

/-- The numbers in the intervals of a list. -/
def cover : List Interval → Finset ℕ
  | [] => ∅
  | I :: l => Finset.Ico I.lo I.hi ∪ cover l

theorem mem_cover {l : List Interval} {x : ℕ} : x ∈ cover l ↔ ∃ I ∈ l, I.lo ≤ x ∧ x < I.hi := by
  induction l with
  | nil => simp [cover]
  | cons I l ih => simp [cover, ih]

/-- The number of them all, counted one by one. -/
def total (l : List Interval) : ℕ := (l.map Interval.length).sum

theorem total_cons (I : Interval) (l : List Interval) : total (I :: l) = I.length + total l :=
  List.sum_cons

theorem card_cover {l : List Interval} (h : l.Pairwise Interval.Apart) : (cover l).card = total l := by
  induction l with
  | nil => rfl
  | cons I l ih =>
    obtain ⟨hI, hl⟩ := List.pairwise_cons.mp h
    have hd : Disjoint (Finset.Ico I.lo I.hi) (cover l) := by
      refine Finset.disjoint_left.mpr fun x hx hx' => ?_
      obtain ⟨J, hJ, hlo, hhi⟩ := mem_cover.mp hx'
      have hxI := Finset.mem_Ico.mp hx
      rcases hI J hJ with hc | hc <;> omega
    rw [cover, Finset.card_union_of_disjoint hd, ih hl, Nat.card_Ico, total_cons, Interval.length]

/-- **Intervals that are apart** are no longer together than the range they are in. -/
theorem total_le {l : List Interval} {n : ℕ} (h : l.Pairwise Interval.Apart) (hn : ∀ I ∈ l, I.hi ≤ n) :
    total l ≤ n := by
  have hsub : cover l ⊆ Finset.range n := fun x hx => by
    obtain ⟨I, hI, -, hhi⟩ := mem_cover.mp hx
    exact Finset.mem_range.mpr (hhi.trans_le (hn I hI))
  calc total l = (cover l).card := (card_cover h).symm
    _ ≤ (Finset.range n).card := Finset.card_le_card hsub
    _ = n := Finset.card_range n

end Intervals
