import Mathlib.Tactic

/-!
# Counting loops

* **`foldlM_range_inv`**: an invariant that each turn of a loop keeps, up to the last one.
* `foldl_keeps`, **`foldl_fills`**: a loop that leaves something alone, and one each turn of which stores
  the same value in some places.
-/

namespace Loops

variable {σ β κ α : Type*}

/-- What holds before turn `0`, and behind turn `i` if it holds before it, holds in the end. -/
theorem foldlM_range_inv {f : σ → ℕ → Option σ} {n : ℕ} (P : ℕ → σ → Prop) {s : σ} (hs : P 0 s)
    (hturn : ∀ i < n, ∀ s, P i s → ∃ s', f s i = some s' ∧ P (i + 1) s') :
    ∃ s', (List.range n).foldlM f s = some s' ∧ P n s' := by
  induction n with
  | zero => exact ⟨s, rfl, hs⟩
  | succ n ih =>
    obtain ⟨s₁, hrun, h₁⟩ := ih fun i hi => hturn i (Nat.lt_succ_of_lt hi)
    obtain ⟨s₂, hlast, h₂⟩ := hturn n (Nat.lt_succ_self n) s₁ h₁
    refine ⟨s₂, ?_, h₂⟩
    rw [List.range_succ, List.foldlM_append, hrun]
    simpa using hlast

/-- What no turn changes. -/
theorem foldl_keeps {view : σ → α} {f : σ → β → σ} (hf : ∀ s b, view (f s b) = view s) (l : List β)
    (s : σ) : view (l.foldl f s) = view s := by
  induction l generalizing s with
  | nil => rfl
  | cons b l ih => rw [List.foldl_cons, ih, hf]

/-- `v` is stored in the places `S`, and nothing else changes. -/
def Fills (v : α) (S : κ → Prop) (old new : κ → α) : Prop :=
  ∀ k, (S k → new k = v) ∧ (¬ S k → new k = old k)

theorem Fills.refl (v : α) (m : κ → α) : Fills v (fun _ => False) m m :=
  fun _ => ⟨False.elim, fun _ => rfl⟩

theorem Fills.trans {v : α} {S T : κ → Prop} {a b c : κ → α} (h : Fills v S a b) (h' : Fills v T b c) :
    Fills v (fun k => S k ∨ T k) a c := by
  refine fun k => ⟨fun hk => ?_, fun hk => ?_⟩
  · by_cases hT : T k
    · exact (h' k).1 hT
    · rw [(h' k).2 hT, (h k).1 (hk.resolve_right hT)]
  · rw [(h' k).2 fun hT => hk (.inr hT), (h k).2 fun hS => hk (.inl hS)]

theorem Fills.congr {v : α} {S T : κ → Prop} {a b : κ → α} (h : Fills v S a b) (he : ∀ k, S k ↔ T k) :
    Fills v T a b :=
  fun k => ⟨fun hk => (h k).1 ((he k).mpr hk), fun hk => (h k).2 fun hS => hk ((he k).mp hS)⟩

/-- Turn `b` fills the places `S b`. -/
theorem foldl_fills {view : σ → κ → α} {f : σ → β → σ} {v : α} {S : β → κ → Prop}
    (hf : ∀ s b, Fills v (S b) (view s) (view (f s b))) (l : List β) (s : σ) :
    Fills v (fun k => ∃ b ∈ l, S b k) (view s) (view (l.foldl f s)) := by
  induction l generalizing s with
  | nil => exact (Fills.refl v _).congr (by simp)
  | cons b l ih => exact ((hf s b).trans (ih (f s b))).congr (by simp)

end Loops
