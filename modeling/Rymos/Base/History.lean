import Mathlib.Tactic
import Rymos.Base.Runs

/-!
# Histories

`record note step` is the system `step` beside a record of what has happened, which `note` keeps up to
date. The record takes no part in the steps.

* `record_eq_some`: a step of the recorded system is a step of the system.
* `reach_fst`: forgetting the record, the states reached are reached.
* **`exec_record`**: every run of the system is recorded.
-/

namespace Transition

variable {σ α γ : Type} {note : γ → σ → α → γ} {step : σ → α → Option σ}

/-- The step `step`, with a record kept beside the state. -/
def record (note : γ → σ → α → γ) (step : σ → α → Option σ) (x : σ × γ) (a : α) : Option (σ × γ) :=
  (step x.1 a).map fun s' => (s', note x.2 x.1 a)

theorem record_eq_some {x y : σ × γ} {a : α} :
    record note step x a = some y ↔ step x.1 a = some y.1 ∧ y.2 = note x.2 x.1 a := by
  rw [record, Option.map_eq_some_iff]
  constructor
  · rintro ⟨s', hs, rfl⟩
    exact ⟨hs, rfl⟩
  · rintro ⟨hs, hy⟩
    exact ⟨y.1, hs, Prod.ext rfl hy.symm⟩

theorem reach_fst {init : σ × γ → Prop} {init' : σ → Prop} {good : σ × γ → α → Prop}
    {good' : σ → α → Prop} (hi : ∀ x, init x → init' x.1) (hg : ∀ x a, good x a → good' x.1 a)
    {x : σ × γ} (h : Reach init good (record note step) x) : Reach init' good' step x.1 := by
  induction h with
  | start h => exact .start (hi _ h)
  | next _ hga he ih => exact .next ih (hg _ _ hga) (record_eq_some.mp he).1

/-- **A record restricts no run.** -/
theorem exec_record {s s' : σ} (g : γ) {as : List α} (h : exec step s as = some s') :
    ∃ g', exec (record note step) (s, g) as = some (s', g') := by
  induction as generalizing s g with
  | nil =>
    cases h
    exact ⟨g, rfl⟩
  | cons a as ih =>
    simp only [exec] at h
    obtain ⟨t, ht, h⟩ := Option.bind_eq_some_iff.mp h
    obtain ⟨g', hg⟩ := ih (note g s a) h
    exact ⟨g', (exec_cons (record_eq_some.mpr ⟨ht, rfl⟩)).trans hg⟩

end Transition
