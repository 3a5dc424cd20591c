import Mathlib.Tactic

/-!
# Runs of a step function

A system is a partial step function `step : σ → α → Option σ`. A run is constrained by a
condition `good` on the state before a step and the action taken.

* `exec`: the state after a list of actions. `exec_append`, `exec_cons`.
* `Reach init good step`: the states reached from `init` by steps that meet `good`.
* **`Reach.inv`**: what holds initially and is kept by every good step holds when reached.
* **`Reach.sim`**: the simulation rule.
* `Reach.mono`, `reach_of_exec`: fewer conditions reach more; a run of good steps (`AllGood`) reaches
  its end. `allGood_congr`.
-/

namespace Transition

variable {σ α : Type}

/-- The state after the actions `as`, if all of them can be taken. -/
def exec (step : σ → α → Option σ) (s : σ) : List α → Option σ
  | [] => some s
  | a :: as => (step s a).bind fun s' => exec step s' as

theorem exec_cons {step : σ → α → Option σ} {s s' : σ} {a : α} {as : List α}
    (h : step s a = some s') : exec step s (a :: as) = exec step s' as := by
  simp [exec, h]

theorem exec_append (step : σ → α → Option σ) (s : σ) (as bs : List α) :
    exec step s (as ++ bs) = (exec step s as).bind fun s' => exec step s' bs := by
  induction as generalizing s with
  | nil => rfl
  | cons a as ih =>
    simp only [List.cons_append, exec]
    cases step s a with
    | none => rfl
    | some s' => exact ih s'

/-- The states reached from `init` by steps that meet `good`. -/
inductive Reach (init : σ → Prop) (good : σ → α → Prop) (step : σ → α → Option σ) : σ → Prop
  | start {s : σ} : init s → Reach init good step s
  | next {s s' : σ} {a : α} : Reach init good step s → good s a → step s a = some s' →
      Reach init good step s'

variable {init : σ → Prop} {good good' : σ → α → Prop} {step : σ → α → Option σ}

/-- **The invariant rule.** -/
theorem Reach.inv {I : σ → Prop} (hi : ∀ s, init s → I s)
    (hs : ∀ s a s', I s → good s a → step s a = some s' → I s') {s : σ}
    (h : Reach init good step s) : I s := by
  induction h with
  | start h => exact hi _ h
  | next _ hg he ih => exact hs _ _ _ ih hg he

theorem Reach.mono (hg : ∀ s a, good s a → good' s a) {s : σ} (h : Reach init good step s) :
    Reach init good' step s := by
  induction h with
  | start h => exact .start h
  | next _ hg' he ih => exact .next ih (hg _ _ hg') he

/-- **The simulation rule.** If `f` takes the steps from states that meet `J` to steps of another
system, it takes the states reached to states reached there. -/
theorem Reach.sim {τ β : Type} {init' : τ → Prop} {good' : τ → β → Prop}
    {step' : τ → β → Option τ} (f : σ → τ) (g : α → β) {J : σ → Prop}
    (hi : ∀ s, init s → J s ∧ init' (f s))
    (hs : ∀ s a s', J s → good s a → step s a = some s' →
      J s' ∧ good' (f s) (g a) ∧ step' (f s) (g a) = some (f s')) {s : σ}
    (h : Reach init good step s) : J s ∧ Reach init' good' step' (f s) := by
  induction h with
  | start h => exact ⟨(hi _ h).1, .start (hi _ h).2⟩
  | next _ hg he ih =>
    obtain ⟨hj, hg', he'⟩ := hs _ _ _ ih.1 hg he
    exact ⟨hj, .next ih.2 hg' he'⟩

/-- Every step of the run `as` from `s` meets `good`. -/
def AllGood (good : σ → α → Prop) (step : σ → α → Option σ) : σ → List α → Prop
  | _, [] => True
  | s, a :: as => good s a ∧ ∀ s', step s a = some s' → AllGood good step s' as

instance decidableAllGood [∀ s a, Decidable (good s a)] (s : σ) :
    (as : List α) → Decidable (AllGood good step s as)
  | [] => isTrue trivial
  | a :: as =>
    match he : step s a with
    | none => decidable_of_iff (good s a) ⟨fun h => ⟨h, fun s' hs => by simp [he] at hs⟩, And.left⟩
    | some t =>
      have := decidableAllGood t as
      decidable_of_iff (good s a ∧ AllGood good step t as)
        ⟨fun h => ⟨h.1, fun s' hs => by
          obtain rfl : t = s' := Option.some.inj (he.symm.trans hs)
          exact h.2⟩, fun h => ⟨h.1, h.2 t he⟩⟩

/-- A run of good steps from a reached state reaches its end. -/
theorem reach_of_exec {s s' : σ} {as : List α} (h : Reach init good step s)
    (hg : AllGood good step s as) (he : exec step s as = some s') : Reach init good step s' := by
  induction as generalizing s with
  | nil => cases he; exact h
  | cons a as ih =>
    simp only [exec] at he
    obtain ⟨t, ht, he⟩ := Option.bind_eq_some_iff.mp he
    exact ih (.next h hg.1 ht) (hg.2 t ht) he

/-- Two conditions that mean the same in the states a run goes through hold of the same runs. -/
theorem allGood_congr {I : σ → Prop} (hg : ∀ s a, I s → (good s a ↔ good' s a))
    (hi : ∀ s a s', I s → good s a → step s a = some s' → I s') {s : σ} (h : I s) (as : List α) :
    AllGood good step s as ↔ AllGood good' step s as := by
  induction as generalizing s with
  | nil => rfl
  | cons a as ih =>
    rw [AllGood, AllGood, ← hg s a h]
    exact and_congr_right fun hga => forall₂_congr fun s' hs => ih (hi s a s' h hga hs)

theorem allGood_true (s : σ) (as : List α) : AllGood (fun _ _ => True) step s as := by
  induction as generalizing s with
  | nil => trivial
  | cons a as ih => exact ⟨trivial, fun s' _ => ih s'⟩

end Transition
