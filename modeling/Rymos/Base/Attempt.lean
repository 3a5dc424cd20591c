import Mathlib.Tactic

/-!
# Programs that may stop early

* `Attempt σ ε α`: a program on a state `σ` that returns a value, stops with a reason, or does not
  return. `stop`, `call`, `orStop`.
* **`Sat`**: what holds of every run that returns or stops; `Sat.bind`, `Sat.mono`, `Sat.orStop`.
* **`Ends`**: what holds of a run, which returns or stops; `Ends.bind`, `Ends.mono`, `Ends.result`.
-/

/-- From a state: nothing if the program does not return, else the state it leaves, with its value or
with the reason why it stopped. -/
def Attempt (σ ε α : Type) : Type := σ → Option (σ × Except ε α)

namespace Attempt

variable {σ ε α β : Type}

instance : Monad (Attempt σ ε) where
  pure a := fun s => some (s, .ok a)
  bind p f := fun s =>
    match p s with
    | none => none
    | some (s, .error e) => some (s, .error e)
    | some (s, .ok a) => f a s

def stop (e : ε) : Attempt σ ε α := fun s => some (s, .error e)

/-- The state as it is. -/
def read : Attempt σ ε σ := fun s => some (s, .ok s)

/-- A step that may fail to return. -/
def call (f : σ → Option σ) : Attempt σ ε Unit := fun s => (f s).map fun s => (s, .ok ())

/-- A call that is answered or refused; the program stops where it is refused. -/
def orStop (f : σ → Option (σ × Option α)) (reason : σ → ε) : Attempt σ ε α := fun s =>
  match f s with
  | none => none
  | some (s, none) => some (s, .error (reason s))
  | some (s, some a) => some (s, .ok a)

/-- What a program returns or stops with. -/
def result (p : Attempt σ ε α) : Attempt σ ε (Except ε α) := fun s =>
  (p s).map fun (s, r) => (s, .ok r)

/-- A run from `s` that returns satisfies `Q`, one that stops satisfies `E`. -/
def Sat (p : Attempt σ ε α) (s : σ) (Q : α → σ → Prop) (E : ε → σ → Prop) : Prop :=
  ∀ s' r, p s = some (s', r) →
    match r with
    | .ok a => Q a s'
    | .error e => E e s'

section Rules

variable {s : σ} {Q Q' : α → σ → Prop} {E E' : ε → σ → Prop} {R : β → σ → Prop}

theorem Sat.pure {a : α} (h : Q a s) : Sat (Pure.pure a : Attempt σ ε α) s Q E := by
  rintro s' r hr
  cases hr
  exact h

theorem Sat.stop {e : ε} (h : E e s) : Sat (stop e : Attempt σ ε α) s Q E := by
  rintro s' r hr
  cases hr
  exact h

theorem Sat.read {Q : σ → σ → Prop} (h : Q s s) : Sat (read : Attempt σ ε σ) s Q E := by
  rintro s' r hr
  cases hr
  exact h

/-- One program after the other. -/
theorem Sat.bind {p : Attempt σ ε α} {f : α → Attempt σ ε β} (hp : Sat p s Q E)
    (hf : ∀ a s', Q a s' → Sat (f a) s' R E) : Sat (p >>= f) s R E := by
  intro s' r hr
  have hb : (p >>= f) s = match p s with
      | none => none
      | some (s, .error e) => some (s, .error e)
      | some (s, .ok a) => f a s := rfl
  rw [hb] at hr
  cases hps : p s with
  | none => rw [hps] at hr; cases hr
  | some out =>
    obtain ⟨s₁, r₁⟩ := out
    rw [hps] at hr
    have hq := hp s₁ r₁ hps
    cases r₁ with
    | error e =>
      cases hr
      exact hq
    | ok a => exact hf a s₁ hq s' r hr

theorem Sat.mono {p : Attempt σ ε α} (hp : Sat p s Q E) (hQ : ∀ a s', Q a s' → Q' a s')
    (hE : ∀ e s', E e s' → E' e s') : Sat p s Q' E' := by
  intro s' r hr
  have h := hp s' r hr
  cases r with
  | error e => exact hE e s' h
  | ok a => exact hQ a s' h

theorem Sat.call {f : σ → Option σ} {Q : Unit → σ → Prop} (h : ∀ s', f s = some s' → Q () s') :
    Sat (call f : Attempt σ ε Unit) s Q E := by
  intro s' r hr
  obtain ⟨s₁, hs, he⟩ := Option.map_eq_some_iff.mp hr
  cases he
  exact h s' hs

/-- A call that is answered leaves `Q`, one that is refused leaves `E`. -/
theorem Sat.orStop {f : σ → Option (σ × Option α)} {reason : σ → ε}
    (hQ : ∀ s' a, f s = some (s', some a) → Q a s')
    (hE : ∀ s', f s = some (s', none) → E (reason s') s') : Sat (orStop f reason) s Q E := by
  intro s' r hr
  unfold Attempt.orStop at hr
  cases hfs : f s with
  | none => rw [hfs] at hr; cases hr
  | some out =>
    obtain ⟨s₁, a⟩ := out
    rw [hfs] at hr
    cases a with
    | none => cases hr; exact hE s' hfs
    | some a => cases hr; exact hQ s' a hfs

end Rules

/-! ## Runs that end -/

/-- The run from `s` ends; it satisfies `Q` if it returns and `E` if it stops. -/
def Ends (p : Attempt σ ε α) (s : σ) (Q : α → σ → Prop) (E : ε → σ → Prop) : Prop :=
  ∃ s' r, p s = some (s', r) ∧
    match r with
    | .ok a => Q a s'
    | .error e => E e s'

section Ends

variable {s : σ} {Q Q' : α → σ → Prop} {E E' : ε → σ → Prop} {R : β → σ → Prop}

theorem Ends.pure {a : α} (h : Q a s) : Ends (Pure.pure a : Attempt σ ε α) s Q E :=
  ⟨s, .ok a, rfl, h⟩

theorem Ends.stop {e : ε} (h : E e s) : Ends (Attempt.stop e : Attempt σ ε α) s Q E :=
  ⟨s, .error e, rfl, h⟩

theorem Ends.read {Q : σ → σ → Prop} (h : Q s s) : Ends (Attempt.read : Attempt σ ε σ) s Q E :=
  ⟨s, .ok s, rfl, h⟩

theorem Ends.call {f : σ → Option σ} {s' : σ} {Q : Unit → σ → Prop} (hf : f s = some s') (h : Q () s') :
    Ends (Attempt.call f : Attempt σ ε Unit) s Q E :=
  ⟨s', .ok (), by rw [Attempt.call, hf]; rfl, h⟩

/-- One program after the other. -/
theorem Ends.bind {p : Attempt σ ε α} {f : α → Attempt σ ε β} (hp : Ends p s Q E)
    (hf : ∀ a s', Q a s' → Ends (f a) s' R E) : Ends (p >>= f) s R E := by
  obtain ⟨s', r, hr, h⟩ := hp
  cases r with
  | error e =>
    refine ⟨s', .error e, ?_, h⟩
    simp only [Bind.bind, hr]
  | ok a =>
    obtain ⟨s'', r', hr', h'⟩ := hf a s' h
    refine ⟨s'', r', ?_, h'⟩
    simp only [Bind.bind, hr]
    exact hr'

theorem Ends.mono {p : Attempt σ ε α} (hp : Ends p s Q E) (hQ : ∀ a s', Q a s' → Q' a s')
    (hE : ∀ e s', E e s' → E' e s') : Ends p s Q' E' := by
  obtain ⟨s', r, hr, h⟩ := hp
  refine ⟨s', r, hr, ?_⟩
  cases r with
  | error e => exact hE e s' h
  | ok a => exact hQ a s' h

/-- The state is read first. -/
theorem Ends.bind_read {f : σ → Attempt σ ε β} (hf : Ends (f s) s R E) :
    Ends (Attempt.read >>= f) s R E :=
  Ends.bind (Ends.read (Q := fun a s' => a = s ∧ s' = s) ⟨rfl, rfl⟩) fun _ _ h => h.1 ▸ h.2 ▸ hf

/-- A program that has stopped is gone on from. -/
theorem Ends.result {p : Attempt σ ε α} {Q' : Except ε α → σ → Prop} (hp : Ends p s Q E)
    (hQ : ∀ a s', Q a s' → Q' (.ok a) s') (hE : ∀ e s', E e s' → Q' (.error e) s') :
    Ends (Attempt.result p) s Q' E' := by
  obtain ⟨s', r, hr, h⟩ := hp
  refine ⟨s', .ok r, by rw [Attempt.result, hr]; rfl, ?_⟩
  cases r with
  | error e => exact hE e s' h
  | ok a => exact hQ a s' h

theorem Ends.ok {p : Attempt σ ε α} (hp : Ends p s Q E) {s' : σ} {a : α}
    (h : p s = some (s', .ok a)) : Q a s' := by
  obtain ⟨s'', r, hr, hq⟩ := hp
  rw [h] at hr
  cases hr
  exact hq

end Ends

end Attempt
