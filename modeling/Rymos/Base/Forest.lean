import Mathlib.Tactic

/-!
# Trees stored as tables of paths

A table with slots `ι` holds named nodes, each a directory or not. A partial map `parent` on names
makes the table a forest if every parent named is a directory of the table.

* `Table`, `WF`: the table; distinct valid names, every parent present.
* **`WF.create`**, **`WF.remove`**, **`WF.rename`**: the updates that keep it.
* **`not_wf_rename_below`**: a node moved below its own name loses its parent.
* `Walk`, **`WF.walk`**: every node of a well-formed table is found by walking from the roots.
-/

namespace Forest

variable {ι N : Type} [DecidableEq ι]

/-- A name and whether it is a directory, by slot. -/
abbrev Table (ι N : Type) : Type := ι → Option (N × Bool)

/-- Distinct valid names, and every parent a directory of the table. -/
structure WF (valid : N → Prop) (parent : N → Option N) (t : Table ι N) : Prop where
  distinct : ∀ {i j n b c}, t i = some (n, b) → t j = some (n, c) → i = j
  valid : ∀ {i n b}, t i = some (n, b) → valid n
  rooted : ∀ {i n b d}, t i = some (n, b) → parent n = some d → ∃ j, t j = some (d, true)

variable {valid : N → Prop} {parent : N → Option N} {t : Table ι N}

/-- **A new name whose parent is present.** -/
theorem WF.create (h : WF valid parent t) {i : ι} {n : N} {b : Bool} (hi : t i = none)
    (hv : valid n) (hn : ∀ j c, t j ≠ some (n, c))
    (hp : ∀ d, parent n = some d → ∃ j, t j = some (d, true)) :
    WF valid parent (Function.update t i (some (n, b))) := by
  have keep : ∀ {d}, (∃ j, t j = some (d, true)) →
      ∃ j, Function.update t i (some (n, b)) j = some (d, true) := by
    rintro d ⟨j, hj⟩
    refine ⟨j, ?_⟩
    rw [Function.update_of_ne (by rintro rfl; rw [hi] at hj; cases hj), hj]
  refine ⟨fun {j k m c e} hj hk => ?_, fun {j m c} hj => ?_, fun {j m c d} hj hd => ?_⟩
  · by_cases h₁ : j = i <;> by_cases h₂ : k = i
    · rw [h₁, h₂]
    · subst h₁
      rw [Function.update_self] at hj
      rw [Function.update_of_ne h₂] at hk
      cases hj
      exact absurd hk (hn k e)
    · subst h₂
      rw [Function.update_self] at hk
      rw [Function.update_of_ne h₁] at hj
      cases hk
      exact absurd hj (hn j c)
    · rw [Function.update_of_ne h₁] at hj
      rw [Function.update_of_ne h₂] at hk
      exact h.distinct hj hk
  · by_cases h₁ : j = i
    · subst h₁
      rw [Function.update_self] at hj
      cases hj
      exact hv
    · rw [Function.update_of_ne h₁] at hj
      exact h.valid hj
  · by_cases h₁ : j = i
    · subst h₁
      rw [Function.update_self] at hj
      cases hj
      exact keep (hp d hd)
    · rw [Function.update_of_ne h₁] at hj
      exact keep (h.rooted hj hd)

/-- **A node without children goes.** -/
theorem WF.remove (h : WF valid parent t) {i : ι} {n : N} {b : Bool} (hi : t i = some (n, b))
    (he : b = true → ∀ j m c, t j = some (m, c) → parent m ≠ some n) :
    WF valid parent (Function.update t i none) := by
  have old : ∀ {j m c}, Function.update t i none j = some (m, c) → j ≠ i ∧ t j = some (m, c) := by
    intro j m c hj
    by_cases h₁ : j = i
    · rw [h₁, Function.update_self] at hj
      cases hj
    · exact ⟨h₁, by rwa [Function.update_of_ne h₁] at hj⟩
  refine ⟨fun hj hk => h.distinct (old hj).2 (old hk).2, fun hj => h.valid (old hj).2,
    fun {j m c d} hj hd => ?_⟩
  obtain ⟨k, hk⟩ := h.rooted (old hj).2 hd
  refine ⟨k, ?_⟩
  -- the parent itself cannot be the node removed: that one is a directory without children
  have hki : k ≠ i := by
    rintro rfl
    rw [hi] at hk
    cases hk
    exact he rfl j m c (old hj).2 hd
  rw [Function.update_of_ne hki, hk]

/-- **A node without children moves to a free name that does not lie right below its own.** -/
theorem WF.rename (h : WF valid parent t) {i : ι} {n m : N} {b : Bool} (hi : t i = some (n, b))
    (hv : valid m) (hm : ∀ j c, t j ≠ some (m, c))
    (hp : ∀ d, parent m = some d → ∃ j, t j = some (d, true))
    (he : b = true → ∀ j m c, t j = some (m, c) → parent m ≠ some n) (hne : parent m ≠ some n) :
    WF valid parent (Function.update t i (some (m, b))) := by
  have hr : WF valid parent (Function.update t i none) := h.remove hi he
  rw [← Function.update_idem (f := t) (a := i) none (some (m, b))]
  refine hr.create (Function.update_self ..) hv (fun j c => ?_) fun d hd => ?_
  · by_cases h₁ : j = i
    · rw [h₁, Function.update_self]
      exact nofun
    · rw [Function.update_of_ne h₁]
      exact hm j c
  · obtain ⟨j, hj⟩ := hp d hd
    refine ⟨j, ?_⟩
    have hji : j ≠ i := by
      rintro rfl
      rw [hi] at hj
      cases hj
      exact hne hd
    rw [Function.update_of_ne hji, hj]

/-- **A node moved right below its own name has no parent.** -/
theorem not_wf_rename_below (h : WF valid parent t) {i : ι} {n m : N} {b : Bool}
    (hi : t i = some (n, b)) (hm : parent m = some n) (hne : m ≠ n) :
    ¬ WF valid parent (Function.update t i (some (m, b))) := by
  intro hw
  obtain ⟨j, hj⟩ := hw.rooted (Function.update_self ..) hm
  by_cases h₁ : j = i
  · rw [h₁, Function.update_self] at hj
    cases hj
    exact hne rfl
  · rw [Function.update_of_ne h₁] at hj
    exact h₁ (h.distinct hj hi)

/-- Names found from the roots by going from a directory to the names right below it. -/
inductive Walk (parent : N → Option N) (t : Table ι N) : N → Prop
  | root {i : ι} {n : N} {b : Bool} : t i = some (n, b) → parent n = none → Walk parent t n
  | child {i j : ι} {n d : N} {b : Bool} : Walk parent t d → t j = some (d, true) →
      t i = some (n, b) → parent n = some d → Walk parent t n

omit [DecidableEq ι] in
/-- **Every node is found by walking**, when parents are smaller in some measure. -/
theorem WF.walk (h : WF valid parent t) (size : N → ℕ)
    (hs : ∀ n d, parent n = some d → size d < size n) {i : ι} {n : N} {b : Bool}
    (hi : t i = some (n, b)) : Walk parent t n := by
  induction hk : size n using Nat.strong_induction_on generalizing i n b with
  | h k ih =>
    cases hp : parent n with
    | none => exact .root hi hp
    | some d =>
      obtain ⟨j, hj⟩ := h.rooted hi hp
      exact .child (ih (size d) (hk ▸ hs n d hp) hj rfl) hj hi hp

end Forest
