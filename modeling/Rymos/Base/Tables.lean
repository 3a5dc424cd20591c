import Mathlib.Tactic

/-!
# Forests of tables

Tables refer to tables through their entries. A place is a root with the indexes that lead from it
to a page, the last one first. A layout says which page is at which place.

* `Layout`, `Lays`: a layout, and that it is the one that `next` reads: the owned entries of its
  pages lead to its pages, and no page is at two places.
* **`Lays.plant`**, **`Lays.prune`**, **`Lays.graft`**: an entry set, a subtree cut off, a root added.
* `Layout.Grows`, `Layout.Cleared`: nothing moved, and what is new, or gone, is at given places.
  `Grows.trans`, **`Grows.cleared`**.
-/

namespace TableTree

variable {ρ ι α : Type}

/-- The page at each place. -/
abbrev Layout (ρ ι α : Type) : Type := ρ → List ι → Option α

/-- `F` is the layout of the owned places as `next` reads them. -/
structure Lays (own : ρ → List ι → Prop) (next : α → ι → Option α) (F : Layout ρ ι α) : Prop where
  owned : ∀ {r p a}, F r p = some a → own r p
  parent : ∀ {r i p a}, F r (i :: p) = some a → ∃ b, F r p = some b
  child : ∀ {r i p a}, F r p = some a → own r (i :: p) → next a i = F r (i :: p)
  inj : ∀ {r p r' p' a}, F r p = some a → F r' p' = some a → r = r' ∧ p = p'

namespace Layout

/-- The tree of a root replaced. -/
def graft [DecidableEq ρ] (F : Layout ρ ι α) (r : ρ) (G : List ι → Option α) : Layout ρ ι α :=
  Function.update F r G

section Plant

variable [DecidableEq ρ] [DecidableEq ι] (F : Layout ρ ι α) (r : ρ) (p : List ι)

/-- The page `a` put at a place. -/
def plant (a : α) : Layout ρ ι α := fun r' p' => if r' = r ∧ p' = p then some a else F r' p'

/-- Everything at or below a place taken away. -/
def prune : Layout ρ ι α := fun r' p' => if r' = r ∧ p <:+ p' then none else F r' p'

variable {F r p} {a b : α} {r' : ρ} {p' : List ι}

@[simp] theorem plant_self : F.plant r p a r p = some a := by simp [plant]

theorem plant_of_ne (h : ¬ (r' = r ∧ p' = p)) : F.plant r p a r' p' = F r' p' := if_neg h

theorem plant_eq_some : F.plant r p a r' p' = some b ↔
    r' = r ∧ p' = p ∧ a = b ∨ ¬ (r' = r ∧ p' = p) ∧ F r' p' = some b := by
  unfold plant
  split_ifs with h
  · simp [h]
  · simp only [h, not_false_eq_true, true_and]
    exact ⟨.inr, fun hc => hc.resolve_left fun hc => h ⟨hc.1, hc.2.1⟩⟩

theorem plant_eq_self (h : F r p = some a) : F.plant r p a = F := by
  funext r' p'
  unfold plant
  split_ifs with hp
  · rw [hp.1, hp.2, h]
  · rfl

theorem prune_eq_some : F.prune r p r' p' = some a ↔ ¬ (r' = r ∧ p <:+ p') ∧ F r' p' = some a := by
  unfold prune
  split_ifs with h <;> simp [h]

theorem prune_le (h : F.prune r p r' p' = some a) : F r' p' = some a := (prune_eq_some.mp h).2

end Plant

/-! ### Growth -/

/-- `F'` has every page of `F`, and others at places in `P`. -/
def Grows (P : ρ → List ι → Prop) (F F' : Layout ρ ι α) : Prop :=
  ∀ r p, F' r p = F r p ∨ F r p = none ∧ P r p

section Growth

variable {P Q : ρ → List ι → Prop} {F F' F'' : Layout ρ ι α} {r : ρ} {p : List ι} {a : α}

theorem Grows.refl (P : ρ → List ι → Prop) (F : Layout ρ ι α) : Grows P F F := fun _ _ => .inl rfl

theorem Grows.mono (h : Grows P F F') (hPQ : ∀ r p, P r p → Q r p) : Grows Q F F' :=
  fun r p => (h r p).imp id fun hc => ⟨hc.1, hPQ r p hc.2⟩

theorem Grows.trans (h : Grows P F F') (h' : Grows P F' F'') : Grows P F F'' := by
  intro r p
  rcases h r p with hF | hF <;> rcases h' r p with hF' | hF'
  · exact .inl (hF'.trans hF)
  · exact .inr ⟨hF ▸ hF'.1, hF'.2⟩
  · exact .inr hF
  · exact .inr hF

theorem Grows.some (h : Grows P F F') (ha : F r p = some a) : F' r p = some a := by
  rcases h r p with hF | hF
  · exact hF.trans ha
  · rw [ha] at hF
    cases hF.1

theorem Grows.eq (h : Grows P F F') (hp : ¬ P r p) : F' r p = F r p :=
  (h r p).resolve_right fun hc => hp hc.2

theorem grows_plant [DecidableEq ρ] [DecidableEq ι] (hf : F r p = none ∨ F r p = .some a)
    (hP : P r p) : Grows P F (F.plant r p a) := by
  intro r' p'
  by_cases hc : r' = r ∧ p' = p
  · obtain ⟨rfl, rfl⟩ := hc
    rcases hf with hf | hf
    · exact .inr ⟨hf, hP⟩
    · exact .inl (by rw [plant_eq_self hf])
  · exact .inl (plant_of_ne hc)

/-- `F'` is `F` without the pages at places in `P`. -/
def Cleared (P : ρ → List ι → Prop) (F F' : Layout ρ ι α) : Prop :=
  ∀ r p, (P r p → F' r p = none) ∧ (¬ P r p → F' r p = F r p)

theorem Cleared.trans (h : Cleared P F F') (h' : Cleared Q F' F'') :
    Cleared (fun r p => P r p ∨ Q r p) F F'' := by
  intro r p
  refine ⟨fun hc => ?_, fun hc => ?_⟩
  · by_cases hQ : Q r p
    · exact (h' r p).1 hQ
    · rw [(h' r p).2 hQ]
      exact (h r p).1 (hc.resolve_right hQ)
  · rw [(h' r p).2 fun hQ => hc (.inr hQ), (h r p).2 fun hP => hc (.inl hP)]

/-- **What was added taken away again** leaves what grew with it. -/
theorem Grows.cleared (h : Grows (fun r p => P r p ∨ Q r p) F F') (hc : Cleared Q F' F'')
    (hQ : ∀ r p, Q r p → F r p = none) : Grows P F F'' := by
  intro r p
  by_cases hq : Q r p
  · rw [(hc r p).1 hq, hQ r p hq]
    exact .inl rfl
  · rw [(hc r p).2 hq]
    exact (h r p).imp id fun ⟨hn, hP⟩ => ⟨hn, hP.resolve_right hq⟩

end Growth

end Layout

section Updates

variable {own : ρ → List ι → Prop} {next next' : α → ι → Option α} {F : Layout ρ ι α} {r : ρ}
  {p : List ι} {i : ι} {a t : α}

/-- Entries that no place of the layout uses do not matter. -/
theorem Lays.frame (h : Lays own next F)
    (hn : ∀ {r p u j}, F r p = some u → own r (j :: p) → next' u j = next u j) :
    Lays own next' F :=
  ⟨h.owned, h.parent, fun ha ho => (hn ha ho).trans (h.child ha ho), h.inj⟩

theorem Lays.eq_none (h : Lays own next F) (hp : F r p = none) : F r (i :: p) = none := by
  by_contra hc
  obtain ⟨a, ha⟩ := Option.ne_none_iff_exists'.mp hc
  obtain ⟨b, hb⟩ := h.parent ha
  rw [hp] at hb
  cases hb

theorem Lays.eq_none_append (h : Lays own next F) (hp : F r p = none) (q : List ι) :
    F r (q ++ p) = none := by
  induction q with
  | nil => exact hp
  | cons i q ih => exact h.eq_none ih

/-- What is at a place below is there only if every table on the way is. -/
theorem Lays.some_of_suffix (h : Lays own next F) {q : List ι} (hp : F r q = some a)
    (hs : p <:+ q) : ∃ b, F r p = some b := by
  obtain ⟨q', rfl⟩ := hs
  by_contra hc
  rw [h.eq_none_append (Option.eq_none_iff_forall_ne_some.mpr fun b hb => hc ⟨b, hb⟩)] at hp
  cases hp

variable [DecidableEq ρ]

section Cut

variable [DecidableEq ι]

/-- **An entry set.** A page that is nowhere yet, with nothing below it, at a free place. -/
theorem Lays.plant (h : Lays own next F) (ht : F r p = some t) (ho : own r (i :: p))
    (hf : F r (i :: p) = none) (ha : ∀ r' p', F r' p' ≠ some a) (hput : next' t i = some a)
    (hz : ∀ j, own r (j :: i :: p) → next' a j = none)
    (hn : ∀ {u j}, u ≠ a → ¬ (u = t ∧ j = i) → next' u j = next u j) :
    Lays own next' (F.plant r (i :: p) a) := by
  refine ⟨fun {r' p' b} hb => ?_, fun {r' j p' b} hb => ?_, fun {r' j p' b} hb hoj => ?_,
    fun {r₁ p₁ r₂ p₂ b} h₁ h₂ => ?_⟩
  · obtain ⟨rfl, rfl, -⟩ | ⟨-, hb⟩ := Layout.plant_eq_some.mp hb
    · exact ho
    · exact h.owned hb
  · obtain ⟨rfl, he, -⟩ | ⟨-, hb⟩ := Layout.plant_eq_some.mp hb
    · cases he
      refine ⟨t, ?_⟩
      rw [Layout.plant_of_ne (fun hc => by simpa using congrArg List.length hc.2), ht]
    · obtain ⟨c, hc⟩ := h.parent hb
      refine ⟨c, ?_⟩
      rw [Layout.plant_of_ne, hc]
      rintro ⟨rfl, rfl⟩
      rw [hf] at hc
      cases hc
  · obtain ⟨rfl, rfl, rfl⟩ | ⟨-, hold⟩ := Layout.plant_eq_some.mp hb
    · rw [hz j hoj, Layout.plant_of_ne (fun hc => by simpa using congrArg List.length hc.2),
        h.eq_none hf]
    · have hba : b ≠ a := fun hc => ha _ _ (hc ▸ hold)
      by_cases hs : r' = r ∧ j :: p' = i :: p
      · obtain ⟨rfl, he⟩ := hs
        cases he
        rw [ht] at hold
        cases hold
        rw [hput, Layout.plant_self]
      · rw [Layout.plant_of_ne hs, hn hba, h.child hold hoj]
        rintro ⟨rfl, rfl⟩
        obtain ⟨rfl, rfl⟩ := h.inj hold ht
        exact hs ⟨rfl, rfl⟩
  · obtain ⟨rfl, rfl, rfl⟩ | ⟨-, hold₁⟩ := Layout.plant_eq_some.mp h₁ <;>
      obtain ⟨rfl, rfl, he⟩ | ⟨-, hold₂⟩ := Layout.plant_eq_some.mp h₂
    · exact ⟨rfl, rfl⟩
    · exact absurd hold₂ (ha _ _)
    · exact absurd (he ▸ hold₁) (ha _ _)
    · exact h.inj hold₁ hold₂

/-- **A subtree cut off**: the entry that led to it no longer leads anywhere. -/
theorem Lays.prune (h : Lays own next F)
    (hn : ∀ {r' p' u j}, F r' p' = some u → own r' (j :: p') → ¬ (r' = r ∧ p <:+ p') →
      ¬ (r' = r ∧ j :: p' = p) → next' u j = next u j)
    (hcut : ∀ {j q u}, p = j :: q → F r q = some u → next' u j = none) :
    Lays own next' (F.prune r p) := by
  refine ⟨fun hb => h.owned (Layout.prune_le hb), fun {r' j p' b} hb => ?_,
    fun {r' j p' b} hb hoj => ?_, fun h₁ h₂ => h.inj (Layout.prune_le h₁) (Layout.prune_le h₂)⟩
  · obtain ⟨hne, hb⟩ := Layout.prune_eq_some.mp hb
    obtain ⟨c, hc⟩ := h.parent hb
    exact ⟨c, Layout.prune_eq_some.mpr
      ⟨fun hs => hne ⟨hs.1, hs.2.trans (List.suffix_cons _ _)⟩, hc⟩⟩
  · obtain ⟨hne, hold⟩ := Layout.prune_eq_some.mp hb
    by_cases hs : r' = r ∧ j :: p' = p
    · obtain ⟨rfl, rfl⟩ := hs
      rw [hcut rfl hold, Layout.prune, if_pos ⟨rfl, List.suffix_rfl⟩]
    · rw [hn hold hoj hne hs, h.child hold hoj, Layout.prune, if_neg]
      rintro ⟨rfl, hsuf⟩
      rcases List.suffix_cons_iff.mp hsuf with rfl | hsuf
      · exact hs ⟨rfl, rfl⟩
      · exact hne ⟨rfl, hsuf⟩

end Cut

/-- **A root added**, with the pages below it. -/
theorem Lays.graft (h : Lays own next F) {G : List ι → Option α} (hr : ∀ p, F r p = none)
    (hown : ∀ {p a}, G p = some a → own r p)
    (hparent : ∀ {i p a}, G (i :: p) = some a → ∃ b, G p = some b)
    (hchild : ∀ {i p a}, G p = some a → own r (i :: p) → next' a i = G (i :: p))
    (hinj : ∀ {p p' a}, G p = some a → G p' = some a → p = p')
    (hfresh : ∀ {p r' p' a}, G p = some a → F r' p' ≠ some a)
    (hn : ∀ {r p u j}, F r p = some u → own r (j :: p) → next' u j = next u j) :
    Lays own next' (F.graft r G) := by
  have hself : F.graft r G r = G := Function.update_self ..
  have hother : ∀ {r'}, r' ≠ r → F.graft r G r' = F r' := fun hne => Function.update_of_ne hne ..
  refine ⟨fun {r' p' b} hb => ?_, fun {r' j p' b} hb => ?_, fun {r' j p' b} hb hoj => ?_,
    fun {r₁ p₁ r₂ p₂ b} h₁ h₂ => ?_⟩
  · by_cases hrr : r' = r
    · subst hrr
      exact hown (by rwa [hself] at hb)
    · exact h.owned (by rwa [hother hrr] at hb)
  · by_cases hrr : r' = r
    · subst hrr
      rw [hself] at hb ⊢
      exact hparent hb
    · rw [hother hrr] at hb ⊢
      exact h.parent hb
  · by_cases hrr : r' = r
    · subst hrr
      rw [hself] at hb ⊢
      exact hchild hb hoj
    · rw [hother hrr] at hb ⊢
      rw [hn hb hoj, h.child hb hoj]
  · by_cases hr₁ : r₁ = r <;> by_cases hr₂ : r₂ = r
    · subst hr₁ hr₂
      rw [hself] at h₁ h₂
      exact ⟨rfl, hinj h₁ h₂⟩
    · subst hr₁
      rw [hself] at h₁
      rw [hother hr₂] at h₂
      exact absurd h₂ (hfresh h₁)
    · subst hr₂
      rw [hself] at h₂
      rw [hother hr₁] at h₁
      exact absurd h₁ (hfresh h₂)
    · rw [hother hr₁] at h₁
      rw [hother hr₂] at h₂
      exact h.inj h₁ h₂

end Updates

end TableTree
