import Mathlib.Tactic

/-!
# Tables of slots

A fixed number of slots, each empty or holding a key with a value, searched from the first slot on.
While no key has two slots the table is a finite map.

* `Slots n κ ν`, `find`, `free`, `get`: the table, the first slot with a key, the first empty slot,
  and the value of a key.
* `Distinct`: no key has two slots. **`get_eq_some`**, **`Distinct.free_eq_none_iff`**.
* **`Distinct.put`**, **`Distinct.clear`**, **`Distinct.rekey`**: a slot filled or overwritten,
  emptied, given another key; what each does to the map.
-/

/-- `n` slots, each empty or with a key and a value. -/
abbrev Slots (n : ℕ) (κ ν : Type) : Type := Fin n → Option (κ × ν)

namespace Slots

variable {n : ℕ} {κ ν : Type}

/-- No key has two slots. -/
def Distinct (t : Slots n κ ν) : Prop :=
  ∀ ⦃i j k v w⦄, t i = some (k, v) → t j = some (k, w) → i = j

/-- The first empty slot. -/
def free (t : Slots n κ ν) : Option (Fin n) := (List.finRange n).find? fun i => (t i).isNone

theorem free_eq_some {t : Slots n κ ν} {i : Fin n} (h : t.free = some i) : t i = none := by
  simpa using List.find?_some h

theorem free_eq_none {t : Slots n κ ν} : t.free = none ↔ ∀ i, t i ≠ none := by
  simp [free]

/-- A key put in its own slot, or with no slot yet. -/
theorem Distinct.update {t : Slots n κ ν} {i : Fin n} {k : κ} {v : ν} (hd : Distinct t)
    (hk : ∀ j v', t j = some (k, v') → j = i) :
    Distinct (Function.update t i (some (k, v))) := by
  intro a b k' v₁ v₂ ha hb
  by_cases hai : a = i
  · by_cases hbi : b = i
    · rw [hai, hbi]
    · subst hai
      rw [Function.update_self, Option.some.injEq, Prod.mk.injEq] at ha
      rw [Function.update_of_ne hbi, ← ha.1] at hb
      exact absurd (hk b v₂ hb) hbi
  · rw [Function.update_of_ne hai] at ha
    by_cases hbi : b = i
    · subst hbi
      rw [Function.update_self, Option.some.injEq, Prod.mk.injEq] at hb
      rw [← hb.1] at ha
      exact absurd (hk a v₁ ha) hai
    · rw [Function.update_of_ne hbi] at hb
      exact hd ha hb

variable [DecidableEq κ]

/-- The first slot with a key. -/
def find (t : Slots n κ ν) (k : κ) : Option (Fin n) :=
  (List.finRange n).find? fun i => (t i).any fun e => e.1 = k

/-- The value of a key. -/
def get (t : Slots n κ ν) (k : κ) : Option ν := (t.find k).bind fun i => (t i).map Prod.snd

variable {t : Slots n κ ν} {i : Fin n} {k k' : κ} {v w : ν}

theorem find_eq_some (h : t.find k = some i) : ∃ v, t i = some (k, v) := by
  have hany : (t i).any (fun e => e.1 = k) = true := by simpa using List.find?_some h
  obtain ⟨⟨k', v⟩, hi, hk⟩ := (Option.any_eq_true _ _).mp hany
  have hkk : k' = k := of_decide_eq_true hk
  exact ⟨v, hkk ▸ hi⟩

theorem find_eq_none : t.find k = none ↔ ∀ i v, t i ≠ some (k, v) := by
  simp only [find, List.find?_eq_none, List.mem_finRange, forall_const, Bool.not_eq_true,
    Option.any_eq_false, decide_eq_false_iff_not, Prod.forall]
  exact ⟨fun h i v hi => h i k v hi rfl, fun h i k' v hi hk => h i v (hk ▸ hi)⟩

theorem get_eq_none : t.get k = none ↔ ∀ i v, t i ≠ some (k, v) := by
  rw [← find_eq_none, get]
  cases hf : t.find k with
  | none => simp
  | some i =>
    obtain ⟨v, hi⟩ := find_eq_some hf
    simp [hi]

theorem get_of_find (h : t.find k = some i) (hi : t i = some (k, v)) : t.get k = some v := by
  simp [get, h, hi]

/-- **While keys are distinct, a key has the value of its slot.** -/
theorem get_eq_some (hd : Distinct t) : t.get k = some v ↔ ∃ i, t i = some (k, v) := by
  constructor
  · intro h
    obtain ⟨i, hf, h⟩ := Option.bind_eq_some_iff.mp h
    obtain ⟨w, hi⟩ := find_eq_some hf
    rw [hi, Option.map_some, Option.some.injEq] at h
    exact ⟨i, hi.trans (h ▸ rfl)⟩
  · rintro ⟨i, hi⟩
    cases hf : t.find k with
    | none => exact absurd hi (find_eq_none.mp hf i v)
    | some j =>
      obtain ⟨w, hj⟩ := find_eq_some hf
      obtain rfl := hd hi hj
      exact get_of_find hf hi

/-- **There are as many keys as taken slots.** -/
theorem Distinct.ncard_keys (hd : Distinct t) :
    {k | t.get k ≠ none}.ncard = {i | t i ≠ none}.ncard := by
  have himage : some '' {k | t.get k ≠ none} =
      (fun i => (t i).map Prod.fst) '' {i | t i ≠ none} := by
    ext o
    constructor
    · rintro ⟨k, hk, rfl⟩
      obtain ⟨v, hv⟩ := Option.ne_none_iff_exists'.mp hk
      obtain ⟨i, hi⟩ := (get_eq_some hd).mp hv
      exact ⟨i, by simp [hi], by simp [hi]⟩
    · rintro ⟨i, hi, rfl⟩
      obtain ⟨⟨k, v⟩, hkv⟩ := Option.ne_none_iff_exists'.mp hi
      have hget : t.get k = some v := (get_eq_some hd).mpr ⟨i, hkv⟩
      exact ⟨k, by simp [hget], by simp [hkv]⟩
  have hinj : Set.InjOn (fun i => (t i).map Prod.fst) {i | t i ≠ none} := by
    intro i hi j hj he
    obtain ⟨⟨k, v⟩, hkv⟩ := Option.ne_none_iff_exists'.mp hi
    obtain ⟨⟨k', v'⟩, hkv'⟩ := Option.ne_none_iff_exists'.mp hj
    have hk : k = k' := by simpa [hkv, hkv'] using he
    subst hk
    exact hd hkv hkv'
  rw [← Set.ncard_image_of_injective _ (Option.some_injective _), himage, hinj.ncard_image]

/-- **No slot is empty** just if there are as many keys as slots. -/
theorem Distinct.free_eq_none_iff (hd : Distinct t) :
    t.free = none ↔ n ≤ {k | t.get k ≠ none}.ncard := by
  rw [free_eq_none, hd.ncard_keys]
  constructor
  · intro h
    have huniv : {i | t i ≠ none} = Set.univ := Set.eq_univ_of_forall h
    rw [huniv, Set.ncard_univ, Nat.card_fin]
  · intro h
    have huniv : {i | t i ≠ none} = Set.univ :=
      Set.eq_of_subset_of_ncard_le (Set.subset_univ _) (by rwa [Set.ncard_univ, Nat.card_fin])
    exact Set.eq_univ_iff_forall.mp huniv

theorem Distinct.find_eq (hd : Distinct t) (hi : t i = some (k, v)) : t.find k = some i := by
  cases hf : t.find k with
  | none => exact absurd hi (find_eq_none.mp hf i v)
  | some j =>
    obtain ⟨w, hj⟩ := find_eq_some hf
    rw [hd hj hi]

/-- **A slot that is empty, or has the key already, filled**: the key gets the value. -/
theorem Distinct.put (hd : Distinct t) (hk : ∀ j v', t j = some (k, v') → j = i)
    (hi : t i = none ∨ ∃ v', t i = some (k, v')) (v : ν) :
    get (Function.update t i (some (k, v))) = Function.update t.get k (some v) := by
  refine funext fun k' => Option.ext fun w => ?_
  rw [get_eq_some (hd.update hk)]
  by_cases hkk : k' = k
  · subst hkk
    rw [Function.update_self, Option.some.injEq]
    constructor
    · rintro ⟨j, hj⟩
      by_cases hji : j = i
      · subst hji
        simpa using hj
      · rw [Function.update_of_ne hji] at hj
        exact absurd (hk j w hj) hji
    · rintro rfl
      exact ⟨i, Function.update_self ..⟩
  · rw [Function.update_of_ne hkk, get_eq_some hd]
    refine exists_congr fun j => ?_
    by_cases hji : j = i
    · subst hji
      rw [Function.update_self]
      rcases hi with hi | ⟨v', hi⟩ <;> simp [hi, Ne.symm hkk]
    · rw [Function.update_of_ne hji]

/-- **A slot emptied**: its key has no value. -/
theorem Distinct.clear (hd : Distinct t) (hi : t i = some (k, v)) :
    Distinct (Function.update t i none) ∧
      get (Function.update t i none) = Function.update t.get k none := by
  have hsub : ∀ {j e}, Function.update t i none j = some e ↔ j ≠ i ∧ t j = some e := by
    intro j e
    by_cases hji : j = i
    · simp [hji]
    · simp [hji]
  have hd' : Distinct (Function.update t i none) := fun _ _ _ _ _ ha hb => hd (hsub.mp ha).2 (hsub.mp hb).2
  refine ⟨hd', funext fun k' => Option.ext fun w => ?_⟩
  rw [get_eq_some hd']
  simp only [hsub]
  by_cases hkk : k' = k
  · subst hkk
    rw [Function.update_self]
    exact ⟨fun ⟨j, hji, hj⟩ => absurd (hd hj hi) hji, nofun⟩
  · rw [Function.update_of_ne hkk, get_eq_some hd]
    refine exists_congr fun j => ⟨And.right, fun hj => ⟨?_, hj⟩⟩
    rintro rfl
    rw [hi, Option.some.injEq, Prod.mk.injEq] at hj
    exact hkk hj.1.symm

/-- **A slot given another key**: the value moves to it. -/
theorem Distinct.rekey (hd : Distinct t) (hi : t i = some (k, v))
    (hk : ∀ j v', t j = some (k', v') → j = i) :
    Distinct (Function.update t i (some (k', v))) ∧
      get (Function.update t i (some (k', v))) =
        Function.update (Function.update t.get k none) k' (some v) := by
  obtain ⟨hd', hget⟩ := hd.clear hi
  have hk' : ∀ j v', Function.update t i none j = some (k', v') → j = i := by
    intro j v' hj
    by_contra hji
    rw [Function.update_of_ne hji] at hj
    exact hji (hk j v' hj)
  have hput := hd'.put hk' (.inl (Function.update_self ..)) v
  have hup := hd'.update hk' (v := v)
  rw [Function.update_idem] at hput hup
  exact ⟨hup, by rw [hput, hget]⟩

end Slots
