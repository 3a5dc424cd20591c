import Mathlib.Tactic

/-!
# Cells seen through a partial map

The cells `m : π → β` are seen at addresses through a partial map `τ`. Where `τ` maps nothing, nothing is seen
and a store fails.

* `look`, `put`, `putRun`: what is seen at an address, a store, and a run of stores.
* `OneToOne`: no two addresses of a set are mapped to one cell.
* **`RunOf`**, **`putRun_spec`**: a run of stores to addresses that are mapped.
-/

namespace Through

variable {ν π β : Type}

def look (τ : ν → Option π) (m : π → β) (v : ν) : Option β := (τ v).map m

def OneToOne (τ : ν → Option π) (S : Set ν) : Prop :=
  ∀ v ∈ S, ∀ w ∈ S, ∀ x, τ v = some x → τ w = some x → v = w

variable [DecidableEq π]

def put (τ : ν → Option π) (m : π → β) (v : ν) (b : β) : Option (π → β) :=
  (τ v).map fun x => Function.update m x b

/-- The values from the `i`-th on, `n` of them, stored at their addresses. -/
def putRun (τ : ν → Option π) (address : ℕ → ν) (value : ℕ → β) : ℕ → ℕ → (π → β) → Option (π → β)
  | _, 0, m => some m
  | i, n + 1, m => (put τ m (address i) (value i)).bind (putRun τ address value (i + 1) n)

/-- What a run of stores leaves behind, seen from the addresses in `S`. -/
structure RunOf (τ : ν → Option π) (S : Set ν) (address : ℕ → ν) (value : ℕ → β) (i n : ℕ)
    (m m' : π → β) : Prop where
  stored : ∀ k, i ≤ k → k < i + n → look τ m' (address k) = some (value k)
  others : ∀ v ∈ S, (∀ k, i ≤ k → k < i + n → address k ≠ v) → look τ m' v = look τ m v
  kept : ∀ x, m' x ≠ m x → ∃ k, i ≤ k ∧ k < i + n ∧ τ (address k) = some x

section Stores

variable {τ : ν → Option π} {S : Set ν} {m m' : π → β} {v w : ν} {b : β} {x : π}
  {address : ℕ → ν} {value : ℕ → β}

theorem put_eq_some : put τ m v b = some m' ↔ ∃ x, τ v = some x ∧ m' = Function.update m x b := by
  rw [put, Option.map_eq_some_iff]
  exact exists_congr fun x => and_congr_right fun _ => eq_comm

theorem look_put_self (h : put τ m v b = some m') : look τ m' v = some b := by
  obtain ⟨x, hx, rfl⟩ := put_eq_some.mp h
  rw [look, hx, Option.map_some, Function.update_self]

/-- A store is not seen from another address. -/
theorem look_put_of_ne (hτ : OneToOne τ S) (hv : v ∈ S) (hw : w ∈ S) (hne : w ≠ v)
    (h : put τ m v b = some m') : look τ m' w = look τ m w := by
  obtain ⟨x, hx, rfl⟩ := put_eq_some.mp h
  rw [look, look]
  cases hy : τ w with
  | none => rfl
  | some y =>
    have hyx : y ≠ x := by
      intro he
      exact hne (hτ w hw v hv y hy (he ▸ hx))
    rw [Option.map_some, Option.map_some, Function.update_of_ne hyx]

theorem put_kept (h : put τ m v b = some m') (hx : τ v ≠ some x) : m' x = m x := by
  obtain ⟨y, hy, rfl⟩ := put_eq_some.mp h
  refine Function.update_of_ne ?_ b m
  intro he
  exact hx (he ▸ hy)

/-- **A run of stores** to addresses of `S` that are mapped. -/
theorem putRun_spec (hτ : OneToOne τ S) (value : ℕ → β) (n : ℕ) (m : π → β) {i : ℕ}
    (hin : ∀ k, i ≤ k → k < i + n → address k ∈ S ∧ τ (address k) ≠ none)
    (hinj : ∀ k l, i ≤ k → k < l → l < i + n → address k ≠ address l) :
    ∃ m', putRun τ address value i n m = some m' ∧ RunOf τ S address value i n m m' := by
  induction n generalizing i m with
  | zero =>
    refine ⟨m, rfl, ?_, fun _ _ _ => rfl, fun x hx => absurd rfl hx⟩
    intro k hk hk'
    omega
  | succ n ih =>
    obtain ⟨hi, hmap⟩ := hin i le_rfl (by omega)
    obtain ⟨x, hx⟩ := Option.ne_none_iff_exists'.mp hmap
    have hput : put τ m (address i) (value i) = some (Function.update m x (value i)) :=
      put_eq_some.mpr ⟨x, hx, rfl⟩
    have hin' : ∀ k, i + 1 ≤ k → k < i + 1 + n → address k ∈ S ∧ τ (address k) ≠ none :=
      fun k hk hk' => hin k (by omega) (by omega)
    obtain ⟨m', he, hrun⟩ := ih (Function.update m x (value i)) hin'
      fun k l hk hkl hl => hinj k l (by omega) hkl (by omega)
    refine ⟨m', by rw [putRun, hput, Option.bind_some, he], ?_, ?_, ?_⟩
    · intro k hk hk'
      rcases Nat.eq_or_lt_of_le hk with rfl | hlt
      · rw [hrun.others _ hi fun l hl hl' he => hinj i l le_rfl (by omega) (by omega) he.symm]
        exact look_put_self hput
      · exact hrun.stored k hlt (by omega)
    · intro v hv hne
      rw [hrun.others v hv fun k hk hk' => hne k (by omega) (by omega)]
      exact look_put_of_ne hτ hi hv (Ne.symm (hne i le_rfl (by omega))) hput
    · intro y hy
      by_cases hyx : τ (address i) = some y
      · exact ⟨i, le_rfl, by omega, hyx⟩
      · rw [← put_kept hput hyx] at hy
        obtain ⟨k, hk, hk', hτk⟩ := hrun.kept y hy
        exact ⟨k, by omega, by omega, hτk⟩

end Stores

end Through
