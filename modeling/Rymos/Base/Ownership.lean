import Mathlib.Tactic

/-!
# Resources with one holder each

`holds` gives the resource each holder has, `held` the resources handed out.

* `Owned`: a resource held is handed out, and has one holder.
* **`Owned.give`**, **`Owned.free`**, **`Owned.move`**, `Owned.frame`: what keeps it. A holder may lose
  its resource without returning it.
-/

namespace Ownership

variable {H R : Type}

structure Owned (holds : H → Option R) (held : Finset R) : Prop where
  within : ∀ x r, holds x = some r → r ∈ held
  one : ∀ x y r, holds x = some r → holds y = some r → x = y

variable {holds holds' : H → Option R} {held : Finset R}

/-- Nobody holds anything new. -/
theorem Owned.frame (h : Owned holds held) (hsub : ∀ x r, holds' x = some r → holds x = some r) :
    Owned holds' held where
  within := fun x r hx => h.within x r (hsub x r hx)
  one := fun x y r hx hy => h.one x y r (hsub x r hx) (hsub y r hy)

/-- **A resource that is not handed out goes to `x`.** -/
theorem Owned.give [DecidableEq R] (h : Owned holds held) {x : H} {r : R} (hr : r ∉ held)
    (hsub : ∀ y q, holds' y = some q → y = x ∧ q = r ∨ holds y = some q) :
    Owned holds' (insert r held) where
  within := fun y q hy => by
    rcases hsub y q hy with ⟨-, rfl⟩ | hy
    · exact Finset.mem_insert_self q held
    · exact Finset.mem_insert_of_mem (h.within y q hy)
  one := fun y z q hy hz => by
    rcases hsub y q hy with ⟨rfl, rfl⟩ | hy <;> rcases hsub z q hz with ⟨rfl, hq⟩ | hz
    · rfl
    · exact absurd (h.within z q hz) hr
    · exact absurd (h.within y q hy) (hq ▸ hr)
    · exact h.one y z q hy hz

/-- **`x` returns its resource.** -/
theorem Owned.free [DecidableEq R] (h : Owned holds held) {x : H} {r : R}
    (hx : holds x = some r) (hsub : ∀ y q, holds' y = some q → y ≠ x ∧ holds y = some q) :
    Owned holds' (held.erase r) where
  within := fun y q hy => by
    obtain ⟨hne, hy⟩ := hsub y q hy
    refine Finset.mem_erase.mpr ⟨fun hq => hne ?_, h.within y q hy⟩
    exact h.one y x r (hq ▸ hy) hx
  one := fun y z q hy hz => h.one y z q (hsub y q hy).2 (hsub z q hz).2

/-- **The resource of `x` goes to `z`.** -/
theorem Owned.move (h : Owned holds held) {x z : H} {r : R} (hx : holds x = some r)
    (hsub : ∀ y q, holds' y = some q → y = z ∧ q = r ∨ y ≠ x ∧ holds y = some q) :
    Owned holds' held where
  within := fun y q hy => by
    rcases hsub y q hy with ⟨-, rfl⟩ | ⟨-, hy⟩
    · exact h.within x q hx
    · exact h.within y q hy
  one := fun y y' q hy hy' => by
    rcases hsub y q hy with ⟨rfl, rfl⟩ | ⟨hne, hy⟩ <;>
      rcases hsub y' q hy' with ⟨rfl, hq⟩ | ⟨hne', hy'⟩
    · rfl
    · exact absurd (h.one y' x q hy' hx) hne'
    · exact absurd (h.one y x r (hq ▸ hy) hx) hne
    · exact h.one y y' q hy hy'

/-- A resource has no holder once it is returned. -/
theorem Owned.not_held (h : Owned holds held) {r : R} (hr : r ∉ held) (x : H) :
    holds x ≠ some r := fun hx => hr (h.within x r hx)

end Ownership
