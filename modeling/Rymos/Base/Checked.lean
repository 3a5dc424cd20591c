import Mathlib.Tactic
import Rymos.Base.Blocks

/-!
# Arithmetic that stops at an overflow

* `fits`: a number of `w` bits. `gap`: a difference that is not negative.
* `checkedLoop`: `chunkLoop` with positions and turns that may stop. **`checkedLoop_eq`**: where
  none of them stops, it is `chunkLoop`.
-/

namespace Checked

open Blocks

/-- `n` as a number of `w` bits. -/
def fits (w n : ℕ) : Option ℕ := if n < 2 ^ w then some n else none

/-- `a - b`, if it is not negative. -/
def gap (a b : ℕ) : Option ℕ := if b ≤ a then some (a - b) else none

theorem fits_of_lt {w n : ℕ} (h : n < 2 ^ w) : fits w n = some n := if_pos h

theorem gap_of_le {a b : ℕ} (h : b ≤ a) : gap a b = some (a - b) := if_pos h

variable {σ : Type}

/-- `chunkLoop` over lengths of `w` bits; `none` if a position, a turn or the count of what is done
overflows. -/
def checkedLoop (w bs : ℕ) (position : ℕ → Option ℕ) (body : ℕ → ℕ → σ → Option (Bool × σ))
    (len : ℕ) : ℕ → ℕ → σ → Option (Bool × σ)
  | 0, copied, s => some (decide (len ≤ copied), s)
  | fuel + 1, copied, s =>
    if copied < len then
      (position copied).bind fun absolute =>
      let count := min (len - copied) (bs - absolute % bs)
      (body copied count s).bind fun
        | (true, s) =>
          (fits w (copied + count)).bind fun copied =>
            checkedLoop w bs position body len fuel copied s
        | (false, s) => some (false, s)
    else some (true, s)

/-- **Without an overflow the checked loop is the loop.** -/
theorem checkedLoop_eq {w bs len : ℕ} {position : ℕ → Option ℕ} {position' : ℕ → ℕ}
    {body : ℕ → ℕ → σ → Option (Bool × σ)} {body' : ℕ → ℕ → σ → Bool × σ} (hlen : len < 2 ^ w)
    (hpos : ∀ copied < len, position copied = some (position' copied))
    (hbody : ∀ copied < len, ∀ count s, body copied count s = some (body' copied count s))
    {fuel copied : ℕ} {s : σ} :
    checkedLoop w bs position body len fuel copied s =
      some (chunkLoop bs position' body' len fuel copied s) := by
  induction fuel generalizing copied s with
  | zero => rfl
  | succ fuel ih =>
    rw [checkedLoop, chunkLoop]
    by_cases hc : copied < len
    · rw [if_pos hc, if_pos hc, hpos copied hc, Option.bind_some]
      dsimp only
      rw [hbody copied hc, Option.bind_some]
      generalize body' copied (min (len - copied) (bs - position' copied % bs)) s = r
      obtain ⟨ok, s'⟩ := r
      cases ok with
      | false => rfl
      | true =>
        dsimp only
        -- the count of what is done stays within the length
        rw [fits_of_lt (by omega), Option.bind_some]
        exact ih
    · rw [if_neg hc, if_neg hc]

end Checked
