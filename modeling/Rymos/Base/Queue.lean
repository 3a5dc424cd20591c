import Mathlib.Tactic
import Rymos.Base.Bytes

/-!
# Queues of bytes

A queue kept in a buffer between two offsets, and what has gone through a queue.

* `Buf.window`: the bytes between two offsets. `window_split`, **`window_put`**.
* `Conserved`: what went in is what came out and what is left. **`Conserved.push`**,
  **`Conserved.pop`**.
-/

namespace ByteBuf

namespace Buf

variable {n : ℕ} (b : Buf n)

/-- The bytes from `lo` to `hi`. -/
def window (lo hi : ℕ) : List UInt8 := b.slice lo (hi - lo)

@[simp] theorem length_window (lo hi : ℕ) : (b.window lo hi).length = hi - lo := by simp [window]

@[simp] theorem window_self (lo : ℕ) : b.window lo lo = [] := by
  rw [window, Nat.sub_self]
  rfl

theorem window_split {lo mid hi : ℕ} (h : lo ≤ mid) (h' : mid ≤ hi) :
    b.window lo hi = b.window lo mid ++ b.window mid hi := by
  rw [window, show hi - lo = (mid - lo) + (hi - mid) by omega, slice_add,
    show lo + (mid - lo) = mid by omega]
  rfl

/-- **Bytes written at the end are the last ones.** -/
theorem window_put {lo hi : ℕ} {bs : List UInt8} (h : lo ≤ hi) (hn : hi + bs.length ≤ n) :
    (b.put hi bs).window lo (hi + bs.length) = b.window lo hi ++ bs := by
  rw [window_split _ h (Nat.le_add_right hi _)]
  congr 1
  · exact slice_put_disj b (by omega)
  · rw [window, Nat.add_sub_cancel_left]
    exact slice_put_same b hi bs hn

end Buf

/-! ## What has gone through -/

section Conserved

variable {α : Type} {accepted delivered queue rest xs : List α}

/-- What was accepted is what was delivered, followed by what is still queued. -/
def Conserved (accepted delivered queue : List α) : Prop := delivered ++ queue = accepted

theorem Conserved.nil : Conserved ([] : List α) [] [] := rfl

theorem Conserved.push (h : Conserved accepted delivered queue) (xs : List α) :
    Conserved (accepted ++ xs) delivered (queue ++ xs) := by
  rw [Conserved, ← List.append_assoc, h]

theorem Conserved.pop (h : Conserved accepted delivered queue) (hq : queue = xs ++ rest) :
    Conserved accepted (delivered ++ xs) rest := by
  rw [Conserved, List.append_assoc, ← hq, h]

end Conserved

end ByteBuf
