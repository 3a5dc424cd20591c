import Mathlib.Tactic
import Rymos.Console.Picture

/-!
# The serial line

* `Wire`: a terminal at the other end of the serial line, of any width.
* `SameText`: a line there, where blanks may follow. **`serial_shows`**: it shows what the console shows.
-/

namespace Rymos

open Scrollback

/-- Lines, and the place of the cursor in the last one. -/
structure Wire where
  above : List (List UInt8)
  line : List UInt8
  col : ℕ

namespace Wire

def empty : Wire := ⟨[], [], 0⟩

/-- The byte takes the place under the cursor. -/
def store (w : Wire) (byte : UInt8) : Wire :=
  { w with line := w.line.take w.col ++ byte :: w.line.drop (w.col + 1), col := w.col + 1 }

/-- Carriage return, line feed, and backspace move the cursor. -/
def receive (w : Wire) (byte : UInt8) : Wire :=
  if byte = 13 then { w with col := 0 }
  else if byte = 10 then ⟨w.above ++ [w.line], [], 0⟩
  else if byte = 8 then { w with col := w.col - 1 }
  else w.store byte

end Wire

/-- The same text, behind which blanks may follow. -/
def SameText (shown line : List UInt8) : Prop := ∃ n, shown = line ++ List.replicate n space

/-- The terminal at the other end has the text of the console, behind that of `before`. -/
structure WireAgrees (before : List (List UInt8)) (w : Wire) (T : Terminal UInt8) : Prop where
  above : ∃ lines, w.above = before ++ lines ∧ List.Forall₂ SameText lines T.above
  line : SameText w.line T.line
  col : w.col = T.line.length

section Wire

variable {before : List (List UInt8)} {w : Wire} {T : Terminal UInt8} {byte : UInt8} {width : ℕ}

theorem WireAgrees.newLine (h : WireAgrees before w T) :
    WireAgrees before ([13, 10].foldl Wire.receive w) T.newLine := by
  obtain ⟨lines, hw, hlines⟩ := h.above
  refine ⟨⟨lines ++ [w.line], ?_, ?_⟩, ⟨0, rfl⟩, rfl⟩
  · show w.above ++ [w.line] = before ++ (lines ++ [w.line])
    rw [hw, List.append_assoc]
  · exact List.rel_append hlines (.cons h.line .nil)

theorem WireAgrees.append (h : WireAgrees before w T) (h8 : byte ≠ 8) (h10 : byte ≠ 10) (h13 : byte ≠ 13) :
    WireAgrees before (w.receive byte) (T.append byte) := by
  obtain ⟨n, hn⟩ := h.line
  have hreceive : w.receive byte = w.store byte := by
    rw [Wire.receive, if_neg h13, if_neg h10, if_neg h8]
  rw [hreceive]
  refine ⟨h.above, ⟨n - 1, ?_⟩, ?_⟩
  · rw [Wire.store, h.col, hn, List.take_left' rfl, List.drop_append, Terminal.append]
    have hdrop : T.line.drop (T.line.length + 1) = [] := List.drop_eq_nil_of_le (by omega)
    have hone : T.line.length + 1 - T.line.length = 1 := by omega
    rw [hdrop, List.nil_append, List.drop_replicate, List.append_assoc, hone]
    rfl
  · rw [Wire.store, Terminal.append, List.length_append, h.col]
    rfl

theorem WireAgrees.erase (h : WireAgrees before w T) (hne : T.line ≠ []) :
    WireAgrees before ([8, space, 8].foldl Wire.receive w) T.erase := by
  obtain ⟨n, hn⟩ := h.line
  have hpos := List.length_pos_of_ne_nil hne
  have hfold : [8, space, 8].foldl Wire.receive w =
      ⟨w.above, w.line.take (w.col - 1) ++ space :: w.line.drop (w.col - 1 + 1), w.col - 1⟩ := by
    simp [Wire.receive, Wire.store, space]
  rw [hfold]
  refine ⟨h.above, ⟨n + 1, ?_⟩, ?_⟩
  · have hcol : T.line.length - 1 + 1 = T.line.length := by omega
    rw [h.col, hn, hcol, List.drop_left' rfl, List.take_append_of_le_length (by omega), Terminal.erase,
      List.dropLast_eq_take]
    rfl
  · rw [h.col, Terminal.erase, List.length_dropLast]

/-- **What an operation sends** has the same effect at the other end. -/
theorem WireAgrees.on (h : WireAgrees before w T) {op : TtyOp} (hclear : op ≠ .clear) (h8 : op ≠ .write 8) :
    WireAgrees before ((op.sent width T).foldl Wire.receive w) (op.on width T) := by
  cases op with
  | clear => exact absurd rfl hclear
  | newLine => exact h.newLine
  | backspace =>
    rw [TtyOp.sent, TtyOp.on]
    split_ifs with hne
    · rw [T.erase_of_nil hne]
      exact h
    · exact h.erase hne
  | write byte =>
    have hne : byte ≠ 8 := fun he => h8 (he ▸ rfl)
    rw [TtyOp.sent, TtyOp.on]
    split_ifs with h10 h13 hfull
    · exact h.newLine
    · exact h
    · rw [Terminal.put, if_pos hfull]
      exact h.newLine.append hne h10 h13
    · rw [Terminal.put, if_neg hfull]
      exact h.append hne h10 h13

theorem WireAgrees.run (h : WireAgrees before w T) {ops : List TtyOp} (hclear : TtyOp.clear ∉ ops)
    (h8 : TtyOp.write 8 ∉ ops) :
    WireAgrees before ((sentAll width T ops).foldl Wire.receive w) (ops.foldl (TtyOp.on width) T) := by
  induction ops generalizing w T with
  | nil => exact h
  | cons op ops ih =>
    rw [List.mem_cons, not_or] at hclear h8
    rw [sentAll, List.foldl_append, List.foldl_cons]
    exact ih (h.on (Ne.symm hclear.1) (Ne.symm h8.1)) hclear.2 h8.2

end Wire

end Rymos
