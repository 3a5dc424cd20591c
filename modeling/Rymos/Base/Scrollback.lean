import Mathlib.Data.List.GetD
import Mathlib.Tactic

/-!
# Text terminals

A terminal is lines of text, of which a screen shows the last few.

* `Terminal`: the finished lines, and the line at the end; `newLine`, `put`, `erase`, `text`.
* `Terminal.cell`, `Terminal.row`: a screen of the terminal. **`cell_newLine`**, `cell_append`,
  `cell_erase`: what an operation changes there.
-/

namespace Scrollback

variable {α : Type*}

@[ext] structure Terminal (α : Type*) where
  above : List (List α)
  line : List α

namespace Terminal

def empty : Terminal α := ⟨[], []⟩

def newLine (t : Terminal α) : Terminal α := ⟨t.above ++ [t.line], []⟩

/-- The symbol at the end of the line. -/
def append (a : α) (t : Terminal α) : Terminal α := { t with line := t.line ++ [a] }

/-- The symbol at the end of the line, or on a new one if that is full. -/
def put (width : ℕ) (a : α) (t : Terminal α) : Terminal α :=
  if width ≤ t.line.length then t.newLine.append a else t.append a

/-- The last symbol of the line goes. -/
def erase (t : Terminal α) : Terminal α := { t with line := t.line.dropLast }

def text (t : Terminal α) : List α := t.above.flatten ++ t.line

/-- The lines that have left a screen. -/
def hidden (height : ℕ) (t : Terminal α) : ℕ := t.above.length + 1 - height

/-- The row of the line at the end. -/
def row (height : ℕ) (t : Terminal α) : ℕ := t.above.length - t.hidden height

/-- What a screen shows; it is blank behind the end of a line. -/
def cell (height : ℕ) (blank : α) (t : Terminal α) (r c : ℕ) : α :=
  ((t.above ++ [t.line]).getD (t.hidden height + r) []).getD c blank

/-! ## Text -/

section Text

variable (t : Terminal α) (a : α) (width : ℕ)

@[simp] theorem text_append : (t.append a).text = t.text ++ [a] := by simp [text, append]

theorem erase_of_nil (h : t.line = []) : t.erase = t := by
  ext1
  · rfl
  · exact (congrArg List.dropLast h).trans h.symm

/-- No line gets longer than the screen is wide. -/
theorem length_line_put {width : ℕ} (hw : 0 < width) : (t.put width a).line.length ≤ width := by
  unfold put
  split_ifs with hfull
  · exact hw
  · simp only [append, List.length_append, List.length_singleton]
    omega

theorem length_line_erase {width : ℕ} (h : t.line.length ≤ width) : t.erase.line.length ≤ width := by
  simp only [erase, List.length_dropLast]
  omega

end Text

/-! ## Screens -/

section Screen

variable {height : ℕ} (blank : α) (t : Terminal α) (a : α) (r c : ℕ)

theorem hidden_add_row (hh : 0 < height) : t.hidden height + t.row height = t.above.length := by
  unfold row hidden
  omega

theorem row_lt (hh : 0 < height) : t.row height < height := by
  unfold row hidden
  omega

@[simp] theorem row_append : (t.append a).row height = t.row height := rfl

@[simp] theorem row_erase : t.erase.row height = t.row height := rfl

theorem row_newLine (hh : 0 < height) :
    t.newLine.row height = if t.row height + 1 < height then t.row height + 1 else t.row height := by
  unfold row hidden newLine
  simp only [List.length_append, List.length_singleton]
  split_ifs <;> omega

/-- The row of the line at the end. -/
theorem cell_of_row (hh : 0 < height) : t.cell height blank (t.row height) c = t.line.getD c blank := by
  rw [cell, hidden_add_row t hh]
  simp [List.getD_eq_getElem?_getD]

/-- Above it are finished lines. -/
theorem cell_of_lt (hh : 0 < height) {r : ℕ} (h : r < t.row height) :
    t.cell height blank r c = (t.above.getD (t.hidden height + r) []).getD c blank := by
  have := hidden_add_row t hh
  have hlt : t.hidden height + r < t.above.length := by omega
  simp [cell, List.getD_eq_getElem?_getD, List.getElem?_append_left hlt]

/-- Below it the screen is blank. -/
theorem cell_of_gt (hh : 0 < height) {r : ℕ} (h : t.row height < r) :
    t.cell height blank r c = blank := by
  have := hidden_add_row t hh
  have hle : (t.above ++ [t.line]).length ≤ t.hidden height + r := by
    simp only [List.length_append, List.length_singleton]
    omega
  rw [cell, List.getD_eq_default _ _ hle]
  rfl

/-- An operation on the line at the end leaves the other rows. -/
theorem cell_line (hh : 0 < height) (line : List α) : (⟨t.above, line⟩ : Terminal α).cell height blank r c =
    if r = t.row height then line.getD c blank else t.cell height blank r c := by
  have hrow : (⟨t.above, line⟩ : Terminal α).row height = t.row height := rfl
  rcases lt_trichotomy r (t.row height) with hlt | rfl | hgt
  · rw [if_neg hlt.ne, cell_of_lt _ _ _ hh (hrow ▸ hlt), cell_of_lt _ _ _ hh hlt]
    rfl
  · rw [if_pos rfl]
    exact cell_of_row blank ⟨t.above, line⟩ c hh
  · rw [if_neg hgt.ne', cell_of_gt _ _ _ hh (hrow ▸ hgt), cell_of_gt _ _ _ hh hgt]

theorem cell_append (hh : 0 < height) : (t.append a).cell height blank r c =
    if r = t.row height ∧ c = t.line.length then a else t.cell height blank r c := by
  rw [append, cell_line blank t r c hh]
  by_cases hr : r = t.row height
  · rw [if_pos hr, hr, cell_of_row _ _ _ hh]
    rcases lt_trichotomy c t.line.length with hlt | rfl | hgt
    · rw [if_neg fun h => hlt.ne h.2, List.getD_append _ _ _ _ hlt]
    · rw [if_pos ⟨rfl, rfl⟩, List.getD_append_right _ _ _ _ le_rfl, Nat.sub_self]
      rfl
    · rw [if_neg fun h => hgt.ne' h.2, List.getD_eq_default, List.getD_eq_default _ _ hgt.le]
      simpa using hgt
  · rw [if_neg hr, if_neg fun h => hr h.1]

theorem cell_erase (hh : 0 < height) (h : t.line ≠ []) : t.erase.cell height blank r c =
    if r = t.row height ∧ c = t.line.length - 1 then blank else t.cell height blank r c := by
  have hpos := List.length_pos_of_ne_nil h
  have hlen : t.line.dropLast.length = t.line.length - 1 := List.length_dropLast
  rw [erase, cell_line blank t r c hh]
  by_cases hr : r = t.row height
  · rw [if_pos hr, hr, cell_of_row _ _ _ hh]
    rcases lt_trichotomy c (t.line.length - 1) with hlt | heq | hgt
    · rw [if_neg fun h => hlt.ne h.2, List.getD_eq_getElem?_getD, List.getD_eq_getElem?_getD,
        List.getElem?_dropLast, if_pos hlt]
    · rw [if_pos ⟨rfl, heq⟩, List.getD_eq_default _ _ (by omega)]
    · rw [if_neg fun h => hgt.ne' h.2, List.getD_eq_default _ _ (by omega),
        List.getD_eq_default _ _ (by omega)]
  · rw [if_neg hr, if_neg fun h => hr h.1]

/-- **A new line** takes the next row, or the screen scrolls up. -/
theorem cell_newLine (hh : 0 < height) {r : ℕ} (hr : r < height) : t.newLine.cell height blank r c =
    if t.row height + 1 < height then t.cell height blank r c
    else if r + 1 < height then t.cell height blank (r + 1) c else blank := by
  have hsame (i : ℕ) : (t.newLine.above ++ [t.newLine.line]).getD i [] =
      (t.above ++ [t.line]).getD i [] := by
    by_cases hi : i < (t.above ++ [t.line]).length
    · exact List.getD_append _ _ _ _ hi
    · rw [List.getD_eq_default _ _ (not_lt.mp hi)]
      have hle : t.newLine.above.length ≤ i := not_lt.mp hi
      rw [List.getD_append_right _ _ _ _ hle]
      cases i - t.newLine.above.length <;> rfl
  have hrow := hidden_add_row t hh
  rw [cell, hsame]
  have hhidden : t.newLine.hidden height = t.above.length + 2 - height := by
    simp [hidden, newLine]
  split_ifs with hnext hin
  · have : t.newLine.hidden height = t.hidden height := by
      rw [hhidden, hidden]
      unfold row hidden at hnext
      omega
    rw [this, cell]
  · have : t.newLine.hidden height + r = t.hidden height + (r + 1) := by
      rw [hhidden, hidden]
      unfold row hidden at hnext
      omega
    rw [this, cell]
  · have hend : (t.above ++ [t.line]).length ≤ t.newLine.hidden height + r := by
      rw [hhidden, List.length_append, List.length_singleton]
      unfold row hidden at hnext
      omega
    rw [List.getD_eq_default _ _ hend]
    rfl

end Screen

end Terminal

end Scrollback
