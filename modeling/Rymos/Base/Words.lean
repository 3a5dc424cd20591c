import Mathlib.Tactic
import Mathlib.Data.List.TakeWhile

/-!
# Words

The maximal runs of elements that are not separators.

* `words`: all of them, in order. `words_append`, `words_eq_nil_iff`.
* **`words_first`**: the first word, and those of the rest. `length_le_of_mem_words`.
-/

namespace Words

variable {α : Type} {sep : α → Bool}

/-- The pieces between separators that are not empty. -/
def words (sep : α → Bool) (xs : List α) : List (List α) := (xs.splitOnP sep).filter (!·.isEmpty)

@[simp] theorem words_nil : words sep [] = [] := rfl

@[simp] theorem words_cons_sep {x : α} (hx : sep x = true) (xs : List α) :
    words sep (x :: xs) = words sep xs := by
  simp [words, List.splitOnP_cons_eq_if_modifyHead, hx]

theorem words_dropWhile (xs : List α) : words sep (xs.dropWhile sep) = words sep xs := by
  induction xs with
  | nil => rfl
  | cons x xs ih =>
    rw [List.dropWhile_cons]
    split_ifs with hx
    · rw [ih, words_cons_sep hx]
    · rfl

theorem words_eq_nil_iff {xs : List α} : words sep xs = [] ↔ ∀ x ∈ xs, sep x = true := by
  induction xs with
  | nil => simp
  | cons x xs ih =>
    by_cases hx : sep x = true
    · simp [words_cons_sep hx, ih, hx]
    · constructor
      · intro h
        cases hs : xs.splitOnP sep with
        | nil => exact (List.splitOnP_ne_nil _ _ hs).elim
        | cons w ws => simp [words, List.splitOnP_cons_eq_if_modifyHead, hx, hs] at h
      · exact fun h => absurd (h x (List.mem_cons_self ..)) hx

/-- A word before a separator, or at the end. -/
theorem words_append {w xs : List α} (hw : ∀ x ∈ w, sep x = false) (hne : w ≠ [])
    (hx : ∀ x ∈ xs.head?, sep x = true) : words sep (w ++ xs) = w :: words sep xs := by
  have hsplit : ∀ w : List α, (∀ x ∈ w, sep x = false) →
      (w ++ xs).splitOnP sep = (xs.splitOnP sep).modifyHead (w ++ ·) := by
    intro w hw
    induction w with
    | nil => cases h : xs.splitOnP sep <;> simp [h]
    | cons y w ih =>
      have hy : sep y = false := hw y (List.mem_cons_self ..)
      rw [List.cons_append, List.splitOnP_cons_eq_if_modifyHead, hy, ih fun x hx => hw x (List.mem_cons_of_mem _ hx)]
      cases xs.splitOnP sep <;> rfl
  rw [words, hsplit w hw]
  cases xs with
  | nil => simp [hne]
  | cons x xs =>
    have hx : sep x = true := hx x rfl
    rw [words_cons_sep hx, List.splitOnP_cons_eq_if_modifyHead, if_pos hx]
    simp [words, hne]

/-- **The first word**, and those of the rest. -/
theorem words_first {xs rest : List α} (hd : xs.dropWhile sep = rest) (hne : rest ≠ []) :
    rest.takeWhile (!sep ·) ≠ [] ∧
      words sep xs = rest.takeWhile (!sep ·) :: words sep (rest.dropWhile (!sep ·)) := by
  cases rest with
  | nil => exact absurd rfl hne
  | cons y rest =>
    have hy : sep y = false := by
      have := List.head?_dropWhile_not sep xs
      rw [hd] at this
      simpa using this
    have hword : (y :: rest).takeWhile (!sep ·) ≠ [] := by simp [hy]
    refine ⟨hword, ?_⟩
    rw [← words_dropWhile xs, hd]
    conv_lhs => rw [← List.takeWhile_append_dropWhile (p := (!sep ·)) (l := y :: rest)]
    refine words_append (fun x hx => ?_) hword fun x hx => ?_
    · simpa using List.mem_takeWhile_imp hx
    · have := List.head?_dropWhile_not (!sep ·) (y :: rest)
      rw [Option.mem_def.mp hx] at this
      simpa using this

theorem length_le_of_mem_words {xs w : List α} (hw : w ∈ words sep xs) : w.length ≤ xs.length := by
  have hpieces : ∀ xs : List α, ∀ w ∈ xs.splitOnP sep, w.length ≤ xs.length := by
    intro xs
    induction xs with
    | nil => simp
    | cons x xs ih =>
      rw [List.splitOnP_cons_eq_if_modifyHead]
      cases hs : xs.splitOnP sep with
      | nil => exact (List.splitOnP_ne_nil _ _ hs).elim
      | cons v vs =>
        intro w hw
        rw [List.length_cons]
        split_ifs at hw
        · rcases List.mem_cons.mp hw with rfl | hw
          · simp
          · have := ih w (hs ▸ hw)
            omega
        · rcases List.mem_cons.mp hw with rfl | hw
          · have := ih v (hs ▸ List.mem_cons_self ..)
            simpa using this
          · have := ih w (hs ▸ List.mem_cons_of_mem _ hw)
            omega
  exact hpieces xs w (List.mem_of_mem_filter hw)

end Words
