import Mathlib.Tactic
import Mathlib.Data.List.TakeWhile

/-!
# Paths of components

A path is a string cut at a separator. Empty pieces do not count, one component stands for the
place itself and one for the place above.

* `split`, `join`: a path to its components and back. **`split_join`**, `length_join_split_le`,
  `ne_nil_of_mem_splitOn`.
* `split_cut`, `exists_cut`: a path cut behind a component.
* `follow`, `resolve`: one component followed from a place, and a list of them.
* `resolve_of_plain`, `mem_resolve`: what a resolved place consists of.
-/

namespace Components

variable {α : Type} {s : α}

/-- The components of a path. -/
def split [DecidableEq α] (s : α) (path : List α) : List (List α) := (path.splitOn s).filter (· ≠ [])

/-- The path with given components. -/
def join (s : α) (comps : List (List α)) : List α := [s].intercalate comps

/-- One component followed: `here` stays, `up` goes to the place above, if there is one. -/
def follow [DecidableEq α] (here up : List α) (comps : List (List α)) (comp : List α) : List (List α) :=
  if comp = here then comps else if comp = up then comps.dropLast else comps ++ [comp]

/-- The components `names` followed one after the other. -/
def resolve [DecidableEq α] (here up : List α) (comps names : List (List α)) : List (List α) :=
  names.foldl (follow here up) comps

/-! ## Cutting -/

section Cut

variable [DecidableEq α]

@[simp] theorem split_nil : split s [] = [] := by simp [split]

@[simp] theorem split_sep (path : List α) : split s (s :: path) = split s path := by
  have := List.splitOn_append_cons_self (a := s) [] path
  simp only [List.nil_append, List.splitOn_nil, List.singleton_append] at this
  simp [split, this]

theorem split_component {comp : List α} (hc : s ∉ comp) (hne : comp ≠ []) :
    split s comp = [comp] := by
  simp [split, List.splitOn_eq_singleton hc, hne]

theorem split_append {comp : List α} (hc : s ∉ comp) (hne : comp ≠ []) (path : List α) :
    split s (comp ++ s :: path) = comp :: split s path := by
  simp [split, List.splitOn_append_cons_self_of_not_mem hc, hne]

theorem split_dropWhile (path : List α) : split s (path.dropWhile (· == s)) = split s path := by
  induction path with
  | nil => rfl
  | cons x path ih =>
    by_cases hx : x = s
    · subst hx
      rw [List.dropWhile_cons_of_pos (by simp), ih, split_sep]
    · rw [List.dropWhile_cons_of_neg (by simpa using hx)]

/-- The first component of a path, and the rest. -/
theorem split_takeWhile {path : List α} (hne : path.takeWhile (· != s) ≠ []) :
    split s path = path.takeWhile (· != s) :: split s (path.dropWhile (· != s)) := by
  have hmem : s ∉ path.takeWhile (· != s) := fun h => by
    simpa using List.mem_takeWhile_imp h
  rcases hd : path.dropWhile (· != s) with _ | ⟨x, rest⟩
  · have hp : path.takeWhile (· != s) = path := by
      simpa [hd] using List.takeWhile_append_dropWhile (p := (· != s)) (l := path)
    rw [hp] at hmem hne ⊢
    rw [split_component hmem hne, split_nil]
  · have hx : x = s := by
      have := List.head_dropWhile_not (p := (· != s)) (l := path) (by simp [hd])
      simpa [hd] using this
    subst hx
    conv_lhs => rw [← List.takeWhile_append_dropWhile (p := (· != x)) (l := path), hd]
    rw [split_append hmem hne, split_sep]

/-- A path that is not made of separators only has a first component. -/
theorem split_first {path rest : List α} (hd : path.dropWhile (· == s) = rest) (hne : rest ≠ []) :
    rest.takeWhile (· != s) ≠ [] ∧ (rest.dropWhile (· != s)).length < path.length ∧
      split s path = rest.takeWhile (· != s) :: split s (rest.dropWhile (· != s)) := by
  have hhead : rest.head hne ≠ s := by
    have := List.head_dropWhile_not (p := (· == s)) (l := path) (by rwa [hd])
    simpa [hd] using this
  have htake : rest.takeWhile (· != s) ≠ [] := by
    cases rest with
    | nil => exact absurd rfl hne
    | cons x rest => simp [show x ≠ s from hhead]
  refine ⟨htake, ?_, ?_⟩
  · have hsplit := congrArg List.length (List.takeWhile_append_dropWhile (p := (· != s)) (l := rest))
    have hle : rest.length ≤ path.length := hd ▸ List.length_dropWhile_le _ path
    have := List.length_pos_iff.mpr htake
    rw [List.length_append] at hsplit
    omega
  · rw [← split_dropWhile, hd, split_takeWhile htake]

/-- What a component is made of. -/
theorem mem_of_mem_split {path comp : List α} (h : comp ∈ split s path) {x : α} (hx : x ∈ comp) :
    x ∈ path ∧ x ≠ s := by
  induction hn : path.length using Nat.strong_induction_on generalizing path with
  | _ n ih =>
    by_cases hne : path.dropWhile (· == s) = []
    · rw [← split_dropWhile, hne, split_nil] at h
      simp at h
    · obtain ⟨-, hlt, heq⟩ := split_first rfl hne
      have hsub : ∀ y ∈ path.dropWhile (· == s), y ∈ path := (List.dropWhile_sublist _).subset
      rw [heq, List.mem_cons] at h
      rcases h with rfl | h
      · exact ⟨hsub x ((List.takeWhile_prefix _).subset hx), by simpa using List.mem_takeWhile_imp hx⟩
      · have := ih _ (hn ▸ hlt) h rfl
        exact ⟨hsub x ((List.dropWhile_sublist _).subset this.1), this.2⟩

theorem ne_nil_of_mem_split {path comp : List α} (h : comp ∈ split s path) : comp ≠ [] := by
  simpa using (List.mem_filter.mp h).2

/-- A path cut behind a component. -/
theorem split_cut {rest : List α} (h : rest = [] ∨ rest.head? = some s) (pre : List α) :
    split s (pre ++ rest) = split s pre ++ split s rest := by
  rcases h with rfl | h
  · rw [List.append_nil, split_nil, List.append_nil]
  · obtain ⟨rest, rfl⟩ := List.head?_eq_some_iff.mp h
    rw [split_sep, split, split, split, List.splitOn_append_cons_self, List.filter_append]

/-- A path can be cut behind each of its components. -/
theorem exists_cut {path : List α} {k : ℕ} (hk : 0 < k) (hle : k ≤ (split s path).length) :
    ∃ pre rest, path = pre ++ rest ∧ split s pre = (split s path).take k ∧ pre.getLast? ≠ some s ∧
      (rest = [] ∨ rest.head? = some s) := by
  induction hn : path.length using Nat.strong_induction_on generalizing path k with
  | _ n ih =>
    have hne : path.dropWhile (· == s) ≠ [] := by
      intro hnil
      rw [← split_dropWhile, hnil, split_nil] at hle
      exact absurd hle (by simpa using Nat.ne_of_gt hk)
    obtain ⟨htake, hlt, heq⟩ := split_first rfl hne
    set comp := (path.dropWhile (· == s)).takeWhile (· != s) with hcomp
    set tail := (path.dropWhile (· == s)).dropWhile (· != s) with htail
    have hpath : path = path.takeWhile (· == s) ++ (comp ++ tail) := by
      rw [hcomp, htail, List.takeWhile_append_dropWhile, List.takeWhile_append_dropWhile]
    have hcut : tail = [] ∨ tail.head? = some s := by
      cases hd : tail with
      | nil => exact .inl rfl
      | cons x xs =>
        have := List.head_dropWhile_not (p := (· != s)) (l := path.dropWhile (· == s)) (by rw [← htail, hd]; simp)
        simp only [← htail, hd] at this
        exact .inr (by simpa using this)
    have hmem : s ∉ comp := fun h => by simpa using List.mem_takeWhile_imp h
    have hlead (xs : List α) : split s (path.takeWhile (· == s) ++ xs) = split s xs := by
      have hall : ∀ x ∈ path.takeWhile (· == s), x = s := fun x hx => by
        simpa using List.mem_takeWhile_imp hx
      generalize path.takeWhile (· == s) = lead at hall
      induction lead with
      | nil => rfl
      | cons x lead ih =>
        rw [hall x List.mem_cons_self, List.cons_append, split_sep]
        exact ih fun y hy => hall y (List.mem_cons_of_mem _ hy)
    have hlast : (path.takeWhile (· == s) ++ comp).getLast? ≠ some s := by
      rw [List.getLast?_append_of_ne_nil _ htake]
      exact fun h => hmem (List.mem_of_getLast? h)
    obtain ⟨k, rfl⟩ := Nat.exists_eq_succ_of_ne_zero (Nat.ne_of_gt hk)
    by_cases hk0 : k = 0
    · subst hk0
      refine ⟨path.takeWhile (· == s) ++ comp, tail, by rw [List.append_assoc, ← hpath], ?_, hlast, hcut⟩
      rw [hlead, split_component hmem htake, heq]
      rfl
    · rw [heq, List.length_cons] at hle
      obtain ⟨pre, rest, htl, hpre, hl, hr⟩ := ih _ (hn ▸ hlt) (Nat.pos_of_ne_zero hk0) (by omega) rfl
      have hprene : pre ≠ [] := by
        rintro rfl
        rw [split_nil] at hpre
        have := congrArg List.length hpre
        simp only [List.length_nil, List.length_take] at this
        omega
      refine ⟨path.takeWhile (· == s) ++ comp ++ pre, rest, ?_, ?_, ?_, hr⟩
      · rw [List.append_assoc, List.append_assoc, ← htl, ← hpath]
      · have hhead : pre = [] ∨ pre.head? = some s := by
          rw [htl] at hcut
          rcases hcut with hnil | hh
          · exact .inl (List.append_eq_nil_iff.mp hnil).1
          · rw [List.head?_append_of_ne_nil _ hprene] at hh
            exact .inr hh
        rw [split_cut hhead, hlead, split_component hmem htake, heq, hpre]
        rfl
      · rw [List.getLast?_append_of_ne_nil _ hprene]
        exact hl

end Cut

/-! ## Joining -/

@[simp] theorem join_nil : join s [] = [] := by simp [join]

@[simp] theorem join_singleton (comp : List α) : join s [comp] = comp := by simp [join]

theorem join_cons_cons (comp comp' : List α) (comps : List (List α)) :
    join s (comp :: comp' :: comps) = comp ++ s :: join s (comp' :: comps) := by
  simp [join, List.intercalate_cons_cons]

theorem join_append {pre post : List (List α)} (hpre : pre ≠ []) (hpost : post ≠ []) :
    join s (pre ++ post) = join s pre ++ s :: join s post := by
  induction pre with
  | nil => exact absurd rfl hpre
  | cons x pre ih =>
    cases pre with
    | nil =>
      obtain ⟨y, post, rfl⟩ := List.exists_cons_of_ne_nil hpost
      simp [join_cons_cons]
    | cons y pre =>
      have := ih (by simp)
      simp only [List.cons_append] at this ⊢
      rw [join_cons_cons, join_cons_cons, this, List.append_assoc, List.cons_append]

theorem join_concat {comps : List (List α)} (hne : comps ≠ []) (comp : List α) :
    join s (comps ++ [comp]) = join s comps ++ s :: comp := by
  rw [join_append hne (by simp), join_singleton]

theorem join_eq_nil_iff {comps : List (List α)} (hne : ∀ comp ∈ comps, comp ≠ []) :
    join s comps = [] ↔ comps = [] := by
  constructor
  · intro h
    cases comps with
    | nil => rfl
    | cons x comps =>
      cases comps with
      | nil => exact absurd (by simpa using h) (hne x (by simp))
      | cons y comps => simp [join_cons_cons] at h
  · rintro rfl
    simp

/-- A joined path does not start with a separator. -/
theorem head_join {comps : List (List α)} (hs : ∀ comp ∈ comps, s ∉ comp)
    (hne : ∀ comp ∈ comps, comp ≠ []) : (join s comps).head? ≠ some s := by
  intro hj
  cases comps with
  | nil => simp at hj
  | cons comp comps =>
    obtain ⟨x, xs, rfl⟩ := List.exists_cons_of_ne_nil (hne comp List.mem_cons_self)
    refine hs _ List.mem_cons_self (List.mem_cons.mpr (.inl ?_))
    cases comps with
    | nil =>
      rw [join_singleton] at hj
      exact (Option.some.inj hj).symm
    | cons comp comps =>
      rw [join_cons_cons] at hj
      exact (Option.some.inj hj).symm

/-- What a joined path is made of. -/
theorem mem_join {comps : List (List α)} {x : α} (h : x ∈ join s comps) :
    x = s ∨ ∃ comp ∈ comps, x ∈ comp := by
  induction comps with
  | nil => cases h
  | cons comp comps ih =>
    cases comps with
    | nil =>
      rw [join_singleton] at h
      exact .inr ⟨comp, List.mem_singleton_self _, h⟩
    | cons comp' comps =>
      rw [join_cons_cons, List.mem_append, List.mem_cons] at h
      rcases h with h | h | h
      · exact .inr ⟨comp, List.mem_cons_self, h⟩
      · exact .inl h
      · exact (ih h).imp_right fun ⟨c, hc, hx⟩ => ⟨c, List.mem_cons_of_mem _ hc, hx⟩

theorem length_join_concat (comps : List (List α)) (comp : List α) :
    (join s comps).length ≤ (join s (comps ++ [comp])).length := by
  by_cases hne : comps = []
  · simp [hne]
  · rw [join_concat hne, List.length_append]
    omega

theorem length_join_dropLast (comps : List (List α)) :
    (join s comps.dropLast).length ≤ (join s comps).length := by
  by_cases hne : comps = []
  · simp [hne]
  · conv_rhs => rw [← List.dropLast_append_getLast hne]
    exact length_join_concat _ _

theorem length_join_le {pre comps : List (List α)} (h : pre <+: comps) :
    (join s pre).length ≤ (join s comps).length := by
  obtain ⟨post, rfl⟩ := h
  induction post generalizing pre with
  | nil => simp
  | cons x post ih =>
    rw [show pre ++ x :: post = (pre ++ [x]) ++ post by simp]
    exact (length_join_concat pre x).trans ih

theorem length_join_cons (comp : List α) (comps : List (List α)) :
    (join s (comp :: comps)).length ≤ comp.length + 1 + (join s comps).length := by
  cases comps with
  | nil => simp
  | cons y comps =>
    rw [join_cons_cons, List.length_append, List.length_cons]
    omega

/-- A path loses length only when its components are joined again. -/
theorem length_join_filter (pieces : List (List α)) :
    (join s (pieces.filter (· ≠ []))).length ≤ (join s pieces).length := by
  induction pieces with
  | nil => simp
  | cons x pieces ih =>
    by_cases hx : x = []
    · subst hx
      refine le_trans (by simpa using ih) ?_
      cases pieces <;> simp [join_cons_cons]
    · rw [List.filter_cons_of_pos (by simpa using hx)]
      cases pieces with
      | nil => simp
      | cons y pieces =>
        refine (length_join_cons x _).trans ?_
        rw [join_cons_cons, List.length_append, List.length_cons]
        omega

section Both

variable [DecidableEq α]

/-- **The components of a joined path are the ones it was joined from.** -/
theorem split_join {comps : List (List α)} (hs : ∀ comp ∈ comps, s ∉ comp)
    (hne : ∀ comp ∈ comps, comp ≠ []) : split s (join s comps) = comps := by
  by_cases h : comps = []
  · simp [h]
  · rw [split, join, List.splitOn_intercalate s hs h, List.filter_eq_self]
    simpa using hne

theorem length_join_split_le (path : List α) : (join s (split s path)).length ≤ path.length := by
  have := length_join_filter (s := s) (path.splitOn s)
  rwa [join, join, List.intercalate_splitOn] at this

/-- A path without a separator at an end, and without two in a row, has no empty piece. -/
theorem ne_nil_of_mem_splitOn {path piece : List α} (hne : path ≠ []) (hhead : path.head? ≠ some s)
    (hlast : path.getLast? ≠ some s) (hdouble : ¬ [s, s] <:+: path) (hp : piece ∈ path.splitOn s) :
    piece ≠ [] := by
  rintro rfl
  obtain ⟨pre, post, hsplit⟩ := List.append_of_mem hp
  have hjoin : path = join s (pre ++ [] :: post) := by
    rw [← hsplit, join, List.intercalate_splitOn]
  cases pre with
  | nil =>
    cases post with
    | nil => exact hne (by rw [hjoin, List.nil_append, join_singleton])
    | cons y post => exact hhead (by rw [hjoin, List.nil_append, join_cons_cons]; rfl)
  | cons x pre =>
    rw [join_append (by simp) (by simp)] at hjoin
    cases post with
    | nil => exact hlast (by rw [hjoin, join_singleton, List.getLast?_concat])
    | cons y post =>
      rw [join_cons_cons] at hjoin
      refine hdouble ⟨join s (x :: pre), join s (y :: post), ?_⟩
      rw [hjoin, List.append_assoc, List.cons_append, List.cons_append, List.nil_append,
        List.nil_append]

/-- Pieces that are not empty are the components. -/
theorem split_eq_splitOn {path : List α} (h : ∀ piece ∈ path.splitOn s, piece ≠ []) :
    split s path = path.splitOn s := by
  rw [split, List.filter_eq_self]
  simpa using h

/-- Every element but a separator lies in a component. -/
theorem mem_split {path : List α} {x : α} (h : x ∈ path) (hx : x ≠ s) :
    ∃ comp ∈ split s path, x ∈ comp := by
  have hjoin : [s].intercalate (path.splitOn s) = path := List.intercalate_splitOn s
  rw [← hjoin] at h
  obtain ⟨comp, hc, hmem⟩ := (mem_join h).resolve_left hx
  exact ⟨comp, List.mem_filter.mpr ⟨hc, by simpa using List.ne_nil_of_mem hmem⟩, hmem⟩

end Both

/-! ## Following components -/

section Follow

variable [DecidableEq α] {here up : List α}

@[simp] theorem resolve_nil (comps : List (List α)) : resolve here up comps [] = comps := rfl

@[simp] theorem resolve_cons (comps : List (List α)) (comp : List α) (names : List (List α)) :
    resolve here up comps (comp :: names) = resolve here up (follow here up comps comp) names := rfl

/-- Components that are neither `here` nor `up` are added as they are. -/
theorem resolve_of_plain {names : List (List α)} (h : ∀ comp ∈ names, comp ≠ here ∧ comp ≠ up)
    (comps : List (List α)) : resolve here up comps names = comps ++ names := by
  induction names generalizing comps with
  | nil => simp
  | cons comp names ih =>
    obtain ⟨hh, hu⟩ := h comp (by simp)
    rw [resolve_cons, follow, if_neg hh, if_neg hu, ih fun c hc => h c (by simp [hc])]
    simp

/-- A component of the place reached comes from the place left, or is one of the names. -/
theorem mem_resolve {names comps : List (List α)} {comp : List α}
    (h : comp ∈ resolve here up comps names) :
    comp ∈ comps ∨ comp ∈ names ∧ comp ≠ here ∧ comp ≠ up := by
  induction names generalizing comps with
  | nil => exact .inl h
  | cons x names ih =>
    rcases ih h with h | ⟨h, hx⟩
    · unfold follow at h
      split_ifs at h with hh hu
      · exact .inl h
      · exact .inl (List.mem_of_mem_dropLast h)
      · rcases List.mem_append.mp h with h | h
        · exact .inl h
        · rw [List.mem_singleton] at h
          subst h
          exact .inr ⟨by simp, hh, hu⟩
    · exact .inr ⟨by simp [h], hx⟩

end Follow

end Components
