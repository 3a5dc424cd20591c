import Mathlib.Tactic
import Rymos.Path.Names
import Rymos.Pfs.Normalize
import Rymos.Upload.Tool

/-!
# The paths of the uploader

The script stores a path as it is given; the kernel looks for the name the path is normalised to.

* `PathOk`, **`validPath_pathOk`**: what `valid_path` lets through. `components`, `encode_eq_join`.
* `Chained`, **`chained_pathNames`**: each parent of a path comes before what lies in it.
* `PlainDest`, **`PathOk.pfsResolvePath_iff`**: the kernel finds the path under its own name just if no
  component is `.` or `..`.
-/

namespace Rymos.PfsPut

open Components

/-- A path `valid_path` lets through. -/
structure PathOk (dest : List Char) : Prop where
  chars : ∀ char ∈ dest, char ∈ allowed
  length : dest.length ≤ 96
  pieces : ∀ piece ∈ dest.splitOn '/', piece ≠ []

theorem validPath_pathOk {dest : List Char} (h : validPath dest = true) : PathOk dest := by
  rw [validPath] at h
  split_ifs at h with h₁ h₂
  simp only [Bool.or_eq_true, not_or, decide_eq_true_eq, beq_iff_eq] at h₁ h₂
  obtain ⟨⟨hne, -⟩, hlen⟩ := h₁
  obtain ⟨⟨hhead, hlast⟩, hdouble⟩ := h₂
  refine ⟨fun char hc => by simpa using List.all_eq_true.mp h char hc, not_lt.mp hlen, ?_⟩
  exact fun piece => ne_nil_of_mem_splitOn (by simpa using hne) hhead hlast hdouble

/-! ## Bytes -/

/-- A character of a path is a byte of a component, or `/`. -/
theorem allowed_byte : ∀ char ∈ allowed, (char = '/' ↔ UInt8.ofNat char.toNat = slash) ∧
    (char ≠ '/' → validPfsByte (UInt8.ofNat char.toNat) = true) := by
  unfold allowed
  repeat refine List.forall_mem_cons.mpr ⟨by decide, ?_⟩
  exact List.forall_mem_nil _

theorem allowed_dot : ∀ char ∈ allowed, UInt8.ofNat char.toNat = 46 → char = '.' := by
  unfold allowed
  repeat refine List.forall_mem_cons.mpr ⟨by decide, ?_⟩
  exact List.forall_mem_nil _

/-- The components of a path, in bytes. -/
def components (dest : List Char) : List (List UInt8) := (dest.splitOn '/').map encode

theorem encode_append (s t : List Char) : encode (s ++ t) = encode s ++ encode t := List.map_append

theorem encode_join (pieces : List (List Char)) :
    encode (join '/' pieces) = join slash (pieces.map encode) := by
  induction pieces with
  | nil => rfl
  | cons piece pieces ih =>
    cases pieces with
    | nil => rw [List.map_singleton, join_singleton, join_singleton]
    | cons piece' pieces =>
      rw [List.map_cons] at ih
      rw [List.map_cons, List.map_cons, join_cons_cons, join_cons_cons, encode_append, ← ih]
      rfl

theorem encode_eq_join (dest : List Char) : encode dest = join slash (components dest) := by
  rw [components, ← encode_join, join, List.intercalate_splitOn]

section Ok

variable {dest : List Char} (h : PathOk dest)

include h

theorem PathOk.piece {piece : List Char} (hp : piece ∈ dest.splitOn '/') {char : Char}
    (hc : char ∈ piece) : char ∈ allowed ∧ char ≠ '/' := by
  have hs := split_eq_splitOn h.pieces
  rw [← hs] at hp
  obtain ⟨hmem, hne⟩ := mem_of_mem_split hp hc
  exact ⟨h.chars _ hmem, hne⟩

theorem PathOk.validPlace : ValidPlace (components dest) := by
  intro comp hc
  obtain ⟨piece, hp, rfl⟩ := List.mem_map.mp hc
  refine validPfsComponent_iff.mpr ⟨fun he => h.pieces piece hp (List.map_eq_nil_iff.mp he), ?_⟩
  intro byte hb
  obtain ⟨char, hchar, rfl⟩ := List.mem_map.mp hb
  obtain ⟨hal, hne⟩ := h.piece hp hchar
  exact (allowed_byte char hal).2 hne

theorem PathOk.split_encode : split slash (encode dest) = components dest := by
  rw [encode_eq_join]
  exact split_join (fun comp hc => slash_notMem (h.validPlace comp hc))
    fun comp hc => (validPfsComponent_iff.mp (h.validPlace comp hc)).1

/-- The names of the directories on the way, and the path, are valid. -/
theorem PathOk.validName {k : ℕ} (hk : k < (components dest).length) :
    validPfsPath (join slash ((components dest).take (k + 1))) = true := by
  refine validPfsPath_join (fun comp hc => h.validPlace comp (List.mem_of_mem_take hc)) ?_ ?_
  · intro he
    have := congrArg List.length he
    rw [List.length_take, List.length_nil] at this
    omega
  · refine (length_join_le (List.take_prefix _ _)).trans ?_
    rw [← encode_eq_join, encode, List.length_map]
    exact h.length

/-- Each of these names lies in the one before. -/
theorem PathOk.parent {k : ℕ} (hk : k < (components dest).length) {dir : List UInt8}
    (hp : pfsParent (join slash ((components dest).take (k + 1))) = some dir) :
    k ≠ 0 ∧ dir = join slash ((components dest).take k) := by
  have hslash : slash ∉ (components dest)[k] := slash_notMem (h.validPlace _ (List.getElem_mem hk))
  rw [← List.take_concat_get' _ _ hk] at hp
  by_cases h0 : k = 0
  · subst h0
    rw [List.take_zero, List.nil_append, join_singleton, pfsParent_eq_none.mpr hslash] at hp
    cases hp
  · have hne : (components dest).take k ≠ [] := by
      intro he
      have := congrArg List.length he
      rw [List.length_take, List.length_nil] at this
      omega
    rw [join_concat hne, pfsParent_eq_some.mpr ⟨_, hslash, rfl⟩] at hp
    exact ⟨h0, (Option.some.inj hp).symm⟩

end Ok

/-! ## Parents come first -/

/-- The names that are made, in order. -/
def pathNames (dest : List Char) : List (List Char) := parentDirs dest ++ [dest]

/-- Each name is valid, and its parent meets `P` or is one of the names before it. -/
def Chained (P : List UInt8 → Prop) : List (List Char) → Prop
  | [] => True
  | name :: names => validPfsPath (encode name) = true ∧
      (∀ dir, pfsParent (encode name) = some dir → P dir) ∧
      Chained (fun dir => P dir ∨ dir = encode name) names

theorem Chained.mono {P Q : List UInt8 → Prop} {names : List (List Char)} (h : Chained P names)
    (hPQ : ∀ dir, P dir → Q dir) : Chained Q names := by
  induction names generalizing P Q with
  | nil => trivial
  | cons name names ih =>
    obtain ⟨hv, hp, hrest⟩ := h
    exact ⟨hv, fun dir hd => hPQ dir (hp dir hd), ih hrest fun dir hd => hd.imp_left (hPQ dir)⟩

/-- The first `k + 1` components of a path. -/
def pathTo (dest : List Char) (k : ℕ) : List Char := join '/' ((dest.splitOn '/').take (k + 1))

theorem encode_pathTo (dest : List Char) (k : ℕ) :
    encode (pathTo dest k) = join slash ((components dest).take (k + 1)) := by
  rw [pathTo, encode_join, List.map_take, components]

theorem pathNames_eq (dest : List Char) :
    pathNames dest = (List.range (dest.splitOn '/').length).map (pathTo dest) := by
  obtain ⟨n, hn⟩ : ∃ n, (dest.splitOn '/').length = n + 1 :=
    Nat.exists_eq_succ_of_ne_zero fun h0 => List.splitOn_ne_nil '/' dest (List.length_eq_zero_iff.mp h0)
  have hlast : pathTo dest n = dest := by
    rw [pathTo, List.take_of_length_le (by omega), join, List.intercalate_splitOn]
  rw [pathNames, parentDirs, hn, List.range_succ, List.map_append, List.map_singleton, hlast,
    List.length_dropLast, hn, Nat.add_sub_cancel]
  congr 1
  refine List.map_congr_left fun k hk => ?_
  have hk := List.mem_range.mp hk
  rw [pathTo, join, List.dropLast_eq_take, List.take_take, hn, Nat.min_eq_left (by omega)]

theorem PathOk.chained_from {dest : List Char} (h : PathOk dest) {m k : ℕ} {P : List UInt8 → Prop}
    (hk : k + m ≤ (components dest).length)
    (hP : k ≠ 0 → P (join slash ((components dest).take k))) :
    Chained P ((List.range' k m).map (pathTo dest)) := by
  induction m generalizing k P with
  | zero => trivial
  | succ m ih =>
    rw [List.range'_succ, List.map_cons]
    refine ⟨?_, fun dir hd => ?_, ih (by omega) fun _ => .inr ?_⟩
    · rw [encode_pathTo]
      exact h.validName (by omega)
    · rw [encode_pathTo] at hd
      obtain ⟨h0, rfl⟩ := h.parent (by omega) hd
      exact hP h0
    · rw [encode_pathTo]

/-- **Each parent comes before what lies in it.** -/
theorem chained_pathNames {dest : List Char} (h : PathOk dest) (P : List UInt8 → Prop) :
    Chained P (pathNames dest) := by
  rw [pathNames_eq, List.range_eq_range']
  refine h.chained_from ?_ fun h0 => absurd rfl h0
  rw [Nat.zero_add, components, List.length_map]

/-! ## What the kernel makes of a path -/

/-- No component of the path is `.` or `..`. -/
def PlainDest (dest : List Char) : Prop :=
  ∀ part ∈ dest.splitOn '/', part ≠ ['.'] ∧ part ≠ ['.', '.']

instance (dest : List Char) : Decidable (PlainDest dest) := by unfold PlainDest; infer_instance

section Resolve

variable {dest : List Char} (h : PathOk dest)

include h

/-- The script and the kernel mean the same components. -/
theorem PathOk.plain_iff : PlainDest dest ↔
    ∀ comp ∈ split slash (encode dest), comp ≠ dotName ∧ comp ≠ dotDotName := by
  rw [h.split_encode, components, List.forall_mem_map, PlainDest]
  refine forall₂_congr fun part hp => ?_
  have hdot : ∀ char ∈ part, UInt8.ofNat char.toNat = 46 ↔ char = '.' := fun char hc =>
    ⟨allowed_dot char (h.piece hp hc).1, by rintro rfl; rfl⟩
  refine and_congr (not_congr ?_) (not_congr ?_)
  · cases part with
    | nil => simp [encode, dotName]
    | cons c cs => simp [encode, dotName, hdot c List.mem_cons_self]
  · cases part with
    | nil => simp [encode, dotDotName]
    | cons c cs =>
      cases cs with
      | nil => simp [encode, dotDotName]
      | cons d ds =>
        simp [encode, dotDotName, hdot c List.mem_cons_self,
          hdot d (List.mem_cons_of_mem _ List.mem_cons_self)]

theorem PathOk.validPfsPath : validPfsPath (encode dest) = true := by
  have hn : 0 < (components dest).length := by
    rw [components, List.length_map]
    exact List.length_pos_iff.mpr (List.splitOn_ne_nil '/' dest)
  have := h.validName (k := (components dest).length - 1) (by omega)
  rwa [Nat.sub_add_cancel hn, List.take_length, ← encode_eq_join] at this

/-- **The kernel looks for the path under its own name just if the path is plain.** -/
theorem PathOk.pfsResolvePath_iff (cwd : List UInt8) :
    pfsResolvePath cwd (pfsPrefix ++ encode dest) = some (encode dest) ↔ PlainDest dest := by
  have hstart : startsWith (pfsPrefix ++ encode dest) pfsPrefix = true :=
    List.isPrefixOf_iff_prefix.mpr (List.prefix_append _ _)
  have hj : join slash (split slash (encode dest)) = encode dest := by
    rw [h.split_encode, ← encode_eq_join]
  rw [pfsResolvePath, if_pos hstart, h.plain_iff,
    show (pfsPrefix ++ encode dest).drop 4 = encode dest from rfl]
  constructor
  · intro hr
    obtain ⟨hres, hout⟩ := (normalizePfsPath_eq (.inl rfl) _ _).mp hr
    have hplain := PlainName.resolved (.inl rfl) hres
    rw [← hout] at hplain
    rw [hplain.2.1]
    exact hplain.2.2
  · exact normalizePfsPath_self h.validPfsPath hj

end Resolve

end Rymos.PfsPut
