import Mathlib.Data.List.GetD
import Rymos.Base.Components
import Rymos.Pfs.Path

/-!
# Normalised paths

`normalize_pfs_path` joins and pops in place, in a buffer of `PFS_NAME_MAX` bytes.

* `pfsPushComponentIn`, `pfsPopComponentIn`, `normalizePfsPathIn`: the functions on the buffer. A
  store past its end is a panic.
* `Resolvable`, `resolved`: the resolution of a path component by component.
* `pfsComponents_eq`, `normalizePfsPath_eq`: the functions on byte strings compute it.
* `NameIn`, `normalizePfsPathIn_eq`: the buffer holds what they return.
* **`normalizePfsPathIn_spec`**: what the kernel returns for any path, and what it never does.
-/

namespace Rymos

open ByteBuf Components

/-! ## In the buffer -/

/-- `output[off..off + bytes.len()].copy_from_slice(bytes)`; `none` is a panic. -/
def storeIn (output : Buf pfsNameMax) (off : ℕ) (bytes : List UInt8) : Option (Buf pfsNameMax) :=
  if off + bytes.length ≤ pfsNameMax then some (output.put off bytes) else none

/-- `output[off..end].fill(0)`; `none` is a panic. -/
def fillIn (output : Buf pfsNameMax) (off stop : ℕ) : Option (Buf pfsNameMax) :=
  if off ≤ stop ∧ stop ≤ pfsNameMax then some (output.fill off (stop - off)) else none

/-- `output[index]`; `none` is a panic. -/
def loadIn (output : Buf pfsNameMax) (index : ℕ) : Option UInt8 :=
  if index < pfsNameMax then some (output.byte index) else none

/-- The buffer after the call, and the length returned, if any. The outer `none` is a panic. -/
def pfsPushComponentIn (output : Buf pfsNameMax) (len : ℕ) (component : List UInt8) :
    Option (Buf pfsNameMax × Option ℕ) :=
  if component.isEmpty || !validPfsComponent component then some (output, none)
  else if len ≠ 0 && len ≥ pfsNameMax then some (output, none)
  else
    (if len ≠ 0 then (storeIn output len [slash]).map (·, len + 1) else some (output, len)).bind
      fun (output, len) =>
    if len + component.length > pfsNameMax then some (output, none)
    else (storeIn output len component).map (·, some (len + component.length))

/-- The loop of `pfs_pop_component` over the indexes below `n`, the last one first. -/
def popLoop (output : Buf pfsNameMax) (len : ℕ) : ℕ → Option (Buf pfsNameMax × ℕ)
  | 0 => (fillIn output 0 len).map (·, 0)
  | index + 1 =>
    (loadIn output index).bind fun byte =>
    if byte == slash then (fillIn output index len).map (·, index) else popLoop output len index

def pfsPopComponentIn (output : Buf pfsNameMax) (len : ℕ) : Option (Buf pfsNameMax × ℕ) :=
  popLoop output len len

/-- The loops of `normalize_pfs_path`; a `None` of a turn is returned at once. -/
def turnsIn (turn : Buf pfsNameMax → ℕ → List UInt8 → Option (Buf pfsNameMax × Option ℕ)) :
    List (List UInt8) → Buf pfsNameMax → ℕ → Option (Buf pfsNameMax × Option ℕ)
  | [], output, len => some (output, some len)
  | component :: rest, output, len =>
    match turn output len component with
    | none => none
    | some (output, none) => some (output, none)
    | some (output, some len) => turnsIn turn rest output len

/-- One turn of the second loop. -/
def normalizeStepIn (output : Buf pfsNameMax) (len : ℕ) (component : List UInt8) :
    Option (Buf pfsNameMax × Option ℕ) :=
  if component == [46] then some (output, some len)
  else if component == [46, 46] then
    (pfsPopComponentIn output len).map fun (output, len) => (output, some len)
  else pfsPushComponentIn output len component

/-- `normalize_pfs_path` on its output buffer. -/
def normalizePfsPathIn (base path : List UInt8) (output : Buf pfsNameMax) :
    Option (Buf pfsNameMax × Option ℕ) :=
  let absolute := startsWith path [slash]
  (if absolute then some (output, some 0)
    else turnsIn pfsPushComponentIn (pfsComponents base) output 0).bind fun (output, len) =>
  match len with
  | none => some (output, none)
  | some len =>
    let relative := if absolute then path.drop 1 else path
    (turnsIn normalizeStepIn (pfsComponents relative) output len).bind fun (output, len) =>
    match len with
    | none => some (output, none)
    | some len =>
      if len == 0 then some (output, none)
      else if len ≤ pfsNameMax then
        if !validPfsPath (output.slice 0 len) then some (output, none)
        else some (output, some len)
      else none

/-! ## Resolution -/

/-- `.` -/
abbrev dotName : List UInt8 := [46]

/-- `..` -/
abbrev dotDotName : List UInt8 := [46, 46]

/-- The directory a path starts from: the base, or the root. -/
def startOf (base path : List UInt8) : List (List UInt8) :=
  if path.head? = some slash then [] else split slash base

/-- The place reached from `start` by following `names`. -/
def placeOf (start names : List (List UInt8)) : List (List UInt8) := resolve dotName dotDotName start names

/-- What `path` means in the directory `base`. -/
def resolved (base path : List UInt8) : List (List UInt8) :=
  placeOf (startOf base path) (split slash path)

/-- Each name on the way is made of allowed bytes, and each place on the way has a name that fits. -/
structure Followable (start names : List (List UInt8)) : Prop where
  bytes : ∀ comp ∈ names, comp ≠ dotName → comp ≠ dotDotName → ∀ byte ∈ comp, validPfsByte byte = true
  fits : ∀ pre, pre <+: names → (join slash (placeOf start pre)).length ≤ pfsNameMax

/-- The path can be followed, and does not end at the root. -/
def Resolvable (base path : List UInt8) : Prop :=
  Followable (startOf base path) (split slash path) ∧ resolved base path ≠ []

/-! ## On byte strings -/

theorem validPfsComponent_iff {comp : List UInt8} :
    validPfsComponent comp = true ↔ comp ≠ [] ∧ ∀ byte ∈ comp, validPfsByte byte = true := by
  cases comp <;> simp [validPfsComponent]

theorem slash_notMem {comp : List UInt8} (h : validPfsComponent comp = true) : slash ∉ comp :=
  fun hs => absurd ((validPfsComponent_iff.mp h).2 slash hs) (by decide)

/-- A place named by components the kernel accepts. -/
def ValidPlace (comps : List (List UInt8)) : Prop := ∀ comp ∈ comps, validPfsComponent comp = true

theorem componentsLoop_eq {fuel : ℕ} {bytes : List UInt8} (h : bytes.length ≤ fuel) :
    componentsLoop fuel bytes = split slash bytes := by
  induction fuel generalizing bytes with
  | zero =>
    rw [List.length_eq_zero_iff.mp (Nat.le_zero.mp h)]
    rfl
  | succ fuel ih =>
    simp only [componentsLoop, pfsNext]
    by_cases hne : bytes.dropWhile (· == slash) = []
    · rw [← split_dropWhile, hne]
      rfl
    · obtain ⟨-, hlt, heq⟩ := split_first rfl hne
      rw [if_neg (by simpa using hne), heq]
      dsimp only
      rw [ih (by omega)]

theorem pfsComponents_eq (bytes : List UInt8) : pfsComponents bytes = split slash bytes :=
  componentsLoop_eq le_rfl

theorem findLastLoop_eq {bytes : List UInt8} {needle : UInt8} {k n : ℕ} (hk : k < n)
    (hat : bytes.getD k 0 = needle) (hafter : ∀ j, k < j → j < n → bytes.getD j 0 ≠ needle) :
    findLastLoop bytes needle n = some k := by
  induction n with
  | zero => omega
  | succ n ih =>
    rw [findLastLoop]
    by_cases hn : n = k
    · rw [hn, if_pos (beq_iff_eq.mpr hat)]
    · rw [if_neg (by simpa using hafter n (by omega) (by omega))]
      exact ih (by omega) fun j hj hjn => hafter j hj (by omega)

theorem findLastByte_notMem {bytes : List UInt8} {needle : UInt8} (h : needle ∉ bytes) :
    findLastByte bytes needle = none := by
  rw [Option.eq_none_iff_forall_ne_some]
  intro k hk
  obtain ⟨hlt, hat⟩ := findLastLoop_eq_some hk
  rw [List.getD_eq_getElem _ _ hlt] at hat
  exact h (hat ▸ List.getElem_mem hlt)

theorem findLastByte_append {needle : UInt8} {comp : List UInt8} (h : needle ∉ comp)
    (bytes : List UInt8) : findLastByte (bytes ++ needle :: comp) needle = some bytes.length := by
  refine findLastLoop_eq (by simp) (by simp) fun j hj hlt hat => ?_
  simp only [List.length_append, List.length_cons] at hlt
  have hc : j - bytes.length - 1 < comp.length := by omega
  rw [List.getD_append_right _ _ _ _ (by omega),
    show j - bytes.length = j - bytes.length - 1 + 1 by omega, List.getD_cons_succ,
    List.getD_eq_getElem _ _ hc] at hat
  exact h (hat ▸ List.getElem_mem hc)

theorem pfsPopComponent_join {comps : List (List UInt8)} (h : ValidPlace comps) :
    pfsPopComponent (join slash comps) = join slash comps.dropLast := by
  rcases List.eq_nil_or_concat comps with rfl | ⟨init, comp, rfl⟩
  · rfl
  · rw [List.concat_eq_append] at h ⊢
    have hs : slash ∉ comp := slash_notMem (h comp (by simp))
    rw [List.dropLast_concat, pfsPopComponent]
    by_cases hi : init = []
    · simp [hi, findLastByte_notMem hs]
    · rw [join_concat hi, findLastByte_append hs]
      simp

theorem pfsPushComponent_join {comps : List (List UInt8)} (h : ValidPlace comps)
    (comp : List UInt8) : pfsPushComponent (join slash comps) comp =
      if validPfsComponent comp = true ∧ (join slash (comps ++ [comp])).length ≤ pfsNameMax then
        some (join slash (comps ++ [comp])) else none := by
  by_cases hv : validPfsComponent comp = true
  · have hpos := List.length_pos_iff.mpr (validPfsComponent_iff.mp hv).1
    have hne : comp ≠ [] := (validPfsComponent_iff.mp hv).1
    unfold pfsPushComponent
    rw [if_neg (by simp [hv, hne])]
    by_cases hc : comps = []
    · subst hc
      simp only [join_nil, List.nil_append, join_singleton, hv, true_and, List.length_nil, ne_eq,
        not_true_eq_false, decide_false, Bool.false_and, Bool.false_eq_true, if_false, zero_add,
        gt_iff_lt]
      by_cases hl : comp.length ≤ pfsNameMax
      · rw [if_pos hl, if_neg (by omega)]
      · rw [if_neg hl, if_pos (by omega)]
    · have hj : (join slash comps).length ≠ 0 := fun h0 => hc <|
        (join_eq_nil_iff fun c hm => (validPfsComponent_iff.mp (h c hm)).1).mp
          (List.length_eq_zero_iff.mp h0)
      have hlen : (join slash comps ++ slash :: comp).length =
          (join slash comps).length + 1 + comp.length := by simp; omega
      rw [join_concat hc, hlen, if_pos hj]
      simp only [hv, true_and, List.length_append, List.length_singleton, gt_iff_lt]
      by_cases hl : (join slash comps).length + 1 + comp.length ≤ pfsNameMax
      · rw [if_pos hl, if_neg (by simp only [Bool.and_eq_true, decide_eq_true_eq]; omega),
          if_neg (by omega), List.append_assoc, List.singleton_append]
      · rw [if_neg hl]
        split_ifs
        · rfl
        · rfl
        · omega
  · rw [if_neg fun hc => hv hc.1, pfsPushComponent, if_pos (by simp [hv])]

theorem ValidPlace.follow {comps : List (List UInt8)} {comp : List UInt8} (h : ValidPlace comps)
    (hv : comp ≠ dotName → comp ≠ dotDotName → validPfsComponent comp = true) :
    ValidPlace (Components.follow dotName dotDotName comps comp) := by
  unfold Components.follow
  split_ifs with hd hu
  · exact h
  · exact fun c hc => h c (List.mem_of_mem_dropLast hc)
  · intro c hc
    rcases List.mem_append.mp hc with hc | hc
    · exact h c hc
    · rw [List.mem_singleton.mp hc]
      exact hv hd hu

/-- One turn of the loop goes where the component leads, when it has a name that fits. -/
theorem normalizeStep_join {comps : List (List UInt8)} (h : ValidPlace comps)
    (hfit : (join slash comps).length ≤ pfsNameMax) {comp : List UInt8} (hne : comp ≠ [])
    (out : List UInt8) : normalizeStep (join slash comps) comp = some out ↔
      (comp ≠ dotName → comp ≠ dotDotName → ∀ byte ∈ comp, validPfsByte byte = true) ∧
        (join slash (Components.follow dotName dotDotName comps comp)).length ≤ pfsNameMax ∧
        out = join slash (Components.follow dotName dotDotName comps comp) := by
  unfold normalizeStep Components.follow
  by_cases hd : comp = dotName
  · rw [if_pos (by simpa using hd), if_pos hd, Option.some.injEq]
    exact ⟨fun hout => ⟨fun hc => absurd hd hc, hfit, hout.symm⟩, fun hc => hc.2.2.symm⟩
  rw [if_neg (by simpa using hd), if_neg hd]
  by_cases hu : comp = dotDotName
  · rw [if_pos (by simpa using hu), if_pos hu, pfsPopComponent_join h, Option.some.injEq]
    exact ⟨fun hout => ⟨fun _ hc => absurd hu hc, (length_join_dropLast comps).trans hfit,
      hout.symm⟩, fun hc => hc.2.2.symm⟩
  rw [if_neg (by simpa using hu), if_neg hu, pfsPushComponent_join h]
  constructor
  · intro hout
    split_ifs at hout with hc
    exact ⟨fun _ _ => (validPfsComponent_iff.mp hc.1).2, hc.2, (Option.some.inj hout).symm⟩
  · rintro ⟨hb, hl, rfl⟩
    rw [if_pos ⟨validPfsComponent_iff.mpr ⟨hne, hb hd hu⟩, hl⟩]

theorem followable_cons {start names : List (List UInt8)} {comp : List UInt8} :
    Followable start (comp :: names) ↔ (join slash start).length ≤ pfsNameMax ∧
      (comp ≠ dotName → comp ≠ dotDotName → ∀ byte ∈ comp, validPfsByte byte = true) ∧
      Followable (Components.follow dotName dotDotName start comp) names := by
  constructor
  · rintro ⟨hb, hf⟩
    refine ⟨hf [] (List.nil_prefix), hb comp (by simp), fun c hc => hb c (by simp [hc]), ?_⟩
    intro pre hpre
    exact hf (comp :: pre) ((List.prefix_cons_inj comp).mpr hpre)
  · rintro ⟨hs, hc, hb, hf⟩
    refine ⟨fun c hm => ?_, fun pre hpre => ?_⟩
    · rcases List.mem_cons.mp hm with rfl | hm
      · exact hc
      · exact hb c hm
    · rcases List.prefix_cons_iff.mp hpre with rfl | ⟨pre', rfl, hpre'⟩
      · exact hs
      · exact hf pre' hpre'

/-- **The loop returns the name of the place the components lead to**, if they can be followed. -/
theorem foldlM_normalizeStep {names : List (List UInt8)} (hne : ∀ comp ∈ names, comp ≠ [])
    {comps : List (List UInt8)} (h : ValidPlace comps)
    (hfit : (join slash comps).length ≤ pfsNameMax) (out : List UInt8) :
    names.foldlM normalizeStep (join slash comps) = some out ↔
      Followable comps names ∧ out = join slash (placeOf comps names) := by
  induction names generalizing comps with
  | nil =>
    have hnil : Followable comps [] := by
      refine ⟨by simp, fun pre hpre => ?_⟩
      rwa [List.prefix_nil.mp hpre]
    simp only [List.foldlM_nil, Option.pure_def, Option.some.injEq, placeOf, resolve_nil]
    exact ⟨fun hout => ⟨hnil, hout.symm⟩, fun hout => hout.2.symm⟩
  | cons comp names ih =>
    have hc : comp ≠ [] := hne comp (by simp)
    have hrest : ∀ c ∈ names, c ≠ [] := fun c hm => hne c (by simp [hm])
    rw [List.foldlM_cons, Option.bind_eq_bind, Option.bind_eq_some_iff, followable_cons]
    simp only [normalizeStep_join h hfit hc]
    constructor
    · rintro ⟨_, ⟨hb, hl, rfl⟩, hout⟩
      have hv := @ValidPlace.follow _ comp h fun hd hu => validPfsComponent_iff.mpr ⟨hc, hb hd hu⟩
      obtain ⟨hf, rfl⟩ := (ih hrest hv hl).mp hout
      exact ⟨⟨hfit, hb, hf⟩, rfl⟩
    · rintro ⟨⟨-, hb, hf⟩, rfl⟩
      have hv := @ValidPlace.follow _ comp h fun hd hu => validPfsComponent_iff.mpr ⟨hc, hb hd hu⟩
      have hl := hf.fits [] List.nil_prefix
      exact ⟨_, ⟨hb, hl, rfl⟩, (ih hrest hv hl).mpr ⟨hf, rfl⟩⟩

theorem Followable.validPlace {start names : List (List UInt8)} (h : Followable start names)
    (hs : ValidPlace start) (hne : ∀ comp ∈ names, comp ≠ []) :
    ValidPlace (placeOf start names) := by
  intro comp hc
  rcases mem_resolve hc with hc | ⟨hc, hd, hu⟩
  · exact hs comp hc
  · exact validPfsComponent_iff.mpr ⟨hne comp hc, h.bytes comp hc hd hu⟩

/-! ## Valid names -/

theorem mem_of_validPfsLoop {bytes : List UInt8} {last : Bool} (h : validPfsLoop last bytes = true)
    {byte : UInt8} (hb : byte ∈ bytes) : byte = slash ∨ validPfsByte byte = true := by
  induction bytes generalizing last with
  | nil => simp at hb
  | cons x bytes ih =>
    simp only [validPfsLoop, beq_iff_eq] at h
    rcases List.mem_cons.mp hb with rfl | hb
    · split_ifs at h with hs hl hv
      · exact .inl hs
      · exact .inr hv
    · split_ifs at h
      · exact ih h hb
      · exact ih h hb

/-- The components of a valid name, put together again, are a valid place with a name that fits. -/
theorem validPlace_split {name : List UInt8} (h : validPfsPath name = true) :
    ValidPlace (split slash name) ∧ (join slash (split slash name)).length ≤ pfsNameMax := by
  refine ⟨fun comp hc => ?_, (length_join_split_le name).trans (length_of_validPfsPath h).2⟩
  refine validPfsComponent_iff.mpr ⟨ne_nil_of_mem_split hc, fun byte hb => ?_⟩
  obtain ⟨hm, hs⟩ := mem_of_mem_split hc hb
  have hl : validPfsLoop false name = true := by
    unfold validPfsPath at h
    split_ifs at h with hc
    exact h
  exact (mem_of_validPfsLoop hl hm).resolve_left hs

theorem validPfsLoop_component {comp : List UInt8} (hv : validPfsComponent comp = true)
    (last : Bool) (rest : List UInt8) :
    validPfsLoop last (comp ++ rest) = validPfsLoop false rest := by
  obtain ⟨hne, hb⟩ := validPfsComponent_iff.mp hv
  induction comp generalizing last with
  | nil => exact absurd rfl hne
  | cons x comp ih =>
    have hx : validPfsByte x = true := hb x (by simp)
    have hs : (x == slash) = false := by
      rw [beq_eq_false_iff_ne]
      rintro rfl
      exact absurd hx (by decide)
    rw [List.cons_append, validPfsLoop, hs, hx, if_neg (by simp), if_pos rfl]
    by_cases hc : comp = []
    · rw [hc, List.nil_append]
    · have hbc : ∀ byte ∈ comp, validPfsByte byte = true := fun b hm => hb b (by simp [hm])
      exact ih (validPfsComponent_iff.mpr ⟨hc, hbc⟩) false hc hbc

theorem validPfsLoop_join {comps : List (List UInt8)} (h : ValidPlace comps) (hne : comps ≠ [])
    (last : Bool) : validPfsLoop last (join slash comps) = true := by
  induction comps generalizing last with
  | nil => exact absurd rfl hne
  | cons comp comps ih =>
    have hc := h comp (by simp)
    cases comps with
    | nil =>
      have := validPfsLoop_component hc last []
      rw [List.append_nil] at this
      rw [join_singleton, this]
      rfl
    | cons comp' comps =>
      rw [join_cons_cons, validPfsLoop_component hc, validPfsLoop, if_pos (by simp),
        if_neg (by simp)]
      exact ih (fun c hm => h c (by simp [hm])) (by simp) true

theorem validPfsPath_join {comps : List (List UInt8)} (h : ValidPlace comps) (hne : comps ≠ [])
    (hfit : (join slash comps).length ≤ pfsNameMax) : validPfsPath (join slash comps) = true := by
  have hj : join slash comps ≠ [] := fun hj =>
    hne ((join_eq_nil_iff fun c hm => (validPfsComponent_iff.mp (h c hm)).1).mp hj)
  rw [validPfsPath, if_neg (by simp [hj, hfit])]
  exact validPfsLoop_join h hne false

/-! ## What the string functions compute -/

/-- A name a working directory can have: empty, or valid and without `.` and `..`. -/
def PlainName (base : List UInt8) : Prop :=
  base = [] ∨ validPfsPath base = true ∧
    ∀ comp ∈ split slash base, comp ≠ dotName ∧ comp ≠ dotDotName

theorem PlainName.place {base : List UInt8} (h : PlainName base) :
    ValidPlace (split slash base) ∧ (join slash (split slash base)).length ≤ pfsNameMax ∧
      ∀ comp ∈ split slash base, comp ≠ dotName ∧ comp ≠ dotDotName := by
  rcases h with rfl | ⟨hv, hd⟩
  · simp [ValidPlace]
  · exact ⟨(validPlace_split hv).1, (validPlace_split hv).2, hd⟩

/-- Plain components are followed to the place they name. -/
theorem followable_plain {names : List (List UInt8)} (h : ValidPlace names)
    (hfit : (join slash names).length ≤ pfsNameMax)
    (hd : ∀ comp ∈ names, comp ≠ dotName ∧ comp ≠ dotDotName) : Followable [] names := by
  refine ⟨fun comp hc _ _ => (validPfsComponent_iff.mp (h comp hc)).2, fun pre hpre => ?_⟩
  rw [placeOf, resolve_of_plain fun comp hc => hd comp (hpre.subset hc), List.nil_append]
  exact (length_join_le hpre).trans hfit

/-- The first loop copies the components of the base. -/
theorem foldlM_pfsPushComponent {names : List (List UInt8)} (h : ValidPlace names)
    (hfit : (join slash names).length ≤ pfsNameMax)
    (hd : ∀ comp ∈ names, comp ≠ dotName ∧ comp ≠ dotDotName) :
    names.foldlM pfsPushComponent [] = some (join slash names) := by
  have hstep : ∀ (l : List (List UInt8)) (name : List UInt8),
      (∀ comp ∈ l, comp ≠ dotName ∧ comp ≠ dotDotName) →
      l.foldlM pfsPushComponent name = l.foldlM normalizeStep name := by
    intro l
    induction l with
    | nil => exact fun _ _ => rfl
    | cons comp l ih =>
      intro name hl
      obtain ⟨hh, hu⟩ := hl comp (by simp)
      have hturn : normalizeStep name comp = pfsPushComponent name comp := by
        rw [normalizeStep, if_neg (by simpa using hh), if_neg (by simpa using hu)]
      rw [List.foldlM_cons, List.foldlM_cons, hturn]
      exact bind_congr fun out => ih out fun c hc => hl c (by simp [hc])
  have hne : ∀ comp ∈ names, comp ≠ [] := fun comp hc => (validPfsComponent_iff.mp (h comp hc)).1
  rw [hstep names [] hd]
  refine (@foldlM_normalizeStep _ hne [] (by simp [ValidPlace]) (by simp) _).mpr
    ⟨followable_plain h hfit hd, ?_⟩
  rw [placeOf, resolve_of_plain hd, List.nil_append]

theorem startsWith_slash (path : List UInt8) :
    startsWith path [slash] = true ↔ path.head? = some slash := by
  cases path with
  | nil => simp [startsWith]
  | cons x path =>
    simp only [startsWith, List.isPrefixOf, Bool.and_true, beq_iff_eq, List.head?_cons,
      Option.some.injEq]
    exact eq_comm

theorem split_relative (path : List UInt8) :
    split slash (if startsWith path [slash] = true then path.drop 1 else path) = split slash path := by
  split_ifs with ha
  · cases path with
    | nil => rfl
    | cons x path =>
      obtain rfl : x = slash := by simpa using (startsWith_slash _).mp ha
      rw [List.drop_one, List.tail_cons, split_sep]
  · rfl

theorem PlainName.start {base : List UInt8} (h : PlainName base) (path : List UInt8) :
    ValidPlace (startOf base path) ∧ (join slash (startOf base path)).length ≤ pfsNameMax ∧
      ∀ comp ∈ startOf base path, comp ≠ dotName ∧ comp ≠ dotDotName := by
  unfold startOf
  split_ifs
  · simp [ValidPlace]
  · exact h.place

/-- **A path is normalised to the name of the place it means**, if it can be followed there. -/
theorem normalizePfsPath_eq {base : List UInt8} (h : PlainName base) (path out : List UInt8) :
    normalizePfsPath base path = some out ↔
      Resolvable base path ∧ out = join slash (resolved base path) := by
  obtain ⟨hv, hfit, -⟩ := h.start path
  have hne : ∀ comp ∈ split slash path, comp ≠ [] := fun comp => ne_nil_of_mem_split
  have hstart : (if startsWith path [slash] = true then some []
      else (pfsComponents base).foldlM pfsPushComponent []) =
      some (join slash (startOf base path)) := by
    unfold startOf
    by_cases ha : path.head? = some slash
    · rw [if_pos ha, if_pos ((startsWith_slash path).mpr ha), join_nil]
    · rw [if_neg ha, if_neg fun hs => ha ((startsWith_slash path).mp hs), pfsComponents_eq]
      obtain ⟨hb, hl, hd⟩ := h.place
      exact foldlM_pfsPushComponent hb hl hd
  simp only [normalizePfsPath]
  rw [hstart, Option.bind_some, pfsComponents_eq, split_relative, Option.bind_eq_some_iff]
  simp only [foldlM_normalizeStep hne hv hfit]
  constructor
  · rintro ⟨_, ⟨hf, rfl⟩, hout⟩
    split_ifs at hout with hc
    have hr : resolved base path ≠ [] := by
      rintro hr
      rw [resolved] at hr
      simp [hr] at hc
    exact ⟨⟨hf, hr⟩, (Option.some.inj hout).symm⟩
  · rintro ⟨⟨hf, hr⟩, rfl⟩
    have hp := hf.validPlace hv hne
    have hl := hf.fits _ (List.prefix_refl _)
    have hvp := validPfsPath_join hp hr hl
    refine ⟨_, ⟨hf, rfl⟩, ?_⟩
    rw [if_neg]
    · rfl
    · have := (length_of_validPfsPath hvp).1
      simp only [beq_iff_eq, Bool.or_eq_true, Bool.not_eq_true', hvp, Bool.true_eq_false, or_false]
      omega

/-! ## What the buffer holds -/

/-- The buffer holds `name` from its start on. -/
def NameIn (output : Buf pfsNameMax) (name : List UInt8) : Prop :=
  name.length ≤ pfsNameMax ∧ output.slice 0 name.length = name

/-- A call that does not panic, and returns the length of `name` with `name` in the buffer. -/
def Computes (call : Option (Buf pfsNameMax × Option ℕ)) (name : Option (List UInt8)) : Prop :=
  ∃ output, call = some (output, name.map List.length) ∧ ∀ n ∈ name, NameIn output n

theorem nameIn_nil (output : Buf pfsNameMax) : NameIn output [] := ⟨Nat.zero_le _, rfl⟩

theorem NameIn.byte {output : Buf pfsNameMax} {name : List UInt8} (h : NameIn output name) {k : ℕ}
    (hk : k < name.length) : output.byte k = name.getD k 0 := by
  have := Buf.getD_slice output 0 name.length k hk
  rw [h.2, Nat.zero_add] at this
  exact this.symm

theorem Computes.refused (output : Buf pfsNameMax) : Computes (some (output, none)) none :=
  ⟨output, rfl, by simp⟩

theorem NameIn.computes {output : Buf pfsNameMax} {name : List UInt8} (h : NameIn output name) :
    Computes (some (output, some name.length)) (some name) :=
  ⟨output, rfl, by simpa using h⟩

theorem NameIn.store {output : Buf pfsNameMax} {name bytes : List UInt8} (h : NameIn output name)
    (hfit : name.length + bytes.length ≤ pfsNameMax) :
    storeIn output name.length bytes = some (output.put name.length bytes) ∧
      NameIn (output.put name.length bytes) (name ++ bytes) := by
  refine ⟨if_pos hfit, by rwa [List.length_append], ?_⟩
  rw [List.length_append, Buf.slice_add, Nat.zero_add, Buf.slice_put_same _ _ _ hfit,
    Buf.slice_put_disj _ (by omega), h.2]

theorem pushIn_computes {output : Buf pfsNameMax} {name : List UInt8} (h : NameIn output name)
    (comp : List UInt8) :
    Computes (pfsPushComponentIn output name.length comp) (pfsPushComponent name comp) := by
  have := h.1
  unfold pfsPushComponentIn pfsPushComponent
  by_cases hv : (comp.isEmpty || !validPfsComponent comp) = true
  · rw [if_pos hv, if_pos hv]
    exact .refused output
  rw [if_neg hv, if_neg hv]
  by_cases hfull : (name.length ≠ 0 && name.length ≥ pfsNameMax) = true
  · rw [if_pos hfull, if_pos hfull]
    exact .refused output
  rw [if_neg hfull, if_neg hfull]
  simp only [Bool.and_eq_true, decide_eq_true_eq, not_and, not_le, ge_iff_le] at hfull
  -- the buffer and the name with the separator behind them
  obtain ⟨output', hsep, hin⟩ : ∃ output',
      (if name.length ≠ 0 then (storeIn output name.length [slash]).map (·, name.length + 1)
        else some (output, name.length)) =
        some (output', (if name.length ≠ 0 then name ++ [slash] else name).length) ∧
      NameIn output' (if name.length ≠ 0 then name ++ [slash] else name) := by
    by_cases hz : name.length ≠ 0
    · obtain ⟨hst, hin⟩ := @NameIn.store _ _ [slash] h (hfull hz)
      rw [if_pos hz, if_pos hz, hst]
      exact ⟨_, by simp, hin⟩
    · rw [if_neg hz, if_neg hz]
      exact ⟨output, rfl, h⟩
  rw [hsep, Option.bind_some]
  dsimp only
  generalize (if name.length ≠ 0 then name ++ [slash] else name) = name' at hin ⊢
  by_cases hl : name'.length + comp.length > pfsNameMax
  · rw [if_pos hl, if_pos hl]
    exact .refused output'
  · obtain ⟨hst, hin'⟩ := @NameIn.store _ _ comp hin (by omega)
    rw [if_neg hl, if_neg hl, hst, Option.map_some, ← List.length_append]
    exact hin'.computes

theorem popLoop_eq {output : Buf pfsNameMax} {name : List UInt8} (h : NameIn output name) {n : ℕ}
    (hn : n ≤ name.length) : popLoop output name.length n =
      some (output.fill ((findLastLoop name slash n).getD 0)
        (name.length - (findLastLoop name slash n).getD 0), (findLastLoop name slash n).getD 0) := by
  have hl := h.1
  induction n with
  | zero => simp [popLoop, fillIn, findLastLoop, hl]
  | succ index ih =>
    rw [popLoop, loadIn, if_pos (by omega), Option.bind_some, findLastLoop, h.byte (by omega)]
    split_ifs with hs
    · simp [fillIn, hl, Nat.le_of_succ_le hn]
    · exact ih (by omega)

theorem pfsPopComponent_eq (name : List UInt8) :
    pfsPopComponent name = name.take ((findLastByte name slash).getD 0) := by
  unfold pfsPopComponent
  cases findLastByte name slash <;> rfl

theorem NameIn.take {output : Buf pfsNameMax} {name : List UInt8} (h : NameIn output name) {k : ℕ}
    (hk : k ≤ name.length) : NameIn (output.fill k (name.length - k)) (name.take k) := by
  have hl : (name.take k).length = k := by rw [List.length_take]; omega
  refine ⟨by rw [hl]; exact hk.trans h.1, ?_⟩
  have hsplit := Buf.slice_add output 0 k (name.length - k)
  rw [show k + (name.length - k) = name.length by omega, h.2] at hsplit
  rw [hl, hsplit, List.take_left' (by simp)]
  exact Buf.slice_congr fun j hj => Buf.byte_fill_of_not output (by omega)

theorem popIn_eq {output : Buf pfsNameMax} {name : List UInt8} (h : NameIn output name) :
    ∃ output', pfsPopComponentIn output name.length =
        some (output', (pfsPopComponent name).length) ∧ NameIn output' (pfsPopComponent name) := by
  have hk : (findLastByte name slash).getD 0 ≤ name.length := by
    cases hf : findLastByte name slash with
    | none => exact Nat.zero_le _
    | some k => exact (findLastLoop_eq_some hf).1.le
  have hlen : (pfsPopComponent name).length = (findLastByte name slash).getD 0 := by
    rw [pfsPopComponent_eq, List.length_take, min_eq_left hk]
  refine ⟨_, ?_, pfsPopComponent_eq name ▸ h.take hk⟩
  rw [pfsPopComponentIn, popLoop_eq h le_rfl, hlen]
  rfl

theorem normalizeStepIn_computes {output : Buf pfsNameMax} {name : List UInt8}
    (h : NameIn output name) (comp : List UInt8) :
    Computes (normalizeStepIn output name.length comp) (normalizeStep name comp) := by
  unfold normalizeStepIn normalizeStep
  by_cases hd : (comp == [46]) = true
  · rw [if_pos hd, if_pos hd]
    exact h.computes
  rw [if_neg hd, if_neg hd]
  by_cases hu : (comp == [46, 46]) = true
  · rw [if_pos hu, if_pos hu]
    obtain ⟨output', hpop, hin⟩ := popIn_eq h
    rw [hpop]
    exact hin.computes
  rw [if_neg hu, if_neg hu]
  exact pushIn_computes h comp

theorem turnsIn_computes {turn : Buf pfsNameMax → ℕ → List UInt8 → Option (Buf pfsNameMax × Option ℕ)}
    {step : List UInt8 → List UInt8 → Option (List UInt8)}
    (hturn : ∀ {output name}, NameIn output name → ∀ comp,
      Computes (turn output name.length comp) (step name comp)) (comps : List (List UInt8))
    {output : Buf pfsNameMax} {name : List UInt8} (h : NameIn output name) :
    Computes (turnsIn turn comps output name.length) (comps.foldlM step name) := by
  induction comps generalizing output name with
  | nil => exact h.computes
  | cons comp comps ih =>
    obtain ⟨output', hcall, hin⟩ := hturn h comp
    rw [List.foldlM_cons, turnsIn, hcall]
    cases hs : step name comp with
    | none => exact .refused output'
    | some name' => exact ih (hin name' hs)

/-- **The function on the buffer does not panic and computes the function on byte strings.** -/
theorem normalizePfsPathIn_computes (base path : List UInt8) (output : Buf pfsNameMax) :
    Computes (normalizePfsPathIn base path output) (normalizePfsPath base path) := by
  simp only [normalizePfsPathIn, normalizePfsPath]
  have hbase : Computes (if startsWith path [slash] = true then some (output, some 0)
      else turnsIn pfsPushComponentIn (pfsComponents base) output 0)
      (if startsWith path [slash] = true then some []
        else (pfsComponents base).foldlM pfsPushComponent []) := by
    split_ifs
    · exact (nameIn_nil output).computes
    · exact turnsIn_computes pushIn_computes _ (nameIn_nil output)
  obtain ⟨output₁, hcall₁, hin₁⟩ := hbase
  rw [hcall₁, Option.bind_some]
  generalize (if startsWith path [slash] = true then some []
    else (pfsComponents base).foldlM pfsPushComponent []) = start at hin₁ ⊢
  cases start with
  | none => exact .refused output₁
  | some start =>
    rw [Option.bind_some]
    dsimp only [Option.map_some]
    obtain ⟨output₂, hcall₂, hin₂⟩ := turnsIn_computes normalizeStepIn_computes
      (pfsComponents (if startsWith path [slash] = true then path.drop 1 else path)) (hin₁ start rfl)
    rw [hcall₂, Option.bind_some]
    generalize List.foldlM normalizeStep start _ = reached at hin₂ ⊢
    cases reached with
    | none => exact .refused output₂
    | some name =>
      have hin := hin₂ name rfl
      rw [Option.bind_some]
      dsimp only [Option.map_some]
      rw [if_pos hin.1, hin.2]
      by_cases hz : (name.length == 0) = true
      · rw [if_pos hz, if_pos (by simp [hz])]
        exact .refused output₂
      rw [if_neg hz]
      by_cases hv : (!validPfsPath name) = true
      · rw [if_pos hv, if_pos (by simp [hv])]
        exact .refused output₂
      · rw [if_neg hv, if_neg (by simp [hv, hz])]
        exact hin.computes

/-! ## What the kernel returns -/

theorem PlainName.resolved {base path : List UInt8} (h : PlainName base)
    (hf : Resolvable base path) : validPfsPath (join slash (resolved base path)) = true ∧
      split slash (join slash (resolved base path)) = resolved base path ∧
      ∀ comp ∈ resolved base path, comp ≠ dotName ∧ comp ≠ dotDotName := by
  obtain ⟨hv, -, hd⟩ := h.start path
  have hp : ValidPlace (Rymos.resolved base path) := hf.1.validPlace hv fun _ => ne_nil_of_mem_split
  refine ⟨validPfsPath_join hp hf.2 (hf.1.fits _ (List.prefix_refl _)), ?_, fun comp hc => ?_⟩
  · exact split_join (fun c hc => slash_notMem (hp c hc))
      fun c hc => (validPfsComponent_iff.mp (hp c hc)).1
  · rcases mem_resolve hc with hc | ⟨-, hc⟩
    · exact hd comp hc
    · exact hc

/-- A plain name is what it is normalised to. -/
theorem normalizePfsPath_self {name : List UInt8} (hv : validPfsPath name = true)
    (hj : join slash (split slash name) = name)
    (hd : ∀ comp ∈ split slash name, comp ≠ dotName ∧ comp ≠ dotDotName) :
    normalizePfsPath [] name = some name := by
  obtain ⟨hp, hfit⟩ := validPlace_split hv
  have hs : startOf [] name = [] := by simp [startOf]
  have hr : Rymos.resolved [] name = split slash name := by
    rw [resolved, hs, placeOf, resolve_of_plain hd, List.nil_append]
  refine (normalizePfsPath_eq (.inl rfl) name name).mpr ⟨⟨?_, ?_⟩, by rw [hr, hj]⟩
  · rw [hs]
    exact followable_plain hp hfit hd
  · rw [hr]
    rintro hn
    have := (length_of_validPfsPath hv).1
    rw [← hj, hn, join_nil, List.length_nil] at this
    omega

/-- **`normalize_pfs_path` is the resolution of a path component by component.** It panics on no
path, returns a length exactly when the path can be followed, and then its buffer holds the name of
the place, a valid name without `.` and `..` that is normalised to itself. -/
theorem normalizePfsPathIn_spec {base : List UInt8} (hb : PlainName base) (path : List UInt8)
    (output : Buf pfsNameMax) : ∃ output' len, normalizePfsPathIn base path output = some (output', len) ∧
      (len.isSome = true ↔ Resolvable base path) ∧ ∀ n ∈ len, n ≤ pfsNameMax ∧
        output'.slice 0 n = join slash (resolved base path) ∧
        validPfsPath (output'.slice 0 n) = true ∧
        (∀ comp ∈ split slash (output'.slice 0 n), comp ≠ dotName ∧ comp ≠ dotDotName) ∧
        ∀ output₁, ∃ output₂, normalizePfsPathIn [] (output'.slice 0 n) output₁ =
          some (output₂, some n) ∧ output₂.slice 0 n = output'.slice 0 n := by
  obtain ⟨output', hcall, hin⟩ := normalizePfsPathIn_computes base path output
  refine ⟨output', _, hcall, ?_, ?_⟩
  · rw [Option.isSome_map, Option.isSome_iff_exists]
    constructor
    · rintro ⟨name, hname⟩
      exact ((normalizePfsPath_eq hb path name).mp hname).1
    · exact fun hr => ⟨_, (normalizePfsPath_eq hb path _).mpr ⟨hr, rfl⟩⟩
  · intro n hn
    obtain ⟨name, hname, rfl⟩ := Option.map_eq_some_iff.mp hn
    obtain ⟨hr, rfl⟩ := (normalizePfsPath_eq hb path name).mp hname
    obtain ⟨hv, hs, hd⟩ := hb.resolved hr
    rw [(hin _ hname).2]
    refine ⟨(hin _ hname).1, rfl, hv, by rwa [hs], fun output₁ => ?_⟩
    obtain ⟨output₂, hcall₂, hin₂⟩ :=
      normalizePfsPathIn_computes [] (join slash (resolved base path)) output₁
    rw [normalizePfsPath_self hv (by rw [hs]) (by rwa [hs])] at hcall₂ hin₂
    exact ⟨output₂, hcall₂, (hin₂ _ rfl).2⟩

/-- `./x` in the directory `a/b`. -/
theorem normalizePfsPathIn_spec_subdir : PlainName [97, 47, 98] ∧
    ∃ output' len, normalizePfsPathIn [97, 47, 98] [46, 47, 120] (Buf.zero pfsNameMax) =
      some (output', len) ∧ (len.isSome = true ↔ Resolvable [97, 47, 98] [46, 47, 120]) :=
  have hb : PlainName [97, 47, 98] := .inr ⟨by decide, by decide⟩
  have ⟨output', len, hcall, hsome, _⟩ :=
    normalizePfsPathIn_spec hb [46, 47, 120] (Buf.zero pfsNameMax)
  ⟨hb, output', len, hcall, hsome⟩

end Rymos
