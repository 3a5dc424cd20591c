import Mathlib.Tactic
import Rymos.Path.MissingDirs

/-!
# Making every directory of a path

`create_dir_all` puts the path together again from its components, and asks the kernel about each piece.

* **`createDirAll`**: the call. `rebuilt`: the paths it asks about.
* **`createLoop_spec`**: a call makes the missing names, or stops with an error.
* `CreatesAll`, **`createsAll_iff`**: when the directories of the path are the ones that are made.
* `PlainPath`, **`PlainPath.readsSame`**: the paths that are read in the same way.
-/

namespace Rymos

open ByteBuf Components Transition

/-! ## The call -/

/-- `Components` of the runtime; it takes the same turns as the kernel's. -/
def pathComponents (bytes : List UInt8) : List (List UInt8) := pfsComponents bytes

/-- What `current` starts with. -/
def headOf (path : List UInt8) : List UInt8 := if startsWith path pfsPrefix then pfsPrefix else []

/-- What is left of the path. -/
def restOf (path : List UInt8) : List UInt8 :=
  if startsWith path pfsPrefix then (path.drop 4).dropWhile (· == slash) else path

/-- `current` with the next component. -/
def pushPart (current component : List UInt8) : List UInt8 :=
  (if !current.isEmpty && !endsWithByte current 58 then current ++ [slash] else current) ++ component

/-- `last_error` after a call. -/
def Reply.code {α : Type} : Reply α → ℕ
  | .error code => code
  | _ => 0

/-- The loop of `create_dir_all`; `t` gives the readings of the clock for each call of `mkdir`. -/
def createLoop (fs : BootFs) (cwd : List UInt8) (t : ℕ → ℕ → ℕ) :
    List (List UInt8) → Sys → List UInt8 → Option (Sys × Except ℕ Unit)
  | [], sys, _ => some (sys, .ok ())
  | component :: rest, sys, current =>
    if component = dotName then createLoop fs cwd t rest sys current
    else if component = dotDotName then some (sys, .error errInval)
    else
      let current := pushPart current component
      (abiStat fs sys.disk cwd current).bind fun found =>
      match found with
      | .done stat =>
        if stat.kind = statKindDir then createLoop fs cwd t rest sys current
        else some (sys, .error errNotdir)
      | _ =>
        match abiMkdir sys cwd current (t rest.length) with
        | (sys, .done _) => createLoop fs cwd t rest sys current
        | (sys, reply) => some (sys, .error reply.code)

/-- `create_dir_all`; `none` is a fault. -/
def createDirAll (fs : BootFs) (sys : Sys) (cwd path : List UInt8) (t : ℕ → ℕ → ℕ) :
    Option (Sys × Except ℕ Unit) :=
  createLoop fs cwd t (pathComponents (restOf path)) sys (headOf path)

/-- The paths the loop asks about. -/
def rebuilt : List UInt8 → List (List UInt8) → List (List UInt8)
  | _, [] => []
  | current, component :: rest =>
    if component = dotName then rebuilt current rest
    else pushPart current component :: rebuilt (pushPart current component) rest

/-! ## The loop -/

section Loop

variable {fs : BootFs} {sys sys' : Sys} {cwd path name current : List UInt8} {t : ℕ → ℕ}

/-- What `mkdir` does with a name that is missing. -/
theorem abiMkdir_missing (hw : HeaderWritable sys.disk) (h : missingName sys.disk cwd path = some name) :
    abiMkdir sys cwd path t = match mkdirHeader (diskHeader sys.disk) name t with
      | .ok header' => (sys.setDisk (withHeader sys.disk header'), .done 0)
      | .error code => (sys, .error code) := by
  obtain ⟨hname, hh, -⟩ := missingName_eq_some.mp h
  rw [nameFor] at hname
  rw [abiMkdir, hname]
  dsimp only
  rw [hh]
  dsimp only
  cases mkdirHeader (diskHeader sys.disk) name t with
  | error code => rfl
  | ok header' =>
    dsimp only
    rw [replyHeader, writeHeader_spec hw]

/-- Everything else `mkdir` refuses. -/
theorem abiMkdir_refused (h : missingName sys.disk cwd path = none) :
    ∃ code, abiMkdir sys cwd path t = (sys, .error code) := by
  rw [abiMkdir]
  cases hname : nameFor cwd path with
  | none =>
    rw [nameFor] at hname
    rw [hname]
    exact ⟨_, rfl⟩
  | some name =>
    have hname' := hname
    rw [nameFor] at hname'
    rw [hname']
    dsimp only
    cases hh : readHeaderSilent sys.disk with
    | none => exact ⟨_, rfl⟩
    | some header =>
      obtain ⟨rfl, -⟩ := readHeaderSilent_eq_some hh
      have hfound : (pfsFindEntry (diskHeader sys.disk) name).isSome = true := by
        rw [Option.isSome_iff_ne_none]
        intro hnone
        rw [missingName_eq_some.mpr ⟨hname, hh, hnone⟩] at h
        cases h
      dsimp only
      rw [mkdirHeader]
      split_ifs <;> exact ⟨_, rfl⟩

/-- What a call of the loop does: it makes the missing names, or stops with an error. -/
structure LoopLaw (fs : BootFs) (cwd : List UInt8) (sys sys' : Sys) (comps : List (List UInt8))
    (current : List UInt8) (result : Except ℕ Unit) (header' : Header)
    (names : Finset (List UInt8)) : Prop where
  sys_eq : sys' = sys.setDisk (withHeader sys.disk header')
  made : MadeDirs (diskHeader sys.disk) header' names
  read : ∀ name ∈ names, (readHeaderSilent sys.disk).isSome = true
  ok_iff : result = .ok () ↔ dotDotName ∉ comps ∧ Makeable fs sys.disk cwd (rebuilt current comps)
  names_eq : result = .ok () → names = missingNames sys.disk cwd (rebuilt current comps)

/-- A loop that stops at once. -/
theorem loopLaw_stop (hn : NamesInv (diskHeader sys.disk)) {comps : List (List UInt8)} {code : ℕ}
    (h : ¬ (dotDotName ∉ comps ∧ Makeable fs sys.disk cwd (rebuilt current comps))) :
    LoopLaw fs cwd sys sys comps current (.error code) (diskHeader sys.disk) ∅ where
  sys_eq := by rw [withHeader_self, Sys.setDisk]
  made := .refl hn
  read := by simp
  ok_iff := iff_of_false (fun he => by cases he) h
  names_eq he := by cases he

/-- **The loop makes the missing names, or stops with an error.** -/
theorem createLoop_spec (fs : BootFs) (cwd current : List UInt8) (t : ℕ → ℕ → ℕ)
    (comps : List (List UInt8)) (hw : HeaderWritable sys.disk) (hn : NamesInv (diskHeader sys.disk)) : ∃ sys' result header' names,
      createLoop fs cwd t comps sys current = some (sys', result) ∧
        LoopLaw fs cwd sys sys' comps current result header' names := by
  induction comps generalizing sys current with
  | nil =>
    refine ⟨sys, .ok (), diskHeader sys.disk, ∅, rfl, ⟨?_, .refl hn, by simp, ?_, fun _ => rfl⟩⟩
    · rw [withHeader_self, Sys.setDisk]
    · refine iff_of_true rfl ⟨List.not_mem_nil, ⟨by simp [rebuilt], ?_, by simp [rebuilt, missingNames]⟩⟩
      intro before p after m he
      simp [rebuilt] at he
  | cons component rest ih =>
    rw [createLoop]
    by_cases hdot : component = dotName
    · obtain ⟨sys', result, header', names, he, h⟩ := ih current hw hn
      rw [if_pos hdot]
      have hmem : dotDotName ∉ component :: rest ↔ dotDotName ∉ rest := by
        rw [List.mem_cons, hdot, or_iff_right (by decide)]
      have hrebuilt : rebuilt current (component :: rest) = rebuilt current rest := by
        rw [rebuilt, if_pos hdot]
      refine ⟨sys', result, header', names, he, h.sys_eq, h.made, h.read, ?_, ?_⟩
      · rw [hmem, hrebuilt]
        exact h.ok_iff
      · rw [hrebuilt]
        exact h.names_eq
    rw [if_neg hdot]
    by_cases hup : component = dotDotName
    · rw [if_pos hup]
      exact ⟨sys, _, _, _, rfl, loopLaw_stop hn fun hc => hc.1 (hup ▸ List.mem_cons_self)⟩
    rw [if_neg hup]
    have hmem : dotDotName ∉ component :: rest ↔ dotDotName ∉ rest := by
      rw [List.mem_cons, or_iff_right fun he => hup he.symm]
    have hrebuilt : rebuilt current (component :: rest) =
        pushPart current component :: rebuilt (pushPart current component) rest := by
      rw [rebuilt, if_neg hdot]
    dsimp only
    generalize pushPart current component = path at hrebuilt ⊢
    have hstop {code : ℕ} (hno : ¬ Makeable fs sys.disk cwd (path :: rebuilt path rest)) :
        LoopLaw fs cwd sys sys (component :: rest) current (.error code) (diskHeader sys.disk) ∅ :=
      loopLaw_stop hn fun hc => hno (hrebuilt ▸ hc.2)
    rcases abiStat_cases fs sys.disk cwd path with ⟨stat, hs⟩ | ⟨code, hs⟩
    · rw [hs, Option.bind_some]
      dsimp only
      by_cases hk : stat.kind = statKindDir
      · -- the path leads to a directory
        rw [if_pos hk]
        obtain ⟨sys', result, header', names, he, h⟩ := ih path hw hn
        have hnone := missingName_of_done hs
        refine ⟨sys', result, header', names, he, h.sys_eq, h.made, h.read, ?_, ?_⟩
        · rw [hmem, hrebuilt, makeable_cons_dir ⟨stat, hs, hk⟩]
          exact h.ok_iff
        · rw [hrebuilt, missingNames_cons_none hnone]
          exact h.names_eq
      · rw [if_neg hk]
        refine ⟨sys, _, _, _, rfl, hstop fun hm => ?_⟩
        rcases hm.there path List.mem_cons_self with ⟨stat', hs', hk'⟩ | hmiss
        · rw [hs] at hs'
          cases hs'
          exact hk hk'
        · rw [missingName_of_done hs] at hmiss
          cases hmiss
    · rw [hs, Option.bind_some]
      dsimp only
      have hnot : ¬ DirAt fs sys.disk cwd path := by
        rintro ⟨stat, hs', -⟩
        rw [hs] at hs'
        cases hs'
      cases hmiss : missingName sys.disk cwd path with
      | none =>
        obtain ⟨code, hr⟩ := abiMkdir_refused (t := t rest.length) hmiss
        rw [hr]
        refine ⟨sys, _, _, _, rfl, hstop fun hm => ?_⟩
        rcases hm.there path List.mem_cons_self with hd | hm
        · exact hnot hd
        · rw [hmiss] at hm
          cases hm
      | some name =>
        rw [abiMkdir_missing hw hmiss]
        have hnone := (missingName_eq_some.mp hmiss).2.2
        have hok := mkdirHeader_isOk hnone (t rest.length)
        cases hmk : mkdirHeader (diskHeader sys.disk) name (t rest.length) with
        | error code =>
          refine ⟨sys, _, _, _, rfl, hstop fun hm => ?_⟩
          rw [hmk] at hok
          have hno := mt hok.mpr (by simp)
          refine hno ⟨?_, ?_⟩
          · rcases hm.parents [] path _ name rfl hmiss with hp | ⟨dir, hd, -⟩
            · exact hp
            · simp [missingNames] at hd
          · have hroom := hm.room
            rw [missingNames_cons_some hmiss] at hroom
            exact lt_of_lt_of_le (Finset.card_pos.mpr (Finset.insert_nonempty _ _)) hroom
        | ok header₁ =>
          -- the directory is made, and the loop goes on from there
          obtain ⟨hname, hh, -⟩ := missingName_eq_some.mp hmiss
          have h₁ := madeDirs_of_mkdir hn (validPfsPath_of_bind hname) hmk
          have hparent := (hok.mp ⟨_, hmk⟩).1
          set sys₁ := sys.setDisk (withHeader sys.disk header₁) with hsys₁
          have hdisk : sys₁.disk = withHeader sys.disk header₁ := rfl
          have hheader : diskHeader sys₁.disk = header₁ := diskHeader_withHeader
          have hw₁ : HeaderWritable sys₁.disk := hw
          have hn₁ : NamesInv (diskHeader sys₁.disk) := hheader ▸ h₁.inv
          obtain ⟨sys', result, header', names, he, h⟩ := ih path hw₁ hn₁
          have hmade := h.made
          rw [hheader] at hmade
          refine ⟨sys', result, header', {name} ∪ names, he, ?_, h₁.trans hmade, fun m _ => by rw [hh]; rfl,
            ?_, fun hr => ?_⟩
          · rw [h.sys_eq, hdisk, withHeader_withHeader]
            rfl
          · rw [hmem, hrebuilt, makeable_cons_missing hn h₁ hmiss hparent, ← hdisk]
            exact h.ok_iff
          · rw [h.names_eq hr, hrebuilt, missingNames_cons_some hmiss, hdisk, h₁.missingNames hn,
              Finset.union_sdiff_self_eq_union, Finset.singleton_union]

/-- Where every path leads to a directory, the loop changes nothing. -/
theorem createLoop_dirs (t : ℕ → ℕ → ℕ) {comps : List (List UInt8)} (hup : dotDotName ∉ comps)
    (hd : ∀ p ∈ rebuilt current comps, DirAt fs sys.disk cwd p) :
    createLoop fs cwd t comps sys current = some (sys, .ok ()) := by
  induction comps generalizing current with
  | nil => rfl
  | cons component rest ih =>
    have hrest : dotDotName ∉ rest := fun hmem => hup (List.mem_cons_of_mem _ hmem)
    have hne : component ≠ dotDotName := fun he => hup (he ▸ List.mem_cons_self)
    rw [rebuilt] at hd
    rw [createLoop]
    by_cases hdot : component = dotName
    · rw [if_pos hdot] at hd ⊢
      exact ih hrest hd
    · rw [if_neg hdot] at hd ⊢
      obtain ⟨stat, hs, hk⟩ := hd _ List.mem_cons_self
      rw [if_neg hne]
      dsimp only
      rw [hs, Option.bind_some]
      dsimp only
      rw [if_pos hk]
      exact ih hrest fun p hp => hd p (List.mem_cons_of_mem _ hp)

end Loop

/-! ## What the call should do -/

/-- `pre` ends where a component of the path ends. -/
def EndsPart (path pre : List UInt8) : Prop :=
  ∃ rest, path = pre ++ rest ∧ (headOf path).length < pre.length ∧ pre.getLast? ≠ some slash ∧
    (rest = [] ∨ rest.head? = some slash)

/-- A directory asked for: the path itself, or a prefix that ends at a component boundary. -/
def Asked (path q : List UInt8) : Prop := q = path ∨ EndsPart path q

/-- Nothing but the table changes, and no entry that was there. -/
structure KeepsEntries (sys sys' : Sys) : Prop where
  only : ∃ header', sys' = sys.setDisk (withHeader sys.disk header')
  kept : ∀ i < pfsEntryCount, pfsEntryUsed (diskHeader sys.disk) i = true →
    SameBytes (diskHeader sys.disk) (diskHeader sys'.disk) i

/-- Every new entry is a directory that was asked for. -/
def MakesAsked (cwd path : List UInt8) (header header' : Header) : Prop :=
  ∀ i < pfsEntryCount, pfsEntryUsed header' i = true → pfsEntryUsed header i = true ∨
    pfsEntryIsDir header' i = true ∧
      ∃ q, Asked path q ∧ pfsResolvePath cwd q = some (pfsEntryName header' i)

/-- The call keeps the entries that are there. If it succeeds, every directory asked for is there, no
others are made, and a second call succeeds and changes nothing. -/
def CreatesAll (fs : BootFs) (sys : Sys) (cwd path : List UInt8) (t : ℕ → ℕ → ℕ) : Prop :=
  ∃ sys' result, createDirAll fs sys cwd path t = some (sys', result) ∧ KeepsEntries sys sys' ∧
    (result = .ok () → (∀ q, Asked path q → DirAt fs sys'.disk cwd q) ∧
      MakesAsked cwd path (diskHeader sys.disk) (diskHeader sys'.disk) ∧
      ∀ t', createDirAll fs sys' cwd path t' = some (sys', .ok ()))

/-- The paths the call asks about. -/
def rebuiltOf (path : List UInt8) : List (List UInt8) := rebuilt (headOf path) (pathComponents (restOf path))

/-- The kernel reads what is asked for as what is there or is made, and nothing else is made. -/
structure ReadsSame (fs : BootFs) (disk : Disk) (cwd path : List UInt8) : Prop where
  leads : ∀ q, Asked path q → DirAt fs disk cwd q ∨
    ∃ name ∈ missingNames disk cwd (rebuiltOf path), nameFor cwd q = some name
  asked : ∀ name ∈ missingNames disk cwd (rebuiltOf path), ∃ q, Asked path q ∧
    pfsResolvePath cwd q = some name

/-- **The directories of the path are made** exactly when the call cannot make the paths it asks about, or
the kernel reads the directories asked for as these. -/
theorem createsAll_iff (fs : BootFs) {s : PathSys} (h : PathReach s) (process : ℕ) (path : List UInt8)
    (t : ℕ → ℕ → ℕ) : CreatesAll fs s.sys (s.cwds process).read path t ↔
      (dotDotName ∉ pathComponents (restOf path) →
        Makeable fs s.sys.disk (s.cwds process).read (rebuiltOf path) →
        ReadsSame fs s.sys.disk (s.cwds process).read path) := by
  have hfs := (pathInv_of_reach h).fs
  have hn := namesInv_of_reach hfs
  generalize (s.cwds process).read = cwd
  obtain ⟨sys', result, header', names, he, hl⟩ :=
    createLoop_spec fs cwd (headOf path) t (pathComponents (restOf path)) (fsInv_of_reach hfs).writable hn
  have hheader : diskHeader sys'.disk = header' := by
    rw [hl.sys_eq]
    exact diskHeader_withHeader
  have hdisk : sys'.disk = withHeader s.sys.disk header' := by rw [hl.sys_eq, Sys.setDisk]
  constructor
  · rintro ⟨sys'', result', he', -, hcall⟩ hup hm
    obtain ⟨rfl, rfl⟩ := Prod.mk.inj (Option.some.inj (he.symm.trans he'))
    have hok := hl.ok_iff.mpr ⟨hup, hm⟩
    obtain ⟨hdirs, hnew, -⟩ := hcall hok
    have hnames := hl.names_eq hok
    refine ⟨fun q hq => ?_, fun name hmem => ?_⟩
    · have hd := hdirs q hq
      rw [hdisk, hl.made.dirAt hn hl.read, hnames] at hd
      exact hd
    · rw [← rebuiltOf] at hnames
      rw [← hnames] at hmem
      obtain ⟨i, hi, hd⟩ := (hl.made.dir name).mpr (.inr hmem)
      obtain ⟨hlt, hu, hname, -⟩ := pfsFindEntry_eq_some.mp hi
      rcases hnew i hlt (hheader ▸ hu) with hold | ⟨-, q, hq, hres⟩
      · have hkept := (hl.made.kept i hlt hold).name (hn.fit i hlt hold)
        exact absurd (hkept.symm.trans hname)
          (pfsFindEntry_eq_none.mp (hl.made.fresh name hmem) i hlt hold)
      · rw [hheader, hname] at hres
        exact ⟨q, hq, hres⟩
  · intro hreads
    refine ⟨sys', result, he, ⟨⟨header', hl.sys_eq⟩, hheader ▸ hl.made.kept⟩, fun hok => ?_⟩
    obtain ⟨hup, hm⟩ := hl.ok_iff.mp hok
    have hr := hreads hup hm
    have hnames := hl.names_eq hok
    have hdir (q : List UInt8) : DirAt fs sys'.disk cwd q ↔ DirAt fs s.sys.disk cwd q ∨
        ∃ name ∈ missingNames s.sys.disk cwd (rebuiltOf path), nameFor cwd q = some name := by
      rw [hdisk, hl.made.dirAt hn hl.read, hnames, rebuiltOf]
    refine ⟨fun q hq => (hdir q).mpr (hr.leads q hq), fun i hi hu => ?_, fun t' => ?_⟩
    · rw [hheader] at hu ⊢
      rcases hl.made.new i hi hu with hold | ⟨hd, hmem⟩
      · exact .inl hold
      · rw [hnames] at hmem
        exact .inr ⟨hd, hr.asked _ hmem⟩
    · refine createLoop_dirs t' hup fun p hp => (hdir p).mpr ?_
      rcases hm.there p hp with hd | hmiss
      · exact .inl hd
      · obtain ⟨name, hname⟩ := Option.isSome_iff_exists.mp hmiss
        exact .inr ⟨name, mem_missingNames.mpr ⟨p, hp, hname⟩, (missingName_eq_some.mp hname).1⟩

/-! ## Plain paths -/

/-- A path into RYMFS that has components, none of them `.` or `..`, and does not start at the root
without `pfs:`. -/
structure PlainPath (cwd path : List UInt8) : Prop where
  named : (nameFor cwd path).isSome = true
  ne_nil : pathComponents (restOf path) ≠ []
  plain : ∀ comp ∈ pathComponents (restOf path), comp ≠ dotName ∧ comp ≠ dotDotName
  start : startsWith path pfsPrefix = true ∨ path.head? ≠ some slash

/-- The path without `pfs:`. -/
def bodyOf (path : List UInt8) : List UInt8 := path.drop (headOf path).length

/-- The directory the path is resolved from. -/
def baseOf (cwd path : List UInt8) : List UInt8 :=
  if startsWith path pfsPrefix then [] else appCwdPfsName cwd

section Plain

variable {fs : BootFs} {disk : Disk} {cwd path head : List UInt8} {comps : List (List UInt8)}

theorem pathComponents_restOf (path : List UInt8) :
    pathComponents (restOf path) = split slash (bodyOf path) := by
  unfold pathComponents restOf bodyOf headOf
  rw [pfsComponents_eq]
  split_ifs with hs
  · rw [split_dropWhile]
    rfl
  · rfl

theorem headOf_append_bodyOf (path : List UInt8) : headOf path ++ bodyOf path = path := by
  unfold bodyOf headOf
  split_ifs with hs
  · obtain ⟨rest, rfl⟩ := startsWith_iff.mp hs
    rw [List.drop_left]
  · rfl

theorem headOf_cases (path : List UInt8) : headOf path = [] ∨ headOf path = pfsPrefix := by
  unfold headOf
  split_ifs
  · exact .inr rfl
  · exact .inl rfl

/-- The loop joins the components it has seen. -/
theorem pushPart_join (hh : head = [] ∨ head = pfsPrefix) (hc : ∀ c ∈ comps, PlainChild c)
    (comp : List UInt8) :
    pushPart (head ++ join slash comps) comp = head ++ join slash (comps ++ [comp]) := by
  by_cases hnil : comps = []
  · subst hnil
    rw [join_nil, List.append_nil, List.nil_append, join_singleton, pushPart]
    rcases hh with rfl | rfl <;> rfl
  · obtain ⟨front, last, rfl⟩ := (List.eq_nil_or_concat' comps).resolve_left hnil
    have hlast := hc last (by simp)
    obtain ⟨byte, bytes, hbytes⟩ : ∃ byte bytes, last = bytes ++ [byte] :=
      ⟨_, _, (List.dropLast_append_getLast hlast.ne_nil).symm⟩
    have hends : ∃ pre, head ++ join slash (front ++ [last]) = pre ++ [byte] := by
      by_cases hf : front = []
      · exact ⟨head ++ bytes, by rw [hf, List.nil_append, join_singleton, hbytes, List.append_assoc]⟩
      · exact ⟨head ++ (join slash front ++ slash :: bytes), by
          rw [join_concat hf, hbytes]
          simp⟩
    obtain ⟨pre, hpre⟩ := hends
    have hbyte : byte ≠ 58 := by
      rintro rfl
      exact hlast.colon_notMem (by simp [hbytes])
    have hnot : endsWithByte (pre ++ [byte]) 58 = false := by
      simp [endsWithByte, hbyte]
    rw [join_concat hnil, pushPart, hpre, hnot, if_pos (by simp), ← hpre]
    simp

/-- The paths asked about are the joined prefixes of the components. -/
theorem mem_rebuilt (hh : head = [] ∨ head = pfsPrefix) (done : List (List UInt8))
    (hd : ∀ c ∈ done, PlainChild c) (hc : ∀ c ∈ comps, PlainChild c) {r : List UInt8} :
    r ∈ rebuilt (head ++ join slash done) comps ↔
      ∃ k, 0 < k ∧ k ≤ comps.length ∧ r = head ++ join slash (done ++ comps.take k) := by
  induction comps generalizing done with
  | nil =>
    rw [rebuilt]
    refine iff_of_false List.not_mem_nil ?_
    rintro ⟨k, hk, hle, -⟩
    exact absurd hle (by simpa using Nat.ne_of_gt hk)
  | cons comp comps ih =>
    have hcomp := hc comp List.mem_cons_self
    have hdone : ∀ c ∈ done ++ [comp], PlainChild c := by
      intro c hmem
      rcases List.mem_append.mp hmem with hmem | hmem
      · exact hd c hmem
      · rw [List.mem_singleton.mp hmem]
        exact hcomp
    rw [rebuilt, if_neg hcomp.dot, pushPart_join hh hd, List.mem_cons,
      ih (done ++ [comp]) hdone fun c hmem => hc c (List.mem_cons_of_mem _ hmem)]
    constructor
    · rintro (rfl | ⟨k, hk, hle, rfl⟩)
      · exact ⟨1, Nat.one_pos, by simp, by simp⟩
      · exact ⟨k + 1, Nat.succ_pos k, by simpa using hle, by simp⟩
    · rintro ⟨k, hk, hle, rfl⟩
      obtain ⟨k, rfl⟩ := Nat.exists_eq_succ_of_ne_zero (Nat.ne_of_gt hk)
      by_cases hk0 : k = 0
      · subst hk0
        exact .inl (by simp)
      · exact .inr ⟨k, Nat.pos_of_ne_zero hk0, by simpa using hle, by simp⟩

/-- Paths with the same components, from the same directory, are normalised alike. -/
theorem normalizePfsPath_congr {base q r : List UInt8} (hb : PlainName base)
    (hstart : startOf base q = startOf base r) (hsplit : split slash q = split slash r) :
    normalizePfsPath base q = normalizePfsPath base r := by
  refine Option.ext fun out => ?_
  rw [normalizePfsPath_eq hb, normalizePfsPath_eq hb, Resolvable, Resolvable, resolved, resolved, hstart,
    hsplit]

/-- A path without `:` behind the same head is resolved from the same directory. -/
theorem pfsResolvePath_body (h : (pfsResolvePath cwd path).isSome = true) {q : List UInt8}
    (hq : headOf path = [] → (58 : UInt8) ∉ q) :
    pfsResolvePath cwd (headOf path ++ q) = normalizePfsPath (baseOf cwd path) q := by
  unfold headOf baseOf at *
  split_ifs at hq ⊢ with hs
  · rw [pfsResolvePath, if_pos (startsWith_iff.mpr (List.prefix_append _ _)), drop_pfsPrefix]
  · have hnot : startsWith q pfsPrefix ≠ true := fun hc =>
      hq rfl ((startsWith_iff.mp hc).subset (by decide))
    rw [pfsResolvePath, if_neg hs] at h
    rw [List.nil_append, pfsResolvePath, if_neg hnot]
    split_ifs at h ⊢ with hcwd
    · rfl
    · cases h

theorem baseOf_plain (path : List UInt8) (hcwd : PlainCwd cwd) : PlainName (baseOf cwd path) := by
  unfold baseOf
  split_ifs
  · exact .inl rfl
  · exact hcwd.base

theorem PlainPath.resolvable (hp : PlainPath cwd path) (hcwd : PlainCwd cwd) :
    Resolvable (baseOf cwd path) (bodyOf path) := by
  obtain ⟨name, hname⟩ := Option.isSome_iff_exists.mp hp.named
  obtain ⟨path', hs, hr⟩ := Option.bind_eq_some_iff.mp hname
  obtain rfl := checkedAppSlice_eq hs
  have hnorm : normalizePfsPath (baseOf cwd path') (bodyOf path') = some name := by
    rw [pfsResolvePath] at hr
    unfold baseOf bodyOf headOf
    split_ifs at hr ⊢
    · exact hr
    · exact hr
  exact ((normalizePfsPath_eq (baseOf_plain _ hcwd) _ _).mp hnorm).1

/-- A prefix of a plain path is read as its components joined. -/
theorem PlainPath.nameFor (hp : PlainPath cwd path) (hcwd : PlainCwd cwd) {q rest : List UInt8}
    (hq : bodyOf path = q ++ rest) (hrest : rest = [] ∨ rest.head? = some slash)
    (hne : split slash q ≠ []) : ∃ name, nameFor cwd (headOf path ++ q) = some name ∧
      nameFor cwd (headOf path ++ join slash (split slash q)) = some name := by
  have hres := hp.resolvable hcwd
  have hb := baseOf_plain path hcwd
  have hqnil : q ≠ [] := by
    rintro rfl
    exact hne split_nil
  have hpre : split slash q <+: split slash (bodyOf path) := by
    rw [hq, split_cut hrest]
    exact List.prefix_append _ _
  have hjoined : split slash (join slash (split slash q)) = split slash q :=
    split_join (fun c hc hs => (mem_of_mem_split hc hs).2 rfl) fun c => ne_nil_of_mem_split
  have hplain : ∀ c ∈ split slash q, c ≠ dotName ∧ c ≠ dotDotName := fun c hc =>
    hp.plain c (pathComponents_restOf path ▸ hpre.subset hc)
  -- both start where the whole path starts
  have hstart : startOf (baseOf cwd path) q = startOf (baseOf cwd path) (bodyOf path) := by
    rw [startOf, startOf, hq, List.head?_append_of_ne_nil _ hqnil]
  have hstart' : startOf (baseOf cwd path) (join slash (split slash q)) = startOf (baseOf cwd path) q := by
    by_cases hs : startsWith path pfsPrefix = true
    · rw [baseOf, if_pos hs, startOf_nil, startOf_nil]
    · have hhead : path.head? ≠ some slash := hp.start.resolve_left hs
      have hbody : bodyOf path = path := by
        rw [bodyOf, headOf, if_neg hs]
        rfl
      have hq' : q.head? ≠ some slash := by
        rwa [← hbody, hq, List.head?_append_of_ne_nil _ hqnil] at hhead
      have hj : (join slash (split slash q)).head? ≠ some slash :=
        head_join (fun c hc hs => (mem_of_mem_split hc hs).2 rfl) fun c => ne_nil_of_mem_split
      rw [startOf, startOf, if_neg hq', if_neg hj]
  have hnorm : normalizePfsPath (baseOf cwd path) q = some (join slash (resolved (baseOf cwd path) q)) := by
    refine (normalizePfsPath_eq hb _ _).mpr ⟨⟨⟨fun comp hc => hres.1.bytes comp (hpre.subset hc), ?_⟩, ?_⟩, rfl⟩
    · rw [hstart]
      exact fun pre hpq => hres.1.fits pre (hpq.trans hpre)
    · rw [resolved, placeOf, resolve_of_plain hplain]
      exact List.append_ne_nil_of_right_ne_nil _ hne
  have hlen : (headOf path ++ q).length ≤ path.length := by
    have := congrArg List.length (headOf_append_bodyOf path)
    rw [hq, List.length_append, List.length_append] at this
    rw [List.length_append]
    omega
  obtain ⟨name, hname⟩ := Option.isSome_iff_exists.mp hp.named
  obtain ⟨path', hs, hr⟩ := Option.bind_eq_some_iff.mp hname
  obtain rfl := checkedAppSlice_eq hs
  have hmax : path'.length ≤ inputMax := by
    unfold checkedAppSlice at hs
    split_ifs at hs with hc
    simp only [Bool.or_eq_true, decide_eq_true_eq, not_or, not_lt] at hc
    exact hc.2
  -- the kernel takes both, and reads them from the same directory
  have hname {c : List UInt8} (hcn : c ≠ []) (hle : c.length ≤ q.length)
      (hmem : ∀ byte ∈ c, byte ∈ q ∨ byte = slash) :
      Rymos.nameFor cwd (headOf path' ++ c) = normalizePfsPath (baseOf cwd path') c := by
    rw [Rymos.nameFor, checkedAppSlice, if_neg, Option.bind_some]
    · refine pfsResolvePath_body (by rw [hr]; rfl) fun _ hcolon => ?_
      rcases hmem _ hcolon with hin | hs
      · exact colon_notMem hres (hq ▸ List.mem_append_left _ hin)
      · revert hs
        decide
    · simp only [List.length_append, Bool.or_eq_true, decide_eq_true_eq, not_or, not_lt] at hlen ⊢
      have := List.length_pos_iff.mpr hcn
      omega
  refine ⟨_, (hname hqnil le_rfl fun byte => .inl).trans hnorm, ?_⟩
  rw [hname _ (length_join_split_le q), normalizePfsPath_congr hb hstart' hjoined, hnorm]
  · intro byte hbyte
    rcases mem_join hbyte with hs | ⟨c, hc, hin⟩
    · exact .inr hs
    · exact .inl (mem_of_mem_split hc hin).1
  · rw [Ne, join_eq_nil_iff fun c => ne_nil_of_mem_split]
    exact hne

/-- What is asked for is `q` behind the head, with components at its end. -/
theorem exists_body {q : List UInt8} (hne : pathComponents (restOf path) ≠ []) (hq : Asked path q) :
    ∃ body rest, q = headOf path ++ body ∧ bodyOf path = body ++ rest ∧
      (rest = [] ∨ rest.head? = some slash) ∧ split slash body ≠ [] := by
  rcases hq with rfl | ⟨rest, hpath, hlen, hlast, hrest⟩
  · exact ⟨bodyOf q, [], (headOf_append_bodyOf q).symm, (List.append_nil _).symm, .inl rfl,
      pathComponents_restOf q ▸ hne⟩
  · have hhead : headOf path <+: q := List.prefix_of_prefix_length_le
      ⟨bodyOf path, headOf_append_bodyOf path⟩ ⟨rest, hpath.symm⟩ hlen.le
    obtain ⟨body, rfl⟩ := hhead
    have hbody : body ≠ [] := by
      rintro rfl
      simp at hlen
    refine ⟨body, rest, rfl, ?_, hrest, fun hnil => ?_⟩
    · have := headOf_append_bodyOf path
      conv_rhs at this => rw [hpath, List.append_assoc]
      exact List.append_cancel_left this
    · rw [List.getLast?_append_of_ne_nil _ hbody] at hlast
      obtain ⟨byte, hbyte⟩ := Option.ne_none_iff_exists'.mp (mt List.getLast?_eq_none_iff.mp hbody)
      obtain ⟨comp, hcomp, -⟩ := mem_split (s := slash) (List.mem_of_getLast? hbyte)
        fun he => hlast (he ▸ hbyte)
      rw [hnil] at hcomp
      cases hcomp

/-- **The kernel reads a plain path and the paths asked about in the same way.** -/
theorem PlainPath.readsSame (hp : PlainPath cwd path) (hcwd : PlainCwd cwd)
    (hm : Makeable fs disk cwd (rebuiltOf path)) : ReadsSame fs disk cwd path := by
  have hchild : ∀ c ∈ split slash (bodyOf path), PlainChild c := fun c hc =>
    have hd := hp.plain c (pathComponents_restOf path ▸ hc)
    ⟨validPfsComponent_iff.mpr ⟨ne_nil_of_mem_split hc,
      (hp.resolvable hcwd).1.bytes c hc hd.1 hd.2⟩, hd.1, hd.2⟩
  have hmem {r : List UInt8} : r ∈ rebuiltOf path ↔ ∃ k, 0 < k ∧
      k ≤ (split slash (bodyOf path)).length ∧
      r = headOf path ++ join slash ((split slash (bodyOf path)).take k) := by
    have := mem_rebuilt (headOf_cases path) [] (by simp) hchild (r := r)
    rw [join_nil, List.append_nil] at this
    rw [rebuiltOf, pathComponents_restOf, this]
    rfl
  constructor
  · intro q hq
    obtain ⟨body, rest, rfl, hbody, hrest, hne⟩ := exists_body hp.ne_nil hq
    obtain ⟨name, hname, hjoined⟩ := hp.nameFor hcwd hbody hrest hne
    have hsplit : split slash (bodyOf path) = split slash body ++ split slash rest := by
      rw [hbody, split_cut hrest]
    have hin : headOf path ++ join slash (split slash body) ∈ rebuiltOf path := by
      refine hmem.mpr ⟨(split slash body).length, List.length_pos_iff.mpr hne, ?_, ?_⟩
      · rw [hsplit, List.length_append]
        exact Nat.le_add_right _ _
      · rw [hsplit, List.take_left]
    rcases hm.there _ hin with hd | hmiss
    · exact .inl ((dirAt_named hname).mpr ((dirAt_named hjoined).mp hd))
    · obtain ⟨m, hmm⟩ := Option.isSome_iff_exists.mp hmiss
      have hm' := (missingName_eq_some.mp hmm).1
      rw [hjoined] at hm'
      obtain rfl := Option.some.inj hm'
      exact .inr ⟨_, mem_missingNames.mpr ⟨_, hin, hmm⟩, hname⟩
  · intro name hname
    obtain ⟨r, hr, hmiss⟩ := mem_missingNames.mp hname
    obtain ⟨k, hk, hle, rfl⟩ := hmem.mp hr
    obtain ⟨pre, rest, hbody, hpre, hlast, hrest⟩ := exists_cut hk hle
    have hne : split slash pre ≠ [] := by
      rw [hpre]
      exact List.ne_nil_of_length_pos (by rw [List.length_take]; omega)
    have hpne : pre ≠ [] := by
      rintro rfl
      exact hne split_nil
    obtain ⟨name', hname', hjoined⟩ := hp.nameFor hcwd hbody hrest hne
    rw [hpre] at hjoined
    have hr := (missingName_eq_some.mp hmiss).1
    rw [hjoined] at hr
    obtain rfl := Option.some.inj hr
    refine ⟨headOf path ++ pre, .inr ⟨rest, ?_, ?_, ?_, hrest⟩, ?_⟩
    · rw [List.append_assoc, ← hbody, headOf_append_bodyOf]
    · rw [List.length_append]
      have := List.length_pos_iff.mpr hpne
      omega
    · rwa [List.getLast?_append_of_ne_nil _ hpne]
    · obtain ⟨path', hs, hr⟩ := Option.bind_eq_some_iff.mp hname'
      rwa [checkedAppSlice_eq hs] at hr

end Plain

/-- `pfs:a/b` from `/` on an empty disk. -/
theorem createsAll_iff_nested : CreatesAll ⟨[]⟩ blankPath.sys (blankPath.cwds 0).read
    (pfsPath (ascii "a/b")) (fun _ _ => 0) := by
  have hplain : PlainPath (blankPath.cwds 0).read (pfsPath (ascii "a/b")) :=
    ⟨by decide, by decide, by decide, .inl (by decide)⟩
  exact (createsAll_iff ⟨[]⟩ (.start pathInit_blankPath) 0 _ _).mpr fun _ hm => hplain.readsSame (.inl rfl) hm

/-- **From `pfs:d`, `/a` makes `d/a`**, and there is no `/a`. -/
theorem not_createsAll_rooted : ¬ ∀ fs s process path t, PathReach s →
    pathComponents (restOf path) ≠ [] → CreatesAll fs s.sys (s.cwds process).read path t := by
  intro hall
  have hrun : (exec pathStep blankPath (enterRun (ascii "d"))).bind (fun s =>
      (createDirAll ⟨[]⟩ s.sys (s.cwds 0).read (ascii "/a") fun _ _ => 0).map fun made =>
        (made.2.isOk, abiStat ⟨[]⟩ made.1.disk (s.cwds 0).read (ascii "/a"))) =
      some (true, some (.error errNoent)) := by decide +kernel
  obtain ⟨s, hs, he⟩ := Option.bind_eq_some_iff.mp hrun
  obtain ⟨⟨sys', result⟩, hc, he⟩ := Option.map_eq_some_iff.mp he
  obtain ⟨hok, hstat⟩ := Prod.mk.inj he
  have hr : PathReach s := reach_of_exec (.start pathInit_blankPath) (allGood_true _ _) hs
  obtain ⟨sys'', result', hc', -, hmade⟩ := hall ⟨[]⟩ s 0 (ascii "/a") (fun _ _ => 0) hr (by decide)
  rw [hc] at hc'
  obtain ⟨rfl, rfl⟩ := Prod.mk.inj (Option.some.inj hc')
  cases result with
  | error code => cases hok
  | ok =>
    obtain ⟨stat, hdone, -⟩ := (hmade rfl).1 _ (.inl rfl)
    rw [hdone] at hstat
    cases hstat

end Rymos
