import Mathlib.Tactic
import Rymos.Path.ReadDir
import Rymos.Path.Root

/-!
# Missing directories

A program that makes several directories asks the kernel for them one after the other.

* `missingNames`, `Makeable`: the names that have to be made, and when they can be.
* `MadeDirs`, **`madeDirs_of_mkdir`**: what new directories change in the header.
* `MadeDirs.dirAt`, `MadeDirs.missingNames`: what the kernel finds then.
* `makeable_cons_dir`, **`makeable_cons_missing`**: the condition, one path at a time.
-/

namespace Rymos

open ByteBuf Components Transition

/-! ## What is missing -/

/-- The path leads to a directory. -/
def DirAt (fs : BootFs) (disk : Disk) (cwd path : List UInt8) : Prop :=
  ∃ stat, abiStat fs disk cwd path = some (.done stat) ∧ stat.kind = statKindDir

/-- The name that a path passed to the kernel is resolved to. -/
def nameFor (cwd path : List UInt8) : Option (List UInt8) :=
  (checkedAppSlice path).bind (pfsResolvePath cwd)

/-- The name a path is resolved to, if the table is read and does not have it. -/
def missingName (disk : Disk) (cwd path : List UInt8) : Option (List UInt8) :=
  (nameFor cwd path).filter fun name =>
    (readHeaderSilent disk).any fun header => (pfsFindEntry header name).isNone

/-- The names of these paths that are not in the table. -/
def missingNames (disk : Disk) (cwd : List UInt8) (paths : List (List UInt8)) : Finset (List UInt8) :=
  (paths.filterMap (missingName disk cwd)).toFinset

/-- The table has a directory of this name. -/
def HasDir (header : Header) (name : List UInt8) : Prop :=
  ∃ index, pfsFindEntry header name = some index ∧ pfsEntryIsDir header index = true

/-- The free entries of the table. -/
def freeEntriesOf (header : Header) : Finset ℕ :=
  (Finset.range pfsEntryCount).filter fun index => pfsEntryUsed header index = false

/-- Each of the paths is a directory or can be made one, in this order. -/
structure Makeable (fs : BootFs) (disk : Disk) (cwd : List UInt8) (paths : List (List UInt8)) : Prop where
  there : ∀ path ∈ paths, DirAt fs disk cwd path ∨ (missingName disk cwd path).isSome = true
  parents : ∀ before path after name, paths = before ++ path :: after →
    missingName disk cwd path = some name → pfsParentExists (diskHeader disk) name = true ∨
      ∃ dir ∈ missingNames disk cwd before, pfsParent name = some dir
  room : (missingNames disk cwd paths).card ≤ (freeEntriesOf (diskHeader disk)).card

/-! ## New directories in the table -/

/-- The header with directories of these names made. -/
structure MadeDirs (header header' : Header) (names : Finset (List UInt8)) : Prop where
  inv : NamesInv header'
  kept : ∀ i < pfsEntryCount, pfsEntryUsed header i = true → SameBytes header header' i
  new : ∀ i < pfsEntryCount, pfsEntryUsed header' i = true →
    pfsEntryUsed header i = true ∨ pfsEntryIsDir header' i = true ∧ pfsEntryName header' i ∈ names
  fresh : ∀ name ∈ names, pfsFindEntry header name = none
  absent : ∀ name, pfsFindEntry header' name = none ↔ pfsFindEntry header name = none ∧ name ∉ names
  dir : ∀ name, HasDir header' name ↔ HasDir header name ∨ name ∈ names
  room : (freeEntriesOf header).card = (freeEntriesOf header').card + names.card

section Header

variable {header header' header'' : Header} {name : List UInt8} {names names' : Finset (List UInt8)}

theorem MadeDirs.refl (h : NamesInv header) : MadeDirs header header ∅ where
  inv := h
  kept _ _ _ _ _ _ := rfl
  new _ _ hu := .inl hu
  fresh := by simp
  absent := by simp
  dir := by simp
  room := by simp

theorem MadeDirs.trans (h : MadeDirs header header' names) (h' : MadeDirs header' header'' names') :
    MadeDirs header header'' (names ∪ names') where
  inv := h'.inv
  kept i hi hu := by
    have hs := h.kept i hi hu
    have hs' := h'.kept i hi (by rw [hs.used, hu])
    exact fun k h₁ h₂ => (hs' k h₁ h₂).trans (hs k h₁ h₂)
  new i hi hu := by
    rcases h'.new i hi hu with hu' | ⟨hd, hn⟩
    · rcases h.new i hi hu' with hold | ⟨hd, hn⟩
      · exact .inl hold
      · have hs := h'.kept i hi hu'
        refine .inr ⟨by rw [hs.isDir, hd], ?_⟩
        rw [hs.name (h.inv.fit i hi hu')]
        exact Finset.mem_union_left _ hn
    · exact .inr ⟨hd, Finset.mem_union_right _ hn⟩
  fresh name hm := by
    rcases Finset.mem_union.mp hm with hm | hm
    · exact h.fresh name hm
    · exact ((h.absent name).mp (h'.fresh name hm)).1
  absent name := by rw [h'.absent, h.absent, Finset.mem_union, not_or, and_assoc]
  dir name := by rw [h'.dir, h.dir, Finset.mem_union, or_assoc]
  room := by
    have hdisj : Disjoint names names' := Finset.disjoint_left.mpr fun name hm hm' =>
      ((h.absent name).mp (h'.fresh name hm')).2 hm
    rw [h.room, h'.room, Finset.card_union_of_disjoint hdisj]
    omega

/-- A new entry is found, and the others as before. -/
theorem pfsFindEntry_new {i : ℕ} (ho : OnlyEntry header header' i) (hn : NamesFit header)
    (hi : i < pfsEntryCount) (hfree : pfsEntryUsed header i = false)
    (hu : pfsEntryUsed header' i = true) (hname : pfsEntryName header' i = name)
    (hnone : pfsFindEntry header name = none) (other : List UInt8) :
    pfsFindEntry header' other = if other = name then some i else pfsFindEntry header other := by
  have hsame {j : ℕ} (hj : j < pfsEntryCount) (hne : j ≠ i) (hused : pfsEntryUsed header j = true) :
      pfsEntryName header' j = pfsEntryName header j := (ho.other hne).name (hn j hj hused)
  split_ifs with he
  · subst he
    refine pfsFindEntry_eq_some.mpr ⟨hi, hu, hname, fun j hj hused => ?_⟩
    have hne : j ≠ i := by omega
    rw [(ho.other hne).used] at hused
    rw [hsame (by omega) hne hused]
    exact pfsFindEntry_eq_none.mp hnone j (by omega) hused
  · unfold pfsFindEntry
    refine List.find?_congr fun j hj => ?_
    have hj := List.mem_range.mp hj
    by_cases hji : j = i
    · rw [hji, hu, hfree, hname, Bool.true_and, Bool.false_and]
      exact beq_eq_false_iff_ne.mpr fun hname => he hname.symm
    · rw [(ho.other hji).used]
      cases hused : pfsEntryUsed header j with
      | false => rfl
      | true => rw [hsame hj hji hused]

/-- **`mkdir` makes one directory.** -/
theorem madeDirs_of_mkdir {t : ℕ → ℕ} (hn : NamesInv header) (hv : validPfsPath name = true)
    (he : mkdirHeader header name t = .ok header') : MadeDirs header header' {name} := by
  have hlen := (length_of_validPfsPath hv).2
  have hinv : NamesInv header' := by
    obtain ⟨i, hw⟩ := (HeaderWrite.entry (.mkdir hv he)).nameWrite
    exact hn.write hw
  simp only [mkdirHeader] at he
  split_ifs at he with hp hf
  cases hi : pfsFreeEntry header with
  | none =>
    rw [hi] at he
    cases he
  | some i =>
    rw [hi] at he
    cases he
    have hnone : pfsFindEntry header name = none := by simpa using hf
    obtain ⟨hlt, hfree⟩ := pfsFreeEntry_spec hi
    set made := pfsSetEntry header i name 0 pfsKindDir [] (t 0) pfsModeDefaultDir (t 1) with hmade
    have ho : OnlyEntry header made i := onlyEntry_pfsSetEntry header hlen
    have hkind : pfsEntryKind made i = pfsKindDir := pfsEntryKind_pfsSetEntry _ _ _ _ _ _ _ _ hlt
    have hname : pfsEntryName made i = name := pfsEntryName_pfsSetEntry _ _ _ _ _ _ _ _ hlt hlen
    have hused : pfsEntryUsed made i = true := by
      rw [pfsEntryKind] at hkind
      rw [pfsEntryUsed, hkind]
      decide
    have hdir : pfsEntryIsDir made i = true := by
      rw [pfsEntryKind] at hkind
      rw [pfsEntryIsDir, hkind]
      decide
    have hfind := pfsFindEntry_new ho hn.fit hlt hfree hused hname hnone
    refine ⟨hinv, fun j hj hu => ho.other ?_, fun j hj hu => ?_, ?_, fun m => ?_, fun m => ?_, ?_⟩
    · rintro rfl
      rw [hfree] at hu
      cases hu
    · by_cases hji : j = i
      · subst hji
        exact .inr ⟨hdir, by rw [hname, Finset.mem_singleton]⟩
      · exact .inl (by rwa [(ho.other hji).used] at hu)
    · intro m hm
      rwa [Finset.mem_singleton.mp hm]
    · rw [hfind, Finset.mem_singleton]
      split_ifs with hm <;> simp [hm]
    · rw [HasDir, HasDir, hfind, Finset.mem_singleton]
      split_ifs with hm
      · simp [hm, hdir]
      · rw [or_iff_left hm]
        refine exists_congr fun j => and_congr_right fun hj => ?_
        obtain ⟨hlt', hu, -, -⟩ := pfsFindEntry_eq_some.mp hj
        rw [(ho.other (show j ≠ i by rintro rfl; rw [hfree] at hu; cases hu)).isDir]
    · have herase : freeEntriesOf made = (freeEntriesOf header).erase i := by
        ext j
        simp only [freeEntriesOf, Finset.mem_erase, Finset.mem_filter, Finset.mem_range]
        by_cases hji : j = i
        · simp [hji, hused]
        · rw [(ho.other hji).used]
          simp [hji]
      have hmem : i ∈ freeEntriesOf header :=
        Finset.mem_filter.mpr ⟨Finset.mem_range.mpr hlt, hfree⟩
      rw [herase, Finset.card_singleton, Finset.card_erase_add_one hmem]

/-- `mkdir` makes a name that is not there if its parent is, and an entry is free. -/
theorem mkdirHeader_isOk (hnone : pfsFindEntry header name = none) (t : ℕ → ℕ) :
    (∃ header', mkdirHeader header name t = .ok header') ↔
      pfsParentExists header name = true ∧ 0 < (freeEntriesOf header).card := by
  have hfree : (∃ i, pfsFreeEntry header = some i) ↔ 0 < (freeEntriesOf header).card := by
    rw [Finset.card_pos, ← Option.isSome_iff_exists, pfsFreeEntry, List.find?_isSome]
    simp [freeEntriesOf, Finset.Nonempty]
  rw [← hfree, mkdirHeader, hnone]
  cases pfsParentExists header name <;> cases pfsFreeEntry header <;> simp

theorem validPfsLoop_slash (last : Bool) (bytes : List UInt8) :
    validPfsLoop last (bytes ++ [slash]) = false := by
  induction bytes generalizing last with
  | nil => cases last <;> rfl
  | cons byte bytes ih =>
    rw [List.cons_append, validPfsLoop, ih, ih]
    split_ifs <;> rfl

theorem pfsParentExists_iff {m : List UInt8} (hm : validPfsPath m = true) :
    pfsParentExists header m = true ↔ ∀ dir, pfsParent m = some dir → dir ≠ [] ∧ HasDir header dir := by
  unfold pfsParentExists pfsParent
  cases hk : findLastByte m slash with
  | none => simp
  | some k =>
    obtain ⟨hlt, hs⟩ := findLastLoop_eq_some hk
    have hnil : m.take k = [] ↔ k = 0 := by
      rw [← List.length_eq_zero_iff, List.length_take]
      omega
    dsimp only [Option.map_some]
    simp only [Option.some.injEq, forall_eq']
    split_ifs with hends
    · refine iff_of_false not_false fun hc => ?_
      rcases (Bool.or_eq_true _ _).mp hends with h0 | hlast
      · exact hc.1 (hnil.mpr (beq_iff_eq.mp h0))
      · have hk : k + 1 = m.length := by
          have := of_decide_eq_true hlast
          omega
        have hsplit : m = m.take k ++ [slash] := by
          rw [← hs, List.getD_eq_getElem _ _ hlt, List.take_concat_get' _ _ hlt, hk, List.take_length]
        rw [hsplit, validPfsPath] at hm
        split_ifs at hm
        rw [validPfsLoop_slash] at hm
        cases hm
    · have h0 : k ≠ 0 := fun h0 => hends (by simp [h0])
      rw [and_iff_right (mt hnil.mp h0), HasDir]
      cases pfsFindEntry header (m.take k) <;> simp

/-- A name has its parent once it is made. -/
theorem pfsParentExists_made {m : List UInt8} (h : MadeDirs header header' {name})
    (hv : validPfsPath name = true) (hm : validPfsPath m = true) :
    pfsParentExists header' m = true ↔ pfsParentExists header m = true ∨ pfsParent m = some name := by
  have hne : name ≠ [] := List.length_pos_iff.mp (length_of_validPfsPath hv).1
  rw [pfsParentExists_iff hm, pfsParentExists_iff hm]
  cases hp : pfsParent m with
  | none => simp
  | some dir =>
    simp only [Option.some.injEq, forall_eq', h.dir, Finset.mem_singleton]
    constructor
    · rintro ⟨hdir, hd | rfl⟩
      · exact .inl ⟨hdir, hd⟩
      · exact .inr rfl
    · rintro (⟨hdir, hd⟩ | rfl)
      · exact ⟨hdir, .inl hd⟩
      · exact ⟨hne, .inr rfl⟩

end Header

/-! ## What the kernel finds -/

section Find

variable {fs : BootFs} {disk : Disk} {header' : Header} {cwd path name : List UInt8}
  {paths : List (List UInt8)} {names : Finset (List UInt8)}

/-- The path is resolved to `name`, and the table is read and does not have it. -/
theorem missingName_eq_some : missingName disk cwd path = some name ↔ nameFor cwd path = some name ∧
    readHeaderSilent disk = some (diskHeader disk) ∧ pfsFindEntry (diskHeader disk) name = none := by
  rw [missingName, Option.filter_eq_some_iff]
  refine and_congr_right fun _ => ?_
  cases hh : readHeaderSilent disk with
  | none => simp
  | some header =>
    obtain ⟨rfl, -⟩ := readHeaderSilent_eq_some hh
    simp

theorem missingNames_cons_none (h : missingName disk cwd path = none) :
    missingNames disk cwd (path :: paths) = missingNames disk cwd paths := by
  rw [missingNames, List.filterMap_cons_none h, missingNames]

theorem missingNames_cons_some (h : missingName disk cwd path = some name) :
    missingNames disk cwd (path :: paths) = insert name (missingNames disk cwd paths) := by
  rw [missingNames, List.filterMap_cons_some h, List.toFinset_cons, missingNames]

theorem mem_missingNames : name ∈ missingNames disk cwd paths ↔
    ∃ path ∈ paths, missingName disk cwd path = some name := by
  rw [missingNames, List.mem_toFinset, List.mem_filterMap]

/-- `stat` of a path that is resolved looks at the table. -/
theorem abiStat_named (hn : nameFor cwd path = some name) : abiStat fs disk cwd path =
    some (match (readHeaderSilent disk).bind fun header =>
        (pfsFindEntry header name).map (pfsStat header) with
      | none => .error errNoent
      | some stat => .done stat) := by
  obtain ⟨path', hs, hr⟩ := Option.bind_eq_some_iff.mp hn
  obtain rfl := checkedAppSlice_eq hs
  rw [abiStat, hs]
  dsimp only
  rw [statPath, hr]
  rfl

/-- `stat` of any other path does not look at the disk. -/
theorem abiStat_unnamed (hn : nameFor cwd path = none) (disk disk' : Disk) :
    abiStat fs disk cwd path = abiStat fs disk' cwd path := by
  unfold abiStat
  cases hs : checkedAppSlice path with
  | none => rfl
  | some path' =>
    obtain rfl := checkedAppSlice_eq hs
    have hr : pfsResolvePath cwd path' = none := by rwa [nameFor, hs] at hn
    dsimp only
    rw [statPath, hr, statPath, hr]

/-- `stat` returns what it finds, or an error. -/
theorem abiStat_cases (fs : BootFs) (disk : Disk) (cwd path : List UInt8) :
    (∃ stat, abiStat fs disk cwd path = some (.done stat)) ∨
      ∃ code, abiStat fs disk cwd path = some (.error code) := by
  cases hn : nameFor cwd path with
  | some name =>
    rw [abiStat_named hn]
    split
    · exact .inr ⟨_, rfl⟩
    · exact .inl ⟨_, rfl⟩
  | none =>
    unfold abiStat
    cases hs : checkedAppSlice path with
    | none => exact .inr ⟨_, rfl⟩
    | some path' =>
      obtain rfl := checkedAppSlice_eq hs
      have hr : pfsResolvePath cwd path' = none := by rwa [nameFor, hs] at hn
      obtain ⟨found, hfound⟩ : ∃ found, fs.findEntry path' = some found := ⟨_, BootFs.findWith_eq id path'⟩
      dsimp only
      rw [statPath, hr]
      dsimp only
      rw [hfound]
      cases found with
      | none => exact .inr ⟨_, rfl⟩
      | some e => exact .inl ⟨_, rfl⟩

/-- What `stat` finds is not missing. -/
theorem missingName_of_done {stat : RymosStat} (h : abiStat fs disk cwd path = some (.done stat)) :
    missingName disk cwd path = none := by
  refine Option.eq_none_iff_forall_ne_some.mpr fun name hm => ?_
  obtain ⟨hn, hh, hf⟩ := missingName_eq_some.mp hm
  rw [abiStat_named hn, hh, Option.bind_some, hf] at h
  cases h

theorem dirAt_named (hn : nameFor cwd path = some name) : DirAt fs disk cwd path ↔
    (readHeaderSilent disk).isSome = true ∧ HasDir (diskHeader disk) name := by
  rw [DirAt, abiStat_named hn]
  cases hh : readHeaderSilent disk with
  | none => simp
  | some header =>
    obtain ⟨rfl, -⟩ := readHeaderSilent_eq_some hh
    rw [Option.bind_some, HasDir]
    cases hf : pfsFindEntry (diskHeader disk) name with
    | none => simp
    | some index => cases hd : pfsEntryIsDir (diskHeader disk) index <;> simp [pfsStat, hd]

/-! ## With new directories -/

/-- The header is read after the write just when it was read before. -/
theorem MadeDirs.read (h : MadeDirs (diskHeader disk) header' names)
    (hn : NamesInv (diskHeader disk)) :
    readHeaderSilent (withHeader disk header') = (readHeaderSilent disk).map fun _ => header' := by
  unfold readHeaderSilent
  rw [diskHeader_withHeader, h.inv.magic, hn.magic]
  change (if (List.range pfsHeaderSectors).all fun x => disk.readOk (lba28 x) then _ else _) = _
  split_ifs <;> simp

theorem MadeDirs.missingName (h : MadeDirs (diskHeader disk) header' names)
    (hn : NamesInv (diskHeader disk)) : missingName (withHeader disk header') cwd path = some name ↔
    missingName disk cwd path = some name ∧ name ∉ names := by
  rw [missingName_eq_some, missingName_eq_some, h.read hn, diskHeader_withHeader, h.absent]
  cases hh : readHeaderSilent disk with
  | none => simp
  | some header =>
    obtain ⟨rfl, -⟩ := readHeaderSilent_eq_some hh
    simp [and_assoc]

theorem MadeDirs.missingNames (h : MadeDirs (diskHeader disk) header' names)
    (hn : NamesInv (diskHeader disk)) : missingNames (withHeader disk header') cwd paths =
      missingNames disk cwd paths \ names := by
  ext name
  simp only [mem_missingNames, Finset.mem_sdiff, h.missingName hn]
  aesop

/-- A path leads to a directory if it did, or if its directory has been made. -/
theorem MadeDirs.dirAt (h : MadeDirs (diskHeader disk) header' names)
    (hn : NamesInv (diskHeader disk)) (hread : ∀ name ∈ names, (readHeaderSilent disk).isSome = true) :
    DirAt fs (withHeader disk header') cwd path ↔
      DirAt fs disk cwd path ∨ ∃ name ∈ names, nameFor cwd path = some name := by
  cases hname : nameFor cwd path with
  | none =>
    rw [DirAt, abiStat_unnamed hname _ disk]
    simp [DirAt]
  | some name =>
    rw [dirAt_named hname, dirAt_named hname, h.read hn, Option.isSome_map, diskHeader_withHeader, h.dir]
    have := hread name
    simp
    tauto

end Find

/-! ## The condition, path by path -/

section Make

variable {fs : BootFs} {disk : Disk} {header' : Header} {cwd path name : List UInt8}
  {paths : List (List UInt8)}

/-- A path that leads to a directory asks for nothing. -/
theorem makeable_cons_dir (h : DirAt fs disk cwd path) :
    Makeable fs disk cwd (path :: paths) ↔ Makeable fs disk cwd paths := by
  obtain ⟨stat, hs, -⟩ := id h
  have hnone := missingName_of_done hs
  constructor
  · intro hm
    refine ⟨fun p hp => hm.there p (List.mem_cons_of_mem _ hp), fun before p after n he hn => ?_, ?_⟩
    · have := hm.parents (path :: before) p after n (by rw [he, List.cons_append]) hn
      rwa [missingNames_cons_none hnone] at this
    · have := hm.room
      rwa [missingNames_cons_none hnone] at this
  · intro hm
    refine ⟨fun p hp => ?_, fun before p after n he hn => ?_, ?_⟩
    · rcases List.mem_cons.mp hp with rfl | hp
      · exact .inl h
      · exact hm.there p hp
    · cases before with
      | nil =>
        obtain ⟨rfl, -⟩ := List.cons.inj he
        rw [hnone] at hn
        cases hn
      | cons first before =>
        obtain ⟨rfl, htail⟩ := List.cons.inj he
        rw [missingNames_cons_none hnone]
        exact hm.parents before p after n htail hn
    · rw [missingNames_cons_none hnone]
      exact hm.room

/-- A path that has been made asks for its parent and for room. -/
theorem makeable_cons_missing (hn : NamesInv (diskHeader disk))
    (h : MadeDirs (diskHeader disk) header' {name}) (hmiss : missingName disk cwd path = some name)
    (hparent : pfsParentExists (diskHeader disk) name = true) :
    Makeable fs disk cwd (path :: paths) ↔ Makeable fs (withHeader disk header') cwd paths := by
  obtain ⟨hname, hh, -⟩ := missingName_eq_some.mp hmiss
  have hread : ∀ n ∈ ({name} : Finset (List UInt8)), (readHeaderSilent disk).isSome = true := by
    simp [hh]
  have hvalid := validPfsPath_of_bind hname
  have hthere (p : List UInt8) : (DirAt fs (withHeader disk header') cwd p ∨
      (missingName (withHeader disk header') cwd p).isSome = true) ↔
      DirAt fs disk cwd p ∨ (missingName disk cwd p).isSome = true := by
    rw [h.dirAt hn hread]
    simp only [Option.isSome_iff_exists, h.missingName hn, Finset.mem_singleton, exists_eq_left]
    constructor
    · rintro ((hd | hp) | ⟨m, hm, -⟩)
      · exact .inl hd
      · exact .inr ⟨name, missingName_eq_some.mpr ⟨hp, (missingName_eq_some.mp hmiss).2⟩⟩
      · exact .inr ⟨m, hm⟩
    · rintro (hd | ⟨m, hm⟩)
      · exact .inl (.inl hd)
      · by_cases he : m = name
        · subst he
          exact .inl (.inr (missingName_eq_some.mp hm).1)
        · exact .inr ⟨m, hm, he⟩
  have hmade {m : List UInt8} {p : List UInt8} (hm : missingName disk cwd p = some m) :=
    pfsParentExists_made h hvalid (validPfsPath_of_bind (missingName_eq_some.mp hm).1)
  have hcons (before : List (List UInt8)) :
      missingNames disk cwd (path :: before) = insert name (missingNames disk cwd before) :=
    missingNames_cons_some hmiss
  have hroom := h.room
  rw [Finset.card_singleton] at hroom
  have hcard := Finset.card_erase_add_one (Finset.mem_insert_self name (missingNames disk cwd paths))
  rw [Finset.erase_insert_eq_erase] at hcard
  constructor
  · intro hm
    refine ⟨fun p hp => (hthere p).mpr (hm.there p (List.mem_cons_of_mem _ hp)),
      fun before p after m he hpm => ?_, ?_⟩
    · obtain ⟨hpm, hne⟩ := (h.missingName hn).mp hpm
      rw [diskHeader_withHeader, hmade hpm, h.missingNames hn]
      rcases hm.parents (path :: before) p after m (by rw [he, List.cons_append]) hpm with hp | ⟨dir, hd, hp⟩
      · exact .inl (.inl hp)
      · by_cases hdn : dir = name
        · exact .inl (.inr (hdn ▸ hp))
        · rw [hcons, Finset.mem_insert, or_iff_right hdn] at hd
          exact .inr ⟨dir, by simp [hd, hdn], hp⟩
    · have hle := hm.room
      rw [hcons, ← hcard] at hle
      rw [diskHeader_withHeader, h.missingNames hn, Finset.sdiff_singleton_eq_erase]
      omega
  · intro hm
    refine ⟨fun p hp => ?_, fun before p after m he hpm => ?_, ?_⟩
    · rcases List.mem_cons.mp hp with rfl | hp
      · exact .inr (by rw [hmiss]; rfl)
      · exact (hthere p).mp (hm.there p hp)
    · by_cases hmn : m = name
      · subst hmn
        exact .inl hparent
      cases before with
      | nil =>
        obtain ⟨rfl, -⟩ := List.cons.inj he
        exact absurd (Option.some.inj (hpm.symm.trans hmiss)) hmn
      | cons first before =>
        obtain ⟨rfl, htail⟩ := List.cons.inj he
        have hp := hm.parents before p after m htail ((h.missingName hn).mpr ⟨hpm, by simpa using hmn⟩)
        rw [diskHeader_withHeader, hmade hpm, h.missingNames hn] at hp
        rw [hcons]
        rcases hp with (hp | hp) | ⟨dir, hd, hp⟩
        · exact .inl hp
        · exact .inr ⟨name, Finset.mem_insert_self _ _, hp⟩
        · exact .inr ⟨dir, Finset.mem_insert_of_mem (Finset.mem_sdiff.mp hd).1, hp⟩
    · have hle := hm.room
      rw [diskHeader_withHeader, h.missingNames hn, Finset.sdiff_singleton_eq_erase] at hle
      rw [hcons, ← hcard]
      omega

end Make

end Rymos
