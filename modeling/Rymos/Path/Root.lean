import Mathlib.Tactic
import Rymos.Path.Chdir
import Rymos.Path.Names

/-!
# The root of RYMFS

The root has no entry of its own: the kernel knows it by two spellings.

* `placeFrom`, `RootPath`: the paths that lead to the root. `RootWorks`: what the calls should do there.
* **`rootWorks_iff`**: they do it for the two spellings only, and then `stat` must find the spelling in
  the boot filesystem.
* `ChdirUp`, **`chdirUp_iff`**: into a directory and up again.
* `relativePaths`: both together.
-/

namespace Rymos

open ByteBuf Components Transition

/-! ## Paths to the root -/

/-- The place a path leads to, component by component. -/
def placeFrom (cwd path : List UInt8) : List (List UInt8) :=
  if startsWith path pfsPrefix then resolved [] (path.drop 4) else resolved (appCwdPfsName cwd) path

/-- The process is in RYMFS, and the path leads to the root. -/
def RootPath (cwd path : List UInt8) : Prop := appCwdIsPfs cwd = true ∧ placeFrom cwd path = []

/-- The path is one of the two spellings the kernel knows. -/
def RootSpelling (path : List UInt8) : Prop := path = pfsPrefix ∨ path = pfsPrefix ++ [slash]

/-- `chdir` goes to the root, `list` lists its entries, and `stat` reports a directory. -/
structure RootWorks (fs : BootFs) (s : PathSys) (process : ℕ) (path : List UInt8) : Prop where
  chdir : ∃ cwd', abiChdirIn s.sys.disk (s.cwds process) path = some (cwd', .done ()) ∧
    cwd'.read = pfsPrefix
  list : ∀ index room, 0 < room → abiList fs s.sys.disk (s.cwds process).read path index room =
    some (abiListPfs s.sys.disk [] index room)
  stat : ∃ stat, abiStat fs s.sys.disk (s.cwds process).read path = some (.done stat) ∧
    stat.kind = statKindDir

/-- The boot filesystem has a directory of this name. -/
def HasBootDir (fs : BootFs) (path : List UInt8) : Prop :=
  ∃ e, fs.findEntry path = some (some e) ∧ e.kind = 2

section Root

variable {fs : BootFs} {s : PathSys} {process : ℕ} {path : List UInt8}

/-- **A path to the root is resolved to nothing.** -/
theorem pfsResolvePath_root {cwd : List UInt8} (hp : PlainCwd cwd) (h : RootPath cwd path) :
    pfsResolvePath cwd path = none := by
  obtain ⟨hpfs, hplace⟩ := h
  unfold placeFrom at hplace
  unfold pfsResolvePath
  have hnone {base rest : List UInt8} (hb : PlainName base) (hr : resolved base rest = []) :
      normalizePfsPath base rest = none := by
    refine Option.eq_none_iff_forall_not_mem.mpr fun out hout => ?_
    exact ((normalizePfsPath_eq hb rest out).mp hout).1.2 hr
  split_ifs at hplace ⊢
  · exact hnone (.inl rfl) hplace
  · exact hnone hp.base hplace

theorem RootSpelling.checked (h : RootSpelling path) : checkedAppSlice path = some path := by
  rcases h with rfl | rfl <;> decide

theorem RootSpelling.resolve (h : RootSpelling path) (cwd : List UInt8) :
    pfsResolvePath cwd path = none := by
  rcases h with rfl | rfl <;> rfl

theorem RootSpelling.namespace (h : RootSpelling path) (cwd : List UInt8) :
    pfsNamespace cwd path = some [] := by
  rcases h with rfl | rfl <;> rfl

theorem RootSpelling.chdir (h : RootSpelling path) (disk : Disk) (cwd : CwdField) :
    abiChdirIn disk cwd path = some (.pfsRoot, .done ()) := by
  rcases h with rfl | rfl <;> rfl

/-- `chdir` goes to the root with the two spellings only. -/
theorem rootSpelling_of_chdir (hg : GoodField (s.cwds process))
    (h : RootPath (s.cwds process).read path) {cwd' : CwdField}
    (hc : abiChdirIn s.sys.disk (s.cwds process) path = some (cwd', .done ()))
    (hread : cwd'.read = pfsPrefix) : RootSpelling path := by
  have hlist := abiChdir_of_in hg hc
  unfold abiChdir at hlist
  split at hlist
  · cases (Prod.mk.inj (Option.some.inj hlist)).2
  rename_i path' hs
  obtain rfl := checkedAppSlice_eq hs
  split_ifs at hlist with hslash hpfs
  · have hcwd := congrArg (fun r => Option.map (fun r => r.1.cwd) r) hlist
    have : [slash] = cwd'.read := Option.some.inj hcwd
    rw [hread] at this
    exact absurd this (by decide)
  · rcases (Bool.or_eq_true _ _).mp hpfs with he | he
    · exact .inl (beq_iff_eq.mp he)
    · exact .inr (beq_iff_eq.mp he)
  · have hnone : pfsResolvePath ((s.cwds process).caller s.sys).cwd path' = none :=
      pfsResolvePath_root hg.plain h
    rw [hnone] at hlist
    cases (Prod.mk.inj (Option.some.inj hlist)).2

/-- What `stat` does with a path that is not resolved. -/
theorem abiStat_boot {disk : Disk} {cwd : List UInt8} (hs : checkedAppSlice path = some path)
    (hr : pfsResolvePath cwd path = none) :
    (∃ stat, abiStat fs disk cwd path = some (.done stat) ∧ stat.kind = statKindDir) ↔
      HasBootDir fs path := by
  unfold abiStat statPath HasBootDir
  rw [hs]
  dsimp only
  rw [hr]
  dsimp only
  obtain ⟨found, hfound⟩ : ∃ found, fs.findEntry path = some found := ⟨_, BootFs.findWith_eq id path⟩
  rw [hfound]
  cases found with
  | none => simp
  | some e =>
    simp only [Option.map_some, Option.some.injEq, Reply.done.injEq, exists_eq_left', BootFs.statOf]
    by_cases hk : e.kind = 2 <;> simp [hk]

/-- **The calls work at the root** exactly when the path is one of the two spellings, and the boot
filesystem has a directory of that name. -/
theorem rootWorks_iff (hg : GoodField (s.cwds process)) (h : RootPath (s.cwds process).read path) :
    RootWorks fs s process path ↔ RootSpelling path ∧ HasBootDir fs path := by
  constructor
  · intro hw
    obtain ⟨cwd', hc, hread⟩ := hw.chdir
    have hsp := rootSpelling_of_chdir hg h hc hread
    exact ⟨hsp, (abiStat_boot hsp.checked (hsp.resolve _)).mp hw.stat⟩
  · rintro ⟨hsp, hboot⟩
    refine ⟨⟨.pfsRoot, hsp.chdir _ _, read_pfsRoot⟩, fun index room hroom => ?_,
      (abiStat_boot hsp.checked (hsp.resolve _)).mpr hboot⟩
    have hlen : path.length ≠ 0 := by rcases hsp with rfl | rfl <;> decide
    unfold abiList
    rw [if_neg (by omega), if_neg hlen, hsp.checked]
    dsimp only
    rw [hsp.namespace]

end Root

/-! ## Up again -/

/-- Entering `dir` and then `..` leaves the process in its parent. -/
def ChdirUp (s : PathSys) (process : ℕ) (dir : List UInt8) : Prop :=
  ∃ cwd₁ cwd₂, abiChdirIn s.sys.disk (s.cwds process) (pfsPrefix ++ dir) = some (cwd₁, .done ()) ∧
    abiChdirIn s.sys.disk cwd₁ dotDotName = some (cwd₂, .done ()) ∧
    cwd₂.read = pfsPrefix ++ (pfsParent dir).getD []

/-- The parent of `dir` is a directory of the table; a directory at the root has none. -/
def HasParentDir (header : Header) (dir : List UInt8) : Prop :=
  ∃ parent index, pfsParent dir = some parent ∧ pfsFindEntry header parent = some index ∧
    pfsEntryIsDir header index = true

section Up

variable {s : PathSys} {process : ℕ} {dir : List UInt8}

theorem EnteredName.validPlace (h : EnteredName dir) : ValidPlace (split slash dir) :=
  (validPlace_split h.valid).1

theorem appCwdPfsName_append (h : EnteredName dir) : appCwdPfsName (pfsPrefix ++ dir) = dir := by
  obtain ⟨hpos, hle⟩ := length_of_validPfsPath h.valid
  have hlen := length_pfsPrefix_append dir
  have hmax : pfsNameMax = 96 := rfl
  rw [appCwdPfsName, if_neg (by omega), hlen, drop_pfsPrefix, List.take_of_length_le (by omega)]

theorem appCwdIsPfs_append (dir : List UInt8) : appCwdIsPfs (pfsPrefix ++ dir) = true := by
  have hlen := length_pfsPrefix_append dir
  have htake : (pfsPrefix ++ dir).take 4 = pfsPrefix := List.take_left' rfl
  rw [appCwdIsPfs, htake]
  simp [hlen]

/-- The parent of an entered directory is the place above it. -/
theorem pfsPopComponent_entered (h : EnteredName dir) :
    pfsPopComponent dir = join slash (split slash dir).dropLast := by
  have := pfsPopComponent_join h.validPlace
  rwa [h.joined] at this

/-- **`..` is resolved to the parent**, and at a directory of the root to nothing. -/
theorem pfsResolvePath_dotDot (h : EnteredName dir) :
    pfsResolvePath (pfsPrefix ++ dir) dotDotName = pfsParent dir := by
  have hfit := (validPlace_split h.valid).2
  have hnorm : normalizePfsPath dir dotDotName =
      if (pfsPopComponent dir).length == 0 || !validPfsPath (pfsPopComponent dir) then none
      else some (pfsPopComponent dir) := by
    unfold normalizePfsPath
    have habs : startsWith dotDotName [slash] = false := rfl
    have hcomps : pfsComponents dotDotName = [dotDotName] := rfl
    simp only [habs, Bool.false_eq_true, if_false, pfsComponents_eq dir,
      foldlM_pfsPushComponent h.validPlace hfit h.plain, h.joined, Option.bind_some, hcomps]
    rfl
  have hstart : startsWith dotDotName pfsPrefix = false := rfl
  rw [pfsResolvePath, hstart, if_neg Bool.false_ne_true, if_pos (appCwdIsPfs_append dir),
    appCwdPfsName_append h, hnorm]
  have hpop := pfsPopComponent_entered h
  by_cases hone : (split slash dir).dropLast = []
  · rw [hone, join_nil] at hpop
    rw [hpop, if_pos (by simp)]
    refine (pfsParent_eq_none.mpr fun hmem => ?_).symm
    have hcons : split slash dir ≠ [] := by
      intro he
      have := h.joined
      rw [he, join_nil] at this
      subst this
      cases hmem
    have hlast := List.dropLast_append_getLast hcons
    rw [hone, List.nil_append] at hlast
    have hdir := h.joined
    rw [← hlast, join_singleton] at hdir
    have hin : (split slash dir).getLast hcons ∈ split slash dir := List.getLast_mem hcons
    rw [← hdir] at hmem
    exact slash_notMem (h.validPlace _ hin) hmem
  · have hv : ValidPlace (split slash dir).dropLast := fun comp hc =>
      h.validPlace comp (List.dropLast_subset _ hc)
    have hvalid := validPfsPath_join hv hone ((length_join_dropLast _).trans hfit)
    rw [← hpop] at hvalid
    have hpos := (length_of_validPfsPath hvalid).1
    rw [hvalid, if_neg (by simp; exact List.length_pos_iff.mp hpos)]
    rw [pfsPopComponent_eq] at hpos ⊢
    rw [pfsParent]
    cases hk : findLastByte dir slash with
    | none => simp [hk] at hpos
    | some k => rfl

end Up

section Iff

variable {s : PathSys} {process : ℕ} {dir : List UInt8} {header : Header}

/-- A directory of the table is there to be entered. -/
theorem namesDir_of_entry {disk : Disk} {index : ℕ} (hh : readHeaderSilent disk = some header)
    (hf : pfsFindEntry header dir = some index) (hd : pfsEntryIsDir header index = true) :
    NamesDir (pfsPrefix ++ dir) disk :=
  .inr (.inr ⟨header, index, hh, by rwa [drop_pfsPrefix], hd⟩)

/-- An entered directory is in the table. -/
theorem entry_of_namesDir {disk : Disk} (h : EnteredName dir) (hh : readHeaderSilent disk = some header)
    (hn : NamesDir (pfsPrefix ++ dir) disk) :
    ∃ index, pfsFindEntry header dir = some index ∧ pfsEntryIsDir header index = true := by
  have hpos := (length_of_validPfsPath h.valid).1
  have hlen := length_pfsPrefix_append dir
  rcases hn with he | he | ⟨header', index, hh', hf, hd⟩
  · rw [he] at hlen
    have : [slash].length = 1 := rfl
    omega
  · rw [he] at hlen
    have : pfsPrefix.length = 4 := rfl
    omega
  · obtain rfl := Option.some.inj (hh.symm.trans hh')
    rw [drop_pfsPrefix] at hf
    exact ⟨index, hf, hd⟩

/-- What a call enters that is not `/` or the root. -/
theorem entered_of_chdir {cwd cwd' : CwdField} {path : List UInt8} (hg : GoodField cwd)
    (hc : abiChdirIn s.sys.disk cwd path = some (cwd', .done ())) (hslash : path ≠ [slash])
    (hsp : ¬ RootSpelling path) : ∃ name, pfsResolvePath cwd.read path = some name ∧
      EnteredName name ∧ cwd'.read = pfsPrefix ++ name := by
  have hlist := abiChdir_of_in hg hc
  unfold abiChdir at hlist
  split at hlist
  · cases (Prod.mk.inj (Option.some.inj hlist)).2
  rename_i path' hs
  obtain rfl := checkedAppSlice_eq hs
  have hpfs : ¬ (path' == pfsPrefix || path' == pfsPrefix ++ [slash]) = true := by
    simpa [RootSpelling] using hsp
  rw [if_neg (by simpa using hslash), if_neg hpfs] at hlist
  split at hlist
  · cases (Prod.mk.inj (Option.some.inj hlist)).2
  rename_i name hname
  split at hlist
  · cases (Prod.mk.inj (Option.some.inj hlist)).2
  split at hlist
  · cases (Prod.mk.inj (Option.some.inj hlist)).2
  split_ifs at hlist with hdir hlong
  · cases (Prod.mk.inj (Option.some.inj hlist)).2
  · have hread : pfsPrefix ++ name = cwd'.read :=
      congrArg Caller.cwd (Prod.mk.inj (Option.some.inj hlist)).1
    exact ⟨name, hname, enteredName_of_resolve hg.plain hname (by omega), hread.symm⟩

/-- A directory whose parent is reached from it by way of its own path has the name that was entered. -/
theorem eq_of_parent {name parent : List UInt8} (hn : EnteredName name)
    (hr : normalizePfsPath [] dir = some name) (hname : pfsParent name = some parent)
    (hdir : pfsParent dir = some parent) (hv : validPfsPath parent = true) : dir = name := by
  obtain ⟨child, hc, rfl⟩ := pfsParent_eq_some.mp hdir
  obtain ⟨last, hl, rfl⟩ := pfsParent_eq_some.mp hname
  have hparent : parent ≠ [] := List.length_pos_iff.mp (length_of_validPfsPath hv).1
  obtain ⟨hres, hjoin⟩ := (normalizePfsPath_eq (.inl rfl) _ _).mp hr
  have hsplit := congrArg (split slash) hjoin
  have hplace : PlainName [] := .inl rfl
  rw [(hplace.resolved hres).2.1, split_append_slash] at hsplit
  -- the components of the parent are plain, so following them leads to the parent
  have hplain : ∀ comp ∈ split slash parent, comp ≠ dotName ∧ comp ≠ dotDotName := fun comp hmem =>
    hn.plain comp (by rw [split_append_slash]; exact List.mem_append_left _ hmem)
  have hstart : startOf [] (parent ++ slash :: child) = [] := by simp [startOf]
  have hbase : placeOf [] (split slash parent) = split slash parent := by
    rw [placeOf, resolve_of_plain hplain, List.nil_append]
  rw [resolved, hstart, split_append_slash, placeOf_append, hbase] at hsplit
  have hlast : last ≠ [] := by
    rintro rfl
    have hjoined := congrArg List.length hn.joined
    have hle := length_join_split_le (s := slash) parent
    rw [split_append_slash, split_nil, List.append_nil, List.length_append,
      List.length_singleton] at hjoined
    omega
  have hlen := congrArg List.length hsplit
  rw [split_component hl hlast] at hsplit hlen
  rw [List.length_append, List.length_singleton] at hlen
  by_cases hchild : child = []
  · rw [hchild, split_nil, placeOf, resolve_nil] at hlen
    omega
  rw [split_component hc hchild, placeOf, resolve_cons, resolve_nil, Components.follow] at hsplit hlen
  split_ifs at hsplit hlen with hdot hdotdot
  · omega
  · rw [List.length_dropLast] at hlen
    omega
  · obtain rfl := List.singleton_inj.mp (List.append_cancel_left hsplit)
    rfl

/-- **Into a directory and up again** leads to its parent exactly when the directory has a name that can
be entered, and does not lie at the root. -/
theorem chdirUp_iff (h : PathInv s) (hh : readHeaderSilent s.sys.disk = some header) {index : ℕ}
    (hf : pfsFindEntry header dir = some index) (hd : pfsEntryIsDir header index = true) :
    ChdirUp s process dir ↔ EnteredName dir ∧ HasParentDir header dir := by
  have hg := h.cwds process
  have hdots : ¬ RootSpelling dotDotName := by simp [RootSpelling, pfsPrefix]
  constructor
  · rintro ⟨cwd₁, cwd₂, hc₁, hc₂, hread⟩
    have hg₁ := hg.chdir hc₁
    obtain ⟨parent, hres, hparent, hread₂⟩ := entered_of_chdir hg₁ hc₂ (by decide) hdots
    have hpos := (length_of_validPfsPath hparent.valid).1
    have hdir : pfsParent dir = some parent := by
      rw [hread₂, List.append_cancel_left_eq] at hread
      cases hp : pfsParent dir with
      | none =>
        rw [hread, hp] at hpos
        simp at hpos
      | some dir' =>
        rw [hread, hp]
        rfl
    obtain ⟨child, -, hchild⟩ := pfsParent_eq_some.mp hdir
    have hsp : ¬ RootSpelling (pfsPrefix ++ dir) := by
      rintro (he | he)
      · have := List.append_right_eq_self.mp he
        rw [this] at hchild
        simp at hchild
      · rw [List.append_cancel_left he] at hchild
        have := congrArg List.length hchild
        simp only [List.length_append, List.length_cons, List.length_nil] at this
        omega
    obtain ⟨name, hname, hn, hread₁⟩ := entered_of_chdir hg hc₁ (by simp [pfsPrefix]) hsp
    have hnorm : normalizePfsPath [] dir = some name := by
      have hs : startsWith (pfsPrefix ++ dir) pfsPrefix = true :=
        startsWith_iff.mpr (List.prefix_append _ _)
      rwa [pfsResolvePath, if_pos hs, drop_pfsPrefix] at hname
    rw [hread₁, pfsResolvePath_dotDot hn] at hres
    obtain rfl := eq_of_parent hn hnorm hres hdir hparent.valid
    have hthere := abiChdir_namesDir (abiChdir_of_in hg₁ hc₂)
    obtain ⟨i, hi, hdi⟩ := entry_of_namesDir hparent hh (hread₂ ▸ hthere)
    exact ⟨hn, parent, i, hdir, hi, hdi⟩
  · rintro ⟨hn, parent, i, hp, hi, hdi⟩
    obtain ⟨cwd₁, hc₁, hread₁⟩ := hg.enters (.inr (.inr ⟨dir, hn, rfl⟩)) (namesDir_of_entry hh hf hd)
    have hlen : parent.length < dir.length := (pfsParent_spec hp).1
    have hfits := hn.fits
    have hlist : abiChdir (cwd₁.caller s.sys) dotDotName =
        some ((cwd₁.caller s.sys).setCwd (pfsPrefix ++ parent), .done ()) := by
      have hres : pfsResolvePath (cwd₁.caller s.sys).cwd dotDotName = some parent := by
        show pfsResolvePath cwd₁.read dotDotName = _
        rw [hread₁, pfsResolvePath_dotDot hn, hp]
      have hdisk : readHeaderSilent (cwd₁.caller s.sys).io.sys.disk = some header := hh
      have hin : checkedAppSlice dotDotName = some dotDotName := by decide
      unfold abiChdir
      rw [hin]
      dsimp only
      rw [if_neg (by decide), if_neg (by decide), hres]
      dsimp only
      rw [hdisk]
      dsimp only
      rw [hi]
      dsimp only
      rw [hdi, if_neg (by decide), if_neg (by omega)]
    obtain ⟨cwd₂, hc₂, hread₂⟩ := (hg.chdir hc₁).chdirIn hlist
    exact ⟨cwd₁, cwd₂, hc₁, hc₂, by rw [hread₂, hp]; rfl⟩

end Iff

/-! ## Relative paths -/

/-- **Relative paths**, in every process of every run. The calls work at a path to the root exactly when
the path is one of the two spellings, and the boot filesystem has a directory of that name; going into a
directory and up again leads to its parent exactly when its name can be entered and it does not lie at
the root. -/
theorem relativePaths (fs : BootFs) {s : PathSys} (h : PathReach s) (process : ℕ) :
    (∀ path, RootPath (s.cwds process).read path →
      (RootWorks fs s process path ↔ RootSpelling path ∧ HasBootDir fs path)) ∧
    ∀ header dir index, readHeaderSilent s.sys.disk = some header →
      pfsFindEntry header dir = some index → pfsEntryIsDir header index = true →
      (ChdirUp s process dir ↔ EnteredName dir ∧ HasParentDir header dir) := by
  have hinv := pathInv_of_reach h
  exact ⟨fun path hroot => rootWorks_iff (hinv.cwds process) hroot,
    fun header dir index hh hf hd => chdirUp_iff hinv hh hf hd⟩

/-- `a/b` is made, and process 0 goes to the root. -/
def nestedRun : List PathAct :=
  [.fs (.mkdir [] (pfsPath (ascii "a")) fun _ => 0),
    .fs (.mkdir [] (pfsPath (ascii "a/b")) fun _ => 0), .chdir 0 pfsPrefix]

/-- A boot archive with a directory `pfs:`. -/
def pfsArchive : BootFs :=
  ⟨bootMagic ++ [1, 0, 42, 0] ++ [2, 4, 0, 0, 0, 0, 0, 0, 0, 0] ++ pfsPrefix ++ List.replicate 28 0⟩

theorem hasBootDir_pfsArchive : HasBootDir pfsArchive pfsPrefix := by
  have hfind : (pfsArchive.findEntry pfsPrefix).map (fun e => e.map BootFsEntry.kind) =
      some (some 2) := by decide +kernel
  obtain ⟨found, hf, he⟩ := Option.map_eq_some_iff.mp hfind
  obtain ⟨e, rfl, hk⟩ := Option.map_eq_some_iff.mp he
  exact ⟨e, hf, hk⟩

/-- The calls at `pfs:`, and `a/b` and up again. -/
theorem relativePaths_nested : ∃ s, exec pathStep blankPath nestedRun = some s ∧
    RootWorks pfsArchive s 0 pfsPrefix ∧ ChdirUp s 0 (ascii "a/b") := by
  have hrun : (exec pathStep blankPath nestedRun).map (fun s => ((s.cwds 0).read,
      (readHeaderSilent s.sys.disk).map fun header =>
        ((pfsFindEntry header (ascii "a"), pfsFindEntry header (ascii "a/b")),
          pfsEntryIsDir header 0 && pfsEntryIsDir header 1))) =
      some (pfsPrefix, some ((some 0, some 1), true)) := by decide +kernel
  obtain ⟨s, hs, he⟩ := Option.map_eq_some_iff.mp hrun
  obtain ⟨hcwd, he⟩ := Prod.mk.inj he
  obtain ⟨header, hh, he⟩ := Option.map_eq_some_iff.mp he
  obtain ⟨hfind, hdirs⟩ := Prod.mk.inj he
  obtain ⟨ha, hb⟩ := Prod.mk.inj hfind
  obtain ⟨hda, hdb⟩ := (Bool.and_eq_true _ _).mp hdirs
  have hr : PathReach s := reach_of_exec (.start pathInit_blankPath) (allGood_true _ _) hs
  refine ⟨s, hs, ((relativePaths pfsArchive hr 0).1 pfsPrefix ?_).mpr ⟨.inl rfl, hasBootDir_pfsArchive⟩,
    ((relativePaths pfsArchive hr 0).2 header _ 1 hh hb hdb).mpr ⟨?_, ?_⟩⟩
  · rw [hcwd]
    exact ⟨by decide, by decide⟩
  · exact ⟨by decide, by decide, by decide, by decide⟩
  · exact ⟨ascii "a", 0, by decide, ha, hda⟩

/-- **`..` from a directory at the root is refused.** -/
theorem not_relativePaths : ¬ ∀ (fs : BootFs) (s : PathSys) (process : ℕ) (path : List UInt8),
    PathReach s → RootPath (s.cwds process).read path → RootWorks fs s process path := by
  intro hall
  have hrun : (exec pathStep blankPath (enterRun (ascii "a"))).map (fun s => ((s.cwds 0).read,
      (abiChdirIn s.sys.disk (s.cwds 0) dotDotName).map Prod.snd)) =
      some (ascii "pfs:a", some (.error errInval)) := by decide +kernel
  obtain ⟨s, hs, he⟩ := Option.map_eq_some_iff.mp hrun
  obtain ⟨hcwd, hrefused⟩ := Prod.mk.inj he
  have hr : PathReach s := reach_of_exec (.start pathInit_blankPath) (allGood_true _ _) hs
  have hroot : RootPath (s.cwds 0).read dotDotName := by
    rw [hcwd]
    exact ⟨by decide, by decide⟩
  obtain ⟨cwd', hc, -⟩ := (hall pfsArchive s 0 dotDotName hr hroot).chdir
  rw [hc] at hrefused
  cases hrefused

end Rymos
