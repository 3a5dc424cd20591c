import Mathlib.Tactic
import Rymos.Command.Undo
import Rymos.Path.Calls

/-!
# Changing the directory

* `CwdField.caller`, **`abiChdirIn_eq`**: the call on the stored directory is the call on byte strings.
* `EntersLong`, `abiChdir_eq_none`: the directories `abi_chdir` panics on.
* `PathInv`, `pathInv_of_reach`: the directories of all processes in every run.
* `ChdirSafe`, **`chdirSafe_iff`**: when a call fails cleanly or stores a directory that fits.
-/

namespace Rymos

open ByteBuf Components Transition

/-! ## The stored directory -/

section Field

variable {cwd : CwdField} {name path : List UInt8}

theorem read_root : CwdField.root.read = [slash] := by decide

theorem read_pfsRoot : CwdField.pfsRoot.read = pfsPrefix := by decide

theorem length_read (cwd : CwdField) : cwd.read.length = cwd.len := Buf.length_slice ..

theorem pfsDir_eq_some {cwd' : CwdField} (h : CwdField.pfsDir name = some cwd') :
    cwd'.read = pfsPrefix ++ name ∧ cwd'.len = 4 + name.length ∧ 4 + name.length ≤ appCwdMax := by
  unfold CwdField.pfsDir at h
  split_ifs at h with hfit
  cases h
  refine ⟨?_, rfl, hfit⟩
  show Buf.slice _ 0 (4 + name.length) = _
  have hpre : ((Buf.zero appCwdMax).put 0 pfsPrefix).slice 0 4 = pfsPrefix := by decide
  rw [Buf.slice_add, Nat.zero_add, Buf.slice_put_same _ 4 name hfit,
    Buf.slice_put_disj _ (.inl (Nat.le_refl 4)), hpre]

theorem pfsDir_eq_none : CwdField.pfsDir name = none ↔ appCwdMax < 4 + name.length := by
  unfold CwdField.pfsDir
  split_ifs with hfit
  · exact iff_of_false nofun (by omega)
  · exact iff_of_true rfl (by omega)

theorem take_read {n : ℕ} (h : n ≤ cwd.len) : cwd.read.take n = cwd.bytes.slice 0 n := by
  obtain ⟨k, hk⟩ := Nat.exists_eq_add_of_le h
  rw [CwdField.read, hk, Buf.slice_add, List.take_left' (Buf.length_slice ..)]

theorem drop_read {n : ℕ} (h : n ≤ cwd.len) : cwd.read.drop n = cwd.bytes.slice n (cwd.len - n) := by
  obtain ⟨k, hk⟩ := Nat.exists_eq_add_of_le h
  rw [CwdField.read, hk, Buf.slice_add, List.drop_left' (Buf.length_slice ..), Nat.zero_add,
    Nat.add_sub_cancel_left]

theorem appCwdIsPfsIn_eq (cwd : CwdField) : appCwdIsPfsIn cwd = appCwdIsPfs cwd.read := by
  rw [appCwdIsPfsIn, appCwdIsPfs, length_read]
  by_cases h : 4 ≤ cwd.len
  · rw [take_read h]
  · simp [h]

/-- The name behind `pfs:`, copied. -/
theorem appCwdPfsNameIn_eq (h : cwd.len ≤ appCwdMax) (buffer : Buf pfsNameMax) :
    ∃ buffer', appCwdPfsNameIn cwd buffer = some (buffer', (appCwdPfsName cwd.read).length) ∧
      NameIn buffer' (appCwdPfsName cwd.read) := by
  unfold appCwdPfsNameIn appCwdPfsName
  rw [length_read]
  by_cases hshort : cwd.len ≤ 4
  · rw [if_pos hshort, if_pos hshort]
    exact ⟨buffer, rfl, nameIn_nil buffer⟩
  have hmax : appCwdMax ≤ 4 + pfsNameMax := by decide
  have hmin : min (cwd.len - 4) pfsNameMax = cwd.len - 4 := min_eq_left (by omega)
  have hname : (cwd.read.drop 4).take (cwd.len - 4) = cwd.bytes.slice 4 (cwd.len - 4) := by
    rw [drop_read (by omega), List.take_of_length_le (Buf.length_slice ..).le]
  have hlen : (cwd.bytes.slice 4 (cwd.len - 4)).length = cwd.len - 4 := Buf.length_slice ..
  rw [if_neg hshort, if_neg hshort]
  dsimp only
  rw [hmin, hname, if_pos (by omega)]
  have hfits : ([] : List UInt8).length + (cwd.bytes.slice 4 (cwd.len - 4)).length ≤ pfsNameMax := by
    rw [hlen, List.length_nil]
    omega
  obtain ⟨hstore, hin⟩ := (nameIn_nil buffer).store hfits
  rw [List.length_nil] at hstore hin
  exact ⟨_, by rw [hstore, Option.map_some, hlen], hin⟩

/-- **The resolution on the stored directory** does not panic. -/
theorem pfsResolvePathIn_computes (h : cwd.len ≤ appCwdMax) (path : List UInt8)
    (output : Buf pfsNameMax) :
    Computes (pfsResolvePathIn cwd path output) (pfsResolvePath cwd.read path) := by
  unfold pfsResolvePathIn pfsResolvePath
  rw [appCwdIsPfsIn_eq]
  dsimp only
  split_ifs
  · exact normalizePfsPathIn_computes ..
  · obtain ⟨buffer', he, hin⟩ := appCwdPfsNameIn_eq h (Buf.zero _)
    rw [he, Option.bind_some, hin.2]
    exact normalizePfsPathIn_computes ..
  · exact Computes.refused _

end Field

/-! ## The call -/

/-- A process that has this directory. -/
def CwdField.caller (cwd : CwdField) (sys : Sys) : Caller := ⟨⟨sys, fun _ _ => 0⟩, cwd.read, .empty⟩

section Call

variable {sys : Sys} {cwd cwd' : CwdField} {path : List UInt8} {c c' : Caller}

/-- **`abi_chdir` on the stored directory is `abi_chdir` on byte strings.** -/
theorem abiChdirIn_eq (h : cwd.len ≤ appCwdMax) (path : List UInt8) :
    (abiChdirIn sys.disk cwd path).map (fun r => (r.1.caller sys, r.2)) =
      abiChdir (cwd.caller sys) path := by
  unfold abiChdirIn abiChdir
  cases checkedAppSlice path with
  | none => rfl
  | some path =>
    dsimp only
    by_cases hslash : (path == [slash]) = true
    · rw [if_pos hslash, if_pos hslash]
      simp only [Option.map_some, CwdField.caller, read_root, Caller.setCwd]
    by_cases hpfs : (path == pfsPrefix || path == pfsPrefix ++ [slash]) = true
    · rw [if_neg hslash, if_neg hslash, if_pos hpfs, if_pos hpfs]
      simp only [Option.map_some, CwdField.caller, read_pfsRoot, Caller.setCwd]
    rw [if_neg hslash, if_neg hslash, if_neg hpfs, if_neg hpfs]
    obtain ⟨output, he, hin⟩ := pfsResolvePathIn_computes h path (Buf.zero _)
    rw [he, Option.bind_some]
    dsimp only [CwdField.caller]
    cases hname : pfsResolvePath cwd.read path with
    | none => rfl
    | some name =>
      obtain ⟨hle, hslice⟩ := hin name hname
      simp only [Option.map_some, hslice, if_neg (Nat.not_lt.mpr hle)]
      cases readHeaderSilent sys.disk with
      | none => rfl
      | some header =>
        dsimp only
        cases pfsFindEntry header name with
        | none => rfl
        | some index =>
          dsimp only
          split_ifs with hdir hlong
          · rfl
          · rw [pfsDir_eq_none.mpr hlong]
            rfl
          · cases hd : CwdField.pfsDir name with
            | none => exact absurd (pfsDir_eq_none.mp hd) hlong
            | some cwd' =>
              simp only [Option.map_some, (pfsDir_eq_some hd).1, Caller.setCwd]

/-- What a call leaves in the field. -/
theorem abiChdirIn_cases {reply : Reply Unit}
    (hc : abiChdirIn sys.disk cwd path = some (cwd', reply)) :
    (∃ code, reply = .error code) ∧ cwd' = cwd ∨ reply = .done () ∧ cwd'.len ≤ appCwdMax := by
  unfold abiChdirIn at hc
  split at hc
  · cases hc
    exact .inl ⟨⟨_, rfl⟩, rfl⟩
  split_ifs at hc
  · cases hc
    exact .inr ⟨rfl, by decide⟩
  · cases hc
    exact .inr ⟨rfl, by decide⟩
  obtain ⟨⟨resolved, nameLen⟩, -, hc⟩ := Option.bind_eq_some_iff.mp hc
  dsimp only at hc
  split at hc
  · cases hc
    exact .inl ⟨⟨_, rfl⟩, rfl⟩
  split_ifs at hc
  split at hc
  · cases hc
    exact .inl ⟨⟨_, rfl⟩, rfl⟩
  split at hc
  · cases hc
    exact .inl ⟨⟨_, rfl⟩, rfl⟩
  split_ifs at hc
  · cases hc
    exact .inl ⟨⟨_, rfl⟩, rfl⟩
  · obtain ⟨cwd₁, hd, he⟩ := Option.map_eq_some_iff.mp hc
    cases he
    obtain ⟨-, hlen, hfit⟩ := pfsDir_eq_some hd
    exact .inr ⟨rfl, by omega⟩

/-- The path leads to a directory whose name does not fit. -/
def EntersLong (disk : Disk) (cwd path : List UInt8) : Prop :=
  checkedAppSlice path = some path ∧ ∃ name header index, pfsResolvePath cwd path = some name ∧
    readHeaderSilent disk = some header ∧ pfsFindEntry header name = some index ∧
      pfsEntryIsDir header index = true ∧ appCwdMax < 4 + name.length

theorem pfsResolvePath_slash (cwd : List UInt8) : pfsResolvePath cwd [slash] = none := by
  unfold pfsResolvePath
  split_ifs <;> rfl

/-- **`abi_chdir` panics** on these, and on nothing else. -/
theorem abiChdir_eq_none : abiChdir c path = none ↔ EntersLong c.io.sys.disk c.cwd path := by
  unfold abiChdir EntersLong
  cases hs : checkedAppSlice path with
  | none => simp
  | some path' =>
    obtain rfl := checkedAppSlice_eq hs
    dsimp only
    by_cases hslash : (path' == [slash]) = true
    · obtain rfl := beq_iff_eq.mp hslash
      simp [pfsResolvePath_slash]
    by_cases hpfs : (path' == pfsPrefix || path' == pfsPrefix ++ [slash]) = true
    · have hnone : pfsResolvePath c.cwd path' = none := by
        rcases Bool.or_eq_true _ _ ▸ hpfs with he | he
        · obtain rfl := beq_iff_eq.mp he
          rfl
        · obtain rfl := beq_iff_eq.mp he
          rfl
      rw [if_neg hslash, if_pos hpfs]
      simp [hnone]
    rw [if_neg hslash, if_neg hpfs]
    cases pfsResolvePath c.cwd path' with
    | none => simp
    | some name =>
      cases readHeaderSilent c.io.sys.disk with
      | none => simp
      | some header =>
        cases hf : pfsFindEntry header name with
        | none => simp [hf]
        | some index =>
          by_cases hdir : pfsEntryIsDir header index = true
          · simp [hf, hdir]
          · simp [hf, hdir]

/-- A directory that has been entered is there. -/
theorem abiChdir_namesDir (hc : abiChdir c path = some (c', .done ())) :
    NamesDir c'.cwd c.io.sys.disk := by
  unfold abiChdir at hc
  split at hc
  · cases hc
  split_ifs at hc
  · cases hc
    exact .inl rfl
  · cases hc
    exact .inr (.inl rfl)
  split at hc
  · cases hc
  split at hc
  · cases hc
  split at hc
  · cases hc
  split_ifs at hc with hdir <;> cases hc
  refine .inr (.inr ⟨_, _, ‹_›, ?_, by simpa using hdir⟩)
  show pfsFindEntry _ ((pfsPrefix ++ _).drop 4) = _
  rw [drop_pfsPrefix]
  assumption

end Call

/-! ## Runs -/

/-- A stored directory that fits and can be entered again. -/
structure GoodField (cwd : CwdField) : Prop where
  len_le : cwd.len ≤ appCwdMax
  plain : PlainCwd cwd.read

/-- What is kept in every run. -/
structure PathInv (s : PathSys) : Prop where
  fs : Reach FsInit (fun _ _ => True) sysStep s.sys
  cwds : ∀ process, GoodField (s.cwds process)

section Runs

variable {s s' : PathSys} {sys : Sys} {cwd cwd' : CwdField} {path : List UInt8} {reply : Reply Unit}

/-- A call that returns does so on byte strings too. -/
theorem abiChdir_of_in (h : GoodField cwd) (hc : abiChdirIn sys.disk cwd path = some (cwd', reply)) :
    abiChdir (cwd.caller sys) path = some (cwd'.caller sys, reply) := by
  rw [← abiChdirIn_eq h.len_le, hc, Option.map_some]

/-- **A call leaves a directory that can be entered again.** -/
theorem GoodField.chdir (h : GoodField cwd)
    (hc : abiChdirIn sys.disk cwd path = some (cwd', reply)) : GoodField cwd' := by
  rcases abiChdirIn_cases hc with ⟨-, rfl⟩ | ⟨rfl, hlen⟩
  · exact h
  · rcases abiChdir_cases (c := cwd.caller sys) h.plain (abiChdir_of_in h hc) with
      ⟨⟨code, he⟩, -⟩ | ⟨-, cwd₁, hplain, he⟩
    · cases he
    · have hread : cwd'.read = cwd₁ := congrArg Caller.cwd he
      exact ⟨hlen, hread ▸ hplain⟩

/-- A call on byte strings that returns does so on the stored directory. -/
theorem GoodField.chdirIn (h : GoodField cwd) {c' : Caller}
    (hc : abiChdir (cwd.caller sys) path = some (c', reply)) :
    ∃ cwd', abiChdirIn sys.disk cwd path = some (cwd', reply) ∧ cwd'.read = c'.cwd := by
  rw [← abiChdirIn_eq h.len_le] at hc
  obtain ⟨⟨cwd', reply'⟩, hin, he⟩ := Option.map_eq_some_iff.mp hc
  obtain ⟨rfl, rfl⟩ := Prod.mk.inj he
  exact ⟨cwd', hin, rfl⟩

/-- **A directory that is there can be entered** under its own path. -/
theorem GoodField.enters (h : GoodField cwd) {target : List UInt8} (hp : PlainCwd target)
    (hn : NamesDir target sys.disk) :
    ∃ cwd', abiChdirIn sys.disk cwd target = some (cwd', .done ()) ∧ cwd'.read = target := by
  rcases abiChdir_self (c := cwd.caller sys) hp with ⟨-, he⟩ | ⟨hno, -⟩
  · exact h.chdirIn he
  · exact absurd hn hno

theorem goodField_root : GoodField .root := ⟨by decide, .inl read_root⟩

theorem PathInv.update (h : PathInv s) {process : ℕ} (hg : GoodField cwd) :
    PathInv { s with cwds := Function.update s.cwds process cwd } := by
  refine ⟨h.fs, fun other => ?_⟩
  show GoodField (Function.update s.cwds process cwd other)
  by_cases ho : other = process
  · subst ho
    rwa [Function.update_self]
  · rw [Function.update_of_ne ho]
    exact h.cwds other

theorem PathInv.step (h : PathInv s) {act : PathAct} (hs : pathStep s act = some s') : PathInv s' := by
  cases act with
  | fs act =>
    obtain ⟨sys, hsys, rfl⟩ := Option.map_eq_some_iff.mp hs
    exact ⟨h.fs.next trivial hsys, h.cwds⟩
  | chdir process path =>
    obtain ⟨⟨cwd', reply⟩, hc, rfl⟩ := Option.map_eq_some_iff.mp hs
    exact h.update ((h.cwds process).chdir hc)
  | spawn parent child =>
    cases hs
    exact h.update (h.cwds parent)
  | run process =>
    cases hs
    exact h.update goodField_root

/-- **The directories of all processes**, in every run. -/
theorem pathInv_of_reach (h : PathReach s) : PathInv s := by
  refine Reach.inv (fun s hs => ?_) (fun s act s' hs _ he => hs.step he) h
  exact ⟨.start hs.sys, fun process => by rw [hs.cwds]; exact goodField_root⟩

end Runs

/-! ## Safe calls -/

/-- What `abi_cwd` reads of the stored directory is a path that leads every process to the same one. -/
def Reenters (s : PathSys) (cwd : CwdField) : Prop :=
  ∀ other room, cwd.len ≤ room → ∃ cwd', abiChdirIn s.sys.disk (s.cwds other)
    (abiCwd cwd (some room)).2 = some (cwd', .done ()) ∧ cwd'.read = cwd.read

/-- The call does not panic: it fails with an error and leaves the directory as it was, or stores one
that fits and can be entered again. -/
def ChdirSafe (s : PathSys) (process : ℕ) (path : List UInt8) : Prop :=
  ∃ cwd' reply, abiChdirIn s.sys.disk (s.cwds process) path = some (cwd', reply) ∧
    ((∃ code, reply = .error code) ∧ cwd' = s.cwds process ∨
      reply = .done () ∧ cwd'.len ≤ appCwdMax ∧ Reenters s cwd')

section Safe

variable {s : PathSys} {cwd : CwdField}

/-- What `abi_cwd` returns with enough room. -/
theorem abiCwd_room (h : GoodField cwd) {room : ℕ} (hr : cwd.len ≤ room) :
    (abiCwd cwd (some room)).2 = cwd.read := by
  have hpos := h.plain.length_le.1
  rw [length_read] at hpos
  obtain ⟨room, rfl⟩ := Nat.exists_eq_succ_of_ne_zero (n := room) (by omega)
  show cwd.bytes.slice 0 (min (room + 1) cwd.len) = _
  rw [min_eq_right hr, CwdField.read]

/-- **A directory that is there is entered again**, from everywhere. -/
theorem PathInv.reenters (h : PathInv s) (hg : GoodField cwd) (hn : NamesDir cwd.read s.sys.disk) :
    Reenters s cwd := by
  intro other room hroom
  rw [abiCwd_room hg hroom]
  exact (h.cwds other).enters hg.plain hn

end Safe

/-- **A change of directory is safe** exactly when the path does not lead to an existing directory whose
name has more than `APP_CWD_MAX - 4` bytes. -/
theorem chdirSafe_iff {s : PathSys} (h : PathReach s) (process : ℕ) (path : List UInt8) :
    ChdirSafe s process path ↔ ¬ EntersLong s.sys.disk (s.cwds process).read path := by
  have hinv := pathInv_of_reach h
  have hg := hinv.cwds process
  have hin : (abiChdirIn s.sys.disk (s.cwds process) path).map
      (fun r => (r.1.caller s.sys, r.2)) = abiChdir ((s.cwds process).caller s.sys) path :=
    abiChdirIn_eq hg.len_le path
  have hnone : EntersLong s.sys.disk (s.cwds process).read path ↔
      abiChdirIn s.sys.disk (s.cwds process) path = none := by
    refine (abiChdir_eq_none (c := (s.cwds process).caller s.sys)).symm.trans ?_
    rw [← hin, Option.map_eq_none_iff]
  rw [hnone]
  constructor
  · rintro ⟨cwd', reply, hc, -⟩ hno
    rw [hc] at hno
    cases hno
  · intro hsome
    obtain ⟨⟨cwd', reply⟩, hc⟩ := Option.ne_none_iff_exists'.mp hsome
    refine ⟨cwd', reply, hc, ?_⟩
    rcases abiChdirIn_cases hc with ⟨hcode, he⟩ | ⟨rfl, hlen⟩
    · exact .inl ⟨hcode, he⟩
    · exact .inr ⟨rfl, hlen, hinv.reenters (hg.chdir hc) (abiChdir_namesDir (abiChdir_of_in hg hc))⟩

/-- A freshly formatted disk; every process is at `/`. -/
def blankPath : PathSys := ⟨blankSys, fun _ => .root⟩

theorem pathInit_blankPath : PathInit blankPath := ⟨fsInit_blankSys, fun _ => rfl⟩

/-- A process makes a directory and enters it. -/
def enterRun (name : List UInt8) : List PathAct :=
  [.fs (.mkdir [] (pfsPath name) fun _ => 0), .chdir 0 (pfsPath name)]

/-- It enters `a` and then goes to `../a`. -/
theorem chdirSafe_iff_short : ∃ s, exec pathStep blankPath (enterRun (ascii "a")) = some s ∧
    ChdirSafe s 0 (ascii "../a") := by
  have hrun : (exec pathStep blankPath (enterRun (ascii "a"))).map (fun s => (s.cwds 0).read) =
      some (ascii "pfs:a") := by decide +kernel
  obtain ⟨s, hs, hcwd⟩ := Option.map_eq_some_iff.mp hrun
  have hr : PathReach s := reach_of_exec (.start pathInit_blankPath) (allGood_true _ _) hs
  refine ⟨s, hs, (chdirSafe_iff hr 0 _).mpr ?_⟩
  rw [hcwd]
  rintro ⟨-, name, header, index, hname, -, -, -, hlong⟩
  have ha : pfsResolvePath (ascii "pfs:a") (ascii "../a") = some (ascii "a") := by decide
  obtain rfl := Option.some.inj (ha.symm.trans hname)
  revert hlong
  decide

/-- **A directory with a name of 61 bytes panics the kernel.** -/
theorem not_chdirSafe_long : ¬ ∀ s process path, PathReach s → ChdirSafe s process path := by
  intro hall
  have hrun : (exec pathStep blankPath [.fs (.mkdir [] (pfsPath (List.replicate 61 97)) fun _ => 0)]).map
      (fun s => (abiChdirIn s.sys.disk (s.cwds 0) (pfsPath (List.replicate 61 97))).isSome) =
        some false := by decide +kernel
  obtain ⟨s, hs, hno⟩ := Option.map_eq_some_iff.mp hrun
  have hr : PathReach s := reach_of_exec (.start pathInit_blankPath) (allGood_true _ _) hs
  obtain ⟨cwd', reply, hc, -⟩ := hall s 0 (pfsPath (List.replicate 61 97)) hr
  rw [hc] at hno
  cases hno

end Rymos
