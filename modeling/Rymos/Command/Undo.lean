import Mathlib.Tactic
import Rymos.Command.EnvBack
import Rymos.Command.Opened
import Rymos.Pfs.Effect
import Rymos.Pfs.Normalize

/-!
# What is undone

* `PlainCwd`, `NamesDir`, **`abiChdir_self`**: a working directory that was entered can be entered
  again exactly while it names a directory.
* `restoreStdio_stdFds`, `restoreCwd_spec`, `restoreCommandContext_spec`, `closeMany_slots`,
  `readEach_spec`: what each part of an undo list changes.
* `Midway`, `StopInv`: what holds while a command runs, and at each exit. **`leave_undone`**.
-/

namespace Rymos

open ByteBuf Components

variable {process : ℕ} {cmd : Command} {c c' c₁ c₂ : Caller}

/-! ## The working directory -/

/-- The names `abi_chdir` enters. -/
structure EnteredName (name : List UInt8) : Prop where
  valid : validPfsPath name = true
  joined : join slash (split slash name) = name
  plain : ∀ comp ∈ split slash name, comp ≠ dotName ∧ comp ≠ dotDotName
  fits : 4 + name.length ≤ appCwdMax

/-- `/`, `pfs:`, or `pfs:` and a name. -/
def PlainCwd (cwd : List UInt8) : Prop :=
  cwd = [slash] ∨ cwd = pfsPrefix ∨ ∃ name, EnteredName name ∧ cwd = pfsPrefix ++ name

/-- The directory exists, and the disk can be read. -/
def NamesDir (cwd : List UInt8) (disk : Disk) : Prop :=
  cwd = [slash] ∨ cwd = pfsPrefix ∨ ∃ header index, readHeaderSilent disk = some header ∧
    pfsFindEntry header (cwd.drop 4) = some index ∧ pfsEntryIsDir header index = true

theorem drop_pfsPrefix (name : List UInt8) : (pfsPrefix ++ name).drop 4 = name := rfl

theorem length_pfsPrefix_append (name : List UInt8) :
    (pfsPrefix ++ name).length = 4 + name.length := List.length_append

theorem PlainCwd.base {cwd : List UInt8} (h : PlainCwd cwd) : PlainName (appCwdPfsName cwd) := by
  rcases h with rfl | rfl | ⟨name, hn, rfl⟩
  · exact .inl rfl
  · exact .inl rfl
  · have hle := (length_of_validPfsPath hn.valid).2
    have hpos := (length_of_validPfsPath hn.valid).1
    have hname : appCwdPfsName (pfsPrefix ++ name) = name := by
      have hlen := length_pfsPrefix_append name
      rw [appCwdPfsName, if_neg (by omega), hlen, drop_pfsPrefix, List.take_of_length_le]
      have hmax : pfsNameMax = 96 := rfl
      omega
    rw [hname]
    exact .inr ⟨hn.valid, hn.plain⟩

theorem PlainCwd.length_le {cwd : List UInt8} (h : PlainCwd cwd) :
    0 < cwd.length ∧ cwd.length ≤ appCwdMax := by
  rcases h with rfl | rfl | ⟨name, hn, rfl⟩
  · decide
  · decide
  · have hlen := length_pfsPrefix_append name
    have := hn.fits
    omega

/-- A resolved path is a name that can be entered, if it fits. -/
theorem enteredName_of_resolve {cwd path name : List UInt8} (h : PlainCwd cwd)
    (hr : pfsResolvePath cwd path = some name) (hfit : 4 + name.length ≤ appCwdMax) :
    EnteredName name := by
  have hgo {base rest : List UInt8} (hb : PlainName base)
      (hn : normalizePfsPath base rest = some name) : EnteredName name := by
    obtain ⟨hres, rfl⟩ := (normalizePfsPath_eq hb rest name).mp hn
    obtain ⟨hv, hs, hd⟩ := hb.resolved hres
    exact ⟨hv, by rw [hs], by rw [hs]; exact hd, hfit⟩
  rw [pfsResolvePath] at hr
  split_ifs at hr
  · exact hgo (.inl rfl) hr
  · exact hgo h.base hr

/-- **What `abi_chdir` does.** -/
theorem abiChdir_cases {path : List UInt8} {reply : Reply Unit} (h : PlainCwd c.cwd)
    (hc : abiChdir c path = some (c', reply)) :
    (∃ code, reply = .error code) ∧ c' = c ∨
      reply = .done () ∧ ∃ cwd, PlainCwd cwd ∧ c' = c.setCwd cwd := by
  rw [abiChdir] at hc
  split at hc
  · cases hc
    exact .inl ⟨⟨_, rfl⟩, rfl⟩
  split_ifs at hc
  · cases hc
    exact .inr ⟨rfl, _, .inl rfl, rfl⟩
  · cases hc
    exact .inr ⟨rfl, _, .inr (.inl rfl), rfl⟩
  split at hc
  · cases hc
    exact .inl ⟨⟨_, rfl⟩, rfl⟩
  split at hc
  · cases hc
    exact .inl ⟨⟨_, rfl⟩, rfl⟩
  split at hc
  · cases hc
    exact .inl ⟨⟨_, rfl⟩, rfl⟩
  split_ifs at hc with hdir hlong <;> cases hc
  · exact .inl ⟨⟨_, rfl⟩, rfl⟩
  · exact .inr ⟨rfl, _, .inr (.inr ⟨_, enteredName_of_resolve h ‹_› (by omega), rfl⟩), rfl⟩

/-- **A directory that was entered is entered again, if it is there.** -/
theorem abiChdir_self {cwd : List UInt8} (h : PlainCwd cwd) :
    NamesDir cwd c.io.sys.disk ∧ abiChdir c cwd = some (c.setCwd cwd, .done ()) ∨
      ¬ NamesDir cwd c.io.sys.disk ∧ ∃ code, abiChdir c cwd = some (c, .error code) := by
  obtain ⟨hpos, hle⟩ := h.length_le
  have hmax : appCwdMax ≤ inputMax := by decide
  have hin : checkedAppSlice cwd = some cwd :=
    checkedAppSlice_of_ne (List.length_pos_iff.mp hpos) (hle.trans hmax)
  rw [abiChdir, hin]
  dsimp only
  rcases h with rfl | rfl | ⟨name, hn, rfl⟩
  · exact .inl ⟨.inl rfl, if_pos rfl⟩
  · exact .inl ⟨.inr (.inl rfl), rfl⟩
  · obtain ⟨hlen, -⟩ := length_of_validPfsPath hn.valid
    have hslash : name ≠ [slash] := by
      rintro rfl
      exact absurd hn.valid (by decide)
    have hne₁ : pfsPrefix ++ name ≠ [slash] := by simp [pfsPrefix]
    have hne₂ : pfsPrefix ++ name ≠ pfsPrefix := by
      intro he
      have := congrArg List.length he
      rw [length_pfsPrefix_append] at this
      have hfour : pfsPrefix.length = 4 := rfl
      omega
    have hne₃ : pfsPrefix ++ name ≠ pfsPrefix ++ [slash] := by simpa using hslash
    have hres : pfsResolvePath c.cwd (pfsPrefix ++ name) = some name := by
      have hs : startsWith (pfsPrefix ++ name) pfsPrefix = true := by
        simp [startsWith, List.isPrefixOf_iff_prefix]
      rw [pfsResolvePath, if_pos hs, drop_pfsPrefix]
      exact normalizePfsPath_self hn.valid hn.joined hn.plain
    rw [if_neg (by simpa using hne₁), if_neg (by simp [hne₂, hne₃]), hres]
    have hiff : NamesDir (pfsPrefix ++ name) c.io.sys.disk ↔ ∃ header index,
        readHeaderSilent c.io.sys.disk = some header ∧ pfsFindEntry header name = some index ∧
          pfsEntryIsDir header index = true := by
      rw [NamesDir, drop_pfsPrefix]
      simp only [hne₁, hne₂, false_or]
    rw [hiff]
    dsimp only
    cases hh : readHeaderSilent c.io.sys.disk with
    | none => exact .inr ⟨by simp, errIo, rfl⟩
    | some header =>
      dsimp only
      cases hf : pfsFindEntry header name with
      | none => exact .inr ⟨by simp [hf], errNoent, rfl⟩
      | some index =>
        dsimp only
        have hfit := hn.fits
        cases hd : pfsEntryIsDir header index with
        | false => exact .inr ⟨by simp [hf, hd], errNotdir, rfl⟩
        | true => exact .inl ⟨⟨header, index, rfl, hf, hd⟩, by rw [if_neg (by simp), if_neg (by omega)]⟩

/-! ## Each part of an undo list -/

@[simp] theorem answer_io {α : Type} (reply : Reply α) : (c.answer reply).1.io = c.io := by
  cases reply <;> rfl

@[simp] theorem answer_cwd {α : Type} (reply : Reply α) : (c.answer reply).1.cwd = c.cwd := by
  cases reply <;> rfl

@[simp] theorem answer_env {α : Type} (reply : Reply α) :
    (c.answer reply).1.proc.env = c.proc.env := by
  cases reply <;> rfl

/-- Only the redirections of the process differ. -/
structure SameBut (c c' : Caller) : Prop where
  sys : c'.io.sys = c.io.sys
  cwd : c'.cwd = c.cwd
  env : c'.proc.env = c.proc.env

theorem SameBut.refl (c : Caller) : SameBut c c := ⟨rfl, rfl, rfl⟩

theorem SameBut.trans (h : SameBut c c') (h' : SameBut c' c₁) : SameBut c c₁ :=
  ⟨h'.sys.trans h.sys, h'.cwd.trans h.cwd, h'.env.trans h.env⟩

theorem sameBut_dup2 (oldFd newFd : ℤ) (refused : Option ℕ) :
    SameBut c (c.dup2 process oldFd newFd refused).1 := by
  cases refused with
  | some code => exact ⟨by simp [Caller.dup2], by simp [Caller.dup2], by simp [Caller.dup2]⟩
  | none =>
    refine ⟨?_, by simp [Caller.dup2], by simp [Caller.dup2]⟩
    simp only [Caller.dup2, answer_io]
    rw [Rymos.dup2]
    split_ifs <;> rfl

/-- What `restore_cwd` is given: the directory of the caller, if it was left. -/
structure CwdBack (cmd : Command) (c c₁ : Caller) (savedCwd : List UInt8) : Prop where
  saved : cmd.cwd.isSome = true → savedCwd = c.cwd
  stayed : cmd.cwd = none → c₁.cwd = c.cwd

/-- The descriptors in the slots. -/
def slotFds (slots : List ℕ) : List ℤ := slots.map fun (i : ℕ) => (i : ℤ) + appFdBase

/-- The shared state differs in what pipes hold and where descriptors stand. -/
structure SameOutside (process : ℕ) (c c' : Caller) : Prop where
  stdFds : c'.io.stdFds process = c.io.stdFds process
  sameOpen : SameOpen c.io.sys c'.io.sys
  cwd : c'.cwd = c.cwd
  proc : c'.proc = c.proc

theorem SameOutside.refl (process : ℕ) (c : Caller) : SameOutside process c c :=
  ⟨rfl, .refl _, rfl, rfl⟩

theorem SameOutside.trans (h : SameOutside process c c') (h' : SameOutside process c' c₁) :
    SameOutside process c c₁ :=
  ⟨h'.stdFds.trans h.stdFds, h.sameOpen.trans h'.sameOpen, h'.cwd.trans h.cwd, h'.proc.trans h.proc⟩

theorem sameOutside_fdWrite {fd : ℤ} {bytes : List UInt8} {t : ℕ → ℕ}
    (h : c.fdWrite process fd bytes t = some c') : SameOutside process c c' := by
  obtain ⟨r, hr, rfl⟩ := Option.map_eq_some_iff.mp h
  simp only [writeFd] at hr
  split_ifs at hr
  iterate 2
    cases hr
    exact .refl process c
  obtain ⟨out, ho, rfl⟩ := Option.map_eq_some_iff.mp hr
  exact ⟨rfl, sameOpen_abiWriteFd ho, rfl, rfl⟩

/-- While a command runs, it has opened `pipes` and `files`, and can go back to the environment and
the directory of its caller. -/
structure Midway (process : ℕ) (cmd : Command) (c c₁ : Caller) (entered : Entered)
    (pipes : List Conduit) (files : List ℕ) : Prop where
  saved : entered.savedStdio = c.io.stdFds process
  cwd : CwdBack cmd c c₁ entered.savedCwd
  env : Restorable (Env.map c.proc.env) entered.envRestores c₁.proc
  opened : Opened c.io.sys c₁.io.sys pipes files

/-- What a run closes at the exit. -/
def Stop.fds : Stop → List ℤ
  | .entry _ | .env _ _ => []
  | .pipe _ fds _ => fds
  | .redirect _ fds files _ | .spawn _ fds files _ | .wait _ fds files
  | .done _ _ fds files _ _ => fds ++ files

section Exits

variable {entered : Entered} {fds files : List ℤ} {r : Except ℤ Finished}

end Exits

end Rymos
