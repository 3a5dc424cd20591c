import Mathlib.Tactic
import Rymos.Io.Inherit

/-!
# What `dup2` makes equal

* `readTarget`, `writeTarget`: what a read or a write on a descriptor acts on.
* `Disturbs`: a call redirects or closes a descriptor. `ActsAs`: until then a descriptor acts on what
  the one it was made from acted on.
* `OnOwnSide`: a standard descriptor means the console as its number does.
* **`actsAs_iff`**: exactly then, or for an ordinary descriptor. `not_actsAs_chainRun`.
-/

namespace Rymos

open ByteBuf Transition

variable {io io' : Io} {sys sys' : Sys} {g g' : PipeLedger}

inductive Target where
  | console
  | object (object : Object)
deriving DecidableEq

/-- What descriptor number `fd` refers to in the table. -/
def tableTarget (x : Io × PipeLedger) (fd : ℤ) : Option Target :=
  ((appFdIndex fd).bind (objectAt x.1.sys x.2)).map .object

def readTarget (x : Io × PipeLedger) (process : ℕ) (fd : ℤ) : Option Target :=
  let fd := appResolveFd (x.1.stdFds process) fd
  if fd = stdinFd then some .console else tableTarget x fd

def writeTarget (x : Io × PipeLedger) (process : ℕ) (fd : ℤ) : Option Target :=
  let fd := appResolveFd (x.1.stdFds process) fd
  if fd = stdoutFd ∨ fd = stderrFd then some .console else tableTarget x fd

/-- The call redirects or closes descriptor `fd` of the process, or starts another one in its place. The
table of ordinary descriptors is shared by all processes. -/
def Disturbs (process : ℕ) (fd : ℤ) : IoAct → Prop
  | .dup2 p _ newFd => p = process ∧ newFd = fd
  | .close p fd' => fd' = fd ∧ (isStdFd fd = true → p = process)
  | .spawn _ child => child = process
  | _ => False

/-- In `y` the new descriptor acts on what the old one acted on in `x`, and as the old one does. -/
structure ActsAs (x y : Io × PipeLedger) (process : ℕ) (oldFd newFd : ℤ) : Prop where
  readTarget_eq : readTarget y process newFd = readTarget x process oldFd
  writeTarget_eq : writeTarget y process newFd = writeTarget x process oldFd
  read : ∀ n line, readFd y.1 process newFd n line = readFd y.1 process oldFd n line
  write : ∀ data t, writeFd y.1 process newFd data t = writeFd y.1 process oldFd data t

/-- The descriptor is ordinary, or it is redirected to no more than the console, and to the side of it
that its own number means. -/
def OnOwnSide (io : Io) (process : ℕ) (fd : ℤ) : Prop :=
  isStdFd fd = true → isStdFd (io.stdFds process fd.toNat) = true ∧
    (io.stdFds process fd.toNat = stdinFd ↔ fd = stdinFd)

/-! ## One call -/

theorem isStdFd_iff {fd : ℤ} : isStdFd fd = true ↔ 0 ≤ fd ∧ fd ≤ 2 := by
  simp [isStdFd, stdinFd, stderrFd]

theorem toNat_ne_of_std {fd fd' : ℤ} (h : isStdFd fd = true) (h' : isStdFd fd' = true)
    (hne : fd ≠ fd') : fd.toNat ≠ fd'.toNat := by
  rw [isStdFd_iff] at h h'
  omega

theorem appResolveFd_std {stdFds : ℕ → ℤ} {fd : ℤ} (h : isStdFd fd = true) :
    appResolveFd stdFds fd = stdFds fd.toNat := if_pos h

theorem appResolveFd_ordinary {stdFds : ℕ → ℤ} {fd : ℤ} (h : isStdFd fd = false) :
    appResolveFd stdFds fd = fd := if_neg (by simp [h])

/-- One redirection changed. -/
theorem redirect_stdFds {process p : ℕ} {fd fd' v : ℤ} (hs : isStdFd fd = true)
    (hs' : isStdFd fd' = true) (hn : ¬ (p = process ∧ fd' = fd)) :
    (io.redirect p (Function.update (io.stdFds p) fd'.toNat v)).stdFds process fd.toNat =
      io.stdFds process fd.toNat := by
  rw [Io.redirect]
  dsimp only
  by_cases hp : process = p
  · subst hp
    have hne : fd ≠ fd' := fun h => hn ⟨rfl, h.symm⟩
    rw [Function.update_self, Function.update_of_ne (toNat_ne_of_std hs hs' hne)]
  · rw [Function.update_of_ne hp]

/-- A standard descriptor that a call does not disturb stays where it is. -/
theorem ioStep_stdFds {a : IoAct} (h : ioStep io a = some io') {process : ℕ} {fd : ℤ}
    (hs : isStdFd fd = true) (hn : ¬ Disturbs process fd a) :
    io'.stdFds process fd.toNat = io.stdFds process fd.toNat := by
  cases a with
  | dup2 p oldFd newFd =>
    cases h
    rw [dup2]
    split_ifs with h₁
    · rfl
    · exact redirect_stdFds hs (by simpa using h₁) hn
    · rfl
    · exact redirect_stdFds hs (by simpa using h₁) hn
  | close p fd' =>
    cases h
    rw [closeFd]
    split_ifs with h₁
    · exact redirect_stdFds hs h₁ fun hc => hn ⟨hc.2, fun _ => hc.1⟩
    · rfl
  | spawn p child =>
    cases h
    rw [spawn, Io.redirect]
    exact congrFun (Function.update_of_ne (fun hc => hn hc.symm) _ _) fd.toNat
  | write p fd' data t =>
    obtain ⟨r, hr, rfl⟩ := Option.map_eq_some_iff.mp h
    rw [writeFd] at hr
    split_ifs at hr
    iterate 2
      cases hr
      rfl
    obtain ⟨q, -, rfl⟩ := Option.map_eq_some_iff.mp hr
    rfl
  | read p fd' n line =>
    cases h
    rw [readFd]
    split_ifs <;> rfl
  | _ =>
    cases h
    rfl

/-- A slot that is open stays open. -/
def StaysOpen (sys sys' : Sys) (d : ℕ) : Prop :=
  (sys.fds d).isOpen = true → (sys'.fds d).isOpen = true

theorem staysOpen_of_eq {d : ℕ} (h : sys'.fds = sys.fds) : StaysOpen sys sys' d := by
  intro ho
  rwa [h]

theorem SameRefs.staysOpen (h : SameRefs sys sys') (d : ℕ) : StaysOpen sys sys' d := by
  intro ho
  rwa [(h.fds d).1]

theorem staysOpen_fresh {d e : ℕ} {fd : AppFd} (he : (sys.fds e).isOpen = false)
    (hf : sys'.fds = Function.update sys.fds e fd) : StaysOpen sys sys' d := by
  intro ho
  have hne : d ≠ e := by
    rintro rfl
    rw [he] at ho
    cases ho
  rwa [hf, Function.update_of_ne hne]

theorem appFdIndex_inj {fd fd' : ℤ} {d : ℕ} (h : appFdIndex fd = some d)
    (h' : appFdIndex fd' = some d) : fd = fd' := by
  rw [appFdIndex] at h h'
  dsimp only at h h'
  split_ifs at h h'
  cases h
  have := Option.some.inj h'
  simp only [appFdBase] at *
  omega

theorem isStdFd_of_index {fd : ℤ} {d : ℕ} (h : appFdIndex fd = some d) : isStdFd fd = false := by
  have hge : 3 ≤ fd := by
    by_contra hc
    rw [appFdIndex, if_pos (not_le.mp hc)] at h
    cases h
  rw [Bool.eq_false_iff, Ne, isStdFd_iff]
  omega

/-- **The slot of a descriptor that a call does not disturb stays open.** -/
theorem ioStep_staysOpen {a : IoAct} (h : ioStep io a = some io') {process d : ℕ} {fd : ℤ}
    (hd : appFdIndex fd = some d) (hn : ¬ Disturbs process fd a) : StaysOpen io.sys io'.sys d := by
  cases a with
  | «open» p cwd path flags t =>
    cases h
    rcases @opens_abiOpen io.sys cwd path flags t with hs | ⟨e, fd', he, -, hf, -⟩
    · exact hs.staysOpen d
    · exact staysOpen_fresh (freeFd_eq_some he).2 hf
  | pipe p =>
    cases h
    rcases @abiPipe_tables io.sys with ⟨code, he⟩ | ⟨i, r, w, -, hr, hw, he⟩
    · rw [he]
      exact staysOpen_of_eq rfl
    · rw [he]
      intro ho
      have hr' : (((io.sys.setPipe i newPipe).setFd r (pipeFd .pipeRead fdRead i)).fds d).isOpen =
          true := staysOpen_fresh (freeFd_eq_some hr).2 rfl ho
      simp only [Io.setSys, Sys.setFd] at hr' ⊢
      by_cases hdw : d = w
      · rw [hdw, Function.update_self]
        rfl
      · rwa [Function.update_of_ne hdw]
  | read p fd' n line =>
    cases h
    rw [readFd]
    split_ifs
    iterate 2 exact staysOpen_of_eq rfl
    rcases @abiRead_tables io.sys (appResolveFd (io.stdFds p) fd') n with
      ⟨e, -, -, -, he | he⟩ | ⟨-, hs⟩
    · rw [he]
      refine staysOpen_of_eq ?_
      rw [readPipe]
      dsimp only
      split_ifs <;> rfl
    · rw [he]
      exact staysOpen_of_eq rfl
    · exact hs.staysOpen d
  | write p fd' data t =>
    obtain ⟨r, hr, rfl⟩ := Option.map_eq_some_iff.mp h
    rw [writeFd] at hr
    split_ifs at hr
    iterate 2
      cases hr
      exact staysOpen_of_eq rfl
    obtain ⟨q, hq, rfl⟩ := Option.map_eq_some_iff.mp hr
    rcases abiWriteFd_tables hq with ⟨e, -, -, -, he | he⟩ | ⟨-, hs⟩
    · rw [he]
      refine staysOpen_of_eq ?_
      rw [writePipe]
      dsimp only
      split_ifs <;> rfl
    · rw [he]
      exact staysOpen_of_eq rfl
    · exact hs.staysOpen d
  | seek p fd' offset =>
    cases h
    exact (sameRefs_abiSeek fd' offset).staysOpen d
  | dup2 p oldFd newFd =>
    cases h
    rw [dup2]
    split_ifs <;> exact staysOpen_of_eq rfl
  | close p fd' =>
    cases h
    rw [closeFd]
    split_ifs with h₁
    · exact staysOpen_of_eq rfl
    have hne : fd' ≠ fd := by
      intro hc
      refine hn ⟨hc, fun hs => ?_⟩
      rw [isStdFd_of_index hd] at hs
      cases hs
    rw [abiClose]
    split_ifs
    iterate 2 exact staysOpen_of_eq rfl
    split
    · exact staysOpen_of_eq rfl
    dsimp only
    split_ifs
    · exact staysOpen_of_eq rfl
    · next e he _ =>
      intro ho
      have hde : d ≠ e := by
        rintro rfl
        exact hne (appFdIndex_inj he hd)
      simp only [Io.setSys, Sys.setFd, closePipe_fds]
      rwa [Function.update_of_ne hde]
  | spawn p child =>
    cases h
    exact staysOpen_of_eq rfl
  | exit p =>
    cases h
    exact staysOpen_of_eq rfl
  | fault readOk writeOk =>
    cases h
    exact staysOpen_of_eq rfl

/-! ## After a `dup2` -/

section Twinned

variable {x y z : Io × PipeLedger} {process : ℕ} {oldFd newFd : ℤ}

/-- What a successful call does. -/
theorem dup2_done {value : ℤ} (h : (dup2 io process oldFd newFd).2 = .done value)
    (hne : oldFd ≠ newFd) : isStdFd newFd = true ∧ appFdOpen io.sys oldFd = true ∧
      (dup2 io process oldFd newFd).1 =
        io.redirect process (Function.update (io.stdFds process) newFd.toNat oldFd) := by
  rw [dup2] at h ⊢
  split_ifs at h ⊢ with h₁ h₂
  · simp only [Bool.not_eq_true', Bool.not_eq_false] at h₁ h₂
    exact ⟨h₁, h₂, rfl⟩

/-- `y` comes after a `dup2` in `x`, with neither descriptor disturbed since. -/
structure Twinned (x y : Io × PipeLedger) (process : ℕ) (oldFd newFd : ℤ) : Prop where
  ends : EndsOk y.1.sys
  std : isStdFd newFd = true
  new : y.1.stdFds process newFd.toNat = oldFd
  old : isStdFd oldFd = true →
    y.1.stdFds process oldFd.toNat = x.1.stdFds process oldFd.toNat
  slot : ∀ d, appFdIndex oldFd = some d → (y.1.sys.fds d).isOpen = true ∧
    objectAt y.1.sys y.2 d = objectAt x.1.sys x.2 d

theorem twinned_dup2 (hx : EndsOk x.1.sys) (hs : pipeStep x (.dup2 process oldFd newFd) = some y)
    (hdone : (dup2 x.1 process oldFd newFd).2 = .done newFd) (hne : oldFd ≠ newFd) :
    Twinned x y process oldFd newFd := by
  obtain ⟨hstep, hnote⟩ := record_eq_some.mp hs
  obtain ⟨hstd, hopen, hio⟩ := dup2_done hdone hne
  obtain rfl : y = (x.1.redirect process
      (Function.update (x.1.stdFds process) newFd.toNat oldFd), x.2) := by
    refine Prod.ext ?_ hnote
    rw [← hio]
    exact (Option.some.inj hstep).symm
  refine ⟨hx, hstd, ?_, fun hold => ?_, fun d hd => ⟨?_, rfl⟩⟩
  · simp only [Io.redirect, Function.update_self]
  · exact redirect_stdFds hold hstd fun hc => hne hc.2.symm
  · rw [appFdOpen, hd, isStdFd_of_index hd, Bool.false_or] at hopen
    exact hopen

/-- **Both descriptors stay what they are.** -/
theorem Twinned.step (h : Twinned x y process oldFd newFd) {a : IoAct}
    (hold : ¬ Disturbs process oldFd a) (hnew : ¬ Disturbs process newFd a)
    (hs : pipeStep y a = some z) : Twinned x z process oldFd newFd := by
  obtain ⟨hstep, hnote⟩ := record_eq_some.mp hs
  have he := ioStep_effect (g := y.2) hstep
  rw [← hnote] at he
  refine ⟨h.ends.step he, h.std, (ioStep_stdFds hstep h.std hnew).trans h.new, fun hstd => ?_,
    fun d hd => ?_⟩
  · exact (ioStep_stdFds hstep hstd hold).trans (h.old hstd)
  · obtain ⟨ho, hobj⟩ := h.slot d hd
    have ho' := ioStep_staysOpen hstep hd hold ho
    exact ⟨ho', (he.objectAt_eq h.ends (appFdIndex_lt hd) ho ho').trans hobj⟩

theorem Twinned.run (h : Twinned x y process oldFd newFd) {as : List IoAct}
    (hg : AllGood (fun _ a => ¬ Disturbs process oldFd a ∧ ¬ Disturbs process newFd a) pipeStep y as)
    (he : exec pipeStep y as = some z) : Twinned x z process oldFd newFd := by
  induction as generalizing y with
  | nil =>
    cases he
    exact h
  | cons a as ih =>
    simp only [exec] at he
    obtain ⟨t, ht, he⟩ := Option.bind_eq_some_iff.mp he
    exact ih (h.step hg.1.1 hg.1.2 ht) (hg.2 t ht) he

theorem appFdIndex_std {fd : ℤ} (h : isStdFd fd = true) : appFdIndex fd = none := by
  rw [isStdFd_iff] at h
  rw [appFdIndex, if_pos (by simp only [appFdBase]; omega)]

theorem tableTarget_std {fd : ℤ} (h : isStdFd fd = true) : tableTarget x fd = none := by
  rw [tableTarget, appFdIndex_std h]
  rfl

/-- Two descriptors of the same side of the console are read alike. -/
theorem readFd_side {p : ℕ} {fd fd' v w : ℤ} (hv : appResolveFd (io.stdFds p) fd = v)
    (hw : appResolveFd (io.stdFds p) fd' = w) (hsv : isStdFd v = true) (hsw : isStdFd w = true)
    (hvw : w = stdinFd ↔ v = stdinFd) (n : ℕ) (line : List UInt8) :
    readFd io p fd n line = readFd io p fd' n line := by
  have hv₀ := isStdFd_iff.mp hsv
  have hw₀ := isStdFd_iff.mp hsw
  have hneg : ¬ v < 0 ∧ ¬ w < 0 := by omega
  rw [readFd, readFd, hv, hw, if_neg hneg.1, if_neg hneg.2]
  by_cases h : v = stdinFd
  · rw [if_pos h, if_pos (hvw.mpr h)]
  · rw [if_neg h, if_neg (mt hvw.mp h), abiRead, abiRead, appFdIndex_std hsv, appFdIndex_std hsw]

theorem writeFd_side {p : ℕ} {fd fd' v w : ℤ} (hv : appResolveFd (io.stdFds p) fd = v)
    (hw : appResolveFd (io.stdFds p) fd' = w) (hsv : isStdFd v = true) (hsw : isStdFd w = true)
    (hvw : w = stdinFd ↔ v = stdinFd) (data : List UInt8) (t : ℕ → ℕ) :
    writeFd io p fd data t = writeFd io p fd' data t := by
  have hv₀ := isStdFd_iff.mp hsv
  have hw₀ := isStdFd_iff.mp hsw
  have hneg : ¬ v < 0 ∧ ¬ w < 0 := by omega
  have hout : (v = stdoutFd ∨ v = stderrFd ↔ v ≠ stdinFd) ∧
      (w = stdoutFd ∨ w = stderrFd ↔ v ≠ stdinFd) := by
    simp only [stdinFd, stdoutFd, stderrFd] at hvw ⊢
    omega
  rw [writeFd, writeFd, hv, hw, if_neg hneg.1, if_neg hneg.2]
  by_cases h : v = stdinFd
  · rw [if_neg (mt hout.1.mp (not_not.mpr h)), if_neg (mt hout.2.mp (not_not.mpr h)), abiWriteFd,
      abiWriteFd, appFdIndex_std hsv, appFdIndex_std hsw]
  · rw [if_pos (hout.1.mpr h), if_pos (hout.2.mpr h)]

/-- **A standard descriptor that is on its own side.** -/
theorem Twinned.actsAs_std (h : Twinned x y process oldFd newFd) (hstd : isStdFd oldFd = true)
    (hc : OnOwnSide x.1 process oldFd) : ActsAs x y process oldFd newFd := by
  obtain ⟨hr, hside⟩ := hc hstd
  have hnew : appResolveFd (y.1.stdFds process) newFd = oldFd :=
    (appResolveFd_std h.std).trans h.new
  have hold : appResolveFd (y.1.stdFds process) oldFd = x.1.stdFds process oldFd.toNat :=
    (appResolveFd_std hstd).trans (h.old hstd)
  have hold₀ := isStdFd_iff.mp hstd
  have hr₀ := isStdFd_iff.mp hr
  refine ⟨?_, ?_, readFd_side hnew hold hstd hr hside, writeFd_side hnew hold hstd hr hside⟩
  · rw [readTarget, readTarget, hnew, appResolveFd_std hstd, tableTarget_std hstd,
      tableTarget_std hr, if_congr hside rfl rfl]
  · rw [writeTarget, writeTarget, hnew, appResolveFd_std hstd, tableTarget_std hstd,
      tableTarget_std hr]
    simp only [stdinFd, stdoutFd, stderrFd] at hside ⊢
    exact if_congr (by omega) rfl rfl

/-- **An ordinary descriptor.** -/
theorem Twinned.actsAs_ordinary (h : Twinned x y process oldFd newFd) (hstd : isStdFd oldFd = false) :
    ActsAs x y process oldFd newFd := by
  have hnew : appResolveFd (y.1.stdFds process) newFd = oldFd :=
    (appResolveFd_std h.std).trans h.new
  have htable : tableTarget y oldFd = tableTarget x oldFd := by
    rw [tableTarget, tableTarget]
    cases hd : appFdIndex oldFd with
    | none => rfl
    | some d => exact congrArg (Option.map Target.object) (h.slot d hd).2
  refine ⟨?_, ?_, fun n line => ?_, fun data t => ?_⟩
  · rw [readTarget, readTarget, hnew, appResolveFd_ordinary hstd, htable]
  · rw [writeTarget, writeTarget, hnew, appResolveFd_ordinary hstd, htable]
  · rw [readFd, readFd, hnew, appResolveFd_ordinary hstd]
  · rw [writeFd, writeFd, hnew, appResolveFd_ordinary hstd]

/-- Right after the call, a standard descriptor that acts on the same thing is on its own side. -/
theorem Twinned.onOwnSide (h : Twinned x y process oldFd newFd)
    (ha : ActsAs x y process oldFd newFd) : OnOwnSide x.1 process oldFd := by
  intro hstd
  have hnew : appResolveFd (y.1.stdFds process) newFd = oldFd :=
    (appResolveFd_std h.std).trans h.new
  have hread := ha.readTarget_eq
  have hwrite := ha.writeTarget_eq
  rw [readTarget, readTarget, hnew, appResolveFd_std hstd, tableTarget_std hstd] at hread
  rw [writeTarget, writeTarget, hnew, appResolveFd_std hstd, tableTarget_std hstd] at hwrite
  have htable : ∀ v, tableTarget x v ≠ some .console := by
    intro v hv
    obtain ⟨o, -, ho⟩ := Option.map_eq_some_iff.mp hv
    cases ho
  rw [isStdFd_iff] at hstd ⊢
  simp only [stdinFd, stdoutFd, stderrFd] at hread hwrite ⊢
  by_cases hz : oldFd = 0
  · rw [if_pos hz] at hread
    split_ifs at hread with hr
    · omega
    · exact absurd hread.symm (htable _)
  · rw [if_pos (by omega)] at hwrite
    split_ifs at hwrite with hr
    · omega
    · exact absurd hwrite.symm (htable _)

/-- **The new descriptor acts on what the old one acted on** just if the old one is ordinary or on its
own side. -/
theorem actsAs_iff (hx : Reach PipeBoot (fun _ _ => True) pipeStep x)
    (hs : pipeStep x (.dup2 process oldFd newFd) = some y)
    (hdone : (dup2 x.1 process oldFd newFd).2 = .done newFd) (hne : oldFd ≠ newFd) :
    (∀ as z, AllGood (fun _ a => ¬ Disturbs process oldFd a ∧ ¬ Disturbs process newFd a)
        pipeStep y as → exec pipeStep y as = some z → ActsAs x z process oldFd newFd) ↔
      OnOwnSide x.1 process oldFd := by
  have hlink := twinned_dup2 (endsQueueOk_of_reach hx).1 hs hdone hne
  constructor
  · intro h
    exact hlink.onOwnSide (h [] y trivial rfl)
  · intro hc as z hg he
    have hz := hlink.run hg he
    cases hstd : isStdFd oldFd with
    | true => exact hz.actsAs_std hstd hc
    | false => exact hz.actsAs_ordinary hstd

end Twinned

/-- A program that has made a pipe. -/
def pipeRun : List IoAct := [.pipe 0]

theorem actsAs_iff_pipeRun :
    ∃ x y, exec pipeStep (bootIo, .empty) pipeRun = some x ∧
      pipeStep x (.dup2 0 4 1) = some y ∧
      ∀ as z, AllGood (fun _ a => ¬ Disturbs 0 4 a ∧ ¬ Disturbs 0 1 a) pipeStep y as →
        exec pipeStep y as = some z → ActsAs x z 0 4 1 := by
  have hrun : (exec pipeStep (bootIo, .empty) pipeRun).map (fun x => (dup2 x.1 0 4 1).2) =
      some (.done 1) := by decide +kernel
  obtain ⟨x, hx, hdone⟩ := Option.map_eq_some_iff.mp hrun
  have hreach : Reach PipeBoot (fun _ _ => True) pipeStep x :=
    reach_of_exec (.start ⟨ioBoot_bootIo, rfl⟩) (allGood_true _ _) hx
  exact ⟨x, _, hx, rfl, (actsAs_iff hreach rfl hdone (by decide)).mpr nofun⟩

/-- The program points its standard output to the pipe. -/
def chainRun : List IoAct := [.pipe 0, .dup2 0 4 1]

/-- **Its standard error, made from that, is the console.** -/
theorem not_actsAs_chainRun :
    ¬ ∀ x, Reach PipeBoot (fun _ _ => True) pipeStep x → ∀ process oldFd newFd y,
      pipeStep x (.dup2 process oldFd newFd) = some y →
        (dup2 x.1 process oldFd newFd).2 = .done newFd → oldFd ≠ newFd →
          ∀ as z, AllGood (fun _ a => ¬ Disturbs process oldFd a ∧ ¬ Disturbs process newFd a)
            pipeStep y as → exec pipeStep y as = some z → ActsAs x z process oldFd newFd := by
  intro hall
  have hrun : (exec pipeStep (bootIo, .empty) chainRun).map (fun x =>
      ((dup2 x.1 0 1 2).2, writeTarget x 0 1, writeTarget ((dup2 x.1 0 1 2).1, x.2) 0 2)) =
      some (.done 2, some (.object (.pipe 1 .pipeWrite)), some .console) := by decide +kernel
  obtain ⟨x, hx, hv⟩ := Option.map_eq_some_iff.mp hrun
  simp only [Prod.mk.injEq] at hv
  obtain ⟨hdone, hold, hnew⟩ := hv
  have h := hall x (reach_of_exec (.start ⟨ioBoot_bootIo, rfl⟩) (allGood_true _ _) hx) 0 1 2 _ rfl
    hdone (by decide) [] _ trivial rfl
  have hw := h.writeTarget_eq
  rw [hold] at hw
  exact absurd (hnew.symm.trans hw) (by decide)

end Rymos
