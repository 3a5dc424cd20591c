import Mathlib.Tactic
import Rymos.Io.Pipes

/-!
# What a child inherits as standard descriptors

* `Object`, `objectAt`: the pipe end or the file a slot of the descriptor table refers to.
* `Heritage`: what the standard descriptors of each live child referred to when it was spawned.
* `KeepsStdio`: a read or write of the child acts on that, or fails.
* `Reopens`, **`keepsStdio_of_reach`**: as long as no slot of such a descriptor is opened again.
  `not_keepsStdio_reusedRun`.
-/

namespace Rymos

open ByteBuf Transition

variable {io io' : Io} {sys sys' : Sys} {g g' : PipeLedger}

/-- An end of the `life`-th pipe, an entry of RYMFS, or a file of the boot archive. -/
inductive Object where
  | pipe (life : ℕ) (kind : AppFdKind)
  | file (entry : ℕ)
  | boot (data : List UInt8)
deriving DecidableEq

def objectAt (sys : Sys) (g : PipeLedger) (d : ℕ) : Option Object :=
  if (sys.fds d).isOpen then
    match (sys.fds d).kind with
    | .empty => none
    | .bootFs => some (.boot (sys.fds d).data)
    | .pfs => some (.file (sys.fds d).pfsIndex)
    | kind => some (.pipe (g.life (sys.fds d).pfsIndex) kind)
  else none

/-- The slot a standard descriptor of a process names. -/
def stdSlot (io : Io) (process which : ℕ) : Option ℕ := appFdIndex (io.stdFds process which)

/-- `inherited c s` is what descriptor `s` of the child `c` referred to when `c` was spawned; nothing
when `c` has exited or has called `dup2` or `close` on `s` itself. -/
structure Heritage where
  pipes : PipeLedger
  inherited : ℕ → ℕ → Option Object

namespace Heritage

def empty : Heritage := { pipes := .empty, inherited := fun _ _ => none }

/-- The child has chosen its own descriptor. -/
def forget (h : ℕ → ℕ → Option Object) (process : ℕ) (fd : ℤ) : ℕ → ℕ → Option Object :=
  if isStdFd fd then Function.update h process (Function.update (h process) fd.toNat none) else h

def note (h : Heritage) (io : Io) (a : IoAct) : Heritage where
  pipes := h.pipes.note io a
  inherited :=
    match a with
    | .spawn process child => Function.update h.inherited child fun which =>
        (stdSlot io process which).bind (objectAt io.sys h.pipes)
    | .exit process => Function.update h.inherited process fun _ => none
    | .dup2 process _ fd | .close process fd => forget h.inherited process fd
    | _ => h.inherited

end Heritage

def heritageStep : Io × Heritage → IoAct → Option (Io × Heritage) :=
  Transition.record Heritage.note ioStep

def HeritageBoot (x : Io × Heritage) : Prop := IoBoot x.1 ∧ x.2 = .empty

/-- The descriptor of the child is open and refers to `object`. -/
def ActsOn (x : Io × Heritage) (child which : ℕ) (object : Object) : Prop :=
  (stdSlot x.1 child which).bind (objectAt x.1.sys x.2.pipes) = some object

structure KeepsStdio (x : Io × Heritage) : Prop where
  read : ∀ c, ∀ s < 3, ∀ object, x.2.inherited c s = some object → ∀ n line,
    ActsOn x c s object ∨ readFd x.1 c s n line = (x.1, .refused)
  write : ∀ c, ∀ s < 3, ∀ object, x.2.inherited c s = some object → ∀ data t,
    ActsOn x c s object ∨ writeFd x.1 c s data t = some (x.1, .refused)

/-- The call opens the closed slot `d`. -/
def Reopens (io : Io) (a : IoAct) (d : ℕ) : Prop :=
  (io.sys.fds d).isOpen = false ∧ ∃ io', ioStep io a = some io' ∧ (io'.sys.fds d).isOpen = true

/-- No call opens again a slot that a live child has inherited. -/
def NotReused (x : Io × Heritage) (a : IoAct) : Prop :=
  ∀ c s object d, x.2.inherited c s = some object → stdSlot x.1 c s = some d → ¬ Reopens x.1 a d

/-! ## What a slot refers to -/

theorem objectAt_of_alike {d : ℕ} (h : (sys.fds d).alike (sys'.fds d)) :
    objectAt sys' g d = objectAt sys g d := by
  obtain ⟨ho, hk, hi, hd⟩ := h
  rw [objectAt, objectAt, ho, hk, hi, hd]

theorem objectAt_of_life {d : ℕ} (hd : d < appFdCount)
    (h : ∀ k i, k.isEnd = true → EndAt sys k i d → g'.life i = g.life i) :
    objectAt sys g' d = objectAt sys g d := by
  rw [objectAt, objectAt]
  split_ifs with ho
  · have hlife := h (sys.fds d).kind (sys.fds d).pfsIndex
    cases hk : (sys.fds d).kind <;> try rfl
    all_goals
      dsimp only
      rw [hlife (by rw [hk]; rfl) ⟨hd, ho, rfl, rfl⟩]
  · rfl

/-- A slot that was open and is open refers to the same thing. -/
theorem TableEffect.objectAt_eq (he : TableEffect sys sys' g g') (hends : EndsOk sys) {d : ℕ}
    (hd : d < appFdCount) (ho : (sys.fds d).isOpen = true) (ho' : (sys'.fds d).isOpen = true) :
    objectAt sys' g' d = objectAt sys g d := by
  cases he with
  | same hs hg =>
    subst hg
    exact objectAt_of_alike (hs.fds d)
  | @opens e fd he hk hf hp hg =>
    subst hg
    have hne : d ≠ e := fun h => by rw [← h] at he; rw [(freeFd_eq_some he).2] at ho; cases ho
    exact objectAt_of_alike (by rw [hf, Function.update_of_ne hne]; exact AppFd.alike_refl _)
  | @pipe i r w hi hr hw hs hg =>
    subst hs hg
    have hdw : d ≠ w := fun h => by
      rw [← h] at hw
      rw [(freeFdAfter_eq_some hw).2.2] at ho
      cases ho
    have hdr : d ≠ r := fun h => by
      rw [← h] at hr
      rw [(freeFd_eq_some hr).2] at ho
      cases ho
    refine (objectAt_of_alike ?_).trans (objectAt_of_life hd fun k j hk hj => ?_)
    · simp only [Sys.setFd, Sys.setPipe, Function.update_of_ne hdw, Function.update_of_ne hdr]
      exact AppFd.alike_refl _
    · obtain ⟨hlt, hu⟩ := freePipe_eq_some hi
      refine Function.update_of_ne (fun hji => ?_) _ _
      exact hends.unused hlt hu hk (hji ▸ hj)
  | @closes e he hoe hs hg =>
    subst hs hg
    have hne : d ≠ e := by
      rintro rfl
      simp only [Sys.setFd, Function.update_self] at ho'
      cases ho'
    refine objectAt_of_alike ?_
    simp only [Sys.setFd, closePipe_fds, Function.update_of_ne hne]
    exact AppFd.alike_refl _
  | takes hend hr hg =>
    subst hg
    obtain ⟨hf, -⟩ := readPipe_done hr
    rw [objectAt, objectAt, hf]
    rfl
  | puts hend hw hg =>
    subst hg
    obtain ⟨hf, -⟩ := writePipe_done hw
    rw [objectAt, objectAt, hf]
    rfl

/-! ## Every run -/

/-- Where an inherited descriptor is open, it refers to what it was spawned with. -/
structure Inherits (x : Io × Heritage) : Prop where
  ends : EndsOk x.1.sys
  slot : ∀ c, ∀ s < 3, ∀ object, x.2.inherited c s = some object → ∃ d, stdSlot x.1 c s = some d ∧
    ((x.1.sys.fds d).isOpen = true → objectAt x.1.sys x.2.pipes d = some object)

/-- A descriptor that is inherited after a call was inherited before it and is named as before, or the
child was spawned by the call. -/
theorem inherited_cases {h : Heritage} {a : IoAct} (hs : ioStep io a = some io') {c s : ℕ}
    {object : Object} (hi : (h.note io a).inherited c s = some object) :
    (h.inherited c s = some object ∧ io'.stdFds c s = io.stdFds c s) ∨
      ∃ p, a = .spawn p c ∧ io' = spawn io p c ∧
        (stdSlot io p s).bind (objectAt io.sys h.pipes) = some object := by
  have hforget : ∀ {p : ℕ} {fd : ℤ}, Heritage.forget h.inherited p fd c s = some object →
      h.inherited c s = some object ∧ (c = p → isStdFd fd = true → s ≠ fd.toNat) := by
    intro p fd hi
    rw [Heritage.forget] at hi
    split_ifs at hi with hstd
    · by_cases hc : c = p
      · subst hc
        rw [Function.update_self] at hi
        by_cases hsf : s = fd.toNat
        · rw [hsf, Function.update_self] at hi
          cases hi
        · rw [Function.update_of_ne hsf] at hi
          exact ⟨hi, fun _ _ => hsf⟩
      · rw [Function.update_of_ne hc] at hi
        exact ⟨hi, fun h => absurd h hc⟩
    · exact ⟨hi, fun _ h => absurd h hstd⟩
  have hredirect : ∀ {p : ℕ} {fd : ℤ} {v : ℤ}, isStdFd fd = true →
      (c = p → isStdFd fd = true → s ≠ fd.toNat) →
      (io.redirect p (Function.update (io.stdFds p) fd.toNat v)).stdFds c s = io.stdFds c s := by
    intro p fd v hstd hne
    rw [Io.redirect]
    dsimp only
    by_cases hc : c = p
    · subst hc
      rw [Function.update_self, Function.update_of_ne (hne rfl hstd)]
    · rw [Function.update_of_ne hc]
  cases a with
  | spawn p q =>
    cases hs
    simp only [Heritage.note] at hi
    by_cases hc : c = q
    · subst hc
      rw [Function.update_self] at hi
      exact .inr ⟨p, rfl, rfl, hi⟩
    · rw [Function.update_of_ne hc] at hi
      refine .inl ⟨hi, ?_⟩
      rw [spawn, Io.redirect]
      exact congrFun (Function.update_of_ne hc _ _) s
  | exit p =>
    cases hs
    simp only [Heritage.note] at hi
    by_cases hc : c = p
    · subst hc
      rw [Function.update_self] at hi
      cases hi
    · rw [Function.update_of_ne hc] at hi
      exact .inl ⟨hi, rfl⟩
  | dup2 p oldFd fd =>
    cases hs
    obtain ⟨hi, hne⟩ := hforget hi
    refine .inl ⟨hi, ?_⟩
    rw [dup2]
    split_ifs with h₁
    · rfl
    · exact hredirect (by simpa using h₁) hne
    · rfl
    · exact hredirect (by simpa using h₁) hne
  | close p fd =>
    cases hs
    obtain ⟨hi, hne⟩ := hforget hi
    refine .inl ⟨hi, ?_⟩
    rw [closeFd]
    split_ifs with h₁
    · exact hredirect h₁ hne
    · rfl
  | write p fd data t =>
    obtain ⟨r, hr, rfl⟩ := Option.map_eq_some_iff.mp hs
    refine .inl ⟨hi, ?_⟩
    rw [writeFd] at hr
    split_ifs at hr
    iterate 2
      cases hr
      rfl
    obtain ⟨q, -, rfl⟩ := Option.map_eq_some_iff.mp hr
    rfl
  | read p fd n line =>
    cases hs
    refine .inl ⟨hi, ?_⟩
    rw [readFd]
    split_ifs <;> rfl
  | _ =>
    cases hs
    exact .inl ⟨hi, rfl⟩

theorem Inherits.step {x y : Io × Heritage} {a : IoAct} (h : Inherits x) (hg : NotReused x a)
    (hs : heritageStep x a = some y) : Inherits y := by
  obtain ⟨hstep, hnote⟩ := record_eq_some.mp hs
  have he := ioStep_effect (g := x.2.pipes) hstep
  refine ⟨h.ends.step he, fun c s h3 object hi => ?_⟩
  rw [hnote] at hi ⊢
  rcases inherited_cases hstep hi with ⟨hold, hfd⟩ | ⟨p, rfl, hio, hobj⟩
  · obtain ⟨d, hd, hob⟩ := h.slot c s h3 object hold
    refine ⟨d, by rw [stdSlot, hfd]; exact hd, fun ho => ?_⟩
    -- the slot was open before the call, or the call would have opened it again
    have hopen : (x.1.sys.fds d).isOpen = true := by
      by_contra hc
      exact hg c s object d hold hd ⟨by simpa using hc, y.1, hstep, ho⟩
    exact (he.objectAt_eq h.ends (appFdIndex_lt hd) hopen ho).trans (hob hopen)
  · obtain ⟨d, hd, hob⟩ := Option.bind_eq_some_iff.mp hobj
    refine ⟨d, ?_, fun _ => ?_⟩
    · rw [hio]
      simp only [stdSlot, spawn, Io.redirect, Function.update_self]
      exact hd
    · rw [hio]
      exact hob

/-- Calls on a slot that is closed fail. -/
theorem refused_of_closed {c s d : ℕ} (h3 : s < 3) (hd : stdSlot io c s = some d)
    (ho : (io.sys.fds d).isOpen = false) :
    (∀ n line, readFd io c s n line = (io, .refused)) ∧
      ∀ data t, writeFd io c s data t = some (io, .refused) := by
  have hres : appResolveFd (io.stdFds c) s = io.stdFds c s := by
    have hstd : isStdFd s = true := by
      simp only [isStdFd, stdinFd, stderrFd, Bool.and_eq_true, decide_eq_true_eq]
      omega
    rw [appResolveFd, if_pos hstd]
    rfl
  have hx : appFdIndex (io.stdFds c s) = some d := hd
  have hge : 3 ≤ io.stdFds c s := by
    by_contra hlt
    rw [appFdIndex, if_pos (not_le.mp hlt)] at hx
    cases hx
  constructor
  · intro n line
    have hin : io.stdFds c s ≠ stdinFd := ne_of_gt (lt_of_lt_of_le (by decide) hge)
    rw [readFd, hres, if_neg (by omega), if_neg hin, abiRead, hx]
    dsimp only
    rw [if_pos (by simp [ho])]
    rfl
  · intro data t
    have hout : ¬ (io.stdFds c s = stdoutFd ∨ io.stdFds c s = stderrFd) := by
      simp only [stdoutFd, stderrFd]
      omega
    rw [writeFd, hres, if_neg (by omega), if_neg hout, abiWriteFd, hx]
    dsimp only
    rw [if_pos (by simp [ho])]
    rfl

/-- **A child's descriptors stay what they were**, unless a slot is opened again. -/
theorem keepsStdio_of_reach {x : Io × Heritage} (h : Reach HeritageBoot NotReused heritageStep x) :
    KeepsStdio x := by
  have hx : Inherits x := by
    refine h.inv (I := Inherits) (fun x hb => ⟨endsOk_boot hb.1, fun c s _ object hi => ?_⟩)
      fun x a y hx hg hs => hx.step hg hs
    rw [hb.2] at hi
    cases hi
  have hcall : ∀ c, ∀ s < 3, ∀ object, x.2.inherited c s = some object → ActsOn x c s object ∨
      ∃ d, stdSlot x.1 c s = some d ∧ (x.1.sys.fds d).isOpen = false := by
    intro c s h3 object hi
    obtain ⟨d, hd, hob⟩ := hx.slot c s h3 object hi
    cases ho : (x.1.sys.fds d).isOpen with
    | false => exact .inr ⟨d, hd, ho⟩
    | true =>
      refine .inl ?_
      rw [ActsOn, hd]
      exact hob ho
  constructor
  · intro c s h3 object hi n line
    exact (hcall c s h3 object hi).imp_right fun ⟨d, hd, ho⟩ => (refused_of_closed h3 hd ho).1 n line
  · intro c s h3 object hi data t
    exact (hcall c s h3 object hi).imp_right fun ⟨d, hd, ho⟩ => (refused_of_closed h3 hd ho).2 data t

/-- A program points its standard output to a pipe and spawns a child. -/
def pipedRun : List IoAct := [.pipe 0, .dup2 0 4 1, .spawn 0 1]

theorem keepsStdio_of_reach_pipedRun :
    ∃ x, exec heritageStep (bootIo, .empty) pipedRun = some x ∧
      x.2.inherited 1 1 = some (.pipe 1 .pipeWrite) ∧ KeepsStdio x := by
  have hrun : (exec heritageStep (bootIo, .empty) pipedRun).map (fun x => x.2.inherited 1 1) =
      some (some (.pipe 1 .pipeWrite)) := by decide +kernel
  obtain ⟨x, hx, hv⟩ := Option.map_eq_some_iff.mp hrun
  -- nothing is inherited before the last call, which opens nothing
  have hgood : AllGood NotReused heritageStep (bootIo, .empty) pipedRun := by
    refine ⟨nofun, fun y hy => ⟨fun c s object d hi => ?_, fun z _ => ⟨fun c s object d _ _ => ?_,
      fun _ _ => trivial⟩⟩⟩
    · obtain ⟨-, hn⟩ := record_eq_some.mp hy
      rw [hn] at hi
      cases hi
    · rintro ⟨hclosed, io', hs, hopen⟩
      cases hs
      exact absurd (hclosed.symm.trans hopen) nofun
  exact ⟨x, hx, hv, keepsStdio_of_reach (reach_of_exec (.start ⟨ioBoot_bootIo, rfl⟩) hgood hx)⟩

/-- The program closes both ends and makes another pipe. -/
def reusedRun : List IoAct := pipedRun ++ [.close 0 3, .close 0 4, .pipe 0]

/-- **The child then writes to the other pipe.** -/
theorem not_keepsStdio_reusedRun :
    ¬ ∀ x, Reach HeritageBoot (fun _ _ => True) heritageStep x → KeepsStdio x := by
  intro hall
  have hrun : (exec heritageStep (bootIo, .empty) reusedRun).map (fun x =>
      (x.2.inherited 1 1, (stdSlot x.1 1 1).bind (objectAt x.1.sys x.2.pipes),
        (writeFd x.1 1 1 [7] fun _ => 0).map Prod.snd)) =
      some (some (.pipe 1 .pipeWrite), some (.pipe 2 .pipeWrite), some (.done 1)) := by
    decide +kernel
  obtain ⟨x, hx, hv⟩ := Option.map_eq_some_iff.mp hrun
  simp only [Prod.mk.injEq] at hv
  obtain ⟨hi, hob, hw⟩ := hv
  rcases (hall x (reach_of_exec (.start ⟨ioBoot_bootIo, rfl⟩) (allGood_true _ _) hx)).write 1 1
    (by decide) _ hi [7] (fun _ => 0) with h | h
  · rw [ActsOn, hob] at h
    cases h
  · rw [Nat.cast_one] at h
    rw [h] at hw
    cases hw

end Rymos
