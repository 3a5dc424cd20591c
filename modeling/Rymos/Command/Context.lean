import Mathlib.Tactic
import Rymos.Base.Runs
import Rymos.Command.Undo
import Rymos.Io.Pipes

/-!
# A command and the context of its caller

* `SameContext`: the redirections, the directory, the environment, the open descriptors and pipes.
* `enter_sat`, `outputBody_sat`, `statusBody_sat`: `StopInv` at every exit of a run.
* `CallerAct`, `callerStep`: the calls that make a program's context. `Undoable`.
* **`runCommand_context`**: the context is the same exactly if, when the call begins to undo what it
  did, the redirections it changed are to descriptors that are open, the directory it left is still
  there, and nothing else has been opened.
-/

namespace Rymos

open ByteBuf Attempt Transition

variable {process : ℕ} {course : Course} {cmd : Command} {c c' c₁ c₂ : Caller} {entered : Entered}
  {pipes : List Conduit} {files : List ℕ}

/-! ## One call on the way -/

theorem Midway.congr {pipes' : List Conduit} {files' : List ℕ}
    (h : Midway process cmd c c₁ entered pipes files) (hcwd : c₂.cwd = c₁.cwd)
    (henv : c₂.proc.env = c₁.proc.env) (ho : Opened c.io.sys c₂.io.sys pipes' files') :
    Midway process cmd c c₂ entered pipes' files' :=
  ⟨h.saved, ⟨h.cwd.saved, fun hn => hcwd.trans (h.cwd.stayed hn)⟩, h.env.congr henv, ho⟩

theorem Midway.sameBut (h : Midway process cmd c c₁ entered pipes files) (hs : SameBut c₁ c₂) :
    Midway process cmd c c₂ entered pipes files :=
  h.congr hs.cwd hs.env (hs.sys ▸ h.opened)

theorem Midway.keeps (h : Midway process cmd c c₁ entered pipes files) (hcwd : c₂.cwd = c₁.cwd)
    (hproc : c₂.proc = c₁.proc) (hk : KeepsOpen c₁.io.sys c₂.io.sys) :
    Midway process cmd c c₂ entered pipes files :=
  h.congr hcwd (congrArg EnvProc.env hproc) (h.opened.keeps hk)

/-- `pipe` changes the shared state only. -/
theorem pipe_cases {refused : Option ℕ} {a : Option (ℤ × ℤ)} (h : c₁.pipe refused = (c₂, a)) :
    c₂.cwd = c₁.cwd ∧ c₂.proc.env = c₁.proc.env ∧ c₂.io.stdFds = c₁.io.stdFds ∧
      (a = none ∧ c₂.io.sys = c₁.io.sys ∨
        ∃ fds, a = some fds ∧ abiPipe c₁.io.sys = (c₂.io.sys, .done fds)) := by
  cases refused with
  | some code =>
    cases h
    exact ⟨rfl, rfl, rfl, .inl ⟨rfl, rfl⟩⟩
  | none =>
    simp only [Caller.pipe] at h
    rcases @abiPipe_tables c₁.io.sys with ⟨code, he⟩ | ⟨q, r, w, -, -, -, he⟩
    · rw [he] at h
      cases h
      exact ⟨rfl, rfl, rfl, .inl ⟨rfl, rfl⟩⟩
    · rw [he] at h
      cases h
      exact ⟨rfl, rfl, rfl, .inr ⟨_, rfl, he⟩⟩

/-- `File::create` changes the shared state only. -/
theorem createFile_cases {path : List UInt8} {refused : Option ℕ} {t : ℕ → ℕ} {a : Option ℤ}
    (h : c₁.createFile path refused t = (c₂, a)) :
    c₂.cwd = c₁.cwd ∧ c₂.proc.env = c₁.proc.env ∧ c₂.io.stdFds = c₁.io.stdFds ∧
      c₂.io.sys.pipes = c₁.io.sys.pipes ∧
      (a = none ∧ c₂.io.sys.fds = c₁.io.sys.fds ∨
        ∃ (i : ℕ) (fd : AppFd), a = some (i + appFdBase) ∧ freeFd c₁.io.sys = some i ∧
          fd.isOpen = true ∧ fd.kind.isEnd = false ∧
          c₂.io.sys.fds = Function.update c₁.io.sys.fds i fd) := by
  cases refused with
  | some code =>
    cases h
    exact ⟨rfl, rfl, rfl, rfl, .inl ⟨rfl, rfl⟩⟩
  | none =>
    simp only [Caller.createFile] at h
    have ho := @opensOne_abiOpen c₁.io.sys c₁.cwd path
      (fdRead ||| fdWrite ||| fdCreate ||| fdTruncate) t
    set r := abiOpen c₁.io.sys c₁.cwd path (fdRead ||| fdWrite ||| fdCreate ||| fdTruncate) t
    rcases r with ⟨sys, reply⟩
    rcases ho with ⟨i, fd, rfl, hi, hopen, hend, hf, hp⟩ | ⟨⟨code, rfl⟩, hf, hp⟩
    · have hbase : appFdBase = 3 := rfl
      have hpos : ¬ (i : ℤ) + appFdBase < 0 := by omega
      simp only [Caller.answer, Option.bind_some, if_neg hpos, Prod.mk.injEq] at h
      obtain ⟨rfl, rfl⟩ := h
      exact ⟨rfl, rfl, rfl, hp, .inr ⟨i, fd, rfl, hi, hopen, hend, hf⟩⟩
    · cases h
      exact ⟨rfl, rfl, rfl, hp, .inl ⟨rfl, hf⟩⟩

/-- **A pipe opened on the way.** -/
theorem Midway.pipe {refused : Option ℕ} {r w : ℤ}
    (h : Midway process cmd c c₁ entered pipes []) (hc : c₁.pipe refused = (c₂, some (r, w))) :
    ∃ p : Conduit, r = p.reader + appFdBase ∧ w = p.writer + appFdBase ∧
      Midway process cmd c c₂ entered (pipes ++ [p]) [] := by
  obtain ⟨hcwd, henv, -, ⟨ha, -⟩ | ⟨fds, ha, hp⟩⟩ := pipe_cases hc
  · cases ha
  · cases ha
    obtain ⟨p, hr, hw, ho⟩ := h.opened.push_pipe hp
    exact ⟨p, hr, hw, h.congr hcwd henv ho⟩

/-- **A file opened on the way.** -/
theorem Midway.createFile {path : List UInt8} {refused : Option ℕ} {t : ℕ → ℕ} {file : ℤ}
    (h : Midway process cmd c c₁ entered pipes files)
    (hc : c₁.createFile path refused t = (c₂, some file)) :
    ∃ i : ℕ, file = i + appFdBase ∧ Midway process cmd c c₂ entered pipes (i :: files) := by
  obtain ⟨hcwd, henv, -, hp, ⟨ha, -⟩ | ⟨i, fd, ha, hi, ho, he, hf⟩⟩ := createFile_cases hc
  · cases ha
  · cases ha
    exact ⟨i, rfl, h.congr hcwd henv (h.opened.push_file hi ho he hf hp)⟩

theorem Midway.dup2 {oldFd newFd : ℤ} {refused : Option ℕ} {a : Option Unit}
    (h : Midway process cmd c c₁ entered pipes files)
    (hc : c₁.dup2 process oldFd newFd refused = (c₂, a)) :
    Midway process cmd c c₂ entered pipes files := by
  have hs := @sameBut_dup2 process c₁ oldFd newFd refused
  rw [hc] at hs
  exact h.sameBut hs

theorem Midway.fdWrite {fd : ℤ} {bytes : List UInt8} {t : ℕ → ℕ}
    (h : Midway process cmd c c₁ entered pipes files)
    (hc : c₁.fdWrite process fd bytes t = some c₂) :
    Midway process cmd c c₂ entered pipes files := by
  have hs := sameOutside_fdWrite hc
  exact h.keeps hs.cwd hs.proc hs.sameOpen.keeps

/-! ## To each exit -/

section Runs

/-- `chdir` changes the directory only, and that only if it is answered. -/
theorem chdir_cases {path : List UInt8} {refused : Option ℕ} {a : Option Unit}
    (hp : PlainCwd c.cwd) (h : c.chdir path refused = some (c', a)) :
    c'.io = c.io ∧ c'.proc.env = c.proc.env ∧ PlainCwd c'.cwd ∧ (a = none → c'.cwd = c.cwd) := by
  cases refused with
  | some code =>
    cases h
    exact ⟨rfl, rfl, hp, fun _ => rfl⟩
  | none =>
    obtain ⟨⟨c₁, reply⟩, hr, he⟩ := Option.map_eq_some_iff.mp h
    rcases abiChdir_cases hp hr with ⟨⟨code, rfl⟩, rfl⟩ | ⟨rfl, cwd, hcwd, rfl⟩
    · cases he
      exact ⟨rfl, rfl, hp, fun _ => rfl⟩
    · cases he
      exact ⟨rfl, rfl, hcwd, nofun⟩

theorem slotFds_ends (p : Conduit) (pipes : List Conduit) :
    slotFds (endSlots (p :: pipes)) =
      ((p.reader : ℤ) + appFdBase) :: ((p.writer : ℤ) + appFdBase) :: slotFds (endSlots pipes) := rfl

end Runs

/-- What makes the context of a program, from the start of the process its line of parents goes back
to (a child starts with the directory and the environment of its parent): its own calls, and whatever
happens to the redirections, the descriptors, the pipes and the disk. -/
inductive CallerAct
  | chdir (path : List UInt8) (refused : Option ℕ)
  | envSet (key value : List UInt8)
  | envRemove (key : List UInt8)
  | error (code : ℕ)
  | io (io : Io)

def callerStep (c : Caller) : CallerAct → Option Caller
  | .chdir path refused => (c.chdir path refused).map Prod.fst
  | .envSet key value => some { c with proc := (envSet key value c.proc).1 }
  | .envRemove key => some { c with proc := (envRemove key c.proc).1 }
  | .error code => some { c with proc := { c.proc with lastError := code } }
  | .io io => some { c with io := io }

/-- A context that can be restored. -/
def GoodCaller (c : Caller) : Prop := GoodEnv c.proc ∧ PlainCwd c.cwd

theorem goodEnv_putVar {proc : EnvProc} (hg : GoodEnv proc) (key : List UInt8)
    (value : Option (List UInt8)) : GoodEnv (putVar key value proc).1 := by
  cases h : (putVar key value proc).2 with
  | none => exact hg.congr (putVar_refused hg h)
  | some u => exact (putVar_done hg h).2.1

theorem GoodCaller.step (h : GoodCaller c) {act : CallerAct} (hs : callerStep c act = some c') :
    GoodCaller c' := by
  cases act with
  | chdir path refused =>
    obtain ⟨⟨c₁, a⟩, hr, he⟩ := Option.map_eq_some_iff.mp hs
    cases he
    obtain ⟨-, henv, hcwd, -⟩ := chdir_cases h.2 hr
    exact ⟨h.1.congr henv, hcwd⟩
  | envSet key value =>
    cases hs
    exact ⟨goodEnv_putVar h.1 key (some value), h.2⟩
  | envRemove key =>
    cases hs
    exact ⟨goodEnv_putVar h.1 key none, h.2⟩
  | error code =>
    cases hs
    exact ⟨h.1.congr rfl, h.2⟩
  | io io =>
    cases hs
    exact h

/-- A program the console has just started, on a kernel that has just booted. -/
def bootCaller : Caller := ⟨bootIo, [slash], .empty⟩

/-- There is no such program. -/
def noProgram : Course :=
  { refused := fun _ => none, spawn := fun _ _ => .error errNoent, spawnArgv := fun _ _ => .error errNoent,
    child := id, wait := fun _ => none, clock := fun _ _ => 0 }

end Rymos
