import Mathlib.Tactic
import Rymos.Command.Context
import Rymos.Spawn.Argv

/-!
# The arguments a command is built with

* `BuilderCall`, `buildCommand`: the chain of calls that makes a `Command`.
* `Given`, `given`: what the chain asks for; `Given.argv` is what the child should see.
* `build_given`: what of it is in the command.
* `Course.onKernel`, `startCommand`: the answers to `spawn` and `spawn_argv` are those of the kernel.
* `Spawned`, `body_spawned`: where `output` and `status` get the pid from.
* **`run_readsArgv`**: the child sees what the chain asked for exactly when that is whole in one of the
  two representations.
-/

namespace Rymos

open ByteBuf Words Attempt

abbrev commandArgsMax : ℕ := 64

/-! ## The builder -/

namespace Command

def new (name : List UInt8) : Command :=
  { name := name, args := [], argv := [], stdin := [], cwd := none, env := [], stdoutFile := none,
    stderrFile := none, error := 0 }

def setArgs (args : List UInt8) (cmd : Command) : Command :=
  let cmd := { cmd with args := [], argv := [] }
  if args.length > commandArgsMax then { cmd with error := errNospc }
  else { cmd with args := args }

def arg (arg : List UInt8) (cmd : Command) : Command :=
  if cmd.error ≠ 0 then cmd
  else
    let separator := if cmd.args.isEmpty then 0 else 1
    if cmd.args.length + separator + arg.length > commandArgsMax then { cmd with error := errNospc }
    else
      { cmd with
        args := (if separator = 1 then cmd.args ++ [32] else cmd.args) ++ arg
        argv := cmd.argv ++ [arg] }

end Command

/-- A call on a `Command`. -/
inductive BuilderCall
  | args (args : List UInt8)
  | argsRaw (args : List UInt8)
  | arg (arg : List UInt8)
  | stdin (stdin : List UInt8)
  | currentDir (cwd : List UInt8)
  | env (key value : List UInt8)
  | envRemove (key : List UInt8)
  | stdoutFile (path : List UInt8)
  | stderrFile (path : List UInt8)

def BuilderCall.apply (cmd : Command) : BuilderCall → Command
  | .args value => cmd.setArgs value
  | .argsRaw value => cmd.setArgs value
  | .arg value => cmd.arg value
  | .stdin bytes => { cmd with stdin := bytes }
  | .currentDir path => { cmd with cwd := some path }
  | .env key value => { cmd with env := cmd.env ++ [⟨key, some value⟩] }
  | .envRemove key => { cmd with env := cmd.env ++ [⟨key, none⟩] }
  | .stdoutFile path => { cmd with stdoutFile := some path }
  | .stderrFile path => { cmd with stderrFile := some path }

def buildCommand (name : List UInt8) (chain : List BuilderCall) : Command :=
  chain.foldl BuilderCall.apply (.new name)

/-! ## What the chain asks for -/

/-- The string of the last `args` or `args_raw`, and the values given with `arg` after it. -/
structure Given where
  raw : List UInt8
  later : List (List UInt8)

namespace Given

def add (given : Given) : BuilderCall → Given
  | .args args => ⟨args, []⟩
  | .argsRaw args => ⟨args, []⟩
  | .arg arg => { given with later := given.later ++ [arg] }
  | _ => given

/-- The words of the string, and the later values. -/
def argv (given : Given) : List (List UInt8) := words isArgSpace given.raw ++ given.later

/-- One of the two says it all: there are no later values and `raw_args_to_argv` finds all words of the
string, or the string has no word. -/
def Whole (given : Given) : Prop :=
  given.later = [] ∧ (words isArgSpace given.raw).length ≤ processArgvCountMax ∨
    given.later ≠ [] ∧ words isArgSpace given.raw = []

end Given

def given (chain : List BuilderCall) : Given := chain.foldl Given.add ⟨[], []⟩

/-- The values in `argv` are the later ones, and before the first of them the string is in `args`. -/
structure Holds (cmd : Command) (given : Given) : Prop where
  argv : cmd.argv = given.later
  args : given.later = [] → cmd.args = given.raw

section Chain

variable {cmd : Command} {g : Given} {name : List UInt8}

theorem setArgs_holds {args : List UInt8} (he : (cmd.setArgs args).error = 0) :
    Holds (cmd.setArgs args) ⟨args, []⟩ := by
  by_cases hlong : args.length > commandArgsMax
  · rw [Command.setArgs, if_pos hlong] at he
    cases he
  · rw [Command.setArgs, if_neg hlong]
    exact ⟨rfl, fun _ => rfl⟩

theorem arg_holds {arg : List UInt8} (h : cmd.error = 0 → Holds cmd g)
    (he : (cmd.arg arg).error = 0) : Holds (cmd.arg arg) { g with later := g.later ++ [arg] } := by
  by_cases hcmd : cmd.error = 0
  · rw [Command.arg, if_neg (not_not.mpr hcmd)] at he ⊢
    by_cases hlong : cmd.args.length + (if cmd.args.isEmpty then 0 else 1) + arg.length > commandArgsMax
    · dsimp only at he
      rw [if_pos hlong] at he
      cases he
    · dsimp only
      rw [if_neg hlong]
      refine ⟨?_, fun hnil => ?_⟩
      · rw [(h hcmd).argv]
      · exact absurd hnil (List.append_ne_nil_of_right_ne_nil _ (List.cons_ne_nil _ _))
  · rw [Command.arg, if_pos hcmd] at he
    exact (hcmd he).elim

/-- **One call.** An error is never cleared. -/
theorem apply_holds (call : BuilderCall) (h : cmd.error = 0 → Holds cmd g)
    (he : (BuilderCall.apply cmd call).error = 0) : Holds (BuilderCall.apply cmd call) (g.add call) := by
  cases call with
  | args args => exact setArgs_holds he
  | argsRaw args => exact setArgs_holds he
  | arg arg => exact arg_holds h he
  | _ => exact ⟨(h he).argv, (h he).args⟩

theorem build_snoc (name : List UInt8) (chain : List BuilderCall) (call : BuilderCall) :
    buildCommand name (chain ++ [call]) = BuilderCall.apply (buildCommand name chain) call := by
  rw [buildCommand, List.foldl_append, List.foldl_cons, List.foldl_nil, buildCommand]

theorem given_snoc (chain : List BuilderCall) (call : BuilderCall) :
    given (chain ++ [call]) = (given chain).add call := by
  rw [given, List.foldl_append, List.foldl_cons, List.foldl_nil, given]

/-- **What a chain that ends without an error leaves in the command.** -/
theorem build_given (name : List UInt8) (chain : List BuilderCall)
    (he : (buildCommand name chain).error = 0) : Holds (buildCommand name chain) (given chain) := by
  induction chain using List.reverseRecOn with
  | nil => exact ⟨rfl, fun _ => rfl⟩
  | append_singleton chain call ih =>
    rw [build_snoc] at he ⊢
    rw [given_snoc]
    exact apply_holds call ih he

end Chain

/-! ## The kernel's answers -/

/-- `spawn` and `spawn_argv` in the runtime: the number returned is an `i32`. -/
def pidOf : Option (SpawnSys × Reply ℕ) → Except ℤ ℕ
  | some (_, .done pid) => if pid < 2 ^ 31 then .ok pid else .error (pid - 2 ^ 32)
  | _ => .error (-1)

/-- The child is started in `s`; `outcome` is what memory and the image answer. -/
def Course.onKernel (course : Course) (s : SpawnSys) (outcome : Except PrepareFault ℕ) : Course :=
  { course with
    spawn := fun name args => pidOf (abiSpawn s name args outcome)
    spawnArgv := fun name argv => pidOf (abiSpawnArgv s name argv outcome) }

/-- The call `spawn_command` makes. -/
def startCommand (s : SpawnSys) (cmd : Command) (outcome : Except PrepareFault ℕ) :
    Option (SpawnSys × Reply ℕ) :=
  if cmd.argv.isEmpty then abiSpawn s cmd.name cmd.args outcome
  else abiSpawnArgv s cmd.name cmd.argv outcome

theorem pidOf_eq_ok {r : Option (SpawnSys × Reply ℕ)} {pid : ℕ} (h : pidOf r = .ok pid) :
    ∃ s', r = some (s', .done pid) := by
  unfold pidOf at h
  split at h
  · split_ifs at h
    cases h
    exact ⟨_, rfl⟩
  · cases h

theorem spawnCommand_onKernel {course : Course} {s : SpawnSys} {outcome : Except PrepareFault ℕ}
    {cmd : Command} {pid : ℕ} (h : spawnCommand (course.onKernel s outcome) cmd = .ok pid) :
    ∃ s', startCommand s cmd outcome = some (s', .done pid) := by
  unfold spawnCommand at h
  unfold startCommand
  split_ifs at h ⊢
  · exact pidOf_eq_ok h
  · exact pidOf_eq_ok h

/-! ## Where the pid comes from -/

/-- A run that is not left early has started the child with `spawn_command`, from a command without an
error. -/
def Spawned (course : Course) (cmd : Command) : Stop → Prop
  | .done _ _ _ _ pid _ => cmd.error = 0 ∧ spawnCommand course cmd = .ok pid
  | _ => True

section Body

variable {process : ℕ} {course : Course} {cmd : Command} {entered : Entered} {c : Caller}

/-- A call refused on the way. -/
theorem orStop_spawned {α : Type} {f : Caller → Option (Caller × Option α)} {reason : Caller → Stop}
    (h : ∀ c, Spawned course cmd (reason c)) :
    Sat (orStop f reason) c (fun _ _ => True) (fun stop _ => Spawned course cmd stop) :=
  Sat.orStop (fun _ _ _ => trivial) fun c _ => h c

theorem call_spawned {f : Caller → Option Caller} :
    Sat (call f) c (fun _ _ => True) (fun stop _ => Spawned course cmd stop) :=
  Sat.call fun _ _ => trivial

theorem enter_spawned : Sat (enter process course cmd) c (fun _ _ => cmd.error = 0)
    (fun stop _ => Spawned course cmd stop) := by
  unfold enter
  dsimp only
  split_ifs with herr
  · exact Sat.bind (Sat.stop (Q := fun _ _ => False) trivial) fun _ _ hf => hf.elim
  have happly {next : _ → Attempt Caller Stop Entered} {c : Caller}
      (herror : ∀ code c, Sat (next (.error code)) c (fun _ _ => cmd.error = 0)
        fun stop _ => Spawned course cmd stop)
      (hok : ∀ envRestores c, Sat (next (.ok envRestores)) c (fun _ _ => cmd.error = 0)
        fun stop _ => Spawned course cmd stop) :
      Sat (do
        let applied ← fun c =>
          let r := applyEnvOverrides (fun index => course.refused (.env index)) 0 cmd.env [] c.proc
          some ({ c with proc := r.1 }, .ok r.2)
        next applied) c (fun _ _ => cmd.error = 0) (fun stop _ => Spawned course cmd stop) := by
    refine Sat.bind (Q := fun _ _ => True) (fun s' r hr => by cases hr; trivial) fun applied c' _ => ?_
    cases applied with
    | error code => exact herror code c'
    | ok envRestores => exact hok envRestores c'
  refine Sat.bind (Sat.read (Q := fun _ _ => True) trivial) fun caller _ _ => ?_
  cases hcwd : cmd.cwd with
  | none =>
    refine Sat.bind (Sat.pure (Q := fun _ _ => True) trivial) fun _ _ _ => ?_
    exact happly (fun _ _ => Sat.stop trivial) fun _ _ => Sat.pure (not_not.mp herr)
  | some next =>
    refine Sat.bind (orStop_spawned fun _ => trivial) fun savedCwd _ _ => ?_
    refine Sat.bind (orStop_spawned fun _ => trivial) fun _ _ _ => ?_
    exact happly (fun _ _ => Sat.stop trivial) fun _ _ => Sat.pure (not_not.mp herr)

theorem launch_spawned {reads fds files : List ℤ} (herr : cmd.error = 0) :
    Sat (launch course cmd entered reads fds files) c (fun _ _ => True)
      (fun stop _ => Spawned course cmd stop) := by
  unfold launch
  split
  · exact Sat.stop trivial
  · rename_i pid hpid
    refine Sat.bind call_spawned fun _ _ _ => ?_
    split
    · exact Sat.stop trivial
    · exact Sat.stop ⟨herr, hpid⟩

theorem outputBody_spawned : Sat (outputBody process course cmd) c (fun _ _ => True)
    (fun stop _ => Spawned course cmd stop) := by
  unfold outputBody
  refine Sat.bind enter_spawned fun entered _ herr => ?_
  refine Sat.bind (orStop_spawned fun _ => trivial) fun _ _ _ => ?_
  refine Sat.bind (orStop_spawned fun _ => trivial) fun _ _ _ => ?_
  refine Sat.bind (orStop_spawned fun _ => trivial) fun _ _ _ => ?_
  refine Sat.bind call_spawned fun _ _ _ => ?_
  refine Sat.bind (orStop_spawned fun _ => trivial) fun _ _ _ => ?_
  refine Sat.bind (orStop_spawned fun _ => trivial) fun _ _ _ => ?_
  refine Sat.bind (orStop_spawned fun _ => trivial) fun _ _ _ => ?_
  exact launch_spawned herr

theorem openStdin_spawned : Sat (openStdin process course cmd entered) c (fun _ _ => True)
    (fun stop _ => Spawned course cmd stop) := by
  unfold openStdin
  split_ifs
  · exact Sat.pure trivial
  · refine Sat.bind (orStop_spawned fun _ => trivial) fun _ _ _ => ?_
    refine Sat.bind call_spawned fun _ _ _ => ?_
    exact Sat.bind (orStop_spawned fun _ => trivial) fun _ _ _ => Sat.pure trivial

theorem openTarget_spawned {path : Option (List UInt8)} {which : ℤ} {create redirect : CallSite}
    {fds files : List ℤ} : Sat (openTarget process course path which create redirect entered fds files) c
      (fun _ _ => True) (fun stop _ => Spawned course cmd stop) := by
  unfold openTarget
  cases path with
  | none => exact Sat.pure trivial
  | some path =>
    refine Sat.bind (orStop_spawned fun _ => trivial) fun _ _ _ => ?_
    exact Sat.bind (orStop_spawned fun _ => trivial) fun _ _ _ => Sat.pure trivial

theorem statusBody_spawned : Sat (statusBody process course cmd) c (fun _ _ => True)
    (fun stop _ => Spawned course cmd stop) := by
  unfold statusBody
  refine Sat.bind enter_spawned fun entered _ herr => ?_
  refine Sat.bind openStdin_spawned fun _ _ _ => ?_
  refine Sat.bind openTarget_spawned fun _ _ _ => ?_
  refine Sat.bind openTarget_spawned fun _ _ _ => ?_
  exact launch_spawned herr

theorem body_spawned (verb : Verb) : Sat (verb.body process course cmd) c (fun _ _ => True)
    (fun stop _ => Spawned course cmd stop) := by
  cases verb
  · exact outputBody_spawned
  · exact statusBody_spawned

/-- **The pid `output` and `status` return** is that of the child they started. -/
theorem run_spawned {verb : Verb} {fuel : ℕ} {c' : Caller} {finished : Finished}
    (h : verb.run process course cmd fuel c = some (c', .ok finished)) :
    cmd.error = 0 ∧ spawnCommand course cmd = .ok finished.pid := by
  obtain ⟨⟨c₁, stop⟩, ha, hl⟩ := Option.bind_eq_some_iff.mp h
  obtain ⟨⟨c₂, r⟩, hb, he⟩ := Option.map_eq_some_iff.mp ha
  have hs := body_spawned verb c₂ r hb
  cases r with
  | ok never => exact never.elim
  | error stop' =>
    cases he
    cases stop' with
    | done entered reads fds files pid status =>
      obtain ⟨c₃, -, hl⟩ := Option.bind_eq_some_iff.mp hl
      obtain ⟨c₄, -, hl⟩ := Option.map_eq_some_iff.mp hl
      cases hl
      exact hs
    | entry code => cases hl
    | _ =>
      obtain ⟨c₃, -, hl⟩ := Option.map_eq_some_iff.mp hl
      cases hl

end Body

/-! ## What the child sees -/

/-- The child just started under `pid` reads these values of its arguments behind its name. -/
def ReadsArgv (s : SpawnSys) (cmd : Command) (outcome : Except PrepareFault ℕ) (pid : ℕ)
    (argv : List (List UInt8)) : Prop :=
  ∃ s' raw, startCommand s cmd outcome = some (s', .done pid) ∧ ChildReads s s' pid cmd.name argv raw

theorem ChildReads.argv_eq {s s' : SpawnSys} {pid : ℕ} {name name' raw raw' : List UInt8}
    {argv argv' : List (List UInt8)} (h : ChildReads s s' pid name argv raw)
    (h' : ChildReads s s' pid name' argv' raw') : argv = argv' := by
  obtain ⟨c, hslot, -, hall⟩ := h
  obtain ⟨c', hslot', -, hall'⟩ := h'
  obtain rfl := Option.some.inj (hslot.symm.trans hslot')
  obtain ⟨t, ht, hc⟩ := exists_later_runs s' c
  exact (hall t ht hc).argv_eq (hall' t ht hc)

/-- The values the kernel is given, or the words it finds. -/
theorem readsArgv_started {s s' : SpawnSys} {cmd : Command} {outcome : Except PrepareFault ℕ} {pid : ℕ}
    (h : startCommand s cmd outcome = some (s', .done pid)) (argv : List (List UInt8)) :
    ReadsArgv s cmd outcome pid argv ↔ argv =
      if cmd.argv.isEmpty then (words isArgSpace cmd.args).take processArgvCountMax else cmd.argv := by
  have hreads : ∃ raw, ChildReads s s' pid cmd.name
      (if cmd.argv.isEmpty then (words isArgSpace cmd.args).take processArgvCountMax else cmd.argv)
      raw := by
    unfold startCommand at h
    split_ifs at h ⊢
    · obtain ⟨c, hs⟩ := starts_spawn h
      exact ⟨_, hs.childReads⟩
    · exact ⟨_, childReads_spawnArgv h⟩
  obtain ⟨raw, hreads⟩ := hreads
  constructor
  · rintro ⟨s'', raw', h', hreads'⟩
    obtain ⟨rfl, -⟩ := Prod.mk.inj (Option.some.inj (h.symm.trans h'))
    exact hreads'.argv_eq hreads
  · rintro rfl
    exact ⟨s', raw, h, hreads⟩

/-- Which of the two representations is the whole. -/
theorem Holds.argv_eq_iff {cmd : Command} {g : Given} (h : Holds cmd g) :
    (g.argv = if cmd.argv.isEmpty then (words isArgSpace cmd.args).take processArgvCountMax
      else cmd.argv) ↔ g.Whole := by
  rw [Given.Whole, Given.argv, h.argv]
  by_cases hnil : g.later = []
  · rw [hnil, h.args hnil, List.append_nil, List.isEmpty_nil, if_pos rfl, eq_comm,
      List.take_eq_self_iff]
    simp
  · rw [List.isEmpty_eq_false_iff.mpr hnil, if_neg Bool.false_ne_true, List.append_left_eq_self]
    simp [hnil]

/-- **The child of `output()` or `status()` sees the words of the last string and every later value**
exactly when there are no later values and at most eight words, or later values and no word. -/
theorem run_readsArgv {verb : Verb} {process fuel : ℕ} {course : Course} {s : SpawnSys}
    {outcome : Except PrepareFault ℕ} {name : List UInt8} {chain : List BuilderCall} {c c' : Caller}
    {finished : Finished} (h : verb.run process (course.onKernel s outcome) (buildCommand name chain) fuel c =
      some (c', .ok finished)) :
    ReadsArgv s (buildCommand name chain) outcome finished.pid (given chain).argv ↔ (given chain).Whole := by
  obtain ⟨herr, hspawn⟩ := run_spawned h
  obtain ⟨s', hstart⟩ := spawnCommand_onKernel hspawn
  rw [readsArgv_started hstart, (build_given name chain herr).argv_eq_iff]

/-! ## Two chains -/

/-- Nothing is refused, and the child exits at once. -/
def quietCourse : Course :=
  { noProgram with wait := fun _ => some ⟨3, 0⟩ }

/-- What `output()` returns for the chain, started from `programSys`. -/
def outputOf (chain : List BuilderCall) : Option (Caller × Except ℤ Finished) :=
  Verb.run .output 0 (quietCourse.onKernel programSys (.ok 1)) (buildCommand (ascii "x") chain) 1 bootCaller

def okPid : Option (Caller × Except ℤ Finished) → Option ℕ
  | some (_, .ok finished) => some finished.pid
  | _ => none

theorem outputOf_okPid (chain : List BuilderCall) (pid : ℕ) (h : okPid (outputOf chain) = some pid) :
    ∃ c' finished, finished.pid = pid ∧ outputOf chain = some (c', .ok finished) := by
  unfold okPid at h
  split at h
  · rename_i c' finished ho
    exact ⟨c', finished, Option.some.inj h, ho⟩
  · cases h

/-- `.args("lost").args_raw("a b")`, and `.args(" ").arg("a b").arg("c")`. -/
theorem run_readsArgv_twoChains :
    ReadsArgv programSys (buildCommand (ascii "x") [.args (ascii "lost"), .argsRaw (ascii "a b")]) (.ok 1) 2
      [ascii "a", ascii "b"] ∧
    ReadsArgv programSys (buildCommand (ascii "x") [.args (ascii " "), .arg (ascii "a b"), .arg (ascii "c")])
      (.ok 1) 2 [ascii "a b", ascii "c"] := by
  constructor
  · obtain ⟨c', finished, hpid, h⟩ := outputOf_okPid
      [.args (ascii "lost"), .argsRaw (ascii "a b")] 2 (by decide +kernel)
    rw [← hpid]
    exact (run_readsArgv h).mpr (.inl (by decide))
  · obtain ⟨c', finished, hpid, h⟩ := outputOf_okPid
      [.args (ascii " "), .arg (ascii "a b"), .arg (ascii "c")] 2 (by decide +kernel)
    rw [← hpid]
    exact (run_readsArgv h).mpr (.inr (by decide))

/-- **`.args("a b").arg("c")` loses the string**: only `c` is handed on. -/
theorem not_run_readsArgv : ¬ ∀ (verb : Verb) (process fuel : ℕ) (course : Course) (s : SpawnSys)
    (outcome : Except PrepareFault ℕ) (name : List UInt8) (chain : List BuilderCall) (c c' : Caller)
    (finished : Finished), verb.run process (course.onKernel s outcome) (buildCommand name chain) fuel c =
        some (c', .ok finished) →
      ReadsArgv s (buildCommand name chain) outcome finished.pid (given chain).argv := by
  intro hall
  obtain ⟨c', finished, hpid, h⟩ := outputOf_okPid [.args (ascii "a b"), .arg (ascii "c")] 2
    (by decide +kernel)
  have hreads := hall _ _ _ _ _ _ _ _ _ _ _ h
  obtain ⟨s', hstart⟩ := spawnCommand_onKernel (run_spawned h).2
  have := (readsArgv_started hstart _).mp hreads
  revert this
  decide

end Rymos
