import Mathlib.Tactic
import Rymos.Base.Components
import Rymos.Base.Words
import Rymos.Spawn.Runs

/-!
# The arguments a child reads

* **`rawArgsToArgv_eq`**: the first words of the argument string.
* **`joinArgs_ok`**: the values of an argument table, joined by spaces.
* `Reads`: what the calls of a process return of its name and arguments.
* `Starts`, `starts_of_done`: a call has put a process into a slot, and what that process is given.
* `ChildReads`, **`arguments_reach`**: what the child of a spawn reads, and for which strings these are
  all the words; `not_arguments_reach`.
-/

namespace Rymos

open ByteBuf Components Words

/-! ## Words of a string -/

section Token

variable {args : List UInt8} {index : ℕ}

theorem drop_length_takeWhile (index : ℕ) :
    args.drop (index + ((args.drop index).takeWhile isArgSpace).length) =
      (args.drop index).dropWhile isArgSpace := by
  rw [← List.drop_drop]
  conv_lhs => rw [← List.takeWhile_append_dropWhile (p := isArgSpace) (l := args.drop index)]
  exact List.drop_left' (by rw [List.takeWhile_append_dropWhile])

theorem nextArgToken_eq_none (h : nextArgToken args index = none) :
    words isArgSpace (args.drop index) = [] := by
  simp only [nextArgToken] at h
  split_ifs at h with hend
  rw [← words_dropWhile, ← drop_length_takeWhile, List.drop_eq_nil_of_le hend, words_nil]

theorem nextArgToken_eq_some {token : List UInt8} {next : ℕ}
    (h : nextArgToken args index = some (token, next)) :
    words isArgSpace (args.drop index) = token :: words isArgSpace (args.drop next) := by
  simp only [nextArgToken] at h
  split_ifs at h with hend
  obtain ⟨rfl, rfl⟩ := Prod.mk.inj (Option.some.inj h)
  set start := index + ((args.drop index).takeWhile isArgSpace).length with hstart
  have hrest : (args.drop index).dropWhile isArgSpace = args.drop start :=
    (drop_length_takeWhile index).symm
  have hne : args.drop start ≠ [] := fun he => hend (List.drop_eq_nil_iff.mp he)
  have hnext : args.drop (start + ((args.drop start).takeWhile (!isArgSpace ·)).length) =
      (args.drop start).dropWhile (!isArgSpace ·) := by
    rw [← List.drop_drop]
    conv_lhs => rw [← List.takeWhile_append_dropWhile (p := (!isArgSpace ·)) (l := args.drop start)]
    exact List.drop_left' (by rw [List.takeWhile_append_dropWhile])
  rw [(words_first hrest hne).2, hnext]

end Token

theorem rawArgsLoop_eq (args : List UInt8) (room index : ℕ) :
    rawArgsLoop args room index = (words isArgSpace (args.drop index)).take room := by
  induction room generalizing index with
  | zero => rfl
  | succ room ih =>
    rw [rawArgsLoop]
    cases h : nextArgToken args index with
    | none => rw [nextArgToken_eq_none h]; rfl
    | some r =>
      obtain ⟨token, next⟩ := r
      rw [nextArgToken_eq_some h, List.take_succ_cons, ← ih next]

/-- **`raw_args_to_argv` finds the words of the string**, the first eight of them. -/
theorem rawArgsToArgv_eq (args : List UInt8) :
    rawArgsToArgv args = (words isArgSpace args).take processArgvCountMax :=
  rawArgsLoop_eq args _ 0

/-! ## The joined values -/

/-- One more value, behind a space unless it is the first. -/
theorem join_next {pre : List (List UInt8)} (hpre : ∀ arg ∈ pre, arg ≠ []) (arg : List UInt8) :
    join 32 (pre ++ [arg]) =
      (if (join 32 pre).length > 0 then join 32 pre ++ [32] else join 32 pre) ++ arg := by
  by_cases hp : pre = []
  · simp [hp]
  · have hj : join (32 : UInt8) pre ≠ [] := fun he => hp ((join_eq_nil_iff hpre).mp he)
    rw [join_concat hp, if_pos (List.length_pos_iff.mpr hj)]
    simp

theorem joinArgs_from {argv : List (List UInt8)} (pre : List (List UInt8)) {out : List UInt8}
    (hpre : ∀ arg ∈ pre, arg ≠ []) (hfit : (join 32 pre).length ≤ processArgsMax)
    (h : joinArgs argv (join 32 pre) = .ok out) :
    (∀ arg ∈ argv, arg ≠ [] ∧ arg.length ≤ processArgvValueMax) ∧
      out.length ≤ processArgsMax ∧ out = join 32 (pre ++ argv) := by
  induction argv generalizing pre with
  | nil =>
    obtain rfl := Except.ok.inj h
    exact ⟨by simp, hfit, by rw [List.append_nil]⟩
  | cons arg rest ih =>
    have hstep : arg ≠ [] ∧ arg.length ≤ processArgvValueMax ∧
        (join 32 (pre ++ [arg])).length ≤ processArgsMax ∧
        joinArgs rest (join 32 (pre ++ [arg])) = .ok out := by
      rw [join_next hpre]
      rw [joinArgs] at h
      split at h
      · cases h
      rename_i hlong
      cases ha : checkedAppSlice arg with
      | none =>
        rw [ha] at h
        cases h
      | some arg' =>
        obtain rfl := checkedAppSlice_eq ha
        have hne : arg' ≠ [] := by
          rintro rfl
          cases ha
        by_cases hp : (join 32 pre).length > 0
        · simp only [ha, hp, if_true] at h ⊢
          split at h
          · cases h
          · exact ⟨hne, by omega, by simp only [List.length_append, List.length_singleton]; omega, h⟩
        · simp only [ha, hp, if_false, Nat.zero_ne_one] at h ⊢
          split at h
          · cases h
          · exact ⟨hne, by omega, by simp only [List.length_append]; omega, h⟩
    obtain ⟨hne, hlen, hfit', hrest⟩ := hstep
    have hpre' : ∀ a ∈ pre ++ [arg], a ≠ [] := by
      intro a hmem
      rcases List.mem_append.mp hmem with hmem | hmem
      · exact hpre a hmem
      · rwa [List.mem_singleton.mp hmem]
    obtain ⟨hall, hout, rfl⟩ := ih _ hpre' hfit' hrest
    refine ⟨fun a hmem => ?_, hout, by rw [List.append_assoc, List.singleton_append]⟩
    rcases List.mem_cons.mp hmem with rfl | hmem
    · exact ⟨hne, hlen⟩
    · exact hall a hmem

/-- **The loop of `abi_spawn_argv` joins the values by spaces**; all of them fit, and none is empty. -/
theorem joinArgs_ok {argv : List (List UInt8)} {out : List UInt8} (h : joinArgs argv [] = .ok out) :
    (∀ arg ∈ argv, arg ≠ [] ∧ arg.length ≤ processArgvValueMax) ∧
      out.length ≤ processArgsMax ∧ out = join 32 argv :=
  joinArgs_from [] (by simp) (by simp) h

/-! ## What a process reads -/

/-- What the calls of the running process return of its name and arguments. -/
structure Reads (t : SpawnSys) (name : List UInt8) (argv : List (List UInt8)) (args : List UInt8) :
    Prop where
  count : abiArgvCount t = argv.length + 1
  get : ∀ index room, abiArgvGet t index room =
    match (name :: argv)[index]? with
    | none => .error errNoent
    | some value => .done (value.length, copyOut value room)
  args : ∀ room, abiArgs t room =
    match room with
    | none | some 0 => (args.length, [])
    | some room => (min room args.length, args.take room)

theorem reads_of_args {t : SpawnSys} (hc : t.current < processCount) :
    Reads t (t.args t.current).name (t.args t.current).argv (t.args t.current).args := by
  refine ⟨?_, fun index room => ?_, fun room => ?_⟩
  · rw [abiArgvCount, if_neg (by omega), Nat.add_comm]
  · unfold abiArgvGet argvValue
    rw [if_neg (by omega)]
    cases index with
    | zero => rfl
    | succ index => rfl
  · rfl

/-- Two ways to read the same arguments are the same. -/
theorem Reads.argv_eq {t : SpawnSys} {name args : List UInt8} {argv argv' : List (List UInt8)}
    {name' args' : List UInt8} (h : Reads t name argv args) (h' : Reads t name' argv' args') :
    argv = argv' := by
  have hlen : argv.length = argv'.length := by
    have := h.count.symm.trans h'.count
    omega
  refine List.ext_getElem hlen fun i hi hi' => ?_
  have hget := (h.get (i + 1) (some argv[i].length)).symm.trans (h'.get (i + 1) (some argv[i].length))
  rw [List.getElem?_cons_succ, List.getElem?_cons_succ, List.getElem?_eq_getElem hi,
    List.getElem?_eq_getElem hi'] at hget
  obtain ⟨hl, hv⟩ := Prod.mk.inj (Reply.done.inj hget)
  rwa [copyOut, copyOut, List.take_length, hl, List.take_length] at hv

/-- The call has put a process with number `pid` into slot `c`. -/
structure Starts (s s' : SpawnSys) (c pid : ℕ) (new : ProcArgs) : Prop where
  lt : c < processCount
  slot : spawnSlot s.table = some c
  pid_eq : (s'.table c).pid = pid
  ready : (s'.table c).state = .ready
  args_eq : s'.args c = new

theorem starts_of_done {s s' : SpawnSys} {name args : List UInt8}
    {argv : Option (List (List UInt8))} {outcome : Except PrepareFault ℕ} {pid : ℕ}
    (h : spawnPrepared s name args argv outcome = some (s', .done pid)) :
    ∃ c, Starts s s' c pid (.kept name args (argv.getD (rawArgsToArgv args))) := by
  rcases spawnPrepared_cases h with ⟨-, code, hr⟩ | ⟨c, fate, hlt, -, ht, hr⟩
  · cases hr
  · cases fate with
    | started pml4Phys =>
      obtain rfl := Reply.done.inj hr
      refine ⟨c, hlt, ht.slot, ?_, ?_, by rw [ht.args_eq, Function.update_self]⟩
      · rw [ht.table, Function.update_self]
        rfl
      · rw [ht.table, Function.update_self]
        rfl
    | failed reaped =>
      obtain ⟨-, code, hr⟩ := hr
      cases hr

/-- The child reads what it was given, in every later state until its slot is given away. -/
theorem Starts.reads {s s' t : SpawnSys} {c pid : ℕ} {new : ProcArgs} (h : Starts s s' c pid new)
    (ht : Later c s' t) (hc : t.current = c) : Reads t new.name new.argv new.args := by
  have := reads_of_args (t := t) (hc ▸ h.lt)
  rwa [hc, ht.same.args_eq, h.args_eq] at this

theorem kept_of_fit {name args : List UInt8} {argv : List (List UInt8)}
    (hn : name.length ≤ processNameMax) (ha : args.length ≤ processArgsMax)
    (hv : ∀ arg ∈ argv, arg.length ≤ processArgvValueMax) :
    ProcArgs.kept name args argv = ⟨name, args, argv.take processArgvCountMax⟩ := by
  have hmap : (argv.take processArgvCountMax).map (·.take processArgvValueMax) =
      argv.take processArgvCountMax := by
    conv_rhs => rw [← List.map_id (argv.take processArgvCountMax)]
    exact List.map_congr_left fun arg hmem =>
      List.take_of_length_le (hv arg (List.mem_of_mem_take hmem))
  rw [ProcArgs.kept, hmap, List.take_of_length_le hn, List.take_of_length_le ha]

/-! ## Arguments reach the child -/

/-- The process just started under `pid` reads this of its arguments, in every later state in which it
runs. -/
def ChildReads (s s' : SpawnSys) (pid : ℕ) (name : List UInt8) (argv : List (List UInt8))
    (args : List UInt8) : Prop :=
  ∃ c, spawnSlot s.table = some c ∧ (s'.table c).pid = pid ∧
    ∀ t, Later c s' t → t.current = c → Reads t name argv args

section Child

variable {s s' : SpawnSys} {name raw : List UInt8} {argv : List (List UInt8)}
  {outcome : Except PrepareFault ℕ} {pid : ℕ}

theorem Starts.childReads {c : ℕ} {new : ProcArgs} (h : Starts s s' c pid new) :
    ChildReads s s' pid new.name new.argv new.args :=
  ⟨c, h.slot, h.pid_eq, fun _ ht hc => h.reads ht hc⟩

/-- The child does get to run. -/
theorem exists_later_runs (s' : SpawnSys) (c : ℕ) : ∃ t, Later c s' t ∧ t.current = c :=
  ⟨_, @Later.next _ _ _ _ (.switchTo c) .start rfl (.inl rfl), rfl⟩

/-- **The values of `spawn_argv` reach the child**, and so does their string. -/
theorem childReads_spawnArgv (h : abiSpawnArgv s name argv outcome = some (s', .done pid)) :
    ChildReads s s' pid name argv (join 32 argv) := by
  rcases abiSpawnArgv_cases h with ⟨-, code, hr⟩ | ⟨hn, hv, raw, hj, hp⟩
  · cases hr
  obtain ⟨hall, hfit, rfl⟩ := joinArgs_ok hj
  obtain ⟨c, hs⟩ := starts_of_done hp
  rw [Option.getD_some, kept_of_fit hn hfit fun arg hmem => (hall arg hmem).2,
    List.take_of_length_le hv] at hs
  exact hs.childReads

/-- The string of `spawn` reaches the child, and the first eight of its words do. -/
theorem starts_spawn (h : abiSpawn s name raw outcome = some (s', .done pid)) :
    ∃ c, Starts s s' c pid ⟨name, raw, (words isArgSpace raw).take processArgvCountMax⟩ := by
  rcases abiSpawn_cases h with ⟨-, code, hr⟩ | ⟨hn, ha, hp⟩
  · cases hr
  obtain ⟨c, hs⟩ := starts_of_done hp
  rw [Option.getD_none, rawArgsToArgv_eq, kept_of_fit hn ha fun arg hmem =>
    (length_le_of_mem_words (List.mem_of_mem_take hmem)).trans ha, List.take_take, min_self] at hs
  exact ⟨c, hs⟩

/-- **The words of `spawn` reach the child** when there are at most eight. -/
theorem childReads_spawn (h : abiSpawn s name raw outcome = some (s', .done pid)) :
    ChildReads s s' pid name (words isArgSpace raw) raw ↔
      (words isArgSpace raw).length ≤ processArgvCountMax := by
  obtain ⟨c, hs⟩ := starts_spawn h
  constructor
  · rintro ⟨c', hslot, -, hall⟩
    obtain rfl := Option.some.inj (hs.slot.symm.trans hslot)
    obtain ⟨t, ht, hc⟩ := exists_later_runs s' c
    have hlen := congrArg List.length ((hs.reads ht hc).argv_eq (hall t ht hc))
    rw [List.length_take] at hlen
    omega
  · intro hle
    have := hs.childReads
    rwa [List.take_of_length_le hle] at this

end Child

/-- **Arguments reach the child.** The values of an accepted `spawn_argv` always do; the words of the
string of an accepted `spawn` do exactly when there are at most eight of them. -/
theorem arguments_reach (s : SpawnSys) (name : List UInt8) :
    (∀ argv outcome s' pid, abiSpawnArgv s name argv outcome = some (s', .done pid) →
      ChildReads s s' pid name argv (join 32 argv)) ∧
    ∀ raw outcome s' pid, abiSpawn s name raw outcome = some (s', .done pid) →
      (ChildReads s s' pid name (words isArgSpace raw) raw ↔
        (words isArgSpace raw).length ≤ processArgvCountMax) :=
  ⟨fun _ _ _ _ h => childReads_spawnArgv h, fun _ _ _ _ h => childReads_spawn h⟩

/-- A program `x` started with a string of two words, and with a value that has a space in it. -/
theorem arguments_reach_twoWords :
    (∃ s', abiSpawnArgv programSys (ascii "x") [ascii "a b"] (.ok 1) = some (s', .done 2) ∧
      ChildReads programSys s' 2 (ascii "x") [ascii "a b"] (join 32 [ascii "a b"])) ∧
    ∃ s', abiSpawn programSys (ascii "x") (ascii "a  b") (.ok 1) = some (s', .done 2) ∧
      ChildReads programSys s' 2 (ascii "x") (words isArgSpace (ascii "a  b")) (ascii "a  b") :=
  ⟨⟨_, rfl, (arguments_reach _ _).1 _ (.ok 1) _ _ rfl⟩,
    ⟨_, rfl, ((arguments_reach _ _).2 _ (.ok 1) _ _ rfl).mpr (by decide)⟩⟩

/-- **The ninth word of a string is dropped** without an error. -/
theorem not_arguments_reach : ¬ ∀ s name raw outcome s' pid,
    abiSpawn s name raw outcome = some (s', .done pid) →
      ChildReads s s' pid name (words isArgSpace raw) raw := by
  intro h
  have hacc : ∃ s', abiSpawn programSys (ascii "x") (ascii "1 2 3 4 5 6 7 8 9") (.ok 1) =
      some (s', .done 2) := ⟨_, rfl⟩
  obtain ⟨s', hacc⟩ := hacc
  have hnine := (childReads_spawn hacc).mp (h _ _ _ _ _ _ hacc)
  revert hnine
  decide

end Rymos
