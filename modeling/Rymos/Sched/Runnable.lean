import Mathlib.Tactic
import Rymos.Sched.Steps

/-!
# Only runnable processes are resumed

* `Steady`: no tick takes the CPU from the console between its `pick_next_ready` and its `switch_to`.
* `Scheduled`: where the code of each slot stands, by the state of the slot. **`Scheduled.step`**.
* `switchCall`: the slot a step switches to. `ResumesReady`; **`resumesReady_of_reach`**,
  **`not_resumesReady_staleRun`**.
-/

namespace Rymos

open Transition

variable {s s' : State}

/-- The slot that the code has chosen and not yet switched to. -/
def Pc.chosen : Pc → Option ℕ
  | .switch _ next => if next < processCount then some next else none
  | _ => none

/-- No tick finds something to switch to while the running code has a slot chosen. -/
def Steady (s : State) (a : Action) : Prop := a = .tick → s.Preempts → s.here.pc.chosen = none

instance decidableSteady (s : State) (a : Action) : Decidable (Steady s a) :=
  inferInstanceAs (Decidable (_ → _ → _))

structure Scheduled (s : State) : Prop where
  bound : s.current ≤ processCount
  here : s.inProcess → (s.table s.current).state = s.here.pc.expects
  others : ∀ i < processCount, i ≠ s.current → (s.table i).state ≠ .running
  resumes : ∀ i < processCount, i ≠ s.current → (s.table i).state.alive →
    (s.thread i).pc.expects = .running
  chosen : ∀ y next, s.here.pc = .switch y next →
    next ≤ processCount ∧ (next < processCount → (s.table next).state = .ready)
  idle : s.current ≠ processCount → ∀ y next, (s.thread processCount).pc = .switch y next →
    next = processCount
  loading : ∀ i c, (s.thread i).pc.child = some c →
    c < processCount ∧ (s.table c).state = .loading
  loaders : ∀ i j c, (s.thread i).pc.child = some c → (s.thread j).pc.child = some c → i = j

theorem scheduled_boot {s : State} (h : Boot s) : Scheduled s := by
  obtain ⟨k, rfl⟩ := h
  have hpc : ∀ i, ((boot k).thread i).pc = .user ∨ ((boot k).thread i).pc = .dead := by
    intro i
    simp only [boot]
    split_ifs
    · exact .inl rfl
    · exact .inr rfl
  have hchild : ∀ i c, ((boot k).thread i).pc.child ≠ some c := by
    intro i c
    rcases hpc i with h | h <;> simp [h, Pc.child]
  have hswitch : ∀ i y n, ((boot k).thread i).pc ≠ .switch y n := by
    intro i y n
    rcases hpc i with h | h <;> simp [h]
  exact {
    bound := le_rfl
    here := fun h => absurd h (lt_irrefl processCount)
    others := fun i _ _ => by simp [boot, Process.empty]
    resumes := fun i _ _ ha => absurd rfl ha.1
    chosen := fun y n h => absurd h (hswitch _ y n)
    idle := fun h => absurd rfl h
    loading := fun i c h => absurd h (hchild i c)
    loaders := fun i j c h => absurd h (hchild i c) }

/-! ## Steps that touch no state -/

/-- The statement changes no state, no context but the place of its own, and not `current`. -/
def Stmt.quiet : Stmt → Prop
  | .claim (some _) | .setState _ _ | .install _ | .block | .exit _ | .switchTo _ => False
  | _ => True

theorem run_quiet {stmt : Stmt} (h : stmt.quiet) (s : State) (pc : Pc) :
    ((s.goto pc).run stmt).current = s.current ∧
      (∀ i, (((s.goto pc).run stmt).table i).state = (s.table i).state) ∧
      ∀ i, (((s.goto pc).run stmt).thread i).pc = if i = s.current then pc else (s.thread i).pc := by
  simp only [run_current, run_state, run_pc]
  cases stmt with
  | claim slot =>
    cases slot with
    | none => exact ⟨rfl, fun _ => rfl, fun _ => rfl⟩
    | some c => exact False.elim h
  | setState _ _ | install _ | block | exit _ | switchTo _ => exact False.elim h
  | _ => exact ⟨rfl, fun _ => rfl, fun _ => rfl⟩

/-- Where the code goes on after such a statement. -/
theorem advance_quiet {a : Action} {pc pc' : Pc} {stmt : Stmt}
    (h : advance s pc a = some (stmt, pc')) (hq : stmt.quiet) :
    pc'.expects = pc.expects ∧ (∀ c, pc'.child = some c → pc.child = some c) ∧
      ∀ y n, pc' = .switch y n → n = (pickNextReady s.table).getD processCount := by
  revert h hq
  fun_cases advance s pc a
  all_goals
    intro h hq
    try cases h
  all_goals try split_ifs
  all_goals first
    | exact False.elim hq
    | exact ⟨rfl, fun c hc => hc, fun y n hn => by cases hn; rfl⟩
    | exact ⟨rfl, fun c hc => hc, fun y n hn => by cases hn⟩
    | exact ⟨expects_after _, fun c hc => (by cases (child_after _).symm.trans hc),
        fun y n hn => absurd hn (after_ne_switch _ y n)⟩
    | exact ⟨expects_missed _, fun c hc => (by cases (child_missed _).symm.trans hc),
        fun y n hn => absurd hn (missed_ne_switch _ y n)⟩
    | exact ⟨expects_again _, fun c hc => (by cases (child_again _).symm.trans hc),
        fun y n hn => absurd hn (again_ne_switch _ y n)⟩
    | skip
  -- a spawn without a slot
  cases hslot : spawnSlot s.table with
  | none => exact ⟨rfl, fun c hc => hc, fun y n hn => by cases hn⟩
  | some c =>
    rw [hslot] at hq
    exact False.elim hq

theorem Scheduled.frame (h : Scheduled s) (hcur : s'.current = s.current)
    (hstate : ∀ i, (s'.table i).state = (s.table i).state)
    (hpc : ∀ i, i ≠ s.current → (s'.thread i).pc = (s.thread i).pc)
    (hexp : s'.here.pc.expects = s.here.pc.expects)
    (hchild : ∀ c, s'.here.pc.child = some c → s.here.pc.child = some c)
    (hswitch : ∀ y n, s'.here.pc = .switch y n →
      s.here.pc = .switch y n ∨ n = (pickNextReady s.table).getD processCount) : Scheduled s' := by
  have hhere : s'.thread s.current = s'.here := by rw [State.here, hcur]
  -- a loader fills the slot it filled before
  have hold : ∀ i c, (s'.thread i).pc.child = some c → (s.thread i).pc.child = some c := by
    intro i c hc
    by_cases hi : i = s.current
    · subst hi
      exact hchild c (by rwa [hhere] at hc)
    · rwa [hpc i hi] at hc
  exact {
    bound := hcur ▸ h.bound
    here := fun hp => by
      rw [hcur, hstate, hexp]
      exact h.here (by rwa [State.inProcess, hcur] at hp)
    others := fun i hi hne => by
      rw [hstate]
      exact h.others i hi (hcur ▸ hne)
    resumes := fun i hi hne ha => by
      rw [hstate] at ha
      rw [hcur] at hne
      rw [hpc i hne]
      exact h.resumes i hi hne ha
    chosen := fun y n hn => by
      simp only [hstate]
      rcases hswitch y n hn with hn | rfl
      · exact h.chosen y n hn
      · cases hpick : pickNextReady s.table with
        | none => exact ⟨le_rfl, fun hlt => absurd hlt (lt_irrefl processCount)⟩
        | some k =>
          have := pickNextReady_eq_some hpick
          exact ⟨this.1.le, fun _ => this.2⟩
    idle := fun hne y n hn => by
      rw [hcur] at hne
      rw [hpc _ (Ne.symm hne)] at hn
      exact h.idle hne y n hn
    loading := fun i c hc => by
      rw [hstate]
      exact h.loading i c (hold i c hc)
    loaders := fun i j c hi hj => h.loaders i j c (hold i c hi) (hold j c hj) }

theorem Scheduled.quiet (h : Scheduled s) {a : Action} {pc : Pc} {stmt : Stmt}
    (hadv : advance s s.here.pc a = some (stmt, pc)) (hq : stmt.quiet) :
    Scheduled ((s.goto pc).run stmt) := by
  obtain ⟨hcur, hstate, hpc⟩ := run_quiet hq s pc
  obtain ⟨hexp, hchild, hswitch⟩ := advance_quiet hadv hq
  have hhere : ((s.goto pc).run stmt).here.pc = pc := by
    rw [State.here, hcur, hpc, if_pos rfl]
  refine h.frame hcur hstate (fun i hi => ?_) (by rw [hhere, hexp]) (by rw [hhere]; exact hchild)
    (by rw [hhere]; exact fun y n hn => .inr (hswitch y n hn))
  rw [hpc, if_neg hi]

/-! ## Steps that do -/

/-- The slot of code that is to go on has the state its place tells. -/
theorem Scheduled.running (h : Scheduled s) (he : s.here.pc.expects = .running) (c : ℕ)
    (hc : c < processCount) (hs : (s.table c).state ≠ .running) : c ≠ s.current := by
  rintro rfl
  exact hs (by rw [h.here hc, he])

/-- The running code changes the state of another slot `c`, at most together with its context. -/
theorem Scheduled.update (h : Scheduled s) (c : ℕ) (state : ProcessState) (q pc : Pc)
    (hc : c < processCount) (hne : c ≠ s.current) (hcur : s'.current = s.current)
    (hstate : ∀ i, (s'.table i).state = if i = c then state else (s.table i).state)
    (hpc : ∀ i, (s'.thread i).pc = if i = c then q else if i = s.current then pc else
      (s.thread i).pc)
    (hrun : state ≠ .running) (hq : state.alive → q.expects = .running)
    (hqc : ∀ d, q.child = some d → (s.thread c).pc.child = some d)
    (hexp : s.here.pc.expects = .running) (hexp' : pc.expects = .running)
    (hswitch : ∀ y n, pc ≠ .switch y n)
    (hchild : ∀ d, pc.child = some d → d = c ∧ state = .loading)
    (hfree : ∀ i, i ≠ s.current → (s.thread i).pc.child ≠ some c) : Scheduled s' := by
  have hhere : s'.here.pc = pc := by
    rw [State.here, hcur, hpc, if_neg (Ne.symm hne), if_pos rfl]
  -- a loader is the running code, which fills `c`, or another one as before
  have hold : ∀ i d, (s'.thread i).pc.child = some d →
      (i = s.current ∧ d = c ∧ state = .loading) ∨
        i ≠ s.current ∧ d ≠ c ∧ (s.thread i).pc.child = some d := by
    intro i d hd
    by_cases hi : i = s.current
    · rw [hpc, hi, if_neg (Ne.symm hne), if_pos rfl] at hd
      exact .inl ⟨hi, hchild d hd⟩
    · have hd' : (s.thread i).pc.child = some d := by
        rw [hpc, if_neg hi] at hd
        split_ifs at hd with hic
        · exact hic ▸ hqc d hd
        · exact hd
      exact .inr ⟨hi, fun hdc => hfree i hi (hdc ▸ hd'), hd'⟩
  exact {
    bound := hcur ▸ h.bound
    here := fun hp => by
      rw [hcur, hhere, hexp', hstate, if_neg (Ne.symm hne),
        h.here (by rwa [State.inProcess, hcur] at hp), hexp]
    others := fun i hi hi' => by
      rw [hstate]
      split_ifs
      · exact hrun
      · exact h.others i hi (hcur ▸ hi')
    resumes := fun i hi hi' ha => by
      rw [hcur] at hi'
      rw [hstate] at ha
      rw [hpc, if_neg hi']
      split_ifs at ha ⊢
      · exact hq ha
      · exact h.resumes i hi hi' ha
    chosen := fun y n hn => absurd (hhere ▸ hn) (hswitch y n)
    idle := fun hi y n hn => by
      rw [hcur] at hi
      rw [hpc, if_neg (Nat.ne_of_gt hc), if_neg (Ne.symm hi)] at hn
      exact h.idle hi y n hn
    loading := fun i d hd => by
      rw [hstate]
      rcases hold i d hd with ⟨-, rfl, hl⟩ | ⟨-, hdc, hd⟩
      · exact ⟨hc, by rw [if_pos rfl, hl]⟩
      · rw [if_neg hdc]
        exact h.loading i d hd
    loaders := fun i j d hi hj => by
      rcases hold i d hi with ⟨hi, hd, -⟩ | ⟨-, hd, hi⟩ <;>
        rcases hold j d hj with ⟨hj, hd', -⟩ | ⟨-, hd', hj⟩
      · rw [hi, hj]
      · exact absurd hd hd'
      · exact absurd hd' hd
      · exact h.loaders i j d hi hj }

theorem Scheduled.claim (h : Scheduled s) {c : ℕ} {elf : Elf} (hu : s.here.pc = .user)
    (hslot : spawnSlot s.table = some c) :
    Scheduled ((s.goto (afterClaim s elf (some c))).run (.claim (some c))) := by
  have hc := (spawnSlot_eq_some hslot).1
  have hdead := spawnSlot_not_alive hslot
  have hne : c ≠ s.current := h.running (by rw [hu]; rfl) c hc fun hr =>
    hdead (by rw [hr]; decide)
  have hlead : (afterClaim s elf (some c)).child = some c ∧
      (afterClaim s elf (some c)).expects = .running ∧
      ∀ y n, afterClaim s elf (some c) ≠ .switch y n := by
    rw [afterClaim]
    split_ifs <;> exact ⟨rfl, rfl, fun y n hn => by cases hn⟩
  refine h.update c .loading .dead (afterClaim s elf (some c)) hc hne rfl (fun i => ?_)
    (fun i => ?_) (by decide) (fun _ => rfl) (fun d hd => by cases hd) (by rw [hu]; rfl) hlead.2.1
    hlead.2.2 (fun d hd => ⟨(Option.some.inj (hlead.1.symm.trans hd)).symm, rfl⟩) fun i _ hi => ?_
  · simp only [State.run, Function.update_apply, goto_table]
    split_ifs <;> rfl
  · simp only [State.run, State.setThread, Function.update_apply, goto_thread]
    split_ifs <;> rfl
  · exact hdead (by rw [(h.loading i c hi).2]; decide)

/-- The store that ends a load, by success or failure. -/
theorem Scheduled.setState (h : Scheduled s) {c : ℕ} {state : ProcessState} {pc : Pc}
    (hchild : s.here.pc.child = some c) (hexp : s.here.pc.expects = .running)
    (hstate : state ≠ .running) (hpc : pc.expects = .running ∧ pc.child = none)
    (hswitch : ∀ y n, pc ≠ .switch y n) :
    Scheduled ((s.goto pc).run (.setState c state)) := by
  obtain ⟨hc, hload⟩ := h.loading _ c hchild
  have hne : c ≠ s.current := h.running hexp c hc (by rw [hload]; decide)
  refine h.update c state (s.thread c).pc pc hc hne rfl (fun i => ?_) (fun i => ?_) hstate
    (fun _ => h.resumes c hc hne (by rw [hload]; decide)) (fun d hd => hd) hexp hpc.1 hswitch
    (fun d hd => by rw [hpc.2] at hd; cases hd)
    fun i hi hd => hi (h.loaders i s.current c hd hchild)
  · simp only [State.run, State.setTable, Function.update_apply, goto_table]
    split_ifs <;> rfl
  · simp only [State.run, State.setTable, goto_thread]
    by_cases hi : i = s.current
    · rw [if_pos hi, if_neg fun hic : i = c => hne (hic ▸ hi), if_pos hi]
    · rw [if_neg hi, if_neg hi]
      split_ifs with hic
      · rw [hic]
      · rfl

theorem Scheduled.install (h : Scheduled s) {l : Loader} (hu : s.here.pc = .install l) :
    Scheduled ((s.goto (.ready l.index)).run (.install l)) := by
  have hchild : s.here.pc.child = some l.index := by rw [hu]; rfl
  obtain ⟨hc, hload⟩ := h.loading _ _ hchild
  have hne : l.index ≠ s.current := h.running (by rw [hu]; rfl) _ hc (by rw [hload]; decide)
  refine h.update l.index .loading .start (.ready l.index) hc hne rfl (fun i => ?_) (fun i => ?_)
    (by decide) (fun _ => rfl) (fun d hd => by cases hd) (by rw [hu]; rfl) rfl
    (fun y n hn => by cases hn) (fun d hd => ⟨(Option.some.inj hd).symm, rfl⟩)
    fun i hi hd => hi (h.loaders i s.current _ hd hchild)
  · simp only [State.run, Function.update_apply, goto_table]
    split_ifs with hi
    · exact hload
    · rfl
  · simp only [State.run, State.setThread, Function.update_apply, goto_thread]
    split_ifs <;> rfl

/-- The running code changes the state of its own slot and may wake others. -/
theorem Scheduled.own (h : Scheduled s) (pc : Pc) (hcur : s'.current = s.current)
    (hhere : s.inProcess → (s'.table s.current).state = pc.expects)
    (hstate : ∀ i, i ≠ s.current → (s'.table i).state = (s.table i).state ∨
      (s.table i).state = .blocked ∧ (s'.table i).state = .ready)
    (hpc : ∀ i, (s'.thread i).pc = if i = s.current then pc else (s.thread i).pc)
    (hexp : s.here.pc.expects = .running) (hchild : pc.child = none)
    (hswitch : ∀ y n, pc ≠ .switch y n) : Scheduled s' := by
  have hpc' : s'.here.pc = pc := by rw [State.here, hcur, hpc, if_pos rfl]
  have hold : ∀ i c, (s'.thread i).pc.child = some c → (s.thread i).pc.child = some c := by
    intro i c hi
    rw [hpc] at hi
    split_ifs at hi
    · rw [hchild] at hi
      cases hi
    · exact hi
  exact {
    bound := hcur ▸ h.bound
    here := fun hp => by
      rw [hcur, hpc']
      exact hhere (by rwa [State.inProcess, hcur] at hp)
    others := fun i hi hi' => by
      rw [hcur] at hi'
      rcases hstate i hi' with he | ⟨-, he⟩
      · exact he ▸ h.others i hi hi'
      · rw [he]
        decide
    resumes := fun i hi hi' ha => by
      rw [hcur] at hi'
      rw [hpc, if_neg hi']
      refine h.resumes i hi hi' ?_
      rcases hstate i hi' with he | ⟨he, -⟩
      · exact he ▸ ha
      · rw [he]
        decide
    chosen := fun y n hn => absurd (hpc' ▸ hn) (hswitch y n)
    idle := fun hi y n hn => by
      rw [hcur] at hi
      rw [hpc, if_neg (Ne.symm hi)] at hn
      exact h.idle hi y n hn
    loading := fun i c hi => by
      obtain ⟨hc, hl⟩ := h.loading i c (hold i c hi)
      have hne : c ≠ s.current := h.running hexp c hc (by rw [hl]; decide)
      refine ⟨hc, ?_⟩
      rcases hstate c hne with he | ⟨he, -⟩
      · rw [he, hl]
      · rw [hl] at he
        cases he
    loaders := fun i j c hi hj => h.loaders i j c (hold i c hi) (hold j c hj) }

theorem Scheduled.block (h : Scheduled s) {w : Waiting} (hu : s.here.pc = .block w) :
    Scheduled ((s.goto (.pick (.wait w))).run .block) := by
  have hexp : s.here.pc.expects = .running := by rw [hu]; rfl
  by_cases hp : s.inProcess
  · have hrun : (s.goto (.pick (.wait w))).run .block = (s.goto (.pick (.wait w))).setTable
        (Function.update s.table s.current { s.table s.current with state := .blocked }) := if_pos hp
    rw [hrun]
    refine h.own (.pick (.wait w)) rfl (fun _ => ?_) (fun i hi => .inl ?_) (goto_pc s _) hexp rfl
      fun y n hn => by cases hn
    · simp only [State.setTable, Function.update_self]
      rfl
    · simp only [State.setTable, Function.update_of_ne hi]
  · -- the console goes on as it is
    have hrun : (s.goto (.pick (.wait w))).run .block = s.goto (.pick (.wait w)) := if_neg hp
    rw [hrun]
    exact h.own _ rfl (fun hp' => absurd hp' hp) (fun i _ => .inl rfl) (goto_pc s _) hexp rfl
      fun y n hn => by cases hn

theorem Scheduled.exit (h : Scheduled s) {code : ℤ} (hu : s.here.pc = .exited code) :
    Scheduled ((s.goto (.pick .gone)).run (.exit code)) := by
  refine h.own (.pick .gone) rfl (fun _ => ?_) (fun i hi => ?_) (goto_pc s _) (by rw [hu]; rfl) rfl
    fun y n hn => by cases hn
  · have hset : (processSetState s.table s.current .exited code s.current).state = .exited := by
      rw [processSetState_apply, if_pos rfl]
    rcases wakeWaitersFor_state (processSetState s.table s.current .exited code) s.current
      s.currentPid with he | ⟨he, -⟩
    · exact he.trans hset
    · rw [hset] at he
      cases he
  · have := wakeWaitersFor_state (processSetState s.table s.current .exited code) i s.currentPid
    rwa [processSetState_apply, if_neg hi] at this

/-! ## Switches -/

/-- The CPU has been taken from the code that ran and not yet given to another. -/
structure Stopped (s : State) : Prop where
  others : ∀ i < processCount, (s.table i).state ≠ .running
  resumes : ∀ i < processCount, (s.table i).state.alive → (s.thread i).pc.expects = .running
  idle : ∀ y next, (s.thread processCount).pc = .switch y next → next = processCount
  loading : ∀ i c, (s.thread i).pc.child = some c →
    c < processCount ∧ (s.table c).state = .loading
  loaders : ∀ i j c, (s.thread i).pc.child = some c → (s.thread j).pc.child = some c → i = j

theorem Stopped.switchTo (h : Stopped s) {next : ℕ} (hn : next ≤ processCount)
    (hr : next < processCount → (s.table next).state = .ready) : Scheduled (s.switchTo next) where
  bound := hn
  here := fun hp => by
    have hlt : next < processCount := hp
    have hstate := switchTo_state s next next
    rw [if_pos ⟨hlt, rfl⟩] at hstate
    exact hstate.trans (h.resumes next hlt (by rw [hr hlt]; decide)).symm
  others := fun i hi hne => by
    rw [switchTo_state, if_neg fun hin => hne hin.2]
    exact h.others i hi
  resumes := fun i hi hne ha => by
    rw [switchTo_state, if_neg fun hin => hne hin.2] at ha
    exact h.resumes i hi ha
  chosen := fun y m hm => by
    have hpc : (s.thread next).pc = .switch y m := hm
    rcases hn.lt_or_eq with hlt | rfl
    · -- a slot that is resumed has nothing chosen
      have he := h.resumes next hlt (by rw [hr hlt]; decide)
      rw [hpc] at he
      cases y <;> cases he
    · rw [h.idle y m hpc]
      exact ⟨le_rfl, fun hlt => absurd hlt (lt_irrefl processCount)⟩
  idle := fun _ => h.idle
  loading := fun i c hc => by
    obtain ⟨hlt, hl⟩ := h.loading i c hc
    refine ⟨hlt, ?_⟩
    rw [switchTo_state, if_neg fun hin => ?_]
    · exact hl
    · rw [← hin.2, hl] at hr
      cases hr hlt
  loaders := h.loaders

theorem Scheduled.stopped_switch (h : Scheduled s) {y : Yield} {next : ℕ}
    (hu : s.here.pc = .switch y next) : Stopped (s.goto (.drain y 0)) := by
  have hexp : s.inProcess → (s.table s.current).state = y.stopped := fun hp => by
    rw [h.here hp, hu]
    rfl
  have hold : ∀ i c, ((s.goto (.drain y 0)).thread i).pc.child = some c →
      (s.thread i).pc.child = some c := by
    intro i c hc
    rw [goto_pc] at hc
    split_ifs at hc
    · cases hc
    · exact hc
  exact {
    others := fun i hi => by
      by_cases hcur : i = s.current
      · subst hcur
        rw [goto_table, hexp hi]
        cases y <;> exact fun he => by cases he
      · exact h.others i hi hcur
    resumes := fun i hi ha => by
      rw [goto_pc]
      split_ifs with hcur
      · subst hcur
        rw [goto_table, hexp hi] at ha
        cases y
        · rfl
        · exact absurd ha (by decide)
      · exact h.resumes i hi hcur ha
    idle := fun z n hn => by
      rw [goto_pc] at hn
      split_ifs at hn with hcur
      exact h.idle (Ne.symm hcur) z n hn
    loading := fun i c hc => h.loading i c (hold i c hc)
    loaders := fun i j c hi hj => h.loaders i j c (hold i c hi) (hold j c hj) }

theorem Scheduled.stopped_interrupted (h : Scheduled s) (hp : s.Preempts)
    (hs : s.here.pc.chosen = none) : Stopped s.interrupted where
  others := fun i hi => by
    rw [interrupted_state]
    split_ifs with hc
    · decide
    · exact h.others i hi fun he => hc ⟨show s.current < processCount from he ▸ hi, he⟩
  resumes := fun i hi ha => by
    rw [interrupted_pc]
    by_cases hc : i = s.current
    · subst hc
      exact (h.here hi).symm.trans (hp.1 hi)
    · rw [interrupted_state, if_neg fun he => hc he.2] at ha
      exact h.resumes i hi hc ha
  idle := fun y n hn => by
    rw [interrupted_pc] at hn
    by_cases hc : s.current = processCount
    · have hpc : s.here.pc = .switch y n := by rw [State.here, hc, hn]
      rw [hpc, Pc.chosen] at hs
      split_ifs at hs with hlt
      exact le_antisymm (h.chosen y n hpc).1 (not_lt.mp hlt)
    · exact h.idle hc y n hn
  loading := fun i c hc => by
    rw [interrupted_pc] at hc
    obtain ⟨hlt, hl⟩ := h.loading i c hc
    refine ⟨hlt, ?_⟩
    rw [interrupted_state, if_neg fun he => ?_]
    · exact hl
    · have := hp.1 he.1
      rw [← he.2, hl] at this
      cases this
  loaders := fun i j c hi hj => by
    rw [interrupted_pc] at hi hj
    exact h.loaders i j c hi hj

theorem Scheduled.finishIrq (h : Scheduled s) : Scheduled (finishIrq s) := by
  have hhere : (Rymos.finishIrq s).here.pc = s.here.pc := finishIrq_pc s s.current
  exact h.frame rfl (fun _ => rfl) (fun i _ => finishIrq_pc s i) (by rw [hhere]) (by rw [hhere]; exact fun _ => id)
    (by rw [hhere]; exact fun _ _ => .inl)

/-! ## Runs -/

/-- **One step keeps the schedule.** -/
theorem Scheduled.step (h : Scheduled s) {a : Action} (hg : Steady s a)
    (hs : step s a = some s') : Scheduled s' := by
  rcases step_cases hs with ⟨-, -, rfl⟩ | ⟨rfl, -, hp, next, hn, rfl⟩ | ⟨-, -, rfl⟩ |
    ⟨-, -, stmt, pc, hadv, rfl⟩
  · exact h
  · have hready := pickNextReady_eq_some hn
    refine (h.stopped_interrupted hp (hg rfl hp)).switchTo hready.1.le fun _ => ?_
    rw [interrupted_state, if_neg fun he => ?_]
    · exact hready.2
    · have := hp.1 he.1
      rw [← he.2, hready.2] at this
      cases this
  · exact h.finishIrq
  · have hinv := advance_inv hadv
    by_cases hq : stmt.quiet
    · exact h.quiet hadv hq
    · cases stmt with
      | claim slot =>
        obtain ⟨hu, rfl, elf, -, rfl⟩ := hinv
        cases hslot : spawnSlot s.table with
        | none =>
          rw [hslot] at hq
          exact absurd trivial hq
        | some c => exact h.claim hu hslot
      | setState c state =>
        rcases hinv with ⟨reap, hu, rfl, rfl⟩ | ⟨hu, rfl, rfl⟩
        · exact h.setState (by rw [hu]; rfl) (by rw [hu]; rfl) (by decide) ⟨rfl, rfl⟩
            fun y n hn => by cases hn
        · exact h.setState (by rw [hu]; rfl) (by rw [hu]; rfl) (by decide) ⟨rfl, rfl⟩
            fun y n hn => by cases hn
      | install l =>
        obtain ⟨hu, rfl⟩ := hinv
        exact h.install hu
      | block =>
        obtain ⟨w, hu, rfl⟩ := hinv
        exact h.block hu
      | exit code =>
        obtain ⟨hu, rfl⟩ := hinv
        exact h.exit hu
      | switchTo next =>
        obtain ⟨y, hu, rfl⟩ := hinv
        have hchosen := h.chosen y next hu
        exact (h.stopped_switch hu).switchTo hchosen.1 hchosen.2
      | _ => exact absurd trivial hq

theorem scheduled_of_reach {s : State} (h : Reach Boot Steady step s) : Scheduled s :=
  h.inv (fun _ => scheduled_boot) fun _ _ _ hi hg hs => hi.step hg hs

/-! ## The states of a slot -/

/-- **The states a slot goes through under a statement.** -/
theorem Scheduled.state_run (h : Scheduled s) {a : Action} {pc : Pc} {stmt : Stmt}
    (hadv : advance s s.here.pc a = some (stmt, pc)) {i : ℕ} (hi : i < processCount) :
    (((s.goto pc).run stmt).table i).state = (s.table i).state ∨
    (stmt = .claim (some i) ∧ ¬ (s.table i).state.alive ∧
      (((s.goto pc).run stmt).table i).state = .loading) ∨
    (∃ state, stmt = .setState i state ∧ (s.table i).state = .loading ∧
      (((s.goto pc).run stmt).table i).state = state ∧
      ((s.here.pc = .ready i ∧ state = .ready) ∨
        ∃ reap, s.here.pc = .fail i reap ∧ state = .failed)) ∨
    (i = s.current ∧ (s.table i).state = .running ∧
      ((stmt = .block ∧ (((s.goto pc).run stmt).table i).state = .blocked) ∨
        ∃ code, stmt = .exit code ∧ (((s.goto pc).run stmt).table i).state = .exited)) ∨
    (∃ code, stmt = .exit code ∧ (s.table i).state = .blocked ∧
      (((s.goto pc).run stmt).table i).state = .ready) ∨
    (stmt = .switchTo i ∧ (s.table i).state = .ready ∧
      (((s.goto pc).run stmt).table i).state = .running) := by
  have hinv := advance_inv hadv
  rw [run_state]
  cases stmt with
  | claim slot =>
    cases slot with
    | none => exact .inl rfl
    | some c =>
      dsimp only
      split_ifs with hic
      · subst hic
        exact .inr (.inl ⟨rfl, spawnSlot_not_alive hinv.2.1.symm, rfl⟩)
      · exact .inl rfl
  | setState c state =>
    dsimp only
    split_ifs with hic
    · subst hic
      rcases hinv with ⟨reap, hu, rfl, -⟩ | ⟨hu, rfl, -⟩
      · exact .inr (.inr (.inl ⟨_, rfl, (h.loading s.current i (congrArg Pc.child hu)).2, rfl,
          .inr ⟨reap, hu, rfl⟩⟩))
      · exact .inr (.inr (.inl ⟨_, rfl, (h.loading s.current i (congrArg Pc.child hu)).2, rfl,
          .inl ⟨hu, rfl⟩⟩))
    · exact .inl rfl
  | block =>
    obtain ⟨w, hu, -⟩ := hinv
    dsimp only
    split_ifs with hic
    · obtain ⟨hp, rfl⟩ := hic
      exact .inr (.inr (.inr (.inl ⟨rfl, (h.here hp).trans (congrArg Pc.expects hu),
        .inl ⟨rfl, rfl⟩⟩)))
    · exact .inl rfl
  | exit code =>
    have hset := processSetState_apply s.table s.current i .exited code
    dsimp only
    rcases wakeWaitersFor_state (processSetState s.table s.current .exited code) i s.currentPid with
      he | ⟨he, he'⟩
    · rw [he, hset]
      split_ifs with hic
      · subst hic
        exact .inr (.inr (.inr (.inl ⟨rfl, (h.here hi).trans (congrArg Pc.expects hinv.1),
          .inr ⟨code, rfl, rfl⟩⟩)))
      · exact .inl rfl
    · rw [hset] at he
      split_ifs at he with hic
      exact .inr (.inr (.inr (.inr (.inl ⟨code, rfl, he, he'⟩))))
  | switchTo next =>
    obtain ⟨y, hu, -⟩ := hinv
    dsimp only
    split_ifs with hic
    · obtain ⟨-, rfl⟩ := hic
      exact .inr (.inr (.inr (.inr (.inr ⟨rfl, (h.chosen y i hu).2 hi, rfl⟩))))
    · exact .inl rfl
  | _ => exact .inl rfl

/-- A tick takes the CPU from the running slot and gives it to a ready one. -/
theorem state_preempt {next : ℕ} (hp : s.Preempts) (hn : pickNextReady s.table = some next) (i : ℕ) :
    ((s.interrupted.switchTo next).table i).state = (s.table i).state ∨
    (i = s.current ∧ (s.table i).state = .running ∧
      ((s.interrupted.switchTo next).table i).state = .ready) ∨
    (i = next ∧ (s.table i).state = .ready ∧
      ((s.interrupted.switchTo next).table i).state = .running) := by
  rw [switchTo_state, interrupted_state]
  split_ifs with h₁ h₂
  · exact .inr (.inr ⟨h₁.2, h₁.2 ▸ (pickNextReady_eq_some hn).2, rfl⟩)
  · exact .inr (.inl ⟨h₂.2, h₂.2 ▸ hp.1 h₂.1, rfl⟩)
  · exact .inl rfl

/-! ## Only runnable processes are resumed -/

/-- The slot the step switches to. -/
def switchCall (s : State) : Action → Option ℕ
  | .tick => if s.here.irq = false ∧ s.Preempts then pickNextReady s.table else none
  | a =>
    if s.here.irq then none
    else
      match advance s s.here.pc a with
      | some (.switchTo next, _) => some next
      | _ => none

/-- Whatever is switched to is `Ready`; nothing else becomes `Running`, and one slot is at a time. -/
structure ResumesReady (s : State) : Prop where
  switches : ∀ a next, switchCall s a = some next → next < processCount →
    (s.table next).state = .ready
  becomes : ∀ a s', step s a = some s' → ∀ i < processCount, (s.table i).state ≠ .ready →
    (s.table i).state ≠ .running → (s'.table i).state ≠ .running
  one : ∀ i < processCount, ∀ j < processCount, (s.table i).state = .running →
    (s.table j).state = .running → i = j

/-- A step that switches is a tick or the `switch_to` of a loop. -/
theorem switchCall_eq_some {a : Action} {next : ℕ} (hs : switchCall s a = some next) :
    (a = .tick ∧ s.Preempts ∧ pickNextReady s.table = some next) ∨
    (a ≠ .tick ∧ s.here.irq = false ∧ ∃ pc, advance s s.here.pc a = some (.switchTo next, pc)) := by
  by_cases ha : a = .tick
  · subst ha
    simp only [switchCall] at hs
    split_ifs at hs with h
    exact .inl ⟨rfl, h.2, hs⟩
  · have hcall : switchCall s a = if s.here.irq then none else
        match advance s s.here.pc a with
        | some (.switchTo next, _) => some next
        | _ => none := by
      cases a <;> first | rfl | exact absurd rfl ha
    rw [hcall] at hs
    split_ifs at hs with hirq
    split at hs
    · rename_i m pc hadv
      cases hs
      exact .inr ⟨ha, by simpa using hirq, pc, hadv⟩
    · cases hs

theorem Scheduled.switches (h : Scheduled s) {a : Action} {next : ℕ}
    (hs : switchCall s a = some next) (hn : next < processCount) :
    (s.table next).state = .ready := by
  rcases switchCall_eq_some hs with ⟨-, -, hp⟩ | ⟨-, -, pc, hadv⟩
  · exact (pickNextReady_eq_some hp).2
  · obtain ⟨y, hu, -⟩ := advance_inv hadv
    exact (h.chosen y _ hu).2 hn

/-- A step that makes a slot `Running` switches to it. -/
theorem step_becomes {a : Action} (hs : step s a = some s') {i : ℕ}
    (hne : (s.table i).state ≠ .running) (hr : (s'.table i).state = .running) :
    switchCall s a = some i := by
  rcases step_cases hs with ⟨-, -, rfl⟩ | ⟨rfl, hirq, hp, next, hn, rfl⟩ | ⟨-, -, rfl⟩ |
    ⟨ha, hirq, stmt, pc, hadv, rfl⟩
  · exact absurd hr hne
  · rw [switchTo_state, interrupted_state] at hr
    split_ifs at hr with h₁
    · rw [switchCall, if_pos ⟨hirq, hp⟩, hn, h₁.2]
    · exact absurd hr hne
  · exact absurd hr hne
  · have hinv := advance_inv hadv
    have hput : ∀ (j : ℕ) (p : Process), p.state ≠ .running →
        (Function.update s.table j p i).state ≠ .running := by
      intro j p hp
      rw [Function.update_apply]
      split_ifs
      · exact hp
      · exact hne
    by_cases hq : stmt.quiet
    · rw [(run_quiet hq _ _).2.1] at hr
      exact absurd hr hne
    · cases stmt with
      | claim slot =>
        cases slot with
        | none => exact absurd trivial hq
        | some c => exact absurd hr (hput c _ (by simp [newProcess]))
      | setState c state =>
        have hst : state ≠ .running := by
          rcases hinv with ⟨-, -, rfl, -⟩ | ⟨-, rfl, -⟩ <;> decide
        exact absurd hr (hput c _ hst)
      | install l =>
        simp only [State.run, Function.update_apply, goto_table] at hr
        split_ifs at hr with hil
        · exact absurd (hil ▸ hr) hne
        · exact absurd hr hne
      | block =>
        rw [State.run] at hr
        split_ifs at hr
        · exact absurd hr (hput _ _ (by simp))
        · exact absurd hr hne
      | exit code =>
        rcases wakeWaitersFor_state (processSetState s.table s.current .exited code) i
          s.currentPid with he | ⟨-, he⟩
        · exact absurd (he.symm.trans hr) (hput _ _ (by simp))
        · cases he.symm.trans hr
      | switchTo next =>
        have hr' := (switchTo_state (s.goto pc) next i).symm.trans hr
        split_ifs at hr' with h₁
        · have hcall : switchCall s a = some next := by
            cases a with
            | tick => exact absurd rfl ha
            | _ =>
              simp only [switchCall, hirq, hadv]
              rfl
          rw [hcall, h₁.2]
        · exact absurd hr' hne
      | _ => exact absurd trivial hq

/-- **In a steady run only runnable processes are resumed, one at a time.** -/
theorem resumesReady_of_reach {s : State} (h : Reach Boot Steady step s) : ResumesReady s := by
  have hsched := scheduled_of_reach h
  exact {
    switches := fun a next => hsched.switches
    becomes := fun a s' hs i hi hready hne hr =>
      hready (hsched.switches (step_becomes hs hne hr) hi)
    one := fun i hi j hj hri hrj => by
      have hcur : ∀ k < processCount, (s.table k).state = .running → k = s.current := by
        intro k hk hr
        by_contra hne
        exact hsched.others k hk hne hr
      rw [hcur i hi hri, hcur j hj hrj] }

/-- A program without segments. -/
def bareElf : Elf := { headerOk := true, segments := [] }

/-- The console loads a program into the first slot. -/
def loadRun : List Action := [.spawn bareElf, .next, .page 7] ++ List.replicate 7 .next

/-- The process starts, returns 5 and gives the CPU away. -/
def exitRun : List Action := [.next, .exit 5] ++ List.replicate 11 .next

/-- The console loads a program, is preempted until the program has exited, and collects its status. -/
def collectRun : List Action := loadRun ++ [.tick] ++ exitRun ++ List.replicate 5 .next

theorem resumesReady_of_reach_collectRun : ∃ s, exec step (boot 1) collectRun = some s ∧
    ((s.table 0).waited = true ∧ (s.table 0).exitCode = 5) ∧ ResumesReady s := by
  have hrun : (exec step (boot 1) collectRun).map (fun s =>
      ((s.table 0).waited, (s.table 0).exitCode)) = some (true, 5) := by decide +kernel
  obtain ⟨s, hs, hv⟩ := Option.map_eq_some_iff.mp hrun
  have hgood : AllGood Steady step (boot 1) collectRun := by decide +kernel
  exact ⟨s, hs, Prod.mk.inj hv,
    resumesReady_of_reach (reach_of_exec (.start ⟨1, rfl⟩) hgood hs)⟩

/-- The console has picked the process when a tick lets it run until it has exited. -/
def staleRun : List Action :=
  loadRun ++ List.replicate 6 .next ++ [.tick] ++ exitRun ++ [.next]

/-- **The console then switches to an exited process.** -/
theorem not_resumesReady_staleRun :
    ¬ ∀ s, Reach Boot (fun _ _ => True) step s → ResumesReady s := by
  intro hall
  have hrun : (exec step (boot 1) staleRun).map (fun s =>
      (switchCall s .next, (s.table 0).state)) = some (some 0, .exited) := by decide +kernel
  obtain ⟨s, hs, hv⟩ := Option.map_eq_some_iff.mp hrun
  rw [Prod.mk.injEq] at hv
  have hready := (hall s (reach_of_exec (.start ⟨1, rfl⟩) (allGood_true _ _) hs)).switches .next 0
    hv.1 (by decide)
  rw [hv.2] at hready
  cases hready

end Rymos
