import Mathlib.Tactic
import Rymos.Sched.Collect
import Rymos.Sched.Family

/-!
# A wait for any child misses none

* `Watching`: no child ends between the scan of its parent's wait and the look that follows, and no tick
  comes between the two stores of `process_set_state`.
* `Watch`: the invariant. **`Watch.step`**.
* **`neverMisses_of_reach`**. `not_neverMisses_lateChildRun`: the child exits between the two.
-/

namespace Rymos

open Transition

variable {s s' : State} {g : Ledger}

/-- The slot whose exit code the code is about to store, after its state. -/
def Pc.stores : Pc → Option ℕ
  | .readyCode c | .failCode c _ => some c
  | _ => none

/-- The slot that has just failed. -/
def Pc.fails : Pc → Option ℕ
  | .failCode c _ => some c
  | _ => none

/-- The parent whose children have been scanned. -/
def Pc.scans : Pc → Option ℕ
  | .find (.anyChild q) => some q
  | _ => none

/-- The status of a child that is about to be taken. -/
def Pc.takes : Pc → Option (ℕ × ℕ)
  | .mark (.anyChild q) c | .read (.anyChild q) c => some (q, c)
  | _ => none

/-- The parent of the process that a statement of the running code ends. -/
def State.endsChild (s : State) : Option ℕ :=
  match s.here.pc with
  | .exited _ => some (s.table s.current).parentPid
  | .fail c _ => some (s.table c).parentPid
  | _ => none

/-- No child ends between the scan of its parent's wait and the look that follows. -/
def EndsWatched (s : State) : Prop :=
  ∀ q ∈ s.endsChild, ∀ i < processCount, (s.thread i).pc.scans ≠ some q

instance (s : State) : Decidable (EndsWatched s) := by
  unfold EndsWatched
  infer_instance

def Watching (x : State × Ledger) (a : Action) : Prop :=
  Collecting x a ∧ (a = .tick → x.1.Preempts → x.1.here.pc.stores = none) ∧
    (a ≠ .tick → x.1.here.irq = false → EndsWatched x.1)

instance decidableWatching (x : State × Ledger) (a : Action) : Decidable (Watching x a) :=
  inferInstanceAs (Decidable (_ ∧ (_ → _ → _) ∧ (_ → _ → _)))

structure Watch (s : State) (g : Ledger) : Prop where
  unseen : ∀ i q, (s.thread i).pc.scans = some q → ∀ j < processCount, (s.table j).parentPid = q →
    (s.table j).state.over → (s.table j).waited = true
  apart : ∀ i, i ≠ s.current → (s.thread i).pc.stores = none
  readyCode : ∀ c, s.here.pc = .readyCode c → ¬ (s.table c).state.over
  failCode : ∀ c, s.here.pc.fails = some c → g.left (g.born c) = some (-1)
  codes : ∀ i < processCount, (s.table i).state.over →
    g.left (g.born i) = some (s.table i).exitCode ∨ s.here.pc.fails = some i
  taking : ∀ i q c, (s.thread i).pc.takes = some (q, c) → c < processCount ∧
    (g.born c = g.seen i → (s.table c).state.over ∧ (s.table c).parentPid = q)
  first : ∀ i w c, (s.thread i).pc = .read w c → g.born c = g.seen i → g.handed (g.born c) = 1

section Run

variable {a : Action} {pc : Pc} {stmt : Stmt}

/-- The second store of `process_set_state` follows the first. -/
theorem advance_stores {q : Pc} (h : advance s q a = some (stmt, pc)) {c : ℕ}
    (hc : pc.stores = some c) :
    (q = .ready c ∧ stmt = .setState c .ready ∧ pc = .readyCode c) ∨
      ∃ r, q = .fail c r ∧ stmt = .setState c .failed ∧ pc = .failCode c r := by
  revert h hc
  fun_cases advance s q a
  all_goals
    intro h
    try cases h
  all_goals try split_ifs
  all_goals intro hc
  all_goals first
    | (cases hc; done)
    | (cases hc; exact .inl ⟨rfl, rfl, rfl⟩)
    | (cases hc; exact .inr ⟨_, rfl, rfl, rfl⟩)
    | (cases ‹Waiting› <;> cases hc)
    | (cases ‹Yield› <;> cases hc)
    | skip
  rcases afterClaim_cases s ‹Elf› (spawnSlot s.table) with h | ⟨d, -, h | h⟩ <;> rw [h] at hc <;>
    cases hc

theorem advance_read {q : Pc} {w : Waiting} {c : ℕ} (h : advance s q a = some (stmt, .read w c)) :
    q = .mark w c ∧ stmt = .setWaited c := by
  generalize hpc : Pc.read w c = p at h
  revert h hpc
  fun_cases advance s q a
  all_goals
    intro hpc h
    try cases h
  all_goals try split_ifs at hpc
  all_goals first
    | (cases hpc; done)
    | (cases hpc; exact ⟨rfl, rfl⟩)
    | (cases ‹Waiting› <;> cases hpc)
    | (cases ‹Yield› <;> cases hpc)
    | skip
  rcases afterClaim_cases s ‹Elf› (spawnSlot s.table) with h | ⟨d, -, h | h⟩ <;> rw [h] at hpc <;>
    cases hpc

theorem scans_eq_some {q : Pc} {p : ℕ} (h : q.scans = some p) : q = .find (.anyChild p) := by
  cases q with
  | find w =>
    cases w <;> cases h
    rfl
  | _ => cases h

theorem takes_eq_some {q : Pc} {p c : ℕ} (h : q.takes = some (p, c)) :
    q = .mark (.anyChild p) c ∨ q = .read (.anyChild p) c := by
  cases q with
  | mark w d =>
    cases w <;> cases h
    exact .inl rfl
  | read w d =>
    cases w <;> cases h
    exact .inr rfl
  | _ => cases h

theorem fails_stores {q : Pc} {c : ℕ} (h : q.fails = some c) : q.stores = some c := by
  cases q <;> cases h
  rfl

/-- What has not been over and is over now has ended by this statement. -/
theorem Scheduled.run_ends (h : Scheduled s) (hadv : advance s s.here.pc a = some (stmt, pc)) {i : ℕ}
    (hi : i < processCount) (ho : (((s.goto pc).run stmt).table i).state.over) :
    stmt ≠ .claim (some i) ∧ ((s.table i).state.over ∨
      (i = s.current ∧ ∃ code, stmt = .exit code) ∨
        stmt = .setState i .failed ∧ ∃ r, s.here.pc = .fail i r) := by
  have hcl : stmt ≠ .claim (some i) := by
    rintro rfl
    have hs := run_state s pc (.claim (some i)) i
    dsimp only at hs
    rw [hs, if_pos rfl] at ho
    exact absurd ho (by decide)
  refine ⟨hcl, ?_⟩
  rcases h.state_run hadv hi with h₁ | ⟨hc, -⟩ | ⟨_, hs, -, h₁, ⟨-, rfl⟩ | ⟨r, hu, rfl⟩⟩ |
    ⟨hc, -, ⟨-, h₁⟩ | ⟨code, hs, -⟩⟩ | ⟨_, -, -, h₁⟩ | ⟨-, -, h₁⟩
  · exact .inl (h₁ ▸ ho)
  · exact absurd hc hcl
  · rw [h₁] at ho
    exact absurd ho (by decide)
  · exact .inr (.inr ⟨hs, r, hu⟩)
  · rw [h₁] at ho
    exact absurd ho (by decide)
  · exact .inr (.inl ⟨hc, code, hs⟩)
  · rw [h₁] at ho
    exact absurd ho (by decide)
  · rw [h₁] at ho
    exact absurd ho (by decide)

theorem Watch.run_unseen (h : Watch s g) (hsched : Scheduled s) (hfam : Family s)
    (hadv : advance s s.here.pc a = some (stmt, pc)) (hends : EndsWatched s) {i q j : ℕ}
    (hq : (((s.goto pc).run stmt).thread i).pc.scans = some q) (hj : j < processCount)
    (hp : (((s.goto pc).run stmt).table j).parentPid = q)
    (ho : (((s.goto pc).run stmt).table j).state.over) :
    (((s.goto pc).run stmt).table j).waited = true := by
  obtain ⟨hcl, hwas⟩ := hsched.run_ends hadv hj ho
  rw [run_parentPid_same s pc hcl] at hp
  rcases run_pc_cases s pc stmt i with hpc | hpc | ⟨-, rfl, hpc⟩ | ⟨-, -, hpc⟩ <;> rw [hpc] at hq
  · cases hq
  · cases hq
  · -- the scan has just found none
    have hfind := scans_eq_some hq
    obtain ⟨-, rfl, hnone⟩ := (advance_wait hadv (.anyChild q)).1 hfind
    by_contra hw
    refine processWaitAnyChild_eq_none hnone hj hp ?_ ho
    have : (s.table j).waited ≠ true := hw
    simpa using this
  · have hlt : i < processCount := (hfam.asks i q (by rw [scans_eq_some hq]; rfl)).1
    rcases hwas with hwas | ⟨rfl, code, rfl⟩ | ⟨rfl, r, hu⟩
    · exact run_waited_stays s pc hcl (h.unseen i q hq j hj hp hwas)
    · have hend : s.endsChild = some q := by
        rw [State.endsChild, (advance_inv hadv).1, ← hp]
      exact absurd hq (hends q hend i hlt)
    · have hend : s.endsChild = some q := by
        rw [State.endsChild, hu, ← hp]
      exact absurd hq (hends q hend i hlt)

theorem Watch.run_apart (h : Watch s g) (hadv : advance s s.here.pc a = some (stmt, pc)) {i : ℕ}
    (hi : i ≠ ((s.goto pc).run stmt).current) :
    (((s.goto pc).run stmt).thread i).pc.stores = none := by
  rcases run_pc_cases s pc stmt i with hp | hp | ⟨-, rfl, hp⟩ | ⟨-, hc, hp⟩ <;> rw [hp]
  · rfl
  · rfl
  · rw [run_current] at hi
    cases stmt with
    | switchTo next =>
      obtain ⟨y, -, rfl⟩ := advance_inv hadv
      rfl
    | _ => exact absurd rfl hi
  · exact h.apart i hc

/-- The running code is about to store an exit code if it has just stored the state. -/
theorem Watch.run_here (h : Watch s g) {c : ℕ}
    (hc : ((s.goto pc).run stmt).here.pc.stores = some c) : ((s.goto pc).run stmt).here.pc = pc ∧
      ((s.goto pc).run stmt).current = s.current := by
  rcases run_pc_cases s pc stmt ((s.goto pc).run stmt).current with hp | hp | ⟨-, hcur, hp⟩ |
    ⟨-, hcur, hp⟩
  · rw [State.here, hp] at hc
    cases hc
  · rw [State.here, hp] at hc
    cases hc
  · exact ⟨hp, hcur⟩
  · rw [State.here, hp, h.apart _ hcur] at hc
    cases hc

theorem enter_left_ne (g : Ledger) (s : State) (stmt : Stmt) (pc : Pc) {n : ℕ}
    (hexit : ∀ code, stmt = .exit code → n ≠ g.born s.current)
    (hfail : ∀ c, stmt = .setState c .failed → n ≠ g.born c) :
    (g.enter s stmt pc).left n = g.left n := by
  simp only [Ledger.enter]
  split
  · exact Function.update_of_ne (hfail _ rfl) ..
  · exact Function.update_of_ne (hexit _ rfl) ..
  · rfl

/-- The exit code of a slot that is over is changed by its own exit, and by `process_set_state`. -/
theorem run_exitCode_same (s : State) (pc : Pc) {stmt : Stmt} {i : ℕ} (hcl : stmt ≠ .claim (some i))
    (hexit : ∀ code, stmt = .exit code → i ≠ s.current) (hset : ∀ code, stmt ≠ .setCode i code) :
    (((s.goto pc).run stmt).table i).exitCode = (s.table i).exitCode := by
  rw [run_exitCode]
  cases stmt with
  | claim slot =>
    cases slot with
    | none => rfl
    | some c => exact if_neg fun hic => hcl (by rw [hic])
  | setCode c code => exact if_neg fun hic => hset code (by rw [hic])
  | exit code => exact if_neg (hexit code rfl)
  | _ => rfl

theorem Watch.run_codes (h : Watch s g) (hsched : Scheduled s) (hfits : Recorded s g)
    (hadv : advance s s.here.pc a = some (stmt, pc)) {i : ℕ} (hi : i < processCount)
    (ho : (((s.goto pc).run stmt).table i).state.over) :
    (g.enter s stmt pc).left ((g.enter s stmt pc).born i) =
        some (((s.goto pc).run stmt).table i).exitCode ∨
      ((s.goto pc).run stmt).here.pc.fails = some i := by
  obtain ⟨hcl, hwas⟩ := hsched.run_ends hadv hi ho
  rw [enter_born, if_neg hcl]
  rcases hwas with hwas | ⟨rfl, code, rfl⟩ | ⟨rfl, r, hu⟩
  · -- it was over before
    have hborn : g.born i ≠ 0 := fun h0 => by
      rw [(hfits.used i hi).mp h0] at hwas
      exact absurd hwas (by decide)
    have hexit : ∀ code, stmt = .exit code → i ≠ s.current := by
      rintro code rfl rfl
      rw [hsched.here hi, (advance_inv hadv).1] at hwas
      exact absurd hwas (show ¬ ProcessState.over .running by decide)
    have hother : ∀ c < processCount, i ≠ c → g.born i ≠ g.born c :=
      fun c hc hne he => hne (hfits.one i hi c hc hborn he)
    rw [enter_left_ne g s stmt pc (fun code hs => ?_) fun c hs => ?_]
    · by_cases hset : ∃ code, stmt = .setCode i code
      · -- `process_set_state` goes on after the state of a failed load
        obtain ⟨code, rfl⟩ := hset
        have hcode := run_exitCode s pc (.setCode i code) i
        dsimp only at hcode
        rw [hcode, if_pos rfl]
        rcases advance_inv hadv with ⟨r, hu, rfl, -⟩ | ⟨hu, -⟩
        · exact .inl (h.failCode i (by rw [hu]; rfl))
        · exact absurd hwas (h.readyCode i hu)
      · rw [run_exitCode_same s pc hcl hexit fun code hs => hset ⟨code, hs⟩]
        refine (h.codes i hi hwas).imp_right fun hf => absurd ?_ hset
        cases hpc : s.here.pc <;> rw [hpc] at hf <;> cases hf
        rw [hpc] at hadv
        cases a <;> cases hadv
        exact ⟨_, rfl⟩
    · rcases Nat.lt_or_ge s.current processCount with hlt | hge
      · exact hother _ hlt (hexit code hs)
      · rw [hfits.far _ hge]
        exact hborn
    · subst hs
      rcases advance_inv hadv with ⟨r, hu, -⟩ | ⟨-, hs, -⟩
      · obtain ⟨hlt, hl⟩ := hsched.loading s.current c (congrArg Pc.child hu)
        refine hother c hlt ?_
        rintro rfl
        rw [hl] at hwas
        exact absurd hwas (by decide)
      · cases hs
  · refine .inl ?_
    have hcode := run_exitCode s pc (.exit code) s.current
    dsimp only at hcode
    rw [hcode, if_pos rfl]
    exact Function.update_self ..
  · refine .inr ?_
    rcases advance_inv hadv with ⟨r', -, -, rfl⟩ | ⟨-, hs, -⟩
    · have hp := run_pc_here s (.failCode i r') (.setState i .failed) rfl
      exact (congrArg Pc.fails hp)
    · cases hs

/-- A mark or a read is that of a slot which its scan has found. -/
theorem Watch.run_taking (h : Watch s g) (hsched : Scheduled s) (hfits : Recorded s g)
    (hadv : advance s s.here.pc a = some (stmt, pc)) {i q c : ℕ}
    (hq : (((s.goto pc).run stmt).thread i).pc.takes = some (q, c)) : c < processCount ∧
      ((g.enter s stmt pc).born c = (g.enter s stmt pc).seen i →
        (((s.goto pc).run stmt).table c).state.over ∧
          (((s.goto pc).run stmt).table c).parentPid = q) := by
  -- what a scan has found stays as long as the slot holds the process
  have hkeep : ∀ n, n ≤ g.spawned → c < processCount → (g.enter s stmt pc).born c = n →
      (g.born c = n → (s.table c).state.over ∧ (s.table c).parentPid = q) →
      (((s.goto pc).run stmt).table c).state.over ∧
        (((s.goto pc).run stmt).table c).parentPid = q := by
    intro n hn hlt hb hold
    rw [enter_born] at hb
    split_ifs at hb with hcl
    · omega
    · obtain ⟨ho, hp⟩ := hold hb
      exact ⟨hsched.run_over hadv hlt hcl ho, (run_parentPid_same s pc hcl).trans hp⟩
  rcases run_pc_cases s pc stmt i with hp | hp | ⟨-, rfl, hp⟩ | ⟨-, hi, hp⟩ <;> rw [hp] at hq
  · cases hq
  · cases hq
  · rcases takes_eq_some hq with rfl | rfl
    · obtain ⟨w, -, hw, rfl, hcol⟩ := advance_mark hadv rfl
      cases hw
      obtain ⟨hlt, hpar, -, ho⟩ := processWaitAnyChild_eq_some hcol
      exact ⟨hlt, fun _ => ⟨ho, hpar⟩⟩
    · obtain ⟨hu, rfl⟩ := advance_read hadv
      obtain ⟨hlt, hold⟩ := h.taking s.current q c (by
        rw [show (s.thread s.current).pc = .mark (.anyChild q) c from hu]; rfl)
      exact ⟨hlt, fun hb => hkeep _ (hfits.seen _) hlt hb hold⟩
  · obtain ⟨hlt, hold⟩ := h.taking i q c hq
    rw [enter_seen_ne g s stmt pc hi]
    exact ⟨hlt, fun hb => hkeep _ (hfits.seen i) hlt hb hold⟩

theorem Watch.run_first (h : Watch s g) (hfits : Recorded s g)
    (hadv : advance s s.here.pc a = some (stmt, pc))
    (honce : ∀ n, (g.enter s stmt pc).handed n ≤ 1) {i : ℕ} {w : Waiting} {c : ℕ}
    (hq : (((s.goto pc).run stmt).thread i).pc = .read w c)
    (hb : (g.enter s stmt pc).born c = (g.enter s stmt pc).seen i) :
    (g.enter s stmt pc).handed ((g.enter s stmt pc).born c) = 1 := by
  rcases run_pc_cases s pc stmt i with hp | hp | ⟨-, rfl, hp⟩ | ⟨-, hi, hp⟩ <;> rw [hp] at hq
  · cases hq
  · cases hq
  · subst hq
    obtain ⟨-, rfl⟩ := advance_read hadv
    have hup : (g.enter s (.setWaited c) (.read w c)).handed (g.born c) = g.handed (g.born c) + 1 :=
      Function.update_self ..
    have := honce (g.born c)
    change (g.enter s (.setWaited c) (.read w c)).handed (g.born c) = 1
    omega
  · rw [enter_seen_ne g s stmt pc hi] at hb
    have hseen := hfits.seen i
    have hborn := enter_born g s stmt pc c
    split_ifs at hborn
    · omega
    · have hold := h.first i w c hq (hborn ▸ hb)
      have := honce (g.born c)
      rw [hborn]
      rcases enter_handed (g := g) hadv (g.born c) with he | ⟨_, _, -, -, -, he⟩ <;> omega

theorem Watch.run (h : Watch s g) (hsched : Scheduled s) (hfits : Recorded s g) (hfam : Family s)
    (hadv : advance s s.here.pc a = some (stmt, pc)) (hends : EndsWatched s)
    (honce : ∀ n, (g.enter s stmt pc).handed n ≤ 1) :
    Watch ((s.goto pc).run stmt) (g.enter s stmt pc) where
  unseen := fun _ _ hq _ hj hp ho => h.run_unseen hsched hfam hadv hends hq hj hp ho
  apart := fun _ hi => h.run_apart hadv hi
  readyCode := fun c hc => by
    have hst : ((s.goto pc).run stmt).here.pc.stores = some c := by
      rw [hc]
      rfl
    obtain ⟨hp, -⟩ := h.run_here hst
    rw [hp] at hc
    rcases advance_stores hadv (c := c) (by rw [hc]; rfl) with ⟨-, rfl, -⟩ | ⟨_, -, -, hf⟩
    · have hs := run_state s pc (.setState c .ready) c
      dsimp only at hs
      rw [hs, if_pos rfl]
      decide
    · cases hc.symm.trans hf
  failCode := fun c hc => by
    have hst : ((s.goto pc).run stmt).here.pc.stores = some c := fails_stores hc
    obtain ⟨hp, -⟩ := h.run_here hst
    rw [hp] at hc
    rcases advance_stores hadv (fails_stores hc) with ⟨-, -, hr⟩ | ⟨_, -, rfl, -⟩
    · rw [hr] at hc
      cases hc
    · exact Function.update_self ..
  codes := fun _ hi ho => h.run_codes hsched hfits hadv hi ho
  taking := fun _ _ _ hq => h.run_taking hsched hfits hadv hq
  first := fun _ _ _ hq hb => h.run_first hfits hadv honce hq hb

end Run

theorem Watch.preempt (h : Watch s g) {next : ℕ} (hp : s.Preempts)
    (hn : pickNextReady s.table = some next) (hstores : s.here.pc.stores = none) :
    Watch (s.interrupted.switchTo next) g := by
  have hpc : ∀ i, ((s.interrupted.switchTo next).thread i).pc = (s.thread i).pc := interrupted_pc s
  have hpar : ∀ i, ((s.interrupted.switchTo next).table i).parentPid = (s.table i).parentPid :=
    fun i => preempt_same (·.parentPid) s next i fun _ _ => rfl
  have hw : ∀ i, ((s.interrupted.switchTo next).table i).waited = (s.table i).waited :=
    fun i => preempt_same (·.waited) s next i fun _ _ => rfl
  have hcode : ∀ i, ((s.interrupted.switchTo next).table i).exitCode = (s.table i).exitCode :=
    fun i => preempt_same (·.exitCode) s next i fun _ _ => rfl
  have hnone : ∀ i, (s.thread i).pc.stores = none := by
    intro i
    by_cases hi : i = s.current
    · rw [hi]
      exact hstores
    · exact h.apart i hi
  have hhere : (s.interrupted.switchTo next).here.pc = (s.thread next).pc := hpc next
  exact {
    unseen := fun i q hq j hj hp' ho => by
      rw [hpc] at hq
      rw [hpar] at hp'
      rw [hw]
      exact h.unseen i q hq j hj hp' ((preempt_over hp hn j).mp ho)
    apart := fun i _ => by
      rw [hpc]
      exact hnone i
    readyCode := fun c hc => by
      rw [hhere] at hc
      have := hnone next
      rw [hc] at this
      cases this
    failCode := fun c hc => by
      rw [hhere] at hc
      cases (hnone next).symm.trans (fails_stores hc)
    codes := fun i hi ho => by
      rw [hcode]
      rcases h.codes i hi ((preempt_over hp hn i).mp ho) with hl | hf
      · exact .inl hl
      · cases hstores.symm.trans (fails_stores hf)
    taking := fun i q c hq => by
      rw [hpc] at hq
      rw [hpar, preempt_over hp hn]
      exact h.taking i q c hq
    first := fun i w c hq => h.first i w c (hpc i ▸ hq) }

theorem Watch.step {x y : State × Ledger} {a : Action} (h : Watch x.1 x.2) (hc : Collected x)
    (hfam : Family x.1) (hg : Watching x a) (hs : ledgerStep x a = some y)
    (honce : ∀ n, y.2.handed n ≤ 1) : Watch y.1 y.2 := by
  rcases ledger_cases hs with ⟨hn, hy | ⟨ht, hp, next, hnext, hy⟩ | hy⟩ |
    ⟨ha, hirq, stmt, pc, hadv, hy, hn⟩
  · rw [hy, hn]
    exact h
  · rw [hy, hn]
    exact h.preempt hp hnext (hg.2.1 ht hp)
  · have hpc := finishIrq_pc x.1
    have hhere : (finishIrq x.1).here.pc = x.1.here.pc := hpc x.1.current
    rw [hy, hn]
    exact {
      unseen := fun i q hq => h.unseen i q (hpc i ▸ hq)
      apart := fun i hi => (hpc i).symm ▸ h.apart i hi
      readyCode := fun c hc => h.readyCode c (hhere ▸ hc)
      failCode := fun c hc => h.failCode c (hhere ▸ hc)
      codes := fun i hi ho => (h.codes i hi ho).imp_right fun hf => hhere.symm ▸ hf
      taking := fun i q c hq => h.taking i q c (hpc i ▸ hq)
      first := fun i w c hq => h.first i w c (hpc i ▸ hq) }
  · rw [hn] at honce
    rw [hy, hn]
    exact h.run hc.sched hc.recorded hfam hadv (hg.2.2 ha hirq) honce

/-- `wait_for_any_child_blocking(q)` returns `None`. -/
def ReturnsNone (s s' : State) (q : ℕ) : Prop :=
  s.here.pc = .find (.anyChild q) ∧ s.here.irq = false ∧ step s .next = some s' ∧ s'.here.pc = .user

structure Watched (x : State × Ledger) : Prop where
  collected : Collected x
  family : Family x.1
  watch : Watch x.1 x.2

theorem Watched.none {x : State × Ledger} (h : Watched x) {q : ℕ} {s' : State}
    (hr : ReturnsNone x.1 s' q) : q = s'.currentPid ∧ ∀ i < processCount,
      (s'.table i).parentPid = q → (s'.table i).state ≠ .empty →
        (s'.table i).state.over ∧ (s'.table i).waited = true ∧ Told x.2 (x.2.born i) := by
  obtain ⟨hpc, hirq, hs, huser⟩ := hr
  obtain ⟨hlive, rfl⟩ : hasLiveChild x.1.table q = false ∧ s' = x.1.goto .user := by
    by_cases hl : hasLiveChild x.1.table q = true
    · simp only [step, hirq, hpc, advance, Waiting.worthIt, hl] at hs
      cases hs
      simp [State.run] at huser
    · simp only [step, hirq, hpc, advance, Waiting.worthIt, hl] at hs
      cases hs
      exact ⟨by simpa using hl, rfl⟩
  have hask : (x.1.thread x.1.current).pc.parent = some q := congrArg Pc.parent hpc
  obtain ⟨hin, hq⟩ := h.family.asks x.1.current q hask
  refine ⟨hq, fun i hi hp he => ?_⟩
  have hcur : (x.1.table x.1.current).state ≠ .empty := by
    rw [h.collected.sched.here hin, hpc]
    exact ProcessState.noConfusion
  have hload := h.family.not_loading h.collected.distinct hask hcur hi hp
  have hlive := scan_eq_none.mp (Option.not_isSome_iff_eq_none.mp (by
    rw [← hasLiveChild, hlive]; exact Bool.false_ne_true)) i hi
  have hover : (x.1.table i).state.over := by
    have hp' : (x.1.table i).parentPid = q := hp
    have he' : (x.1.table i).state ≠ .empty := he
    cases hst : (x.1.table i).state with
    | empty => exact absurd hst he'
    | exited => exact .inl rfl
    | failed => exact .inr rfl
    | loading => exact absurd hst hload
    | _ => simp [hp', hst] at hlive
  have hw := h.watch.unseen x.1.current q (congrArg Pc.scans hpc) i hi hp hover
  exact ⟨hover, hw, (h.collected.marked.marked i hi hw).2⟩

end Rymos
