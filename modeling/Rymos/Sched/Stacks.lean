import Mathlib.Tactic
import Rymos.Sched.Pids
import Rymos.Sched.Space

/-!
# Kernel stacks and the end of a process

* `CalmTeardown`: no tick takes the CPU from a process that has freed its PML4 and not yet stored
  `pml4_phys = 0`, or that has queued its stack and is not yet `Exited`; no spawn hands out a pid in use.
* **`Stacked`**: a stack that is queued is that of a process that is over, or of the running one on its
  last statements. **`Stacked.step`**.
-/

namespace Rymos

open Transition Ownership

variable {s s' : State}

/-- Between the free of the PML4 and `pml4_phys = 0`, or between `queue_stack_reclaim` and `Exited`. -/
def Pc.tearing : Pc → Bool
  | .cr3 _ | .clear _ | .message _ | .exited _ => true
  | _ => false

/-- The last two statements of a process, after its stack has been queued. -/
def Pc.queued : Pc → Bool
  | .message _ | .exited _ => true
  | _ => false

/-- The pid whose stack the code is about to free. -/
def Pc.unmaps : Pc → Option ℕ
  | .unmap _ _ pid => some pid
  | _ => none

/-- A process on its way out. -/
def Pc.leaving : Pc → Bool
  | .mappings _ | .tables _ | .image _ | .pml4 _ | .cr3 _ | .clear _ | .queue _ | .message _
  | .exited _ | .pick .gone | .switch .gone _ | .drain .gone _ | .unmap .gone _ _ => true
  | _ => false

/-- In the loop of `exit_and_yield` after its `switch_to`, which does not return. -/
def Pc.returned : Pc → Bool
  | .drain .gone _ | .unmap .gone _ _ => true
  | _ => false

def Pc.loader : Pc → Option Loader
  | .enter l _ | .load l _ _ | .leave l _ | .stack l | .discard l | .install l => some l
  | _ => none

/-- The slot whose stack has been made and whose process is not yet `Ready`. -/
def Pc.made : Pc → Option ℕ
  | .install l => some l.index
  | .ready c => some c
  | _ => none

/-- The stack of `pid` is to be freed. -/
def Queued (s : State) (pid : ℕ) : Prop :=
  some pid ∈ s.pending ∨ ∃ i ≤ processCount, (s.thread i).pc.unmaps = some pid

/-- The pid a spawn hands out is that of no other process, and no stack of that pid is to be freed. -/
def FreshPid (s : State) : Action → Prop
  | .spawn _ => ∀ c ∈ spawnSlot s.table,
      (∀ i < processCount, i ≠ c → (s.table i).state ≠ .empty → (s.table i).pid ≠ s.nextPid) ∧
        some s.nextPid ∉ s.pending ∧
        ∀ i < processCount + 1, (s.thread i).pc.unmaps ≠ some s.nextPid
  | _ => True

/-- The test of `FreshPid`. -/
def freshPid (s : State) : Action → Bool
  | .spawn _ => (spawnSlot s.table).all fun c =>
    ((List.range processCount).all fun i =>
        i == c || (s.table i).state == .empty || (s.table i).pid != s.nextPid) &&
      !s.pending.contains (some s.nextPid) &&
      (List.range (processCount + 1)).all fun i => (s.thread i).pc.unmaps != some s.nextPid
  | _ => true

theorem freshPid_iff (s : State) (a : Action) : freshPid s a = true ↔ FreshPid s a := by
  cases a with
  | spawn elf => simp [freshPid, FreshPid, Option.all_eq_true, or_iff_not_imp_left, and_assoc]
  | _ => exact iff_of_true rfl trivial

instance decidableFreshPid (s : State) (a : Action) : Decidable (FreshPid s a) :=
  decidable_of_iff _ (freshPid_iff s a)

theorem FreshPid.table {a : Action} (h : FreshPid s a) : FreshTable s a := by
  cases a with
  | spawn elf => exact fun c hc => (h c hc).1
  | _ => trivial

def CalmTeardown (s : State) (a : Action) : Prop :=
  Steady s a ∧ FreshPid s a ∧ (a = .tick → s.Preempts → s.here.pc.tearing = false)

instance decidableCalmTeardown (s : State) (a : Action) : Decidable (CalmTeardown s a) :=
  inferInstanceAs (Decidable (_ ∧ _ ∧ (_ → _ → _)))

structure Stacked (s : State) : Prop where
  mapped : ∀ i < processCount, (s.table i).state.schedulable → (s.table i).pid ∈ s.mapped
  loader : ∀ i l, (s.thread i).pc.loader = some l → l.pid = (s.table l.index).pid
  made : ∀ i c, (s.thread i).pc.made = some c → (s.table c).pid ∈ s.mapped
  queued : ∀ p, Queued s p → ∀ i < processCount, (s.table i).state ≠ .empty → (s.table i).pid = p →
    (s.table i).state.over ∨ i = s.current ∧ (s.thread i).pc.queued = true
  frame : ∀ i, (s.thread i).pc ≠ .dead → (s.thread i).pc ≠ .start →
    (s.thread i).pid = (s.table i).pid
  calm : ∀ i, (s.thread i).irq = true → (s.thread i).pc.tearing = false
  preempted : ∀ i < processCount, (s.thread i).irq = true → (s.thread i).pc.expects = .running
  torn : ∀ i, (s.thread i).pc.torn = true →
    i = s.current ∧ ((s.table i).pml4Phys = 0 ∨ (s.table i).pml4Phys ∉ s.held)
  console : (s.thread processCount).pc.leaving = false
  back : s.here.pc.returned = false

theorem stacked_boot {s : State} (h : Boot s) : Stacked s := by
  obtain ⟨k, rfl⟩ := h
  have hpc : ∀ i, (boot k).thread i = .at .user ∨ (boot k).thread i = .at .dead := by
    intro i
    simp only [boot]
    split_ifs
    · exact .inl rfl
    · exact .inr rfl
  have hnone : ∀ {α : Type} (f : Pc → Option α) (i : ℕ) (x : α), f .user = none → f .dead = none →
      f ((boot k).thread i).pc ≠ some x := by
    intro α f i x hu hd
    rcases hpc i with h | h <;> rw [h]
    · rw [show (Thread.at .user).pc = .user from rfl, hu]
      exact (Option.some_ne_none x).symm
    · rw [show (Thread.at .dead).pc = .dead from rfl, hd]
      exact (Option.some_ne_none x).symm
  have hempty : ∀ i, ((boot k).table i).state = .empty := fun _ => rfl
  exact {
    mapped := fun i _ hs => by
      rw [hempty] at hs
      exact absurd hs (by decide)
    loader := fun i l hl => absurd hl (hnone Pc.loader i l rfl rfl)
    made := fun i c hc => absurd hc (hnone Pc.made i c rfl rfl)
    queued := fun p _ i _ he => absurd (hempty i) he
    frame := fun i hd _ => by
      rcases hpc i with h | h
      · rw [h]
        rfl
      · exact absurd (congrArg Thread.pc h) hd
    calm := fun i hi => by
      rcases hpc i with h | h <;> rw [h] at hi <;> cases hi
    preempted := fun i _ hi => by
      rcases hpc i with h | h <;> rw [h] at hi <;> cases hi
    torn := fun i hi => by
      rcases hpc i with h | h <;> rw [h] at hi <;> cases hi
    console := rfl
    back := rfl }

/-! ## Where the code goes -/

section Advance

variable {a : Action} {pc pc' : Pc} {stmt : Stmt}

/-- A loader keeps its locals; it reads the pid of its slot when it makes the PML4. -/
theorem advance_loader (h : advance s pc a = some (stmt, pc')) {l : Loader}
    (hl : pc'.loader = some l) :
    pc.loader = some l ∨ pc.child = some l.index ∧ l.pid = (s.table l.index).pid := by
  revert h hl
  fun_cases advance s pc a
  all_goals
    intro h
    try cases h
  all_goals try split_ifs
  all_goals intro hl
  all_goals first
    | exact .inl hl
    | (cases hl; done)
    | (cases ‹Yield› <;> cases hl)
    | (cases ‹Waiting› <;> cases hl)
    | (cases hl; exact .inr ⟨rfl, rfl⟩)
    | skip
  rcases afterClaim_cases s ‹Elf› (spawnSlot s.table) with h | ⟨c, -, h | h⟩ <;>
    rw [h] at hl <;> cases hl

theorem advance_made (h : advance s pc a = some (stmt, pc')) {c : ℕ} (hc : pc'.made = some c) :
    pc.made = some c ∨ ∃ l, pc = .stack l ∧ stmt = .mapStack l.pid ∧ c = l.index := by
  revert h hc
  fun_cases advance s pc a
  all_goals
    intro h
    try cases h
  all_goals try split_ifs
  all_goals intro hc
  all_goals first
    | exact .inl hc
    | (cases hc; done)
    | (cases hc; exact .inr ⟨_, rfl, rfl, rfl⟩)
    | (cases ‹Yield› <;> cases hc)
    | (cases ‹Waiting› <;> cases hc)
    | skip
  rcases afterClaim_cases s ‹Elf› (spawnSlot s.table) with h | ⟨c, -, h | h⟩ <;>
    rw [h] at hc <;> cases hc

/-- The end of a process: what is torn and what is queued, and how the code gets there. -/
theorem advance_end (h : advance s pc a = some (stmt, pc')) :
    (pc'.torn = true → (pc.torn = true ∧ ∃ v, stmt = .writeCr3 v) ∨
      (∃ code, pc = .pml4 code) ∧ (stmt = .skip ∧ s.here.pml4Phys = 0 ∨
        stmt = .free s.here.pml4Phys)) ∧
    (pc.queued = true → pc'.queued = true ∧ stmt = .skip ∨ ∃ code, stmt = .exit code) ∧
    (∀ p, pc'.unmaps = some p → ∃ k, stmt = .take k ∧ s.pending.getD k none = some p) ∧
    (¬ s.inProcess → pc.leaving = false → pc'.leaving = false) ∧
    (stmt = .locals ∨ pc ≠ .dead ∧ pc ≠ .start) := by
  revert h
  fun_cases advance s pc a
  all_goals
    intro h
    try cases h
  all_goals try split_ifs
  all_goals first
    | (simp [Pc.torn, Pc.queued, Pc.unmaps, Pc.leaving, *]; done)
    | (cases ‹Yield› <;> simp [Yield.again, Pc.torn, Pc.queued, Pc.unmaps, Pc.leaving, *]; done)
    | (cases ‹Waiting› <;> simp [Waiting.after, Waiting.missed, Pc.torn, Pc.queued, Pc.unmaps, Pc.leaving, *])
    | skip
  · -- a spawn
    rcases afterClaim_cases s ‹Elf› (spawnSlot s.table) with h | ⟨c, -, h | h⟩ <;>
      simp [h, Pc.torn, Pc.queued, Pc.unmaps, Pc.leaving]
  · rename_i y slot _ pid hp
    refine ⟨fun he => (by cases he), fun he => (by cases he), fun p hpp => ?_, fun _ hl => ?_,
      .inr ⟨fun he => (by cases he), fun he => (by cases he)⟩⟩
    · cases hpp
      exact ⟨slot, rfl, hp⟩
    · cases y
      · rfl
      · exact hl

end Advance

/-! ## One step -/

theorem mem_queueStackReclaim {slots : List (Option ℕ)} {pid p : ℕ}
    (h : some p ∈ queueStackReclaim slots pid) : some p ∈ slots ∨ p = pid := by
  induction slots with
  | nil => cases h
  | cons slot slots ih =>
    cases slot with
    | none =>
      rcases List.mem_cons.mp h with h | h
      · exact .inr (Option.some.inj h)
      · exact .inl (List.mem_cons_of_mem _ h)
    | some q =>
      rcases List.mem_cons.mp h with h | h
      · exact .inl (h ▸ List.mem_cons_self)
      · rcases ih h with h | h
        · exact .inl (List.mem_cons_of_mem _ h)
        · exact .inr h

theorem returned_of_expects {pc : Pc} (h : pc.expects = .running) : pc.returned = false := by
  cases pc with
  | drain y k => cases y <;> first | rfl | cases h
  | unmap y k p => cases y <;> first | rfl | cases h
  | _ => rfl

/-- Nothing of a process that can still run, or is being loaded, is queued. -/
theorem Stacked.not_queued (h : Stacked s) {i : ℕ} (hi : i < processCount)
    (he : (s.table i).state ≠ .empty) (ho : ¬ (s.table i).state.over)
    (hq : i = s.current → (s.thread i).pc.queued = false) : ¬ Queued s (s.table i).pid := by
  intro hp
  rcases h.queued _ hp i hi he rfl with hov | ⟨hc, ht⟩
  · exact ho hov
  · rw [hq hc] at ht
    cases ht

theorem Stacked.preempt (h : Stacked s) (hsched : Scheduled s) {next : ℕ} (hp : s.Preempts)
    (hn : pickNextReady s.table = some next) (hcalm : s.here.pc.tearing = false) :
    Stacked (s.interrupted.switchTo next) := by
  have hpid : ∀ i, ((s.interrupted.switchTo next).table i).pid = (s.table i).pid :=
    fun i => preempt_same (·.pid) s next i fun _ _ => rfl
  have hpc : ∀ i, ((s.interrupted.switchTo next).thread i).pc = (s.thread i).pc := interrupted_pc s
  have hstate := state_preempt hp hn
  have hempty : ∀ i, ((s.interrupted.switchTo next).table i).state ≠ .empty →
      (s.table i).state ≠ .empty := by
    intro i he
    rcases hstate i with h₁ | ⟨-, h₁, -⟩ | ⟨-, h₁, -⟩
    · exact h₁ ▸ he
    · rw [h₁]; decide
    · rw [h₁]; decide
  have hqueued : ∀ p, Queued (s.interrupted.switchTo next) p → Queued s p := by
    rintro p (hp | ⟨i, hi, hp⟩)
    · exact .inl hp
    · exact .inr ⟨i, hi, hpc i ▸ hp⟩
  have htear : s.here.pc.queued = false ∧ s.here.pc.torn = false := by
    cases hh : s.here.pc <;> rw [hh] at hcalm <;> first | exact ⟨rfl, rfl⟩ | cases hcalm
  exact {
    mapped := fun i hi hs => by
      rw [hpid]
      refine h.mapped i hi ?_
      rcases hstate i with h₁ | ⟨-, h₁, -⟩ | ⟨-, h₁, -⟩
      · exact h₁ ▸ hs
      · rw [h₁]; decide
      · rw [h₁]; decide
    loader := fun i l hl => by
      rw [hpid]
      exact h.loader i l (hpc i ▸ hl)
    made := fun i c hc => by
      rw [hpid]
      exact h.made i c (hpc i ▸ hc)
    queued := fun p hq i hi he hip => by
      rw [hpid] at hip
      rcases h.queued p (hqueued p hq) i hi (hempty i he) hip with ho | ⟨hc, ht⟩
      · refine .inl ?_
        rcases hstate i with h₁ | ⟨-, h₁, -⟩ | ⟨-, h₁, -⟩
        · exact h₁ ▸ ho
        · rw [h₁] at ho; exact absurd ho (by decide)
        · rw [h₁] at ho; exact absurd ho (by decide)
      · subst hc
        exact absurd ht (by rw [show (s.thread s.current).pc.queued = false from htear.1]; nofun)
    frame := fun i hd hs => by
      rw [hpc] at hd hs
      have hthread : (s.interrupted.thread i).pid = (s.thread i).pid := by rw [interrupted_thread]
      rw [hpid]
      exact hthread.trans (h.frame i hd hs)
    calm := fun i hi => by
      rw [hpc]
      have hirq := hi
      rw [show (s.interrupted.switchTo next).thread i = s.interrupted.thread i from rfl,
        interrupted_thread] at hirq
      dsimp only at hirq
      split_ifs at hirq with hc
      · rw [hc]
        exact hcalm
      · exact h.calm i hirq
    preempted := fun i hlt hi => by
      rw [hpc]
      have hirq := hi
      rw [show (s.interrupted.switchTo next).thread i = s.interrupted.thread i from rfl,
        interrupted_thread] at hirq
      dsimp only at hirq
      split_ifs at hirq with hc
      · subst hc
        exact (hsched.here hlt).symm.trans (hp.1 hlt)
      · exact h.preempted i hlt hirq
    torn := fun i hi => by
      rw [hpc] at hi
      obtain ⟨rfl, -⟩ := h.torn i hi
      exact absurd hi (by rw [show (s.thread s.current).pc.torn = false from htear.2]; nofun)
    console := by
      rw [hpc]
      exact h.console
    back := by
      have hready := pickNextReady_eq_some hn
      have hexp := hsched.resumes next hready.1 (fun hc => ?_) (by rw [hready.2]; decide)
      · have hhere : (s.interrupted.switchTo next).here.pc = (s.thread next).pc := hpc next
        rw [hhere]
        exact returned_of_expects hexp
      · have := hp.1 (show s.current < processCount from hc ▸ hready.1)
        rw [← hc, hready.2] at this
        cases this }

theorem Stacked.finishIrq (h : Stacked s) (hsched : Scheduled s) (hirq : s.here.irq = true) :
    Stacked (finishIrq s) := by
  have hpc := finishIrq_pc s
  have htear : s.here.pc.queued = false := by
    have := h.calm s.current hirq
    cases hh : (s.thread s.current).pc <;> rw [hh] at this <;>
      first | exact congrArg Pc.queued hh | cases this
  have hcur : ∀ i, i = s.current → (s.thread i).pc.queued = false := fun i hi => hi ▸ htear
  -- the stacks that stay are those that are not queued
  have hmapped : ∀ p, p ∈ s.mapped → ¬ Queued s p → p ∈ (Rymos.finishIrq s).mapped :=
    fun p hp hq => Finset.mem_filter.mpr ⟨hp, fun hpend => hq (.inl hpend)⟩
  have hqueued : ∀ p, Queued (Rymos.finishIrq s) p → Queued s p := by
    rintro p (hp | ⟨i, hi, hp⟩)
    · obtain ⟨q, -, hq⟩ := List.mem_map.mp hp
      cases hq
    · exact .inr ⟨i, hi, hpc i ▸ hp⟩
  exact {
    mapped := fun i hi hs => hmapped _ (h.mapped i hi hs)
      (h.not_queued hi (schedulable_not_over hs).1 (schedulable_not_over hs).2 (hcur i))
    loader := fun i l hl => h.loader i l (hpc i ▸ hl)
    made := fun i c hc => by
      rw [hpc] at hc
      have hchild : (s.thread i).pc.child = some c := by
        cases hh : (s.thread i).pc <;> rw [hh] at hc <;> first | exact hc | cases hc
      obtain ⟨hlt, hl⟩ := hsched.loading i c hchild
      exact hmapped _ (h.made i c hc)
        (h.not_queued hlt (by rw [hl]; decide) (by rw [hl]; decide) (hcur c))
    queued := fun p hp i hi he hip => by
      rcases h.queued p (hqueued p hp) i hi he hip with ho | ⟨hc, ht⟩
      · exact .inl ho
      · exact .inr ⟨hc, (hpc i).symm ▸ ht⟩
    frame := fun i hd hs => by
      rw [finishIrq_thread]
      exact h.frame i (hpc i ▸ hd) (hpc i ▸ hs)
    calm := fun i hi => by
      rw [finishIrq_thread] at hi ⊢
      dsimp only at hi
      split_ifs at hi
      exact h.calm i hi
    preempted := fun i hlt hi => by
      rw [finishIrq_thread] at hi ⊢
      dsimp only at hi
      split_ifs at hi
      exact h.preempted i hlt hi
    torn := fun i hi => h.torn i (hpc i ▸ hi)
    console := (hpc processCount).symm ▸ h.console
    back := by
      have hhere : (Rymos.finishIrq s).here.pc = s.here.pc := hpc s.current
      rw [hhere]
      exact h.back }

section Run

variable {a : Action} {pc : Pc} {stmt : Stmt}

/-- A statement queues the stack of the process that ends. -/
theorem run_queued (hadv : advance s s.here.pc a = some (stmt, pc)) {p : ℕ}
    (hq : Queued ((s.goto pc).run stmt) p) : Queued s p ∨ stmt = .queueStack p := by
  rcases hq with hp | ⟨i, hi, hp⟩
  · rw [run_pending] at hp
    cases stmt with
    | queueStack pid =>
      rcases mem_queueStackReclaim hp with hp | rfl
      · exact .inl (.inl hp)
      · exact .inr rfl
    | take slot =>
      rcases List.mem_or_eq_of_mem_set hp with hp | hp
      · exact .inl (.inl hp)
      · cases hp
    | _ => exact .inl (.inl hp)
  · rw [run_pc] at hp
    cases hr : stmt.resets i with
    | some q =>
      rw [hr] at hp
      rcases resets_space hr with rfl | rfl <;> cases hp
    | none =>
      rw [hr, Option.getD_none] at hp
      split_ifs at hp
      · obtain ⟨k, -, hk⟩ := (advance_end hadv).2.2.1 p hp
        refine .inl (.inl ?_)
        rw [List.getD_eq_getElem?_getD] at hk
        cases he : s.pending[k]? with
        | none => rw [he] at hk; cases hk
        | some o =>
          rw [he] at hk
          cases hk
          exact List.mem_of_getElem? he
      · exact .inl (.inr ⟨i, hi, hp⟩)

/-- A statement frees no stack of a process that can run or is being loaded. -/
theorem Stacked.run_mapped (h : Stacked s) (hb : s.current ≤ processCount)
    (hadv : advance s s.here.pc a = some (stmt, pc)) {i : ℕ} (hi : i < processCount)
    (he : (s.table i).state ≠ .empty) (ho : ¬ (s.table i).state.over)
    (hm : (s.table i).pid ∈ s.mapped) : (s.table i).pid ∈ ((s.goto pc).run stmt).mapped := by
  rw [Rymos.run_mapped]
  cases stmt with
  | mapStack pid => exact Finset.mem_insert_of_mem hm
  | unmapStack pid =>
    obtain ⟨y, k, hu, -⟩ := advance_inv hadv
    refine Finset.mem_erase.mpr ⟨fun hip => ?_, hm⟩
    refine h.not_queued hi he ho (fun hc => ?_) (.inr ⟨s.current, hb, ?_⟩)
    · rw [hc]
      exact congrArg Pc.queued hu
    · rw [hip]
      exact congrArg Pc.unmaps hu
  | _ => exact hm

/-- A pid that is spawned is nobody else's. -/
theorem freshPid_claim (hadv : advance s s.here.pc a = some (stmt, pc)) (hfresh : FreshPid s a)
    {c : ℕ} (hc : stmt = .claim (some c)) : ¬ Queued s s.nextPid ∧
      ∀ i < processCount, i ≠ c → (s.table i).state ≠ .empty → (s.table i).pid ≠ s.nextPid := by
  subst hc
  obtain ⟨-, hslot, elf, rfl, -⟩ := advance_inv hadv
  obtain ⟨h₁, h₂, h₃⟩ := hfresh c hslot.symm
  refine ⟨?_, h₁⟩
  rintro (hp | ⟨i, hi, hp⟩)
  · exact h₂ hp
  · exact h₃ i (Nat.lt_succ_of_le hi) hp

theorem child_of_loader {q : Pc} {l : Loader} (h : q.loader = some l) : q.child = some l.index := by
  cases q <;> cases h <;> rfl

theorem child_of_made {q : Pc} {c : ℕ} (h : q.made = some c) : q.child = some c := by
  cases q <;> cases h <;> rfl

theorem Stacked.run_loader (h : Stacked s) (hsched : Scheduled s)
    (hadv : advance s s.here.pc a = some (stmt, pc)) {i : ℕ} {l : Loader}
    (hl : (((s.goto pc).run stmt).thread i).pc.loader = some l) :
    l.pid = (((s.goto pc).run stmt).table l.index).pid := by
  rcases run_pc_cases s pc stmt i with hp | hp | ⟨-, -, hp⟩ | ⟨-, -, hp⟩ <;> rw [hp] at hl
  · cases hl
  · cases hl
  · rcases advance_loader hadv hl with hl | ⟨hc, hp⟩
    · rw [hsched.run_child_pid hadv (i := s.current) (child_of_loader hl)]
      exact h.loader s.current l hl
    · rw [hsched.run_child_pid hadv (i := s.current) hc, hp]
  · rw [hsched.run_child_pid hadv (i := i) (child_of_loader hl)]
    exact h.loader i l hl

theorem Stacked.run_made (h : Stacked s) (hsched : Scheduled s)
    (hadv : advance s s.here.pc a = some (stmt, pc)) {i c : ℕ}
    (hc : (((s.goto pc).run stmt).thread i).pc.made = some c) :
    (((s.goto pc).run stmt).table c).pid ∈ ((s.goto pc).run stmt).mapped := by
  have hold : ∀ j, (s.thread j).pc.made = some c →
      (((s.goto pc).run stmt).table c).pid ∈ ((s.goto pc).run stmt).mapped := by
    intro j hj
    obtain ⟨hlt, hl⟩ := hsched.loading j c (child_of_made hj)
    rw [hsched.run_child_pid hadv (child_of_made hj)]
    exact h.run_mapped hsched.bound hadv hlt (by rw [hl]; decide) (by rw [hl]; decide)
      (h.made j c hj)
  rcases run_pc_cases s pc stmt i with hp | hp | ⟨-, -, hp⟩ | ⟨-, -, hp⟩ <;> rw [hp] at hc
  · cases hc
  · cases hc
  · rcases advance_made hadv hc with hc | ⟨l, hu, rfl, rfl⟩
    · exact hold s.current hc
    · have hload : (s.thread s.current).pc.loader = some l := congrArg Pc.loader hu
      rw [hsched.run_child_pid hadv (child_of_loader hload), ← h.loader s.current l hload,
        Rymos.run_mapped]
      exact Finset.mem_insert_self ..
  · exact hold i hc

theorem Stacked.run_schedulable (h : Stacked s) (hsched : Scheduled s)
    (hadv : advance s s.here.pc a = some (stmt, pc)) {i : ℕ} (hi : i < processCount)
    (hs : (((s.goto pc).run stmt).table i).state.schedulable) :
    (((s.goto pc).run stmt).table i).pid ∈ ((s.goto pc).run stmt).mapped := by
  -- what could run, or has been given its stack, keeps it
  have hold : stmt ≠ .claim (some i) → (s.table i).state ≠ .empty → ¬ (s.table i).state.over →
      (s.table i).pid ∈ s.mapped →
      (((s.goto pc).run stmt).table i).pid ∈ ((s.goto pc).run stmt).mapped := by
    intro hc he ho hm
    rcases run_pid_cases s pc stmt i with hp | ⟨hc', -⟩
    · rw [hp]
      exact h.run_mapped hsched.bound hadv hi he ho hm
    · exact absurd hc' hc
  rcases hsched.state_run hadv hi with h₁ | ⟨-, -, h₁⟩ | ⟨state, rfl, h₁, h₂, h₃⟩ |
    ⟨-, h₁, h₂⟩ | ⟨code, rfl, h₁, -⟩ | ⟨rfl, h₁, -⟩
  · rw [h₁] at hs
    refine hold (fun hc => ?_) (schedulable_not_over hs).1 (schedulable_not_over hs).2
      (h.mapped i hi hs)
    subst hc
    have hl := run_state s pc (.claim (some i)) i
    dsimp only at hl
    rw [if_pos rfl, h₁] at hl
    rw [hl] at hs
    exact absurd hs (by decide)
  · rw [h₁] at hs
    exact absurd hs (by decide)
  · rcases h₃ with ⟨hu, rfl⟩ | ⟨reap, -, rfl⟩
    · exact hold nofun (by rw [h₁]; decide) (by rw [h₁]; decide)
        (h.made s.current i (congrArg Pc.made hu))
    · rw [h₂] at hs
      exact absurd hs (by decide)
  · refine hold (fun hc => ?_) (by rw [h₁]; decide) (by rw [h₁]; decide)
      (h.mapped i hi (by rw [h₁]; decide))
    rcases h₂ with ⟨rfl, -⟩ | ⟨code, rfl, -⟩ <;> cases hc
  · exact hold nofun (by rw [h₁]; decide) (by rw [h₁]; decide) (h.mapped i hi (by rw [h₁]; decide))
  · exact hold nofun (by rw [h₁]; decide) (by rw [h₁]; decide) (h.mapped i hi (by rw [h₁]; decide))

theorem Stacked.run_over (h : Stacked s) (hsched : Scheduled s) (hdist : Distinct s)
    (hadv : advance s s.here.pc a = some (stmt, pc)) (hfresh : FreshPid s a) {p i : ℕ}
    (hq : Queued ((s.goto pc).run stmt) p) (hi : i < processCount)
    (he : (((s.goto pc).run stmt).table i).state ≠ .empty)
    (hip : (((s.goto pc).run stmt).table i).pid = p) :
    (((s.goto pc).run stmt).table i).state.over ∨ i = ((s.goto pc).run stmt).current ∧
      (((s.goto pc).run stmt).thread i).pc.queued = true := by
  have hend := (advance_end hadv).2.1
  have hinv := advance_inv hadv
  rcases run_queued hadv hq with hold | rfl
  · -- the stack was queued before
    have hpid : (s.table i).pid = p ∧ stmt ≠ .claim (some i) := by
      rcases run_pid_cases s pc stmt i with hp | ⟨hc, hp⟩
      · refine ⟨hp ▸ hip, fun hc => ?_⟩
        have hp' := run_pid s pc (.claim (some i)) i
        dsimp only at hp'
        rw [if_pos rfl] at hp'
        subst hc
        exact (freshPid_claim hadv hfresh rfl).1 (hp' ▸ hip ▸ hold)
      · exact absurd (hp ▸ hip ▸ hold) (freshPid_claim hadv hfresh hc).1
    obtain ⟨hpid, hnc⟩ := hpid
    have hei := (hsched.run_not_empty hadv hi he).resolve_right hnc
    rcases h.queued p hold i hi hei hpid with ho | ⟨rfl, ht⟩
    · refine .inl ?_
      rcases hsched.state_run hadv hi with h₁ | ⟨hc, -⟩ | ⟨_, -, h₁, -⟩ | ⟨-, h₁, -⟩ |
        ⟨_, -, h₁, -⟩ | ⟨-, h₁, -⟩
      · exact h₁ ▸ ho
      · exact absurd hc hnc
      all_goals exact absurd ho (by rw [h₁]; decide)
    · rcases hend ht with ⟨hpc, rfl⟩ | ⟨code, rfl⟩
      · exact .inr ⟨rfl, (congrArg Pc.queued (run_pc_here s pc .skip rfl)).trans hpc⟩
      · refine .inl ?_
        rcases hsched.state_run hadv hi with h₁ | ⟨hc, -⟩ | ⟨_, hc, -⟩ | ⟨-, -, h₁⟩ |
          ⟨_, -, h₁, -⟩ | ⟨hc, -⟩
        · have hrun := (hsched.here hi).trans (congrArg Pc.expects hinv.1)
          have hset : (((s.goto pc).run (.exit code)).table s.current).state = .exited ∨
              (((s.goto pc).run (.exit code)).table s.current).state = .ready := by
            rw [run_state]
            rcases wakeWaitersFor_state (processSetState s.table s.current .exited code) s.current
              s.currentPid with hw | ⟨-, hw⟩
            · exact .inl (hw.trans (by rw [processSetState_apply, if_pos rfl]))
            · exact .inr hw
          rw [h₁, hrun] at hset
          rcases hset with hset | hset <;> cases hset
        · cases hc
        · cases hc
        · rcases h₁ with ⟨hc, -⟩ | ⟨_, -, h₁⟩
          · cases hc
          · rw [h₁]; decide
        · have hrun := (hsched.here hi).trans (congrArg Pc.expects hinv.1)
          rw [hrun] at h₁
          cases h₁
        · cases hc
  · -- the running process queues its own
    obtain ⟨code, hu, rfl, rfl⟩ := hinv
    have hin : s.inProcess := by
      by_contra hn
      have hc : s.current = processCount := le_antisymm hsched.bound (not_lt.mp hn)
      have hl := h.console
      rw [← hc, show (s.thread s.current).pc = .queue code from hu] at hl
      cases hl
    have hown : s.here.pid = (s.table s.current).pid :=
      h.frame s.current (by rw [show (s.thread s.current).pc = .queue code from hu]; nofun)
        (by rw [show (s.thread s.current).pc = .queue code from hu]; nofun)
    have hpid : (s.table i).pid = (s.table s.current).pid := by
      rw [← hown, ← hip, run_pid]
    have hei : (s.table i).state ≠ .empty := by rwa [run_state] at he
    have hcur : (s.table s.current).state ≠ .empty := by
      rw [hsched.here hin, hu]
      nofun
    obtain rfl := hdist i hi s.current hin hei hcur hpid
    exact .inr ⟨rfl, congrArg Pc.queued (run_pc_here s _ (.queueStack s.here.pid) rfl)⟩

theorem Stacked.run_frame (h : Stacked s) (hadv : advance s s.here.pc a = some (stmt, pc)) {i : ℕ}
    (hd : (((s.goto pc).run stmt).thread i).pc ≠ .dead)
    (hs : (((s.goto pc).run stmt).thread i).pc ≠ .start) :
    (((s.goto pc).run stmt).thread i).pid = (((s.goto pc).run stmt).table i).pid := by
  have hgoto : ((s.goto pc).thread i).pid = (s.thread i).pid := by
    rw [goto_thread]
    split_ifs with hc
    · rw [hc]
      rfl
    · rfl
  have hold : stmt.resets i = none ∧ ((stmt = .locals ∧ i = s.current) ∨
      (s.thread i).pid = (s.table i).pid) := by
    rcases run_pc_cases s pc stmt i with hp | hp | ⟨hr, hi, -⟩ | ⟨hr, -, hp⟩
    · exact absurd hp hd
    · exact absurd hp hs
    · refine ⟨hr, ?_⟩
      rcases (advance_end hadv).2.2.2.2 with hl | ⟨hd, hs⟩
      · exact .inl ⟨hl, hi⟩
      · rw [hi]
        exact .inr (h.frame s.current hd hs)
    · rw [hp] at hd hs
      exact ⟨hr, .inr (h.frame i hd hs)⟩
  obtain ⟨hr, ⟨rfl, rfl⟩ | hold⟩ := hold
  · rw [run_thread, run_pid]
    dsimp only
    rw [if_pos rfl]
    rfl
  · rw [run_thread, run_pid]
    cases stmt with
    | locals =>
      dsimp only
      split_ifs with hc
      · rw [hc]
        rfl
      · exact hgoto.trans hold
    | claim slot =>
      cases slot with
      | none => exact hgoto.trans hold
      | some c =>
        have hi : i ≠ c := fun hi => by simp [Stmt.resets, hi] at hr
        dsimp only
        rw [if_neg hi, if_neg hi]
        exact hgoto.trans hold
    | install l =>
      have hi : i ≠ l.index := fun hi => by simp [Stmt.resets, hi] at hr
      dsimp only
      rw [if_neg hi]
      exact hgoto.trans hold
    | _ => exact hgoto.trans hold

theorem Stacked.run_torn (h : Stacked s) (hspace : Spaces s)
    (hadv : advance s s.here.pc a = some (stmt, pc)) {i : ℕ}
    (ht : (((s.goto pc).run stmt).thread i).pc.torn = true) :
    i = ((s.goto pc).run stmt).current ∧ ((((s.goto pc).run stmt).table i).pml4Phys = 0 ∨
      (((s.goto pc).run stmt).table i).pml4Phys ∉ ((s.goto pc).run stmt).held) := by
  rcases run_pc_cases s pc stmt i with hp | hp | ⟨-, rfl, hp⟩ | ⟨-, hi, hp⟩ <;> rw [hp] at ht
  · cases ht
  · cases ht
  · rcases (advance_end hadv).1 ht with ⟨ht, v, rfl⟩ | ⟨⟨code, hu⟩, ⟨rfl, h0⟩ | rfl⟩
    · exact ⟨rfl, (h.torn s.current ht).2⟩
    all_goals
      have hown : s.here.pml4Phys = (s.table s.current).pml4Phys :=
        hspace.frame s.current (congrArg Pc.cleared hu)
    · exact ⟨rfl, .inl (hown ▸ h0)⟩
    · refine ⟨rfl, .inr ?_⟩
      rw [run_pml4Phys, run_held, hown]
      exact Finset.notMem_erase _ _
  · exact absurd (h.torn i ht).1 hi

theorem Stacked.run_console (h : Stacked s)
    (hadv : advance s s.here.pc a = some (stmt, pc)) :
    (((s.goto pc).run stmt).thread processCount).pc.leaving = false := by
  rcases run_pc_cases s pc stmt processCount with hp | hp | ⟨-, hi, hp⟩ | ⟨-, -, hp⟩ <;> rw [hp]
  · rfl
  · rfl
  · refine (advance_end hadv).2.2.2.1 ?_ ?_
    · rw [State.inProcess, ← hi]
      exact lt_irrefl _
    · rw [State.here, ← hi]
      exact h.console
  · exact h.console

/-- No code goes from elsewhere into the loop of a process that has ended. -/
theorem advance_back {q : Pc} (hadv : advance s q a = some (stmt, pc))
    (hne : ∀ n, stmt ≠ .switchTo n) (h : q.returned = false) : pc.returned = false := by
  revert hadv hne h
  fun_cases advance s q a
  all_goals
    intro hadv hne h
    try cases hadv
  all_goals try split_ifs
  all_goals first
    | rfl
    | exact absurd rfl (hne _)
    | (cases ‹Waiting› <;> rfl)
    | (cases ‹Yield› <;> first | rfl | cases h)
    | skip
  rcases afterClaim_cases s ‹Elf› (spawnSlot s.table) with h | ⟨c, -, h | h⟩ <;> rw [h] <;> rfl

theorem returned_of_leaving {q : Pc} (h : q.leaving = false) : q.returned = false := by
  cases q with
  | drain y k => cases y <;> first | rfl | cases h
  | unmap y k p => cases y <;> first | rfl | cases h
  | _ => rfl

theorem Stacked.run_back (h : Stacked s) (hsched : Scheduled s)
    (hadv : advance s s.here.pc a = some (stmt, pc)) :
    ((s.goto pc).run stmt).here.pc.returned = false := by
  by_cases hsw : ∃ next, stmt = .switchTo next
  · obtain ⟨next, rfl⟩ := hsw
    obtain ⟨y, hu, rfl⟩ := advance_inv hadv
    obtain ⟨hle, hready⟩ := hsched.chosen y next hu
    have hpc : ((s.goto (.drain y 0)).run (.switchTo next)).here.pc =
        if next = s.current then .drain y 0 else (s.thread next).pc := goto_pc s _ next
    rw [hpc]
    split_ifs with hcur
    · -- only the console finds nothing but itself
      subst hcur
      by_cases hin : s.current < processCount
      · have hexp := (hready hin).symm.trans ((hsched.here hin).trans (congrArg Pc.expects hu))
        cases y <;> cases hexp
      · have hc : s.current = processCount := le_antisymm hsched.bound (not_lt.mp hin)
        have hl := h.console
        rw [← hc, show (s.thread s.current).pc = .switch y s.current from hu] at hl
        cases y
        · rfl
        · cases hl
    · by_cases hlt : next < processCount
      · exact returned_of_expects
          (hsched.resumes next hlt hcur (by rw [hready hlt]; decide))
      · obtain rfl : next = processCount := le_antisymm hle (not_lt.mp hlt)
        exact returned_of_leaving h.console
  · have hcur : ((s.goto pc).run stmt).current = s.current := by
      rw [run_current]
      cases stmt with
      | switchTo next => exact absurd ⟨next, rfl⟩ hsw
      | _ => rfl
    rw [State.here, hcur]
    rcases run_pc_cases s pc stmt s.current with hp | hp | ⟨-, -, hp⟩ | ⟨-, hi, -⟩
    · rw [hp]
      rfl
    · rw [hp]
      rfl
    · rw [hp]
      exact advance_back hadv (fun n hn => hsw ⟨n, hn⟩) h.back
    · exact absurd rfl hi

theorem Stacked.run (h : Stacked s) (hsched : Scheduled s) (hdist : Distinct s) (hspace : Spaces s)
    (hirq : s.here.irq = false) (hadv : advance s s.here.pc a = some (stmt, pc))
    (hfresh : FreshPid s a) : Stacked ((s.goto pc).run stmt) where
  mapped := fun _ hi hs => h.run_schedulable hsched hadv hi hs
  loader := fun _ _ hl => h.run_loader hsched hadv hl
  made := fun _ _ hc => h.run_made hsched hadv hc
  queued := fun _ hq _ hi he hip => h.run_over hsched hdist hadv hfresh hq hi he hip
  frame := fun _ hd hs => h.run_frame hadv hd hs
  calm := fun i hi => by
    obtain ⟨hc, hr, hold⟩ := run_irq s pc stmt i hirq hi
    rw [run_pc, hr, Option.getD_none, if_neg hc]
    exact h.calm i hold
  preempted := fun i hlt hi => by
    obtain ⟨hc, hr, hold⟩ := run_irq s pc stmt i hirq hi
    rw [run_pc, hr, Option.getD_none, if_neg hc]
    exact h.preempted i hlt hold
  torn := fun _ ht => h.run_torn hspace hadv ht
  console := h.run_console hadv
  back := h.run_back hsched hadv

end Run

/-- **One step keeps the stacks.** -/
theorem Stacked.step (h : Stacked s) (hsched : Scheduled s) (hdist : Distinct s) (hspace : Spaces s)
    {a : Action} (hg : CalmTeardown s a) (hs : step s a = some s') : Stacked s' := by
  rcases step_cases hs with ⟨-, -, rfl⟩ | ⟨rfl, -, hp, next, hn, rfl⟩ | ⟨-, hirq, rfl⟩ |
    ⟨-, hirq, stmt, pc, hadv, rfl⟩
  · exact h
  · exact h.preempt hsched hp hn (hg.2.2 rfl hp)
  · exact h.finishIrq hsched hirq
  · exact h.run hsched hdist hspace hirq hadv hg.2.1

theorem stacked_of_reach {s : State} (h : Reach Boot CalmTeardown step s) :
    Scheduled s ∧ Spaces s ∧ Stacked s := by
  have hall := h.inv (I := fun s => Scheduled s ∧ Distinct s ∧ Spaces s ∧ Stacked s)
    (fun _ hb => ⟨scheduled_boot hb, distinct_boot hb, spaces_boot hb, stacked_boot hb⟩)
    fun _ _ _ ⟨hc, hd, hp, hk⟩ hg hs =>
      ⟨hc.step hg.1 hs, hd.step hc hg.2.1.table hs, hp.step hs, hk.step hc hd hp hg hs⟩
  exact ⟨hall.1, hall.2.2⟩

end Rymos
