import Mathlib.Tactic
import Rymos.Sched.Runnable

/-!
# Pids

* `FreshTable`: a spawn hands out no pid that a slot of the table still has.
* **`Distinct`**: no two slots have one pid. **`Distinct.step`**.
* `run_pid_cases`, `run_parentPid_cases`, `Scheduled.run_not_empty`: what a statement does to them.
-/

namespace Rymos

open Transition

variable {s s' : State}

/-- The pid a spawn hands out is that of no other slot. -/
def FreshTable (s : State) : Action → Prop
  | .spawn _ => ∀ c ∈ spawnSlot s.table, ∀ i < processCount, i ≠ c → (s.table i).state ≠ .empty →
      (s.table i).pid ≠ s.nextPid
  | _ => True

instance decidableFreshTable (s : State) (a : Action) : Decidable (FreshTable s a) := by
  cases a <;> unfold FreshTable <;> infer_instance

def Distinct (s : State) : Prop :=
  ∀ i < processCount, ∀ j < processCount, (s.table i).state ≠ .empty →
    (s.table j).state ≠ .empty → (s.table i).pid = (s.table j).pid → i = j

theorem distinct_boot {s : State} (h : Boot s) : Distinct s := by
  obtain ⟨k, rfl⟩ := h
  exact fun i _ j _ he => absurd rfl he

section Run

variable {a : Action} {pc : Pc} {stmt : Stmt}

/-- The pid of a slot changes by a spawn into it only. -/
theorem run_pid_cases (s : State) (pc : Pc) (stmt : Stmt) (i : ℕ) :
    (((s.goto pc).run stmt).table i).pid = (s.table i).pid ∨
      stmt = .claim (some i) ∧ (((s.goto pc).run stmt).table i).pid = s.nextPid := by
  rw [run_pid]
  cases stmt with
  | claim slot =>
    cases slot with
    | none => exact .inl rfl
    | some c =>
      dsimp only
      split_ifs with hi
      · exact .inr ⟨by rw [hi], rfl⟩
      · exact .inl rfl
  | _ => exact .inl rfl

theorem Scheduled.run_not_empty (h : Scheduled s) (hadv : advance s s.here.pc a = some (stmt, pc))
    {i : ℕ} (hi : i < processCount) (he : (((s.goto pc).run stmt).table i).state ≠ .empty) :
    (s.table i).state ≠ .empty ∨ stmt = .claim (some i) := by
  rcases h.state_run hadv hi with h₁ | ⟨rfl, -⟩ | ⟨_, -, h₁, -⟩ | ⟨-, h₁, -⟩ | ⟨_, -, h₁, -⟩ |
    ⟨-, h₁, -⟩
  · exact .inl (h₁ ▸ he)
  · exact .inr rfl
  all_goals exact .inl (by rw [h₁]; decide)

/-- The slot of a loader keeps its pid. -/
theorem Scheduled.run_child_pid (h : Scheduled s) (hadv : advance s s.here.pc a = some (stmt, pc))
    {i c : ℕ} (hc : (s.thread i).pc.child = some c) :
    (((s.goto pc).run stmt).table c).pid = (s.table c).pid := by
  rcases run_pid_cases s pc stmt c with he | ⟨rfl, -⟩
  · exact he
  · obtain ⟨-, hslot, -⟩ := advance_inv hadv
    exact absurd (by rw [(h.loading i c hc).2]; decide) (spawnSlot_not_alive hslot.symm)

theorem FreshTable.claim {c : ℕ} (h : FreshTable s a)
    (hadv : advance s s.here.pc a = some (.claim (some c), pc)) :
    ∀ i < processCount, i ≠ c → (s.table i).state ≠ .empty → (s.table i).pid ≠ s.nextPid := by
  obtain ⟨-, hslot, elf, rfl, -⟩ := advance_inv hadv
  exact h c hslot.symm

theorem Distinct.run (h : Distinct s) (hsched : Scheduled s)
    (hadv : advance s s.here.pc a = some (stmt, pc)) (hfresh : FreshTable s a) :
    Distinct ((s.goto pc).run stmt) := by
  intro i hi j hj hei hej he
  by_contra hne
  -- a slot that is in use is that of a spawn, or was in use with its pid
  have hold : ∀ k < processCount, (((s.goto pc).run stmt).table k).state ≠ .empty →
      stmt = .claim (some k) ∧ (((s.goto pc).run stmt).table k).pid = s.nextPid ∨
        (s.table k).state ≠ .empty ∧ (((s.goto pc).run stmt).table k).pid = (s.table k).pid := by
    intro k hk hek
    rcases run_pid_cases s pc stmt k with hp | hp
    · rcases hsched.run_not_empty hadv hk hek with hek | rfl
      · exact .inr ⟨hek, hp⟩
      · have hp' := run_pid s pc (.claim (some k)) k
        dsimp only at hp'
        rw [if_pos rfl] at hp'
        exact .inl ⟨rfl, hp'⟩
    · exact .inl hp
  rcases hold i hi hei with ⟨rfl, hpi⟩ | ⟨hoi, hpi⟩ <;>
    rcases hold j hj hej with ⟨hcj, hpj⟩ | ⟨hoj, hpj⟩ <;> rw [hpi, hpj] at he
  · cases hcj
    exact hne rfl
  · exact hfresh.claim hadv j hj (Ne.symm hne) hoj he.symm
  · subst hcj
    exact hfresh.claim hadv i hi hne hoi he
  · exact hne (h i hi j hj hoi hoj he)

end Run

/-- A tick takes no slot into use. -/
theorem preempt_not_empty {next i : ℕ} (hp : s.Preempts) (hn : pickNextReady s.table = some next)
    (he : ((s.interrupted.switchTo next).table i).state ≠ .empty) : (s.table i).state ≠ .empty := by
  rcases state_preempt hp hn i with h | ⟨-, h, -⟩ | ⟨-, h, -⟩
  · exact h ▸ he
  · rw [h]
    decide
  · rw [h]
    decide

/-- **One step keeps the pids distinct.** -/
theorem Distinct.step (h : Distinct s) (hsched : Scheduled s) {a : Action} (hg : FreshTable s a)
    (hs : step s a = some s') : Distinct s' := by
  rcases step_cases hs with ⟨-, -, rfl⟩ | ⟨-, -, hp, next, hn, rfl⟩ | ⟨-, -, rfl⟩ |
    ⟨-, -, stmt, pc, hadv, rfl⟩
  · exact h
  · have hpid : ∀ i, ((s.interrupted.switchTo next).table i).pid = (s.table i).pid :=
      fun i => preempt_same (·.pid) s next i fun _ _ => rfl
    intro i hi j hj hei hej he
    rw [hpid, hpid] at he
    exact h i hi j hj (preempt_not_empty hp hn hei) (preempt_not_empty hp hn hej) he
  · exact h
  · exact h.run hsched hadv hg

end Rymos
