import Mathlib.Tactic
import Rymos.Base.Requeue
import Rymos.Sched.Steps

/-!
# Whom preemption reaches

Processes that compute and never call the kernel are switched by ticks alone.

* `readySlots`, `turnOf`: the slots that are `Ready`, and the state as one of `Requeue`.
* **`turnOf_maybePreempt`**: a tick runs the least ready slot and puts the preempted one back.
* `runsProcess_iterate`, `iterate_running`: the same for any number of ticks.
* `ReachesAll`, **`reachesAll_iff`**: when every ready slot gets to run; `not_reachesAll_threeSlots`.
-/

namespace Rymos

open Requeue

def readySlots (table : Table) : Finset ℕ :=
  (Finset.range processCount).filter fun i => (table i).state = .ready

/-- The running slot and the ready ones. -/
def turnOf (s : State) : Turn ℕ := ⟨s.current, readySlots s.table⟩

/-- A process runs, and its slot says so. -/
def RunsProcess (s : State) : Prop := s.inProcess ∧ (s.table s.current).state = .running

instance (s : State) : Decidable (RunsProcess s) := inferInstanceAs (Decidable (_ ∧ _))

theorem mem_readySlots {table : Table} {i : ℕ} :
    i ∈ readySlots table ↔ i < processCount ∧ (table i).state = .ready := by
  simp [readySlots]

/-- `pick_next_ready` returns the least ready slot. -/
theorem pickNextReady_eq_min {table : Table} {next : ℕ} (h : pickNextReady table = some next) :
    next ∈ readySlots table ∧ ∀ x ∈ readySlots table, next ≤ x := by
  refine ⟨mem_readySlots.mpr (pickNextReady_eq_some h), fun x hx => ?_⟩
  obtain ⟨hlt, hready⟩ := mem_readySlots.mp hx
  obtain ⟨-, as, bs, hsplit, hbefore⟩ := List.find?_eq_some_iff_append.mp h
  by_contra hgt
  have hlen : as.length = next := by
    have hn : next < processCount := (pickNextReady_eq_some h).1
    have hat : (List.range processCount)[as.length]? = some next := by simp [hsplit]
    rw [List.getElem?_range (by
      have := congrArg List.length hsplit
      simp only [List.length_range, List.length_append, List.length_cons] at this
      omega)] at hat
    exact Option.some.inj hat
  have hmem : x ∈ as := by
    have hat : (List.range processCount)[x]? = some x := List.getElem?_range hlt
    rw [hsplit, List.getElem?_append_left (by omega)] at hat
    exact List.mem_of_getElem? hat
  have hno := hbefore x hmem
  simp [hready] at hno

section Tick

variable {s : State}

/-- What a tick does to the states of the slots. -/
theorem maybePreempt_cases (h : RunsProcess s) :
    (readySlots s.table = ∅ ∧ maybePreempt s = s) ∨
      ∃ next ∈ readySlots s.table, (∀ x ∈ readySlots s.table, next ≤ x) ∧
        maybePreempt s = s.interrupted.switchTo next := by
  rw [maybePreempt]
  cases hp : pickNextReady s.table with
  | none =>
    refine .inl ⟨?_, by split_ifs <;> rfl⟩
    refine Finset.eq_empty_of_forall_notMem fun i hi => ?_
    obtain ⟨hlt, hready⟩ := mem_readySlots.mp hi
    have := scan_eq_none.mp hp i hlt
    simp [hready] at this
  | some next =>
    obtain ⟨hmem, hle⟩ := pickNextReady_eq_min hp
    have hpre : s.Preempts := ⟨fun _ => h.2, by rw [hp]; rfl⟩
    exact .inr ⟨next, hmem, hle, if_pos hpre⟩

theorem preempt_state {next : ℕ} (h : RunsProcess s) (hn : next < processCount) (i : ℕ) :
    ((s.interrupted.switchTo next).table i).state =
      if i = next then .running else if i = s.current then .ready else (s.table i).state := by
  rw [switchTo_state, interrupted_state]
  simp only [hn, h.1, true_and]

theorem RunsProcess.maybePreempt (h : RunsProcess s) : RunsProcess (maybePreempt s) := by
  rcases maybePreempt_cases h with ⟨-, he⟩ | ⟨next, hmem, -, he⟩
  · rwa [he]
  · rw [he]
    have hn := (mem_readySlots.mp hmem).1
    exact ⟨hn, (preempt_state h hn next).trans (if_pos rfl)⟩

theorem RunsProcess.not_ready (h : RunsProcess s) : s.current ∉ readySlots s.table := by
  intro hmem
  have := (mem_readySlots.mp hmem).2
  rw [h.2] at this
  cases this

/-- **A tick runs the least ready slot and puts the preempted one back.** -/
theorem turnOf_maybePreempt (h : RunsProcess s) : turnOf (maybePreempt s) = (turnOf s).tick := by
  rcases maybePreempt_cases h with ⟨hno, he⟩ | ⟨next, hmem, hle, he⟩
  · rw [he]
    exact (tick_of_empty (s := turnOf s) hno).symm
  · have hn := (mem_readySlots.mp hmem).1
    have hne : next ≠ s.current := fun hc => h.not_ready (hc ▸ hmem)
    rw [he, tick_of_least (s := turnOf s) hmem hle]
    refine congrArg (Turn.mk next) ?_
    ext i
    simp only [mem_readySlots, turnOf, Finset.mem_insert, Finset.mem_erase, preempt_state h hn]
    by_cases hi : i = next
    · subst hi
      simp [hne]
    · by_cases hc : i = s.current
      · subst hc
        have hin : s.current < processCount := h.1
        simp [hi, hin]
      · simp [hi, hc]

/-- The end of an interrupt changes neither: ticks may follow each other with it or without. -/
theorem turnOf_finishIrq (s : State) : turnOf (finishIrq s) = turnOf s := rfl

theorem runsProcess_iterate (h : RunsProcess s) (k : ℕ) :
    RunsProcess (Rymos.maybePreempt^[k] s) ∧
      turnOf (Rymos.maybePreempt^[k] s) = Turn.tick^[k] (turnOf s) := by
  induction k with
  | zero => exact ⟨h, rfl⟩
  | succ k ih =>
    rw [Function.iterate_succ_apply', Function.iterate_succ_apply', ← ih.2]
    exact ⟨ih.1.maybePreempt, turnOf_maybePreempt ih.1⟩

/-- Of the slots that were ready at first, those are `Running` that run. -/
theorem iterate_running (h : RunsProcess s) {i : ℕ} (hi : i ∈ readySlots s.table) (k : ℕ) :
    ((Rymos.maybePreempt^[k] s).table i).state = .running ↔
      (Rymos.maybePreempt^[k] s).current = i := by
  have hkept : ∀ k, i = (Rymos.maybePreempt^[k] s).current ∨
      i ∈ readySlots (Rymos.maybePreempt^[k] s).table := by
    intro k
    induction k with
    | zero => exact .inr hi
    | succ k ih =>
      rw [Function.iterate_succ_apply']
      set t := Rymos.maybePreempt^[k] s
      have ht : RunsProcess t := (runsProcess_iterate h k).1
      rcases maybePreempt_cases ht with ⟨-, he⟩ | ⟨next, hmem, -, he⟩
      · rwa [he]
      · rw [he]
        by_cases hin : i = next
        · exact .inl hin
        · refine .inr (mem_readySlots.mpr ⟨(mem_readySlots.mp hi).1, ?_⟩)
          rw [preempt_state ht (mem_readySlots.mp hmem).1, if_neg hin]
          split_ifs with hc
          · rfl
          · exact (mem_readySlots.mp (ih.resolve_left hc)).2
  have hrun := (runsProcess_iterate h k).1
  constructor
  · intro hr
    rcases hkept k with hc | hready
    · exact hc.symm
    · rw [(mem_readySlots.mp hready).2] at hr
      cases hr
  · rintro rfl
    exact hrun.2

end Tick

/-! ## Who gets to run -/

/-- As many ticks as there are ready slots, and one more, make each of these slots `Running` once. -/
def ReachesAll (s : State) : Prop :=
  ∀ i ∈ readySlots s.table, ∃ k ≤ (readySlots s.table).card + 1,
    ((maybePreempt^[k] s).table i).state = .running

/-- **Ticks reach every ready slot** when there is one, or when there are two and both come before the
running one in the table; a third ready slot is never reached. -/
theorem reachesAll_iff {s : State} (h : RunsProcess s) : ReachesAll s ↔
    (readySlots s.table).card ≤ 1 ∨
      (readySlots s.table).card = 2 ∧ ∀ i ∈ readySlots s.table, i < s.current := by
  refine Iff.trans ?_ (served_iff (s := turnOf s) h.not_ready)
  refine forall₂_congr fun i hi => exists_congr fun k => and_congr_right fun _ => ?_
  rw [iterate_running h hi, ← (runsProcess_iterate h k).2]
  rfl

/-- Slot `current` runs, the slots in `ready` are `Ready`. -/
def turnState (current : ℕ) (ready : List ℕ) : State :=
  { boot 1 with
    current := current
    table := fun i =>
      { Process.empty with
        state := if i = current then .running else if i ∈ ready then .ready else .empty } }

/-- Two processes take turns. -/
theorem reachesAll_iff_twoSlots : RunsProcess (turnState 0 [1]) ∧ ReachesAll (turnState 0 [1]) :=
  ⟨by decide, (reachesAll_iff (by decide)).mpr (by decide)⟩

/-- **With three processes one never runs**: slot 0 runs, 1 and 2 are ready, and the ticks go back and
forth between 0 and 1. -/
theorem not_reachesAll_threeSlots : ¬ ∀ s, RunsProcess s → ReachesAll s := by
  intro h
  obtain ⟨k, hk, hr⟩ := h (turnState 0 [1, 2]) (by decide) 2 (by decide)
  have hcard : (readySlots (turnState 0 [1, 2]).table).card = 2 := by decide
  rw [hcard] at hk
  interval_cases k <;> revert hr <;> decide

end Rymos
