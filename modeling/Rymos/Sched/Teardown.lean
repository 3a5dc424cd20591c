import Mathlib.Tactic
import Rymos.Sched.Stacks

/-!
# A process that can be scheduled keeps its address space and its stack

* `KeepsSpace`, `KeepsStacks`: the PML4 and the stack of every such process are still its own.
* `LoadsHeld`, `FreesOver`: what a step may load into CR3, and whose stack it may free.
* **`keepsResources_of_reach`**: in a run without a tick in a teardown they hold, but for the PML4 of a
  process between its own free of it and `pml4_phys = 0`.
* `not_keepsResources_tornRun`: a tick between the two.
-/

namespace Rymos

open Transition Ownership

variable {s s' : State}

def KeepsSpace (s : State) : Prop :=
  ∀ i < processCount, (s.table i).state.schedulable →
    (s.table i).pml4Phys = 0 ∨ (s.table i).pml4Phys ∈ s.held

def KeepsStacks (s : State) : Prop :=
  ∀ i < processCount, (s.table i).state.schedulable → (s.table i).pid ∈ s.mapped

/-- `switch_to` loads a page that is not free. -/
def LoadsHeld (s : State) (a : Action) : Prop :=
  ∀ next s', switchCall s a = some next → step s a = some s' → s'.cr3 ∈ s'.held

/-- The stacks a step frees are those of processes that are over and do not run. -/
def FreesOver (s : State) (a : Action) : Prop :=
  ∀ s', step s a = some s' → ∀ p ∈ s.mapped, p ∉ s'.mapped → ∀ i < processCount,
    (s.table i).state ≠ .empty → (s.table i).pid = p → (s.table i).state.over ∧ i ≠ s.current

/-- The running process has freed the PML4 that its slot still names. -/
def Freed (s : State) : Prop := s.here.pc.torn = true ∧ (s.table s.current).pml4Phys ≠ 0

/-- A slot names a page that is not free, unless its code is between the two statements. -/
theorem Spaces.page_held (h : Spaces s) {i : ℕ} (ht : (s.thread i).pc.torn = false) :
    (s.table i).pml4Phys = 0 ∨ (s.table i).pml4Phys ∈ s.held := by
  by_cases h0 : (s.table i).pml4Phys = 0
  · exact .inl h0
  · exact .inr (h.owned.within (.slot i) _ (pageOf_slot.mpr ⟨rfl, h0, ht⟩))

theorem Spaces.target_held (h : Spaces s) {i : ℕ} (ht : (s.thread i).pc.torn = false) :
    s.targetPml4 i ∈ s.held := by
  rw [State.targetPml4]
  split_ifs with h0
  · exact (h.page_held ht).resolve_left h0
  · exact h.owned.within .kernel _ rfl

theorem Stacked.keepsSpace (h : Stacked s) (hsched : Scheduled s) (hspace : Spaces s) :
    KeepsSpace s ↔ ¬ Freed s := by
  constructor
  · rintro hk ⟨ht, h0⟩
    have hin : s.inProcess := by
      by_contra hn
      have hc : s.current = processCount := le_antisymm hsched.bound (not_lt.mp hn)
      have hl := h.console
      rw [← hc] at hl
      rw [State.here] at ht
      cases hh : (s.thread s.current).pc <;> rw [hh] at ht hl <;>
        first | (cases ht; done) | cases hl
    have hrun : (s.table s.current).state = .running := by
      rw [hsched.here hin]
      cases hh : s.here.pc <;> rw [hh] at ht <;> first | rfl | cases ht
    rcases hk s.current hin (by rw [hrun]; decide) with hz | hm
    · exact h0 hz
    · exact (h.torn s.current ht).2.elim h0 fun hn => hn hm
  · intro hf i _ _
    by_cases ht : (s.thread i).pc.torn = true
    · -- only the running code is there
      obtain ⟨rfl, -⟩ := h.torn i ht
      by_contra hn
      exact hf ⟨ht, fun h0 => hn (.inl h0)⟩
    · exact hspace.page_held (by simpa using ht)

/-- The slot that a step switches to has not freed its PML4. -/
theorem Stacked.loadsHeld (h : Stacked s) (hspace : Spaces s) {a : Action}
    (hg : CalmTeardown s a) : LoadsHeld s a := by
  intro next s' hcall hs
  have htorn : s.here.pc.torn = false → (s.thread next).pc.torn = false := by
    intro hh
    by_contra ht
    obtain ⟨rfl, -⟩ := h.torn next (by simpa using ht)
    exact ht hh
  rcases switchCall_eq_some hcall with ⟨rfl, hp, hn⟩ | ⟨ha, hirq, pc, hadv⟩
  · obtain rfl : s' = s.interrupted.switchTo next := by
      rcases step_cases hs with ⟨-, hp', -⟩ | ⟨-, -, -, n, hn', rfl⟩ | ⟨ht, -⟩ | ⟨ht, -⟩
      · exact absurd hp hp'
      · rw [hn] at hn'
        cases hn'
        rfl
      · cases ht
      · exact absurd rfl ht
    have hcalm := hg.2.2 rfl hp
    have hh : s.here.pc.torn = false := by
      cases hh : s.here.pc <;> rw [hh] at hcalm <;> first | rfl | cases hcalm
    have htarget : (s.interrupted.switchTo next).cr3 = s.targetPml4 next := by
      have := interrupted_same (·.pml4Phys) s next fun _ => rfl
      simp only [State.switchTo, State.targetPml4, this]
      rfl
    rw [htarget]
    exact hspace.target_held (htorn hh)
  · obtain ⟨y, hu, -⟩ := advance_inv hadv
    rcases step_cases hs with ⟨ht, -⟩ | ⟨ht, -⟩ | ⟨-, hi, -⟩ | ⟨-, -, stmt, pc', hadv', rfl⟩
    · exact absurd ht ha
    · exact absurd ht ha
    · rw [hirq] at hi
      cases hi
    · rw [hadv] at hadv'
      cases hadv'
      rw [run_cr3, run_held]
      exact hspace.target_held (htorn (congrArg Pc.torn hu))

theorem Stacked.freesOver (h : Stacked s) (hsched : Scheduled s) (a : Action) : FreesOver s a := by
  intro s' hs p hp hp' i hi he hip
  -- a stack that goes has been queued, and not by the running process for itself
  have hq : Queued s p ∧ s.here.pc.queued = false ∧
      (s.inProcess → s.here.pc.expects = .running) := by
    rcases step_cases hs with ⟨-, -, rfl⟩ | ⟨-, -, -, n, -, rfl⟩ | ⟨-, hirq, rfl⟩ |
      ⟨-, -, stmt, pc, hadv, rfl⟩
    · exact absurd hp hp'
    · exact absurd hp hp'
    · refine ⟨.inl ?_, ?_, fun hin => h.preempted s.current hin hirq⟩
      · by_contra hn
        exact hp' (Finset.mem_filter.mpr ⟨hp, hn⟩)
      · have := h.calm s.current hirq
        rw [State.here]
        cases hh : (s.thread s.current).pc <;> rw [hh] at this <;> first | rfl | cases this
    · rw [Rymos.run_mapped] at hp'
      cases stmt with
      | mapStack pid => exact absurd (Finset.mem_insert_of_mem hp) hp'
      | unmapStack pid =>
        obtain ⟨y, k, hu, -⟩ := advance_inv hadv
        have hpid : pid = p := by
          by_contra hne
          exact hp' (Finset.mem_erase.mpr ⟨Ne.symm hne, hp⟩)
        subst hpid
        refine ⟨.inr ⟨s.current, hsched.bound, congrArg Pc.unmaps hu⟩, congrArg Pc.queued hu, ?_⟩
        have hb := h.back
        rw [hu] at hb ⊢
        cases y
        · exact fun _ => rfl
        · cases hb
      | _ => exact absurd hp hp'
  obtain ⟨hq, hnq, hexp⟩ := hq
  have hover : (s.table i).state.over := by
    rcases h.queued p hq i hi he hip with ho | ⟨rfl, ht⟩
    · exact ho
    · exact absurd ht (by rw [show (s.thread s.current).pc.queued = false from hnq]; exact Bool.false_ne_true)
  refine ⟨hover, fun hc => ?_⟩
  subst hc
  rw [hsched.here hi, hexp hi] at hover
  exact absurd hover (by decide)

/-- **A process that can be scheduled keeps its PML4 and its stack** in a run of calm teardowns, but for
the PML4 it has freed itself and is about to forget. -/
theorem keepsResources_of_reach {s : State} (h : Reach Boot CalmTeardown step s) :
    (KeepsSpace s ↔ ¬ Freed s) ∧ KeepsStacks s ∧
      ∀ a, CalmTeardown s a → LoadsHeld s a ∧ FreesOver s a := by
  obtain ⟨hsched, hspace, hstack⟩ := stacked_of_reach h
  exact ⟨hstack.keepsSpace hsched hspace, hstack.mapped,
    fun a hg => ⟨hstack.loadsHeld hspace hg, hstack.freesOver hsched a⟩⟩

/-- Two processes; the first one has returned and freed its PML4. -/
def freedRun : List Action :=
  loadRun ++ [.tick, .next, .spawn bareElf, .page 8] ++ List.replicate 7 .next ++ [.exit 5] ++
    List.replicate 4 .next

theorem keepsResources_of_reach_freedRun : ∃ s, exec step (boot 1) freedRun = some s ∧
    ((s.table 0).pml4Phys = 7 ∧ s.held = {1, 8} ∧ s.mapped = {1, 2}) ∧
      (KeepsSpace s ↔ ¬ Freed s) ∧ KeepsStacks s ∧
        ∀ a, CalmTeardown s a → LoadsHeld s a ∧ FreesOver s a := by
  have hrun : (exec step (boot 1) freedRun).map (fun s =>
      ((s.table 0).pml4Phys, s.held, s.mapped)) = some (7, {1, 8}, {1, 2}) := by decide +kernel
  obtain ⟨s, hs, hv⟩ := Option.map_eq_some_iff.mp hrun
  simp only [Prod.mk.injEq] at hv
  have hgood : AllGood CalmTeardown step (boot 1) freedRun := by decide +kernel
  exact ⟨s, hs, hv, keepsResources_of_reach (reach_of_exec (.start ⟨1, rfl⟩) hgood hs)⟩

/-- A tick there lets the second process run, and the next tick goes back to the first. -/
def tornRun : List Action := freedRun ++ [.tick, .next]

/-- **The second tick loads CR3 with the page that is free.** -/
theorem not_keepsResources_tornRun :
    ¬ ∀ s, Reach Boot (fun _ _ => True) step s →
      KeepsSpace s ∧ KeepsStacks s ∧ ∀ a, LoadsHeld s a ∧ FreesOver s a := by
  intro hall
  have hrun : (exec step (boot 1) tornRun).map (fun s => (switchCall s .tick,
      (step s .tick).map fun s' => decide (s'.cr3 ∈ s'.held))) = some (some 0, some false) := by
    decide +kernel
  obtain ⟨s, hs, hv⟩ := Option.map_eq_some_iff.mp hrun
  simp only [Prod.mk.injEq, Option.map_eq_some_iff, decide_eq_false_iff_not] at hv
  obtain ⟨hcall, s', hs', hfree⟩ := hv
  exact hfree (((hall s (reach_of_exec (.start ⟨1, rfl⟩) (allGood_true _ _) hs)).2.2 .tick).1
    0 s' hcall hs')

end Rymos
