import Mathlib.Tactic
import Rymos.Sched.Runnable
import Rymos.Sched.Space

/-!
# Loading a program

* `UndisturbedLoad`: no tick takes the CPU from code that copies segments.
* **`LoadsChild`**: code that copies segments runs under the PML4 of the child, so that the image of
  everybody else is after the load what it was before.
* **`loadsChild_of_reach`**, **`not_loadsChild_splitLoadRun`**.
-/

namespace Rymos

open Transition Ownership

variable {s s' : State}

/-- The load that the code is in, between its two writes of CR3. -/
def Pc.loads : Pc → Option Loader
  | .load l _ _ => some l
  | _ => none

/-- No tick finds something to switch to while the running code copies segments. -/
def UndisturbedLoad (s : State) (a : Action) : Prop :=
  a = .tick → s.Preempts → s.here.pc.loads = none

instance decidableUndisturbedLoad (s : State) (a : Action) : Decidable (UndisturbedLoad s a) :=
  inferInstanceAs (Decidable (_ → _ → _))

/-- The load goes on, undisturbed. -/
def InLoad (l : Loader) (s : State) (a : Action) : Prop :=
  UndisturbedLoad s a ∧ s.here.pc.loads = some l

structure LoadsChild (s : State) : Prop where
  cr3 : ∀ i l, (s.thread i).pc.loads = some l → i = s.current ∧ s.cr3 = l.childPml4
  keeps : ∀ l as s', s.here.pc.loads = some l → AllGood (InLoad l) step s as →
    exec step s as = some s' → ∀ x q, x ≠ .loader s.current → pageOf s x = some q →
      s'.image q = s.image q

theorem advance_loads {a : Action} {pc pc' : Pc} {stmt : Stmt} {l : Loader}
    (h : advance s pc a = some (stmt, pc')) (hl : pc'.loads = some l) :
    stmt = .writeCr3 l.childPml4 ∨
      pc.loads = some l ∧ (stmt = .skip ∨ ∃ addr value, stmt = .store addr value) := by
  revert h hl
  fun_cases advance s pc a
  all_goals
    intro h
    try cases h
  all_goals try split_ifs
  all_goals intro hl
  all_goals first
    | (cases hl; done)
    | exact .inr ⟨hl, .inl rfl⟩
    | exact .inr ⟨hl, .inr ⟨_, _, rfl⟩⟩
    | (cases ‹Yield› <;> cases hl)
    | (cases ‹Waiting› <;> cases hl)
    | skip
  · -- a spawn
    cases hs : spawnSlot s.table with
    | none => rw [hs] at hl; cases hl
    | some c =>
      rw [hs, afterClaim] at hl
      split_ifs at hl <;> cases hl
  · -- `prepare_process` enters the load
    cases hl
    exact .inl rfl

/-- Where the copying code is, and what is in CR3. -/
def LoadsHere (s : State) : Prop :=
  ∀ i l, (s.thread i).pc.loads = some l → i = s.current ∧ s.cr3 = l.childPml4

theorem loadsHere_boot {s : State} (h : Boot s) : LoadsHere s := by
  obtain ⟨k, rfl⟩ := h
  intro i l hl
  simp only [boot] at hl
  split_ifs at hl <;> cases hl

/-- **One step keeps CR3 for the code that copies.** -/
theorem LoadsHere.step (h : LoadsHere s) {a : Action} (hg : UndisturbedLoad s a)
    (hs : step s a = some s') : LoadsHere s' := by
  rcases step_cases hs with ⟨-, -, rfl⟩ | ⟨rfl, -, hp, next, -, rfl⟩ | ⟨-, -, rfl⟩ |
    ⟨-, -, stmt, pc, hadv, rfl⟩
  · exact h
  · -- no code was copying
    intro i l hl
    have hl' : (s.thread i).pc.loads = some l := interrupted_pc s i ▸ hl
    obtain ⟨rfl, -⟩ := h i l hl'
    cases (hg rfl hp).symm.trans hl'
  · intro i l hl
    exact h i l (finishIrq_pc s i ▸ hl)
  · intro i l hl
    rw [run_pc] at hl
    cases hr : stmt.resets i with
    | some q =>
      rw [hr] at hl
      rcases resets_space hr with rfl | rfl <;> cases hl
    | none =>
      rw [hr, Option.getD_none] at hl
      rw [run_current, run_cr3]
      split_ifs at hl with hi
      · -- CR3 has just been written, or is as it was
        rcases advance_loads hadv hl with rfl | ⟨hl, rfl | ⟨addr, value, rfl⟩⟩
        · exact ⟨hi, rfl⟩
        · exact ⟨hi, (h s.current l hl).2⟩
        · exact ⟨hi, (h s.current l hl).2⟩
      · exact absurd (h i l hl).1 hi

theorem loadsHere_of_reach {s : State} (h : Reach Boot UndisturbedLoad step s) : LoadsHere s :=
  h.inv (fun _ => loadsHere_boot) fun _ _ _ hi hg hs => hi.step hg hs

/-- A step of code that copies changes the image under CR3 only. -/
theorem image_of_inLoad (h : LoadsHere s) {l : Loader} {a : Action} (hin : InLoad l s a)
    (hs : step s a = some s') {q : ℕ} (hq : q ≠ l.childPml4) : s'.image q = s.image q := by
  obtain ⟨hg, hl⟩ := hin
  have hcr3 : s.cr3 = l.childPml4 := (h s.current l hl).2
  rcases step_cases hs with ⟨-, -, rfl⟩ | ⟨rfl, -, hp, -⟩ | ⟨-, -, rfl⟩ |
    ⟨-, -, stmt, pc, hadv, rfl⟩
  · rfl
  · cases (hg rfl hp).symm.trans hl
  · rfl
  · rw [run_image]
    have hinv := advance_inv hadv
    cases stmt with
    | alloc page =>
      obtain ⟨-, -, c, elf, hu, -⟩ := hinv
      rw [hu] at hl
      cases hl
    | store addr value =>
      simp only
      rw [hcr3, Function.update_of_ne hq]
    | _ => rfl

theorem image_of_load {l : Loader} {as : List Action} (h : LoadsHere s)
    (hg : AllGood (InLoad l) step s as) (he : exec step s as = some s') {q : ℕ}
    (hq : q ≠ l.childPml4) : s'.image q = s.image q := by
  induction as generalizing s with
  | nil =>
    cases he
    rfl
  | cons a as ih =>
    simp only [exec] at he
    obtain ⟨t, ht, he⟩ := Option.bind_eq_some_iff.mp he
    rw [ih (h.step hg.1.1 ht) (hg.2 t ht) he, image_of_inLoad h hg.1 ht hq]

/-- **An undisturbed load writes into the image of the child only.** -/
theorem loadsChild_of_reach {s : State} (h : Reach Boot UndisturbedLoad step s) : LoadsChild s := by
  have hhere := loadsHere_of_reach h
  refine ⟨hhere, fun l as s' hl hg he x q hx hq => image_of_load hhere hg he fun hqc => hx ?_⟩
  have hchild : pageOf s (.loader s.current) = some l.childPml4 := by
    have hl' : (s.thread s.current).pc.loads = some l := hl
    simp only [pageOf]
    cases hpc : (s.thread s.current).pc <;> rw [hpc] at hl' <;> cases hl'
    rfl
  exact (spaces_of_reach h).owned.one x _ q hq (hqc ▸ hchild)

/-- A program of one byte. -/
def byteElf : Elf := { headerOk := true, segments := [⟨true, appLoadMin, 1, [9]⟩] }

/-- The console runs a program, which loads a second one and begins to load a third. -/
def midLoadRun : List Action :=
  loadRun ++ [.tick, .next, .spawn bareElf, .page 8] ++ List.replicate 7 .next ++
    [.spawn byteElf, .page 9, .next, .next]

theorem loadsChild_of_reach_midLoadRun : ∃ s, exec step (boot 1) midLoadRun = some s ∧
    (s.here.pc.loads.map Loader.childPml4 = some 9 ∧ s.cr3 = 9) ∧ LoadsChild s := by
  have hrun : (exec step (boot 1) midLoadRun).map (fun s =>
      (s.here.pc.loads.map Loader.childPml4, s.cr3)) = some (some 9, 9) := by decide +kernel
  obtain ⟨s, hs, hv⟩ := Option.map_eq_some_iff.mp hrun
  have hgood : AllGood UndisturbedLoad step (boot 1) midLoadRun := by decide +kernel
  exact ⟨s, hs, Prod.mk.inj hv,
    loadsChild_of_reach (reach_of_exec (.start ⟨1, rfl⟩) hgood hs)⟩

/-- A tick in the middle of the load lets the second program run until it has exited. -/
def splitLoadRun : List Action := midLoadRun ++ [.tick] ++ exitRun ++ [.next]

/-- **The rest of the image then goes to the program that loads.** -/
theorem not_loadsChild_splitLoadRun :
    ¬ ∀ s, Reach Boot (fun _ _ => True) step s → LoadsChild s := by
  intro hall
  have hrun : (exec step (boot 1) splitLoadRun).map (fun s =>
      (s.current, s.here.pc.loads.map Loader.childPml4, s.cr3)) = some (0, some 9, 7) := by
    decide +kernel
  obtain ⟨s, hs, hv⟩ := Option.map_eq_some_iff.mp hrun
  simp only [Prod.mk.injEq, Option.map_eq_some_iff] at hv
  obtain ⟨-, ⟨l, hl, hchild⟩, hcr3⟩ := hv
  have := ((hall s (reach_of_exec (.start ⟨1, rfl⟩) (allGood_true _ _) hs)).cr3 s.current l hl).2
  rw [hchild, hcr3] at this
  cases this

end Rymos
