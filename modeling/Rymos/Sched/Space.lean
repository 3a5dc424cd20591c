import Mathlib.Tactic
import Rymos.Base.Ownership
import Rymos.Sched.Steps

/-!
# Who holds which PML4

* `Holder`, `pageOf`: the kernel, a slot until its process frees its PML4, and a loader until it has
  installed or discarded the one it made.
* **`Spaces`**: every PML4 held is handed out and has one holder, at every placement of ticks.
  **`Spaces.step`**, **`spaces_of_reach`**.
-/

namespace Rymos

open Transition Ownership

variable {s s' : State}

/-- Between `destroy_process_address_space` and `pml4_phys = 0`. -/
def Pc.torn : Pc → Bool
  | .cr3 _ | .clear _ => true
  | _ => false

/-- Places before `process_trampoline` has read `pml4_phys`, or after it has cleared it. -/
def Pc.cleared : Pc → Bool
  | .dead | .start | .queue _ | .message _ | .exited _ | .pick .gone | .switch .gone _
  | .drain .gone _ | .unmap .gone _ _ => true
  | _ => false

inductive Holder where
  | kernel
  | slot (i : ℕ)
  | loader (i : ℕ)
deriving DecidableEq

def pageOf (s : State) : Holder → Option ℕ
  | .kernel => some s.kernelPml4
  | .slot i =>
    if (s.table i).pml4Phys = 0 ∨ (s.thread i).pc.torn then none else some (s.table i).pml4Phys
  | .loader i => (s.thread i).pc.space

theorem pageOf_slot {i q : ℕ} : pageOf s (.slot i) = some q ↔
    (s.table i).pml4Phys = q ∧ q ≠ 0 ∧ (s.thread i).pc.torn = false := by
  simp only [pageOf]
  split_ifs with h
  · refine ⟨fun hq => absurd hq (by simp), ?_⟩
    rintro ⟨rfl, hq, ht⟩
    rcases h with h | h
    · exact absurd h hq
    · rw [ht] at h
      cases h
  · push Not at h
    simp only [Option.some.injEq]
    constructor
    · rintro rfl
      exact ⟨rfl, h.1, by simpa using h.2⟩
    · exact fun hq => hq.1

structure Spaces (s : State) : Prop where
  owned : Owned (pageOf s) s.held
  frame : ∀ i, (s.thread i).pc.cleared = false →
    (s.thread i).pml4Phys = (s.table i).pml4Phys

theorem spaces_boot {s : State} (h : Boot s) : Spaces s := by
  obtain ⟨k, rfl⟩ := h
  have hslot : ∀ i q, pageOf (boot k) (.slot i) ≠ some q := by
    intro i q hq
    obtain ⟨h₁, h₂, -⟩ := pageOf_slot.mp hq
    exact h₂ h₁.symm
  have hloader : ∀ i q, pageOf (boot k) (.loader i) ≠ some q := by
    intro i q hq
    simp only [pageOf, boot] at hq
    split_ifs at hq <;> cases hq
  refine ⟨⟨fun x r hx => ?_, fun x y r hx hy => ?_⟩, fun i _ => ?_⟩
  · cases x with
    | kernel =>
      cases hx
      exact Finset.mem_singleton_self k
    | slot i => exact absurd hx (hslot i r)
    | loader i => exact absurd hx (hloader i r)
  · cases x with
    | kernel =>
      cases y with
      | kernel => rfl
      | slot i => exact absurd hy (hslot i r)
      | loader i => exact absurd hy (hloader i r)
    | slot i => exact absurd hx (hslot i r)
    | loader i => exact absurd hx (hloader i r)
  · simp only [boot]
    split_ifs <;> rfl

/-! ## One step -/

/-- Where a statement leaves the PML4s: nothing torn is mended before `pml4_phys = 0`, a loader's
comes from the allocator, and the locals of the trampoline come from the table. -/
theorem advance_space {a : Action} {pc pc' : Pc} {stmt : Stmt}
    (h : advance s pc a = some (stmt, pc')) :
    (pc.torn = true → pc'.torn = true ∨ stmt = .clearPml4) ∧
    (∀ q, pc'.space = some q → pc.space = some q ∨ stmt = .alloc q) ∧
    (pc'.cleared = false → pc.cleared = false ∧ stmt ≠ .clearPml4 ∨ stmt = .locals) := by
  revert h
  fun_cases advance s pc a
  all_goals
    intro h
    try cases h
  all_goals try split_ifs
  all_goals first
    | (simp [Pc.torn, Pc.space, Pc.cleared]; done)
    | (cases ‹Yield› <;> simp [Yield.again, Pc.torn, Pc.space, Pc.cleared])
    | (cases ‹Waiting› <;> simp [Waiting.after, Waiting.missed, Pc.torn, Pc.space, Pc.cleared])
    | skip
  -- a spawn, with or without a slot
  cases spawnSlot s.table with
  | none => simp [afterClaim, Pc.torn, Pc.space, Pc.cleared]
  | some c =>
    rw [afterClaim]
    split_ifs <;> simp [Pc.torn, Pc.space, Pc.cleared]

/-- Nobody holds anything after a statement but what it held, or what the statement gives it. -/
theorem pageOf_run {a : Action} {pc : Pc} {stmt : Stmt}
    (hadv : advance s s.here.pc a = some (stmt, pc)) {x : Holder} {q : ℕ}
    (h : pageOf ((s.goto pc).run stmt) x = some q) :
    pageOf s x = some q ∨ (x = .loader s.current ∧ stmt = .alloc q) ∨
      ∃ l, stmt = .install l ∧ x = .slot l.index ∧ q = l.childPml4 := by
  obtain ⟨htorn, hspace, -⟩ := advance_space hadv
  cases x with
  | kernel =>
    rw [pageOf, run_kernelPml4] at h
    exact .inl h
  | slot i =>
    obtain ⟨hq, hne, ht⟩ := pageOf_slot.mp h
    rw [run_pml4Phys] at hq
    rw [run_pc] at ht
    have hold : stmt.resets i = none → (i = s.current → stmt ≠ .clearPml4) →
        (s.thread i).pc.torn = false := by
      intro hr hc
      rw [hr, Option.getD_none] at ht
      split_ifs at ht with hi
      · by_contra hne'
        rcases htorn (by rw [State.here, ← hi]; simpa using hne') with h' | h'
        · rw [h'] at ht
          cases ht
        · exact hc hi h'
      · exact ht
    cases stmt with
    | claim slot =>
      cases slot with
      | none => exact .inl (pageOf_slot.mpr ⟨hq, hne, hold rfl fun _ => by simp⟩)
      | some c =>
        dsimp only at hq
        split_ifs at hq with hi
        · exact absurd hq.symm hne
        · exact .inl (pageOf_slot.mpr ⟨hq, hne, hold (if_neg hi) fun _ => by simp⟩)
    | install l =>
      dsimp only at hq
      split_ifs at hq with hi
      · exact .inr (.inr ⟨l, rfl, by rw [hi], hq.symm⟩)
      · exact .inl (pageOf_slot.mpr ⟨hq, hne, hold (if_neg hi) fun _ => by simp⟩)
    | clearPml4 =>
      dsimp only at hq
      split_ifs at hq with hi
      · exact absurd hq.symm hne
      · exact .inl (pageOf_slot.mpr ⟨hq, hne, hold rfl fun h => absurd h hi⟩)
    | _ => exact .inl (pageOf_slot.mpr ⟨hq, hne, hold rfl fun _ => by simp⟩)
  | loader i =>
    have hs : (((s.goto pc).run stmt).thread i).pc.space = some q := h
    rw [run_pc] at hs
    cases hr : stmt.resets i with
    | some r =>
      rw [hr] at hs
      rcases resets_space hr with rfl | rfl <;> cases hs
    | none =>
      rw [hr, Option.getD_none] at hs
      split_ifs at hs with hi
      · subst hi
        rcases hspace q hs with hs | rfl
        · exact .inl hs
        · exact .inr (.inl ⟨rfl, rfl⟩)
      · exact .inl hs

/-- Ticks and switches leave every PML4 with its holder. -/
theorem pageOf_congr (hk : s'.kernelPml4 = s.kernelPml4)
    (ht : ∀ i, (s'.table i).pml4Phys = (s.table i).pml4Phys)
    (hp : ∀ i, (s'.thread i).pc = (s.thread i).pc) : pageOf s' = pageOf s := by
  funext x
  cases x with
  | kernel => simp only [pageOf, hk]
  | slot i => simp only [pageOf, ht, hp]
  | loader i => simp only [pageOf, hp]

theorem Spaces.run (h : Spaces s) {a : Action} {pc : Pc} {stmt : Stmt}
    (hadv : advance s s.here.pc a = some (stmt, pc)) :
    Owned (pageOf ((s.goto pc).run stmt)) ((s.goto pc).run stmt).held := by
  have hinv := advance_inv hadv
  -- the running code, if it loads, has lost what its new place does not hold
  have hloader : stmt.resets s.current = none → pc.space = none →
      pageOf ((s.goto pc).run stmt) (.loader s.current) = none := by
    intro hr hs
    simp only [pageOf, run_pc, hr, Option.getD_none, if_pos, hs]
  rw [run_held]
  cases stmt with
  | alloc page =>
    refine h.owned.give (x := .loader s.current) hinv.1 fun y q hy => ?_
    rcases pageOf_run hadv hy with hy | ⟨rfl, he⟩ | ⟨l, he, -⟩
    · exact .inr hy
    · cases he
      exact .inl ⟨rfl, rfl⟩
    · cases he
  | free page =>
    have hsub : ∀ y q, pageOf ((s.goto pc).run (.free page)) y = some q → pageOf s y = some q := by
      intro y q hy
      rcases pageOf_run hadv hy with hy | ⟨-, he⟩ | ⟨l, he, -⟩
      · exact hy
      · cases he
      · cases he
    rcases hinv with ⟨l, hu, rfl, rfl⟩ | ⟨code, hu, rfl, hne, rfl⟩
    · have hx : pageOf s (.loader s.current) = some l.childPml4 := by
        simp only [pageOf]
        exact congrArg Pc.space hu
      refine h.owned.free hx fun y q hy => ⟨?_, hsub y q hy⟩
      rintro rfl
      rw [hloader rfl rfl] at hy
      cases hy
    · have hx : pageOf s (.slot s.current) = some s.here.pml4Phys := by
        refine pageOf_slot.mpr ⟨?_, hne, congrArg Pc.torn hu⟩
        exact (h.frame s.current (congrArg Pc.cleared hu)).symm
      refine h.owned.free hx fun y q hy => ⟨?_, hsub y q hy⟩
      rintro rfl
      have ht := (pageOf_slot.mp hy).2.2
      rw [run_pc] at ht
      simp [Stmt.resets, Pc.torn] at ht
  | install l =>
    obtain ⟨hu, rfl⟩ := hinv
    have hx : pageOf s (.loader s.current) = some l.childPml4 := by
      simp only [pageOf]
      exact congrArg Pc.space hu
    refine h.owned.move (z := .slot l.index) hx fun y q hy => ?_
    rcases pageOf_run hadv hy with hy' | ⟨-, he⟩ | ⟨m, he, hym, hq⟩
    · refine .inr ⟨?_, hy'⟩
      rintro rfl
      have hs : (((s.goto (.ready l.index)).run (.install l)).thread s.current).pc.space = some q := hy
      rw [run_pc] at hs
      simp only [Stmt.resets] at hs
      split_ifs at hs <;> cases hs
    · cases he
    · cases he
      exact .inl ⟨hym, hq⟩
  | _ =>
    refine h.owned.frame fun y q hy => ?_
    rcases pageOf_run hadv hy with hy | ⟨-, he⟩ | ⟨l, he, -⟩
    · exact hy
    · cases he
    · cases he

theorem Spaces.run_frame (h : Spaces s) {a : Action} {pc : Pc} {stmt : Stmt}
    (hadv : advance s s.here.pc a = some (stmt, pc)) (i : ℕ)
    (hi : (((s.goto pc).run stmt).thread i).pc.cleared = false) :
    (((s.goto pc).run stmt).thread i).pml4Phys = (((s.goto pc).run stmt).table i).pml4Phys := by
  rw [run_pc] at hi
  cases hr : stmt.resets i with
  | some r =>
    rw [hr] at hi
    rcases resets_space hr with rfl | rfl <;> cases hi
  | none =>
    rw [hr, Option.getD_none] at hi
    have hold : (stmt = .locals ∧ i = s.current) ∨ (i = s.current → stmt ≠ .clearPml4) ∧
        (s.thread i).pml4Phys = (s.table i).pml4Phys := by
      split_ifs at hi with hc
      · rcases (advance_space hadv).2.2 hi with ⟨hcl, hne⟩ | hl
        · exact .inr ⟨fun _ => hne, h.frame i (hc ▸ hcl)⟩
        · exact .inl ⟨hl, hc⟩
      · exact .inr ⟨fun hic => absurd hic hc, h.frame i hi⟩
    have hgoto : ((s.goto pc).thread i).pml4Phys = (s.thread i).pml4Phys := by
      rw [goto_thread]
      split_ifs with hc
      · rw [hc]
        rfl
      · rfl
    rw [run_thread, run_pml4Phys]
    rcases hold with ⟨rfl, hc⟩ | ⟨hne, hold⟩
    · simp only [hc, if_true]
    · cases stmt with
      | locals =>
        simp only
        split_ifs with hc
        · rw [hc]
        · exact hgoto.trans hold
      | claim slot =>
        cases slot with
        | none => exact hgoto.trans hold
        | some c =>
          simp only
          split_ifs
          · rfl
          · exact hgoto.trans hold
      | install l =>
        have hi : i ≠ l.index := fun hi => by simp [Stmt.resets, hi] at hr
        simp only [if_neg hi]
        exact hgoto.trans hold
      | clearPml4 =>
        have hi : i ≠ s.current := fun hi => hne hi rfl
        simp only [if_neg hi]
        exact hgoto.trans hold
      | _ => exact hgoto.trans hold

/-- **One step keeps every PML4 with its holder.** -/
theorem Spaces.step (h : Spaces s) {a : Action} (hs : step s a = some s') : Spaces s' := by
  rcases step_cases hs with ⟨-, -, rfl⟩ | ⟨rfl, -, -, next, -, rfl⟩ | ⟨-, -, rfl⟩ |
    ⟨-, -, stmt, pc, hadv, rfl⟩
  · exact h
  · have ht : ∀ i, ((s.interrupted.switchTo next).table i).pml4Phys = (s.table i).pml4Phys :=
      fun i => preempt_same (·.pml4Phys) s next i fun _ _ => rfl
    have hp : ∀ i, ((s.interrupted.switchTo next).thread i).pc = (s.thread i).pc :=
      interrupted_pc s
    have hpage : pageOf (s.interrupted.switchTo next) = pageOf s := pageOf_congr rfl ht hp
    refine ⟨hpage ▸ h.owned, fun i hi => ?_⟩
    have hthread : (s.interrupted.thread i).pml4Phys = (s.thread i).pml4Phys := by
      rw [interrupted_thread]
    rw [ht]
    exact hthread.trans (h.frame i (hp i ▸ hi))
  · have hpage : pageOf (finishIrq s) = pageOf s :=
      pageOf_congr rfl (fun _ => rfl) (finishIrq_pc s)
    refine ⟨hpage ▸ h.owned, fun i hi => ?_⟩
    rw [finishIrq_thread]
    exact h.frame i (finishIrq_pc s i ▸ hi)
  · exact ⟨h.run hadv, h.run_frame hadv⟩

theorem spaces_of_reach {good : State → Action → Prop} (h : Reach Boot good Rymos.step s) :
    Spaces s :=
  h.inv (fun _ => spaces_boot) fun _ _ _ hi _ hs => hi.step hs

end Rymos
