import Mathlib.Tactic
import Rymos.Sched.Ledger

/-!
# The console and the process it runs

* `Owns`: what is known of the slot the console works on, at each place of its code, as long as that
  slot still holds the process the console spawned.
* `Pc.ofConsole`: the places that only the console's code goes through.
* **`Owned.step`**.
-/

namespace Rymos

open Transition

variable {s s' : State} {g g' : Ledger}

/-- `run_program` and the `wait` command. -/
def Waiting.ofConsole : Waiting → Bool
  | .run _ _ | .poll _ => true
  | _ => false

/-- The places that only the console's code goes through. -/
def Pc.ofConsole : Pc → Bool
  | .lookup _ _ | .fail _ true | .failCode _ true | .started _ | .reap _ => true
  | .check w | .mark w _ | .read w _ | .find w | .target w | .block w => w.ofConsole
  | .pick (.wait w) | .switch (.wait w) _ | .drain (.wait w) _ | .unmap (.wait w) _ _ => w.ofConsole
  | _ => false

/-- `P` holds of the slot `c` as long as it holds the process the console spawned. -/
def OwnSlot (g : Ledger) (c : ℕ) (P : Prop) : Prop :=
  c < processCount ∧ (g.born c = g.ran → P)

/-- What is known of the slot the console works on. -/
def Owns (s : State) (g : Ledger) : Pc → Prop
  | .lookup c _ | .prepare c _ | .ready c | .fail c _ => g.born c = g.ran
  | .enter l _ | .load l _ _ | .leave l _ | .stack l | .discard l | .install l =>
    g.born l.index = g.ran
  | .readyCode c | .started c => OwnSlot g c ((s.table c).state ≠ .empty)
  | .failCode c true => OwnSlot g c (s.table c).state.over
  | .check (.run c p) | .find (.run c p) | .target (.run c p) | .block (.run c p)
  | .pick (.wait (.run c p)) | .switch (.wait (.run c p)) _ | .drain (.wait (.run c p)) _
  | .unmap (.wait (.run c p)) _ _ =>
    OwnSlot g c ((s.table c).state ≠ .empty ∧ (s.table c).pid = p)
  | .mark (.run c _) d => OwnSlot g c (d = c)
  | .read (.run c _) d => OwnSlot g c (d = c ∧ (s.table c).state.over ∧ (s.table c).waited = true)
  | .reap c => OwnSlot g c ((s.table c).state.over ∧
      ((s.table c).waited = true ∨ g.reported (g.born c) = true))
  | _ => True

/-- What `Owns` says of a slot is kept. -/
structure KeepsSlot (s s' : State) (g g' : Ledger) (c : ℕ) : Prop where
  ended : (s.table c).state.over → (s'.table c).state.over
  used : (s.table c).state ≠ .empty → (s'.table c).state ≠ .empty
  waited : (s.table c).waited = true → (s'.table c).waited = true
  pid : (s'.table c).pid = (s.table c).pid
  reported : g.reported (g.born c) = true → g'.reported (g.born c) = true

theorem OwnSlot.frame {c : ℕ} {P Q : Prop} (h : OwnSlot g c P)
    (hborn : c < processCount → g'.born c = g'.ran → g.born c = g.ran ∧ (P → Q)) :
    OwnSlot g' c Q :=
  ⟨h.1, fun hb => (hborn h.1 hb).2 (h.2 (hborn h.1 hb).1)⟩

/-- A step that is not the console's own keeps what is known. -/
theorem Owns.frame {q : Pc} (h : Owns s g q) (hran : g'.ran = g.ran)
    (hborn : ∀ c < processCount, g'.born c = g.born c ∧ KeepsSlot s s' g g' c ∨ g'.born c ≠ g'.ran)
    (hchild : ∀ c, q.child = some c → g'.born c = g.born c) : Owns s' g' q := by
  have hslot : ∀ {c : ℕ} {P Q : Prop}, OwnSlot g c P →
      (g'.born c = g.born c → KeepsSlot s s' g g' c → P → Q) → OwnSlot g' c Q := by
    intro c P Q hp hpq
    refine hp.frame fun hc hb => ?_
    rcases hborn c hc with ⟨he, hk⟩ | hne
    · exact ⟨by rw [← he, hb, hran], hpq he hk⟩
    · exact absurd hb hne
  have hown : ∀ {c}, q.child = some c → g.born c = g.ran → g'.born c = g'.ran := by
    intro c hc hb
    rw [hchild c hc, hb, hran]
  fun_cases Owns s g q
  case case25 =>
    rw [Owns]
    · trivial
    all_goals assumption
  all_goals rw [Owns] at h
  all_goals first
    | exact hown rfl h
    | exact hslot h fun _ hk => hk.ended
    | exact hslot h fun _ hk => hk.used
    | exact hslot h fun _ hk hp => ⟨hk.used hp.1, hk.pid.trans hp.2⟩
    | exact hslot h fun _ hk hp => hp
    | exact hslot h fun _ hk hp => ⟨hp.1, hk.ended hp.2.1, hk.waited hp.2.2⟩
    | exact hslot h fun he hk hp => ⟨hk.ended hp.1, hp.2.imp hk.waited fun hr => he ▸ hk.reported hr⟩

section Advance

variable {a : Action} {pc q : Pc} {stmt : Stmt}

/-- Only the console's code enters the places of the console. -/
theorem advance_ofConsole (hadv : advance s q a = some (stmt, pc)) (hp : s.inProcess)
    (hq : q.ofConsole = false) : pc.ofConsole = false := by
  revert hadv hq
  fun_cases advance s q a
  all_goals
    intro hadv
    try cases hadv
  all_goals try split_ifs
  all_goals intro hq
  all_goals first
    | rfl
    | exact hq
    | contradiction
    | (cases ‹Waiting› <;> first | rfl | exact hq)
    | (cases ‹Yield› <;> first | rfl | exact hq)
    | (cases ‹Bool› <;> first | rfl | contradiction)
    | skip
  simp only [afterClaim]
  split
  · rfl
  · rw [if_pos hp]
    rfl

theorem find_of_pid {table : Table} {c p : ℕ} (hc : c < processCount) (he : (table c).state ≠ .empty)
    (hp : (table c).pid = p) : (findProcessIndexByPid table p).isSome := by
  by_contra hn
  have := scan_eq_none.mp (Option.not_isSome_iff_eq_none.mp hn) c hc
  simp [hp, he] at this

/-- The statements by which the console's code learns something new of its slot. -/
inductive Learns : Pc → Stmt → Pc → Prop
  | claimed (c : ℕ) (elf : Elf) : Learns .user (.claim (some c)) (.lookup c elf)
  | failed (c : ℕ) : Learns (.fail c true) (.setState c .failed) (.failCode c true)
  | marked (w : Waiting) (c : ℕ) : Learns (.mark w c) (.setWaited c) (.read w c)
  | said (c : ℕ) : Learns (.failCode c true) (.setCode c (-1)) (.reap c)

/-- By the others it goes on with what it knows. -/
theorem advance_owns (hsched : Scheduled s) (hdist : Distinct s) (hp : ¬ s.inProcess)
    (hq : s.here.pc = q) (h : Owns s g q) (hadv : advance s q a = some (stmt, pc)) :
    Owns s g pc ∨ Learns q stmt pc := by
  revert hadv h hq
  fun_cases advance s q a
  all_goals
    intro hq h hadv
    try cases hadv
  all_goals try split_ifs
  all_goals first
    | exact .inl trivial
    | exact .inl h
    | contradiction
    | exact .inr (.marked _ _)
    | (cases ‹Waiting› <;> first | exact .inl trivial | exact .inl h)
    | (cases ‹Yield› with
        | wait w => cases w <;> first | exact .inl trivial | exact .inl h
        | gone => exact .inl trivial)
    | skip
  · -- a spawn
    cases hslot : spawnSlot s.table with
    | none => exact .inl trivial
    | some c =>
      rw [afterClaim, if_neg hp]
      exact .inr (.claimed c _)
  · obtain ⟨hlt, hl⟩ := hsched.loading s.current _ (congrArg Pc.child hq)
    exact .inl ⟨hlt, fun _ => by rw [hl]; decide⟩
  · exact .inl ⟨h.1, fun hb => ⟨h.2 hb, rfl⟩⟩
  · cases ‹Bool›
    · exact .inl trivial
    · exact .inr (.failed _)
  · cases ‹Bool›
    · contradiction
    · exact .inr (.said _)
  · -- the scan of `check`
    rename_i w d hcol
    cases w with
    | run c p =>
      refine .inl ⟨h.1, fun hb => ?_⟩
      obtain ⟨hlt, hpid, -, ho⟩ := processWaitByPid_eq_some hcol
      obtain ⟨he, hp'⟩ := h.2 hb
      exact hdist d hlt c h.1 (by rcases ho with ho | ho <;> rw [ho] <;> decide) he
        (hpid.trans hp'.symm)
    | _ => exact .inl trivial
  · -- `read` returns
    rename_i w d
    cases w with
    | run c p => exact .inl ⟨h.1, fun hb => ⟨(h.2 hb).2.1, .inl (h.2 hb).2.2⟩⟩
    | _ => exact .inl trivial
  · -- the pid is not in the table
    rename_i w hnot
    cases w with
    | run c p =>
      refine .inl ⟨h.1, fun hb => absurd ?_ hnot⟩
      exact find_of_pid h.1 (h.2 hb).1 (h.2 hb).2
    | _ => exact .inl trivial

end Advance

/-! ## One step -/

structure ConsoleOwns (s : State) (g : Ledger) : Prop where
  owns : Owns s g (s.thread processCount).pc
  others : ∀ i < processCount, (s.thread i).pc.ofConsole = false

section Run

variable {a : Action} {pc : Pc} {stmt : Stmt}

theorem enter_reported (g : Ledger) (s : State) (stmt : Stmt) (pc : Pc) {n : ℕ}
    (h : g.reported n = true) : (g.enter s stmt pc).reported n = true := by
  simp only [Ledger.enter]
  split
  · rw [Function.update_apply]
    split_ifs
    · rfl
    · exact h
  · exact h

/-- What a statement other than a spawn into the slot keeps. -/
theorem keeps_run (hsched : Scheduled s) (hadv : advance s s.here.pc a = some (stmt, pc)) {c : ℕ}
    (hc : c < processCount) (hne : stmt ≠ .claim (some c)) :
    KeepsSlot s ((s.goto pc).run stmt) g (g.enter s stmt pc) c where
  ended := hsched.run_over hadv hc hne
  used := fun he h => he ((hsched.run_empty hadv hc).mp h).2
  waited := run_waited_stays s pc hne
  pid := (run_pid_cases s pc stmt c).resolve_right fun h => hne h.1
  reported := enter_reported g s stmt pc

theorem enter_ran (g : Ledger) (s : State) (stmt : Stmt) (pc : Pc)
    (h : s.inProcess ∨ ∀ c, stmt ≠ .claim (some c)) : (g.enter s stmt pc).ran = g.ran := by
  cases stmt with
  | claim slot =>
    cases slot with
    | none => rfl
    | some c => exact h.elim (fun hp => if_pos hp) fun hne => absurd rfl (hne c)
  | _ => rfl

/-- What is known of the console's slot is kept by a statement. -/
theorem Owns.run {q : Pc} (h : Owns s g q) (hsched : Scheduled s) (hfits : Recorded s g)
    (hadv : advance s s.here.pc a = some (stmt, pc))
    (hran : s.inProcess ∨ ∀ c, stmt ≠ .claim (some c))
    (hchild : ∀ c, q.child = some c → stmt ≠ .claim (some c)) :
    Owns ((s.goto pc).run stmt) (g.enter s stmt pc) q := by
  refine h.frame (enter_ran g s stmt pc hran) (fun c hc => ?_) fun c hc => ?_
  · by_cases hne : stmt = .claim (some c)
    · refine .inr ?_
      have := hfits.ran
      rw [enter_born, if_pos hne, enter_ran g s stmt pc hran]
      omega
    · exact .inl ⟨by rw [enter_born, if_neg hne], keeps_run hsched hadv hc hne⟩
  · rw [enter_born, if_neg (hchild c hc)]

/-- What the console's code learns. -/
theorem Learns.run {q : Pc} (h : Learns q stmt pc) (hq : s.here.pc = q) (howns : Owns s g q)
    (hsched : Scheduled s) (htaken : Taken s g) (hp : ¬ s.inProcess)
    (hadv : advance s s.here.pc a = some (stmt, pc)) (hseen : TakesSeen (s, g)) :
    Owns ((s.goto pc).run stmt) (g.enter s stmt pc) pc := by
  cases h with
  | claimed c elf =>
    change (g.enter s (.claim (some c)) _).born c = (if s.inProcess then g.ran else g.spawned + 1)
    rw [enter_born, if_pos rfl, if_neg hp]
  | failed c =>
    refine ⟨(hsched.loading s.current c (congrArg Pc.child hq)).1, fun _ => ?_⟩
    have hs := run_state s (.failCode c true) (.setState c .failed) c
    dsimp only at hs
    rw [hs, if_pos rfl]
    exact .inr rfl
  | marked w d =>
    cases w with
    | run c p =>
      have hmark : (s.thread s.current).pc.marks = some d := congrArg Pc.marks hq
      have ho := (htaken.scanned s.current d hmark).2 (hseen d hmark).1
      refine ⟨howns.1, fun hb => ?_⟩
      obtain rfl := howns.2 hb
      refine ⟨rfl, hsched.run_over hadv howns.1 nofun ho, ?_⟩
      have hw := run_waited s (.read (.run d p) d) (.setWaited d) d
      dsimp only at hw
      rw [hw, if_pos rfl]
    | _ => trivial
  | said c =>
    refine ⟨howns.1, fun hb => ⟨hsched.run_over hadv howns.1 nofun (howns.2 hb), .inr ?_⟩⟩
    change Function.update g.reported g.ran true (g.born c) = true
    rw [show g.born c = g.ran from hb, Function.update_self]

theorem ConsoleOwns.run (h : ConsoleOwns s g) (hsched : Scheduled s) (hfits : Recorded s g)
    (hdist : Distinct s) (htaken : Taken s g) (hadv : advance s s.here.pc a = some (stmt, pc))
    (hseen : TakesSeen (s, g)) : ConsoleOwns ((s.goto pc).run stmt) (g.enter s stmt pc) where
  owns := by
    -- a loader's slot is not claimed
    have hclaim : ∀ i c, (s.thread i).pc.child = some c → stmt ≠ .claim (some c) := by
      rintro i c hc rfl
      obtain ⟨-, hslot, -⟩ := advance_inv hadv
      exact absurd (by rw [(hsched.loading i c hc).2]; decide) (spawnSlot_not_alive hslot.symm)
    rcases run_pc_cases s pc stmt processCount with hp | hp | ⟨-, hc, hp⟩ | ⟨-, hc, hp⟩ <;> rw [hp]
    · trivial
    · trivial
    · have hin : ¬ s.inProcess := by
        rw [State.inProcess, ← hc]
        exact lt_irrefl _
      have howns : Owns s g s.here.pc := by
        have := h.owns
        rwa [hc] at this
      rcases advance_owns hsched hdist hin rfl howns hadv with ho | hl
      · by_cases hcl : ∃ c, stmt = .claim (some c)
        · obtain ⟨c, rfl⟩ := hcl
          obtain ⟨hu, -, elf, -, rfl⟩ := advance_inv hadv
          rw [afterClaim, if_neg hin] at hadv ⊢
          exact (Learns.claimed c elf).run hu trivial hsched htaken hin hadv hseen
        · exact ho.run hsched hfits hadv (.inr fun c hs => hcl ⟨c, hs⟩) fun c _ hs => hcl ⟨c, hs⟩
      · exact hl.run rfl howns hsched htaken hin hadv hseen
    · have hin : s.inProcess := lt_of_le_of_ne hsched.bound (Ne.symm hc)
      exact h.owns.run hsched hfits hadv (.inl hin) (hclaim processCount)
  others := fun i hi => by
    rcases run_pc_cases s pc stmt i with hp | hp | ⟨-, hc, hp⟩ | ⟨-, -, hp⟩ <;> rw [hp]
    · rfl
    · rfl
    · subst hc
      exact advance_ofConsole hadv hi (h.others s.current hi)
    · exact h.others i hi

end Run

theorem ConsoleOwns.step {x y : State × Ledger} {a : Action} (h : ConsoleOwns x.1 x.2)
    (hsched : Scheduled x.1) (hfits : Recorded x.1 x.2) (hdist : Distinct x.1) (htaken : Taken x.1 x.2)
    (hg : a ≠ .tick → x.1.here.irq = false → TakesSeen x) (hs : ledgerStep x a = some y) :
    ConsoleOwns y.1 y.2 := by
  rcases ledger_cases hs with ⟨hn, hy | ⟨-, hp, next, hnext, hy⟩ | hy⟩ |
    ⟨ha, hirq, stmt, pc, hadv, hy, hn⟩
  · rw [hy, hn]
    exact h
  · have hpc : ∀ i, ((x.1.interrupted.switchTo next).thread i).pc = (x.1.thread i).pc :=
      interrupted_pc x.1
    rw [hy, hn]
    refine ⟨?_, fun i hi => (hpc i).symm ▸ h.others i hi⟩
    rw [hpc]
    refine h.owns.frame rfl (fun c hc => .inl ⟨rfl, ?_⟩) fun _ _ => rfl
    exact {
      ended := (preempt_over hp hnext c).mpr
      used := fun he => by
        rcases state_preempt hp hnext c with h₁ | ⟨-, -, h₁⟩ | ⟨-, -, h₁⟩
        · exact h₁ ▸ he
        · rw [h₁]; decide
        · rw [h₁]; decide
      waited := (preempt_same (·.waited) x.1 next c fun _ _ => rfl).trans
      pid := preempt_same (·.pid) x.1 next c fun _ _ => rfl
      reported := id }
  · rw [hy, hn]
    refine ⟨?_, fun i hi => (finishIrq_pc x.1 i).symm ▸ h.others i hi⟩
    rw [finishIrq_pc]
    exact h.owns.frame rfl (fun c hc => .inl ⟨rfl, id, id, id, rfl, id⟩) fun _ _ => rfl
  · rw [hy, hn]
    exact h.run hsched hfits hdist htaken hadv (hg ha hirq)

end Rymos
