import Mathlib.Tactic
import Rymos.Sched.Console

/-!
# Exit statuses are collected once and never destroyed

* `Collecting`: whoever marks a zombie finds it as its scan has found it, and the console's store by
  index finds the process it spawned.
* `CollectedOnce`: a marked slot is a zombie whose status was handed out once, or that the console has
  reported; a spawn takes no other; and every other zombie can still be waited for.
* **`collectedOnce_of_reach`**. `not_collectedOnce_twiceRun`: a tick inside `process_wait_any_child`.
-/

namespace Rymos

open Transition

variable {s s' : State} {g : Ledger}

/-- The slot that `run_program` marks by its index. -/
def Pc.reaps : Pc → Option ℕ
  | .reap c => some c
  | _ => none

/-- The console marks the process it has spawned. -/
def ReapsOwn (x : State × Ledger) : Prop := ∀ c ∈ x.1.here.pc.reaps, x.2.born c = x.2.ran

def Collecting (x : State × Ledger) (a : Action) : Prop :=
  Steady x.1 a ∧ FreshTable x.1 a ∧
    (a ≠ .tick → x.1.here.irq = false → TakesSeen x ∧ ReapsOwn x)

instance decidableTakesSeen (x : State × Ledger) : Decidable (TakesSeen x) := by
  unfold TakesSeen
  infer_instance

instance decidableReapsOwn (x : State × Ledger) : Decidable (ReapsOwn x) := by
  unfold ReapsOwn
  infer_instance

instance decidableCollecting (x : State × Ledger) (a : Action) : Decidable (Collecting x a) :=
  inferInstanceAs (Decidable (_ ∧ _ ∧ (_ → _ → _)))

/-- The status of the process was handed to a waiter, or the console has reported it. -/
def Told (g : Ledger) (n : ℕ) : Prop := g.handed n = 1 ∨ g.reported n = true

/-- A mark, and what was never told. -/
structure Marked (s : State) (g : Ledger) : Prop where
  marked : ∀ i < processCount, (s.table i).waited = true →
    (s.table i).state.over ∧ Told g (g.born i)
  kept : ∀ n, 0 < n → n ≤ g.spawned → ¬ Told g n → ∃ i < processCount, g.born i = n

section Run

variable {a : Action} {pc : Pc} {stmt : Stmt}

theorem Told.enter {n : ℕ} (h : Told g n) (hadv : advance s s.here.pc a = some (stmt, pc))
    (honce : (g.enter s stmt pc).handed n ≤ 1) : Told (g.enter s stmt pc) n := by
  rcases h with h | h
  · refine .inl ?_
    rcases enter_handed (g := g) hadv n with he | ⟨_, _, -, -, -, he⟩ <;> omega
  · exact .inr (enter_reported g s stmt pc h)

/-- A mark is old, or that of a `mark` or a `reap`. -/
theorem run_marked (hadv : advance s s.here.pc a = some (stmt, pc)) {i : ℕ}
    (hw : (((s.goto pc).run stmt).table i).waited = true) : stmt ≠ .claim (some i) ∧
      ((s.table i).waited = true ∨ (∃ w, s.here.pc = .mark w i ∧ stmt = .setWaited i ∧
        pc = .read w i) ∨ s.here.pc = .reap i) := by
  have hinv := advance_inv hadv
  rw [run_waited] at hw
  cases stmt with
  | claim slot =>
    cases slot with
    | none => exact ⟨nofun, .inl hw⟩
    | some c =>
      dsimp only at hw
      split_ifs at hw with hic
      exact ⟨fun h => hic (by cases h; rfl), .inl hw⟩
  | setWaited c =>
    dsimp only at hw
    split_ifs at hw with hic
    · subst hic
      rcases hinv with ⟨w, hu, rfl⟩ | ⟨hu, -⟩
      · exact ⟨nofun, .inr (.inl ⟨w, hu, rfl, rfl⟩)⟩
      · exact ⟨nofun, .inr (.inr hu)⟩
    · exact ⟨nofun, .inl hw⟩
  | _ => exact ⟨nofun, .inl hw⟩

theorem Marked.run_marked (h : Marked s g) (hsched : Scheduled s) (htaken : Taken s g)
    (hcon : ConsoleOwns s g) (hadv : advance s s.here.pc a = some (stmt, pc))
    (hseen : TakesSeen (s, g)) (hreap : ReapsOwn (s, g))
    (honce : ∀ n, (g.enter s stmt pc).handed n ≤ 1) {i : ℕ} (hi : i < processCount)
    (hw : (((s.goto pc).run stmt).table i).waited = true) :
    (((s.goto pc).run stmt).table i).state.over ∧
      Told (g.enter s stmt pc) ((g.enter s stmt pc).born i) := by
  obtain ⟨hcl, hw⟩ := Rymos.run_marked hadv hw
  rw [enter_born, if_neg hcl]
  have hold : (s.table i).state.over ∧ Told g (g.born i) →
      (((s.goto pc).run stmt).table i).state.over ∧ Told (g.enter s stmt pc) (g.born i) :=
    fun ht => ⟨hsched.run_over hadv hi hcl ht.1, ht.2.enter hadv (honce _)⟩
  rcases hw with hw | ⟨w, hu, rfl, rfl⟩ | hu
  · exact hold (h.marked i hi hw)
  · -- the status is handed out now
    have hmark : (s.thread s.current).pc.marks = some i := congrArg Pc.marks hu
    have ho := (htaken.scanned s.current i hmark).2 (hseen i hmark).1
    refine ⟨hsched.run_over hadv hi hcl ho, .inl ?_⟩
    have hup : (g.enter s (.setWaited i) (.read w i)).handed (g.born i) = g.handed (g.born i) + 1 :=
      Function.update_self ..
    have := honce (g.born i)
    omega
  · -- the console marks the process it has run
    have hin : s.current = processCount := by
      by_contra hne
      have hlt : s.current < processCount := lt_of_le_of_ne hsched.bound hne
      have := hcon.others s.current hlt
      rw [show (s.thread s.current).pc = .reap i from hu] at this
      cases this
    have hown := hcon.owns
    rw [← hin, show (s.thread s.current).pc = .reap i from hu] at hown
    obtain ⟨ho, hwr⟩ := hown.2 (hreap i (congrArg Pc.reaps hu))
    rcases hwr with hw | hr
    · exact hold (h.marked i hi hw)
    · exact hold ⟨ho, .inr hr⟩

theorem Marked.run_kept (h : Marked s g) (hfits : Recorded s g)
    (hadv : advance s s.here.pc a = some (stmt, pc))
    (honce : ∀ n, (g.enter s stmt pc).handed n ≤ 1) {n : ℕ} (h0 : 0 < n)
    (hn : n ≤ (g.enter s stmt pc).spawned) (ht : ¬ Told (g.enter s stmt pc) n) :
    ∃ i < processCount, (g.enter s stmt pc).born i = n := by
  have hold : n ≤ g.spawned → ∃ i < processCount, (g.enter s stmt pc).born i = n := by
    intro hle
    obtain ⟨i, hi, hb⟩ := h.kept n h0 hle fun htold => ht (htold.enter hadv (honce n))
    refine ⟨i, hi, ?_⟩
    rw [enter_born, if_neg ?_, hb]
    -- a spawn takes an empty slot, or one whose status was told
    rintro rfl
    obtain ⟨-, hslot, -⟩ := advance_inv hadv
    rcases (spawnSlot_eq_some hslot.symm).2 with he | ⟨hw, -⟩
    · rw [(hfits.used i hi).mpr he] at hb
      exact h0.ne hb
    · exact ht ((hb ▸ (h.marked i hi hw).2).enter hadv (honce n))
  by_cases hcl : ∃ c, stmt = .claim (some c)
  · obtain ⟨c, rfl⟩ := hcl
    rcases Nat.lt_or_ge g.spawned n with hlt | hle
    · obtain ⟨-, hslot, -⟩ := advance_inv hadv
      refine ⟨c, (spawnSlot_eq_some hslot.symm).1, ?_⟩
      have hs : (g.enter s (.claim (some c)) pc).spawned = g.spawned + 1 := rfl
      rw [enter_born, if_pos rfl]
      omega
    · exact hold hle
  · refine hold (hn.trans_eq ?_)
    cases stmt with
    | claim slot =>
      cases slot with
      | none => rfl
      | some c => exact absurd ⟨c, rfl⟩ hcl
    | _ => rfl

end Run

/-- What is known in every state of such a run. -/
structure Collected (x : State × Ledger) : Prop where
  sched : Scheduled x.1
  distinct : Distinct x.1
  recorded : Recorded x.1 x.2
  taken : Taken x.1 x.2
  console : ConsoleOwns x.1 x.2
  marked : Marked x.1 x.2

theorem Marked.step {x y : State × Ledger} {a : Action} (h : Collected x) (hg : Collecting x a)
    (hs : ledgerStep x a = some y) (honce : ∀ n, y.2.handed n ≤ 1) : Marked y.1 y.2 := by
  rcases ledger_cases hs with ⟨hn, hy | ⟨-, hp, next, hnext, hy⟩ | hy⟩ |
    ⟨ha, hirq, stmt, pc, hadv, hy, hn⟩
  · rw [hy, hn]
    exact h.marked
  · rw [hy, hn]
    refine ⟨fun i hi hw => ?_, h.marked.kept⟩
    rw [preempt_over hp hnext]
    exact h.marked.marked i hi ((preempt_same (·.waited) x.1 next i fun _ _ => rfl).symm.trans hw)
  · rw [hy, hn]
    exact ⟨h.marked.marked, h.marked.kept⟩
  · obtain ⟨hseen, hreap⟩ := hg.2.2 ha hirq
    rw [hn] at honce
    rw [hy, hn]
    exact ⟨fun i hi hw => h.marked.run_marked h.sched h.taken h.console hadv hseen hreap honce hi hw,
      fun n h0 hle ht => h.marked.run_kept h.recorded hadv honce h0 hle ht⟩

theorem Collected.step {x y : State × Ledger} {a : Action} (h : Collected x) (hg : Collecting x a)
    (hs : ledgerStep x a = some y) : Collected y := by
  have hstep := (record_eq_some.mp hs).1
  have hseen : a ≠ .tick → x.1.here.irq = false → TakesSeen x := fun ha hi => (hg.2.2 ha hi).1
  have htaken := h.taken.step h.recorded h.sched hseen hs
  exact {
    sched := h.sched.step hg.1 hstep
    distinct := h.distinct.step h.sched hg.2.1 hstep
    recorded := h.recorded.step h.sched hs
    taken := htaken
    console := h.console.step h.sched h.recorded h.distinct h.taken hseen hs
    marked := Marked.step h hg hs htaken.once }

end Rymos
