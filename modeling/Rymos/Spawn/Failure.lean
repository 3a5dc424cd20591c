import Mathlib.Tactic
import Rymos.Spawn.Runs

/-!
# Failed calls

* `Process.reusable`, `available`, `available_update`: the slots left to later spawns.
* `FailedAfterClaim`: a `spawn`, `spawn_argv` or `run` that fails with a slot taken.
* `NoTrace`: as many slots as before, and the failed process is never returned by `wait_any`.
* **`noTrace_iff`**: a failed call leaves no trace exactly when it is a `run` of a program that is not
  in the archive.
-/

namespace Rymos

open ByteBuf

/-! ## The slots left -/

/-- A spawn may take the slot of this process. -/
def Process.reusable (process : Process) : Prop :=
  process.state = .empty ∨ process.waited = true ∧ process.state.over

instance (process : Process) : Decidable process.reusable := inferInstanceAs (Decidable (_ ∨ _))

/-- The slots a spawn may take. -/
def availableSlots (table : Table) : Finset ℕ :=
  (Finset.range processCount).filter fun i => (table i).reusable

def available (table : Table) : ℕ := (availableSlots table).card

section Available

variable {table : Table} {c : ℕ} {process : Process}

theorem mem_availableSlots {i : ℕ} :
    i ∈ availableSlots table ↔ i < processCount ∧ (table i).reusable := by
  rw [availableSlots, Finset.mem_filter, Finset.mem_range]

theorem spawnSlot_mem (h : spawnSlot table = some c) : c ∈ availableSlots table :=
  mem_availableSlots.mpr (spawnSlot_eq_some h)

/-- A slot taken and given back. -/
theorem availableSlots_update_of_reusable (hc : c ∈ availableSlots table) (hp : process.reusable) :
    availableSlots (Function.update table c process) = availableSlots table := by
  ext i
  rw [mem_availableSlots, mem_availableSlots]
  by_cases hi : i = c
  · subst hi
    rw [Function.update_self]
    exact iff_of_true ⟨(mem_availableSlots.mp hc).1, hp⟩ (mem_availableSlots.mp hc)
  · rw [Function.update_of_ne hi]

/-- A slot taken and kept. -/
theorem availableSlots_update_of_not_reusable (hp : ¬ process.reusable) :
    availableSlots (Function.update table c process) = (availableSlots table).erase c := by
  ext i
  rw [mem_availableSlots, Finset.mem_erase, mem_availableSlots]
  by_cases hi : i = c
  · subst hi
    rw [Function.update_self]
    exact iff_of_false (fun h => hp h.2) fun h => h.1 rfl
  · rw [Function.update_of_ne hi]
    exact (and_iff_right hi).symm

/-- **A slot given to a process that is not reusable is lost.** -/
theorem available_update (hc : c ∈ availableSlots table) :
    available (Function.update table c process) = available table ↔ process.reusable := by
  constructor
  · intro h
    by_contra hp
    rw [available, availableSlots_update_of_not_reusable hp, Finset.card_erase_of_mem hc,
      available] at h
    have hpos := Finset.card_pos.mpr ⟨c, hc⟩
    omega
  · intro hp
    rw [available, availableSlots_update_of_reusable hc hp, available]

end Available

/-- A failed process is reusable if it counts as collected. -/
theorem reusable_failed (pid parentPid : ℕ) (reaped : Bool) :
    (Fate.process pid parentPid (.failed reaped)).reusable ↔ reaped = true := by
  constructor
  · rintro (he | ⟨hw, -⟩)
    · cases he
    · exact hw
  · exact fun hw => .inr ⟨hw, .inr rfl⟩

/-! ## A failed call leaves no trace -/

/-- The call fails with an error to its caller. -/
def Fails (s : SpawnSys) : SpawnAct → SpawnSys → Prop
  | .spawn name args outcome, s' => ∃ code, abiSpawn s name args outcome = some (s', .error code)
  | .spawnArgv name argv outcome, s' =>
    ∃ code, abiSpawnArgv s name argv outcome = some (s', .error code)
  | .run name args outcome, s' => ∃ line, runProgram s name args outcome = some (s', .error line)
  | _, _ => False

/-- The call fails after `process_spawn` gave it slot `c`, which uses up a pid. -/
structure FailedAfterClaim (s : SpawnSys) (act : SpawnAct) (s' : SpawnSys) (c : ℕ) : Prop where
  fails : Fails s act s'
  slot : spawnSlot s.table = some c
  nextPid : s'.nextPid = nextPidAfter s.nextPid

/-- As many slots are left as before, and until the slot is given away again no `wait_any` of the caller
finds the failed process in it. -/
structure NoTrace (s s' : SpawnSys) (c : ℕ) : Prop where
  available_eq : available s'.table = available s.table
  uncollected : ∀ t, Later c s' t → processWaitAnyChild t.table s.currentPid ≠ some c

/-- The call is a `run`, and the archive does not have its program. -/
def NotFound (s : SpawnSys) (act : SpawnAct) : Prop :=
  ∃ name args outcome, act = .run name args outcome ∧ s.bootfs (programFile name) = none

section Failed

variable {s s' : SpawnSys} {act : SpawnAct} {c : ℕ}

/-- A claim shows in `NEXT_PID`. -/
theorem TakesNone.not_claimed (h : TakesNone s s') (hslot : spawnSlot s.table = some c)
    (hnext : s'.nextPid = nextPidAfter s.nextPid) : False := by
  rcases h.nextPid with he | he
  · exact nextPidAfter_ne _ (hnext.symm.trans he)
  · rw [he] at hslot
    cases hslot

/-- **The process a failed call leaves in its slot.** -/
theorem FailedAfterClaim.takes (h : FailedAfterClaim s act s' c) :
    ∃ new reaped, Takes s s' c new (.failed reaped) ∧ (reaped = true ↔ NotFound s act) := by
  obtain ⟨hf, hslot, hnext⟩ := h
  have hsame : s' ≠ s := fun he => nextPidAfter_ne _ (he ▸ hnext).symm
  have hprep : ∀ {name args argv outcome code},
      spawnPrepared s name args argv outcome = some (s', .error code) →
      ∃ new, Takes s s' c new (.failed false) := by
    intro name args argv outcome code hp
    rcases spawnPrepared_cases hp with ⟨hnone, -⟩ | ⟨c', fate, -, -, ht, hr⟩
    · exact (hnone.not_claimed hslot hnext).elim
    obtain rfl := Option.some.inj (hslot.symm.trans ht.slot)
    cases fate with
    | started => cases hr
    | failed reaped =>
      obtain ⟨rfl, -⟩ := hr
      exact ⟨_, ht⟩
  cases act with
  | spawn name args outcome =>
    obtain ⟨code, hf⟩ := hf
    rcases abiSpawn_cases hf with ⟨he, -⟩ | ⟨-, -, hp⟩
    · exact (hsame he).elim
    · obtain ⟨new, ht⟩ := hprep hp
      exact ⟨new, false, ht, by simp [NotFound]⟩
  | spawnArgv name argv outcome =>
    obtain ⟨code, hf⟩ := hf
    rcases abiSpawnArgv_cases hf with ⟨he, -⟩ | ⟨-, -, raw, -, hp⟩
    · exact (hsame he).elim
    · obtain ⟨new, ht⟩ := hprep hp
      exact ⟨new, false, ht, by simp [NotFound]⟩
  | run name args outcome =>
    obtain ⟨line, hf⟩ := hf
    rcases runProgram_cases hf with ⟨hnone, -⟩ | ⟨c', fate, -, ht, hr⟩
    · exact (hnone.not_claimed hslot hnext).elim
    obtain rfl := Option.some.inj (hslot.symm.trans ht.slot)
    cases fate with
    | started => cases hr
    | failed reaped => exact ⟨_, reaped, ht, by simp [NotFound, hr.1]⟩
  | _ => exact hf.elim

/-- A process that counts as collected is never returned by `wait_any`. -/
theorem Later.not_collected {t : SpawnSys} {parentPid : ℕ} (h : Later c s t)
    (hw : (s.table c).waited = true) : processWaitAnyChild t.table parentPid ≠ some c := by
  intro hfound
  have := (processWaitAnyChild_eq_some hfound).2.2.1
  rw [h.same.waited hw] at this
  cases this

end Failed

/-- **A failed call leaves no trace** exactly when it is a `run` whose program is not found; all others
leave a failed process that nobody has collected. -/
theorem noTrace_iff {s s' : SpawnSys} {act : SpawnAct} {c : ℕ} (h : FailedAfterClaim s act s' c) :
    NoTrace s s' c ↔ NotFound s act := by
  obtain ⟨new, reaped, ht, hreaped⟩ := h.takes
  have havail : available s'.table = available s.table ↔ reaped = true := by
    rw [ht.table, available_update (spawnSlot_mem h.slot), reusable_failed]
  rw [← hreaped]
  constructor
  · exact fun htrace => havail.mp htrace.available_eq
  · intro hr
    refine ⟨havail.mpr hr, fun t hlater => hlater.not_collected ?_⟩
    rw [ht.table, Function.update_self, hr]
    rfl

/-- A `run` of a program that is not there. -/
theorem noTrace_notFound : ∃ s' c, FailedAfterClaim aloneSys (.run (ascii "x") [] (.ok 1)) s' c ∧
    NoTrace aloneSys s' c := by
  have hf : FailedAfterClaim aloneSys (.run (ascii "x") [] (.ok 1)) _ 1 := ⟨⟨_, rfl⟩, by decide, rfl⟩
  exact ⟨_, 1, hf, (noTrace_iff hf).mpr ⟨_, _, _, rfl, rfl⟩⟩

/-- **A spawn of a malformed image leaves a slot that is lost**, and the caller's next `wait_any` finds a
child it was never told of. -/
theorem not_noTrace_spawn : ∃ s',
    FailedAfterClaim programSys (.spawn (ascii "x") [] (.error .image)) s' 1 ∧
    available s'.table < available programSys.table ∧
    processWaitAnyChild s'.table programSys.currentPid = some 1 :=
  ⟨_, ⟨⟨_, rfl⟩, by decide, rfl⟩, by decide, by decide⟩

end Rymos
