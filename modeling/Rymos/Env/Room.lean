import Mathlib.Tactic
import Rymos.Env.Spawn

/-!
# Slots of the environment

A variable that is removed keeps its slot, marked as deleted.

* `countedKeys`: the keys that are set, and the defaults that are removed.
* `SlotsBack`: a new key is refused for want of a slot only when as many keys are counted as there are
  slots.
* `Stale`: a slot that keeps the mark of a removed variable that is no default.
* **`slotsBack_iff`**: in every state reached, just if a slot is free or none is stale.
  **`slotsBack_of_reach`**, `not_slotsBack_touchedRun`.
-/

namespace Rymos

open ByteBuf Transition

variable {env : Env} {key value : List UInt8}

def isDefaultKey (key : List UInt8) : Bool := (Env.default key).isSome

/-- The keys that count: those that are set, and the defaults that are removed. -/
def countedKeys (env : Env) : Finset (List UInt8) :=
  (Finset.univ.filter fun i => (env i).used = true ∧
    ((env i).deleted = false ∨ isDefaultKey (env i).key = true)).image fun i => (env i).key

/-- A key that the overlay does not have is refused for want of a slot only when all are counted. -/
def SlotsBack (proc : EnvProc) : Prop :=
  ∀ key value, envOverlayHasKey proc.env key = false →
    (abiEnvSet proc key value).2 = .error errNospc → (countedKeys proc.env).card = appEnvCount

/-- A slot that keeps the mark of a removed variable that is no default. -/
def Stale (entry : AppEnvVar) : Prop :=
  entry.used = true ∧ entry.deleted = true ∧ isDefaultKey entry.key = false

/-! ## Refusals -/

/-- The loop finds nothing just if the key has no slot and no slot is free. -/
theorem envSlotLoop_eq_none : envSlotLoop env key (List.finRange appEnvCount) none = none ↔
    envFind env key = none ∧ ∀ i, (env i).used = true := by
  rw [Env.envSlotLoop_eq, Option.or_eq_none_iff, Option.none_or]
  refine and_congr Iff.rfl ?_
  simp [List.find?_eq_none]

theorem envSetOverlay_nospc {deleted : Bool} : envSetOverlay env key value deleted = .error errNospc ↔
    Env.Settable key value ∧ envFind env key = none ∧ ∀ i, (env i).used = true := by
  rw [← envSlotLoop_eq_none, envSetOverlay]
  constructor
  · intro h
    split_ifs at h with hl hk
    · cases h
    · cases hs : envSlotLoop env key (List.finRange appEnvCount) none with
      | none => exact ⟨⟨hl.1, hl.2, Bool.eq_false_iff.mpr hk⟩, rfl⟩
      | some i =>
        rw [hs] at h
        cases h
    · cases h
  · rintro ⟨hset, hs⟩
    rw [dif_pos ⟨hset.key_le, hset.value_le⟩, if_neg (by simp [hset.key_ok]), hs]

/-- **A new key is refused for want of a slot** just if it and its value are in order and every slot is
used. -/
theorem abiEnvSet_nospc {proc : EnvProc} (hnew : envOverlayHasKey proc.env key = false) :
    (abiEnvSet proc key value).2 = .error errNospc ↔
      checkedAppSlice key = some key ∧ checkedAppSlice value = some value ∧
        Env.Settable key value ∧ ∀ i, (proc.env i).used = true := by
  have hfind : envFind proc.env key = none := by
    simpa [envOverlayHasKey] using hnew
  rw [abiEnvSet]
  cases hk : checkedAppSlice key with
  | none => exact iff_of_false (fun h => by cases h) fun h => by cases h.1
  | some key' =>
    obtain rfl := checkedAppSlice_eq hk
    cases hv : checkedAppSlice value with
    | none => exact iff_of_false (fun h => by cases h) fun h => by cases h.2.1
    | some value' =>
      obtain rfl := checkedAppSlice_eq hv
      have hover : (proc.overlay key' value' false).2 = .error errNospc ↔
          envSetOverlay proc.env key' value' false = .error errNospc := by
        rw [EnvProc.overlay]
        cases envSetOverlay proc.env key' value' false with
        | error code => simp [EnvProc.fail]
        | ok env => exact iff_of_false (fun h => by cases h) fun h => by cases h
      dsimp only
      rw [hover, envSetOverlay_nospc]
      simp [hfind]

/-! ## Counting -/

/-- Keys of different slots are different. -/
theorem key_injective (hd : Slots.Distinct (Env.slots env)) (hu : ∀ i, (env i).used = true) :
    Function.Injective fun i => (env i).key := by
  intro i j hij
  have hi : Env.slots env i = some ((env i).key, _) := if_pos (hu i)
  have hj : Env.slots env j = some ((env j).key, _) := if_pos (hu j)
  rw [show (env i).key = (env j).key from hij] at hi
  exact hd hi hj

/-- **All slots are counted** if all are used and none is stale. -/
theorem card_countedKeys (hd : Slots.Distinct (Env.slots env)) (hu : ∀ i, (env i).used = true)
    (hs : ∀ i, ¬ Stale (env i)) : (countedKeys env).card = appEnvCount := by
  have hall : (Finset.univ.filter fun i => (env i).used = true ∧
      ((env i).deleted = false ∨ isDefaultKey (env i).key = true)) = Finset.univ := by
    refine Finset.filter_true_of_mem fun i _ => ⟨hu i, ?_⟩
    have := hs i
    simp only [Stale, hu i, true_and] at this
    cases hdel : (env i).deleted <;> simp_all
  rw [countedKeys, hall, Finset.card_image_of_injective _ (key_injective hd hu), Finset.card_fin]

theorem card_countedKeys_lt {i : Fin appEnvCount} (hs : Stale (env i)) :
    (countedKeys env).card < appEnvCount := by
  have hsub : countedKeys env ⊆ (Finset.univ.erase i).image fun j => (env j).key := by
    refine Finset.image_subset_image fun j hj => ?_
    obtain ⟨-, hj⟩ := (Finset.mem_filter.mp hj).2
    refine Finset.mem_erase.mpr ⟨?_, Finset.mem_univ j⟩
    rintro rfl
    obtain ⟨-, hdel, hdef⟩ := hs
    rw [hdel, hdef] at hj
    rcases hj with hj | hj <;> cases hj
  calc (countedKeys env).card ≤ ((Finset.univ.erase i).image fun j => (env j).key).card :=
        Finset.card_le_card hsub
    _ ≤ (Finset.univ.erase i).card := Finset.card_image_le
    _ < appEnvCount := by
      rw [Finset.card_erase_of_mem (Finset.mem_univ i), Finset.card_fin]
      decide

/-- Keys of one byte, more than there are slots. -/
def shortKeys : Finset (List UInt8) := (Finset.range 100).image fun n => [UInt8.ofNat (n + 65)]

theorem exists_newKey (env : Env) : ∃ key ∈ shortKeys, envOverlayHasKey env key = false := by
  by_contra hc
  simp only [not_exists, not_and, Bool.not_eq_false] at hc
  have hsub : shortKeys ⊆ Finset.univ.image fun i => (env i).key := by
    intro key hk
    obtain ⟨i, hi⟩ := Option.isSome_iff_exists.mp (hc key hk)
    have hp := List.find?_some hi
    simp only [Bool.and_eq_true, beq_iff_eq] at hp
    exact Finset.mem_image.mpr ⟨i, Finset.mem_univ i, hp.2⟩
  have hcard := (Finset.card_le_card hsub).trans Finset.card_image_le
  rw [Finset.card_fin] at hcard
  exact absurd hcard (by decide +kernel)

theorem settable_short (h : key ∈ shortKeys) : checkedAppSlice key = some key ∧
    checkedAppSlice (ascii "1") = some (ascii "1") ∧ Env.Settable key (ascii "1") := by
  have hall : ∀ key ∈ shortKeys, checkedAppSlice key = some key ∧
      checkedAppSlice (ascii "1") = some (ascii "1") ∧ key.length ≤ appEnvKeyMax ∧
        (ascii "1").length ≤ appEnvValueMax ∧
          (key.isEmpty || key.any fun byte => byte == equalsSign || byte == 0) = false := by
    decide +kernel
  obtain ⟨hk, hv, h₁, h₂, h₃⟩ := hall key h
  exact ⟨hk, hv, h₁, h₂, h₃⟩

/-! ## Every run -/

variable {s : EnvSys}

theorem slotsBack_of_distinct {proc : EnvProc} (hd : Slots.Distinct (Env.slots proc.env))
    (hc : (∃ i, (proc.env i).used = false) ∨ ∀ i, ¬ Stale (proc.env i)) : SlotsBack proc := by
  intro key value hnew hno
  obtain ⟨-, -, -, hu⟩ := (abiEnvSet_nospc hnew).mp hno
  rcases hc with ⟨i, hi⟩ | hs
  · rw [hu i] at hi
    cases hi
  · exact card_countedKeys hd hu hs

/-- **Slots come back** just if one is free or none is stale. -/
theorem slotsBack_iff (h : Reach EnvInit (fun _ _ => True) envStep s) (p : Fin processCount) :
    SlotsBack (s.procs p) ↔ (∃ i, ((s.procs p).env i).used = false) ∨
      ∀ i, ¬ Stale ((s.procs p).env i) := by
  obtain ⟨hd, -⟩ := envInv_of_reach h p
  constructor
  · intro hback
    by_contra hc
    simp only [not_or, not_exists, not_forall, not_not, Bool.not_eq_false] at hc
    obtain ⟨hu, i, hi⟩ := hc
    obtain ⟨key, hkey, hnew⟩ := exists_newKey (s.procs p).env
    obtain ⟨hk, hv, hset⟩ := settable_short hkey
    have := hback key (ascii "1") hnew ((abiEnvSet_nospc hnew).mpr ⟨hk, hv, hset, hu⟩)
    exact absurd this (card_countedKeys_lt hi).ne
  · exact slotsBack_of_distinct hd

/-- Only defaults are removed. -/
def RemovesDefaults (_ : EnvSys) : EnvAct → Prop
  | .remove _ key => isDefaultKey key = true
  | _ => True

/-- An accepted update leaves a stale slot stale, or makes one of a removed key that is no default. -/
theorem stale_of_set {deleted : Bool} {env' : Env}
    (h : envSetOverlay env key value deleted = .ok env') {i : Fin appEnvCount} (hs : Stale (env' i)) :
    Stale (env i) ∨ deleted = true ∧ isDefaultKey key = false := by
  rw [envSetOverlay] at h
  split_ifs at h
  split at h
  · cases h
  · next j _ =>
    cases h
    by_cases hij : i = j
    · subst hij
      rw [Function.update_self] at hs
      exact .inr ⟨hs.2.1, hs.2.2⟩
    · rw [Function.update_of_ne hij] at hs
      exact .inl hs

theorem stale_of_overlay {proc : EnvProc} {deleted : Bool} {i : Fin appEnvCount}
    (hs : Stale ((proc.overlay key value deleted).1.env i)) :
    Stale (proc.env i) ∨ deleted = true ∧ isDefaultKey key = false := by
  rw [EnvProc.overlay] at hs
  cases h : envSetOverlay proc.env key value deleted with
  | error code =>
    rw [h] at hs
    exact .inl hs
  | ok env =>
    rw [h] at hs
    exact stale_of_set h hs

theorem stale_of_abiEnvSet {proc : EnvProc} {i : Fin appEnvCount}
    (hs : Stale ((abiEnvSet proc key value).1.env i)) : Stale (proc.env i) := by
  rw [abiEnvSet] at hs
  split at hs
  · exact hs
  split at hs
  · exact hs
  · exact (stale_of_overlay hs).resolve_right nofun

theorem stale_of_abiEnvRemove {proc : EnvProc} {i : Fin appEnvCount}
    (hs : Stale ((abiEnvRemove proc key).1.env i)) :
    Stale (proc.env i) ∨ isDefaultKey key = false := by
  rw [abiEnvRemove] at hs
  split at hs
  · exact .inl hs
  · next hk =>
    rw [checkedAppSlice_eq hk] at hs
    exact (stale_of_overlay hs).imp_right And.right

/-- No slot is stale. -/
def NoStale (s : EnvSys) : Prop := ∀ p i, ¬ Stale ((s.procs p).env i)

/-- A process changed. -/
theorem NoStale.update (h : NoStale s) {p : Fin processCount} {proc : EnvProc}
    (hp : ∀ i, ¬ Stale (proc.env i)) : NoStale (s.setProc p proc) := by
  intro q
  by_cases hq : q = p
  · subst hq
    simpa [EnvSys.setProc] using hp
  · simpa [EnvSys.setProc, hq] using h q

theorem NoStale.step (h : NoStale s) {act : EnvAct} {s' : EnvSys} (hg : RemovesDefaults s act)
    (hs : envStep s act = some s') : NoStale s' := by
  cases act with
  | get p key room =>
    cases hs
    refine h.update ?_
    rw [env_abiEnvGet]
    exact h p
  | list p index keyRoom valueRoom =>
    cases hs
    refine h.update ?_
    rw [env_abiEnvList]
    exact h p
  | set p key value =>
    cases hs
    exact h.update fun i hi => h p i (stale_of_abiEnvSet hi)
  | remove p key =>
    cases hs
    refine h.update fun i hi => ?_
    rcases stale_of_abiEnvRemove hi with hold | hkey
    · exact h p i hold
    · exact absurd (hg.symm.trans hkey) nofun
  | start child =>
    cases hs
    exact h.update fun i hi => by cases hi.1
  | spawn p child =>
    simp only [envStep] at hs
    split_ifs at hs with hp
    cases hs
    have hchild : NoStale ((s.setProc child { EnvProc.empty with env := (s.procs p).env }).setMap child
        (s.maps p)) := h.update (h p)
    exact hchild.update (h p)

/-- **Slots come back** in every run in which only defaults are removed. -/
theorem slotsBack_of_reach (h : Reach EnvInit RemovesDefaults envStep s) (p : Fin processCount) :
    SlotsBack (s.procs p) := by
  have hstale : NoStale s := by
    refine h.inv (fun s hi p i hs => ?_) fun s act s' hs hg he => hs.step hg he
    rw [(hi p).1] at hs
    cases hs.1
  obtain ⟨hd, -⟩ := envInv_of_reach (h.mono fun _ _ _ => trivial) p
  exact slotsBack_of_distinct hd (.inr (hstale p))

instance : NeZero processCount := ⟨by decide⟩

/-- A variable set and removed. -/
def oneVariableRun : List EnvAct :=
  [.start 0, .set 0 (ascii "CC") (ascii "1"), .remove 0 (ascii "CC")]

theorem slotsBack_iff_oneVariableRun : ∃ s, exec envStep envBoot oneVariableRun = some s ∧
    ((s.procs 0).env 0).deleted = true ∧ SlotsBack (s.procs 0) := by
  have hrun : (exec envStep envBoot oneVariableRun).map (fun s =>
      (((s.procs 0).env 0).deleted, ((s.procs 0).env 1).used)) = some (true, false) := by
    decide +kernel
  obtain ⟨s, hs, hv⟩ := Option.map_eq_some_iff.mp hrun
  obtain ⟨hdel, hfree⟩ := Prod.mk.inj hv
  have hr := reach_of_exec (.start envInit_envBoot) (allGood_true _ _) hs
  exact ⟨s, hs, hdel, (slotsBack_iff hr 0).mpr (.inl ⟨1, hfree⟩)⟩

/-- As many variables as there are slots, each set and removed. -/
def touchedRun : List EnvAct :=
  .start 0 :: (List.range appEnvCount).flatMap fun n =>
    [.set 0 [UInt8.ofNat (n + 65)] (ascii "1"), .remove 0 [UInt8.ofNat (n + 65)]]

/-- **One more is refused**, with no variable set and no default removed. -/
theorem not_slotsBack_touchedRun :
    ¬ ∀ s, Reach EnvInit (fun _ _ => True) envStep s → ∀ p, SlotsBack (s.procs p) := by
  intro hall
  have hrun : (exec envStep envBoot touchedRun).map (fun s =>
      (envOverlayHasKey (s.procs 0).env (ascii "CC"), (abiEnvSet (s.procs 0) (ascii "CC") (ascii "1")).2,
        (countedKeys (s.procs 0).env).card)) = some (false, .error errNospc, 0) := by
    decide +kernel
  obtain ⟨s, hs, hv⟩ := Option.map_eq_some_iff.mp hrun
  simp only [Prod.mk.injEq] at hv
  obtain ⟨hnew, hno, hcard⟩ := hv
  have := hall s (reach_of_exec (.start envInit_envBoot) (allGood_true _ _) hs) 0 _ _ hnew hno
  rw [hcard] at this
  exact absurd this (by decide)

end Rymos
