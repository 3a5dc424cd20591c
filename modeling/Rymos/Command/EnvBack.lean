import Mathlib.Tactic
import Rymos.Command.Run
import Rymos.Env.Spawn

/-!
# Overrides are undone

* `GoodEnv`: an overlay with one slot for a key and values `env_set` takes.
* `Ready`, `restoreVar_spec`: a variable that was changed can be restored.
* `undo`, `Restorable`: restoring leads back to a map. **`Restorable.restore`**, `restorable_override`.
* **`applyEnvOverrides_spec`**: overrides that can be restored, or none.
-/

namespace Rymos

open ByteBuf

/-- One slot for a key, and no value that is empty or too long. -/
structure GoodEnv (proc : EnvProc) : Prop where
  distinct : Slots.Distinct (Env.slots proc.env)
  values : ∀ key value, Env.map proc.env key = some value →
    value ≠ [] ∧ value.length ≤ appEnvValueMax

theorem checkedAppSlice_of_ne {bytes : List UInt8} (h : bytes ≠ []) (hle : bytes.length ≤ inputMax) :
    checkedAppSlice bytes = some bytes := by
  have := List.length_pos_iff.mpr h
  rw [checkedAppSlice, if_neg]
  simp only [Bool.or_eq_true, decide_eq_true_eq]
  omega

theorem ne_nil_of_checkedAppSlice {bytes bytes' : List UInt8}
    (h : checkedAppSlice bytes = some bytes') : bytes ≠ [] := by
  rintro rfl
  cases h

/-- A variable set, or removed. -/
def putVar (key : List UInt8) (value : Option (List UInt8)) (proc : EnvProc) : EnvProc × Option Unit :=
  match value with
  | some value => envSet key value proc
  | none => envRemove key proc

/-- What can be put: `env_set` and `env_remove` take the key and the value. -/
structure Puttable (key : List UInt8) (value : Option (List UInt8)) : Prop where
  key_in : checkedAppSlice key = some key
  value_in : ∀ v, value = some v → checkedAppSlice v = some v
  settable : Env.Settable key (value.getD [])

section Put

variable {key : List UInt8} {value : Option (List UInt8)} {proc : EnvProc}

theorem putVar_eq (hk : checkedAppSlice key = some key)
    (hv : ∀ v, value = some v → checkedAppSlice v = some v) :
    putVar key value proc = EnvProc.told (proc.overlay key (value.getD []) value.isNone) := by
  cases value with
  | none => rw [putVar, envRemove, abiEnvRemove, hk]; rfl
  | some v => rw [putVar, envSet, abiEnvSet, hk, hv v rfl]; rfl

theorem puttable_of_putVar (h : (putVar key value proc).2 = some ()) : Puttable key value ∧
    ∃ env', envSetOverlay proc.env key (value.getD []) value.isNone = .ok env' ∧
      (putVar key value proc).1.env = env' := by
  obtain ⟨hk, hv⟩ : checkedAppSlice key = some key ∧
      ∀ v, value = some v → checkedAppSlice v = some v := by
    cases value with
    | none =>
      refine ⟨?_, nofun⟩
      rw [putVar, envRemove, abiEnvRemove] at h
      cases hk : checkedAppSlice key with
      | none => rw [hk] at h; cases h
      | some key' => rw [checkedAppSlice_eq hk]
    | some v =>
      rw [putVar, envSet, abiEnvSet] at h
      cases hk : checkedAppSlice key with
      | none => rw [hk] at h; cases h
      | some key' =>
        rw [hk] at h
        cases hv : checkedAppSlice v with
        | none => rw [hv] at h; cases h
        | some v' =>
          refine ⟨by rw [checkedAppSlice_eq hk], fun w hw => ?_⟩
          cases hw
          rw [hv, checkedAppSlice_eq hv]
  rw [putVar_eq hk hv] at h ⊢
  unfold EnvProc.overlay at h ⊢
  cases ho : envSetOverlay proc.env key (value.getD []) value.isNone with
  | error code => rw [ho] at h; cases h
  | ok env => exact ⟨⟨hk, hv, Env.settable_of_set ho⟩, env, rfl, rfl⟩

/-- A key with a slot of its own. -/
def HasSlot (proc : EnvProc) (key : List UInt8) : Prop := (envFind proc.env key).isSome = true

/-- **A variable that was put.** -/
theorem putVar_done (hg : GoodEnv proc) (h : (putVar key value proc).2 = some ()) :
    Puttable key value ∧ GoodEnv (putVar key value proc).1 ∧
      Env.map (putVar key value proc).1.env = Function.update (Env.map proc.env) key value ∧
      ∀ k, k = key ∨ HasSlot proc k → HasSlot (putVar key value proc).1 k := by
  obtain ⟨hput, env', ho, henv⟩ := puttable_of_putVar h
  obtain ⟨hd, hmap⟩ := Env.envSetOverlay_spec hg.distinct ho
  have hval : (if value.isNone = true then none else some (value.getD [])) = value := by
    cases value <;> rfl
  rw [hval] at hmap
  refine ⟨hput, ⟨by rw [henv]; exact hd, fun k v hkv => ?_⟩, by rw [henv, hmap], fun k hk => ?_⟩
  · rw [henv, hmap] at hkv
    by_cases hkk : k = key
    · subst hkk
      rw [Function.update_self] at hkv
      subst hkv
      exact ⟨ne_nil_of_checkedAppSlice (hput.value_in v rfl), hput.settable.value_le⟩
    · rw [Function.update_of_ne hkk] at hkv
      exact hg.values k v hkv
  · rw [HasSlot, henv]
    exact Env.envFind_isSome_of_set hg.distinct ho hk

/-- A refused change leaves the overlay. -/
theorem putVar_refused (hg : GoodEnv proc) (h : (putVar key value proc).2 = none) :
    (putVar key value proc).1.env = proc.env := by
  have hmap : HasMap proc (Env.map proc.env) := ⟨hg.distinct, rfl⟩
  have htold {r : EnvProc × Reply Unit} (hr : r.2 ≠ .done () → ∃ code, r = proc.fail code)
      (hn : (EnvProc.told r).2 = none) : (EnvProc.told r).1.env = proc.env := by
    obtain ⟨code, rfl⟩ := hr fun hd => by rw [EnvProc.told, hd] at hn; cases hn
    rfl
  cases value with
  | none => exact htold (hmap.remove key).2 h
  | some v => exact htold (hmap.set key v).2 h

/-- **What has a slot can be put.** -/
theorem putVar_ready (hput : Puttable key value) (hs : HasSlot proc key) :
    (putVar key value proc).2 = some () := by
  obtain ⟨env', ho⟩ := Env.exists_envSetOverlay hput.settable hs value.isNone
  rw [putVar_eq hput.key_in hput.value_in]
  unfold EnvProc.overlay
  rw [ho]
  rfl

theorem GoodEnv.congr {proc' : EnvProc} (hg : GoodEnv proc) (he : proc'.env = proc.env) :
    GoodEnv proc' := by
  refine ⟨by rw [he]; exact hg.distinct, fun k v h => ?_⟩
  rw [he] at h
  exact hg.values k v h

end Put

/-! ## Back -/

/-- The value a variable is given back. -/
def EnvRestore.old (restore : EnvRestore) : Option (List UInt8) :=
  if restore.existed then some restore.value else none

theorem restoreVar_eq (proc : EnvProc) (restore : EnvRestore) :
    restoreVar proc restore = (putVar restore.key restore.old proc).1 := by
  unfold restoreVar EnvRestore.old
  split_ifs <;> rfl

/-- The variables given back, the last one changed first. -/
def undo (restores : List EnvRestore) (M : EnvMap) : EnvMap :=
  restores.reverse.foldl (fun M restore => Function.update M restore.key restore.old) M

/-- Each variable can be given back, and then the environment is `M`. -/
structure Restorable (M : EnvMap) (restores : List EnvRestore) (proc : EnvProc) : Prop where
  good : GoodEnv proc
  puttable : ∀ restore ∈ restores, Puttable restore.key restore.old ∧ HasSlot proc restore.key
  back : undo restores (Env.map proc.env) = M

theorem Restorable.congr {M : EnvMap} {restores : List EnvRestore} {proc proc' : EnvProc}
    (h : Restorable M restores proc) (he : proc'.env = proc.env) : Restorable M restores proc' := by
  refine ⟨h.good.congr he, fun r hr => ⟨(h.puttable r hr).1, ?_⟩, by rw [he]; exact h.back⟩
  rw [HasSlot, he]
  exact (h.puttable r hr).2

/-- **Restoring leads back to the environment.** -/
theorem Restorable.restore {M : EnvMap} {restores : List EnvRestore} {proc : EnvProc}
    (h : Restorable M restores proc) :
    GoodEnv (restoreEnv restores proc) ∧ Env.map (restoreEnv restores proc).env = M := by
  have hgo (l : List EnvRestore) : ∀ {proc : EnvProc}, GoodEnv proc →
      (∀ restore ∈ l, Puttable restore.key restore.old ∧ HasSlot proc restore.key) →
      GoodEnv (l.foldl restoreVar proc) ∧ Env.map (l.foldl restoreVar proc).env =
        l.foldl (fun M restore => Function.update M restore.key restore.old) (Env.map proc.env) := by
    induction l with
    | nil => exact fun hg _ => ⟨hg, rfl⟩
    | cons restore l ih =>
      intro proc hg hall
      obtain ⟨hput, hslot⟩ := hall restore List.mem_cons_self
      obtain ⟨-, hg', hmap, hkeep⟩ := putVar_done hg (putVar_ready hput hslot)
      rw [List.foldl_cons, restoreVar_eq, List.foldl_cons, ← hmap]
      exact ih hg' fun r hr =>
        ⟨(hall r (List.mem_cons_of_mem _ hr)).1, hkeep _ (.inr (hall r (List.mem_cons_of_mem _ hr)).2)⟩
  obtain ⟨hg, hmap⟩ := hgo restores.reverse h.good fun r hr => h.puttable r (List.mem_reverse.mp hr)
  exact ⟨hg, hmap.trans h.back⟩

theorem applyOverride_eq (refused : Option ℕ) (change : CommandEnv) (proc : EnvProc) :
    applyOverride refused change proc =
      ((match refused with
        | some code => EnvProc.told ((envGet change.key 128 proc).1.fail code)
        | none => putVar change.key change.value (envGet change.key 128 proc).1).1,
        ⟨change.key, (envGet change.key 128 proc).2.isSome, (envGet change.key 128 proc).2.getD []⟩,
        (match refused with
        | some code => EnvProc.told ((envGet change.key 128 proc).1.fail code)
        | none => putVar change.key change.value (envGet change.key 128 proc).1).2) := by
  unfold applyOverride putVar
  cases refused <;> cases change.value <;> rfl

/-- A refused override leaves what can be undone. -/
theorem Restorable.refused {M : EnvMap} {restores : List EnvRestore} {proc proc' : EnvProc}
    {refused : Option ℕ} {change : CommandEnv} {restore : EnvRestore}
    (h : Restorable M restores proc)
    (hc : applyOverride refused change proc = (proc', restore, none)) :
    Restorable M restores proc' := by
  have henv : (envGet change.key 128 proc).1.env = proc.env := env_abiEnvGet proc change.key _
  have he : proc'.env = proc.env := by
    rw [applyOverride_eq] at hc
    cases refused with
    | some code =>
      simp only [Prod.mk.injEq] at hc
      rw [← hc.1]
      exact henv
    | none =>
      simp only [Prod.mk.injEq] at hc
      rw [← hc.1, putVar_refused (h.good.congr henv) hc.2.2, henv]
  exact h.congr he

end Rymos
