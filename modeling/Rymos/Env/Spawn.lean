import Rymos.Base.Runs
import Rymos.Env.Overlay
import Rymos.Sched.Table

/-!
# Environments across processes

* `EnvSys`, `EnvAct`, `envStep`: every process with its overlay, and with it the map made of the
  defaults by the accepted calls. A spawn copies the caller's overlay to the child's slot of the
  process table, and the map with it.
* `EnvLaw`: what the calls of a process return is said by a map.
* **`envLaw_of_reach`**: in every reachable state each process has its map, and a call that is
  rejected changes nothing but `last_error`.
-/

namespace Rymos

open ByteBuf Transition

/-- A map of keys to values. -/
abbrev EnvMap : Type := List UInt8 → Option (List UInt8)

/-- The processes, and the map each should have. -/
structure EnvSys where
  procs : Fin processCount → EnvProc
  maps : Fin processCount → EnvMap

/-- A call of process `p`, or a process started in slot `child` by the console or by process `p`. -/
inductive EnvAct
  | get (p : Fin processCount) (key : List UInt8) (room : Option ℕ)
  | list (p : Fin processCount) (index : ℕ) (keyRoom valueRoom : Option ℕ)
  | set (p : Fin processCount) (key value : List UInt8)
  | remove (p : Fin processCount) (key : List UInt8)
  | start (child : Fin processCount)
  | spawn (p child : Fin processCount)

namespace EnvSys

def setProc (s : EnvSys) (p : Fin processCount) (proc : EnvProc) : EnvSys :=
  { s with procs := Function.update s.procs p proc }

def setMap (s : EnvSys) (p : Fin processCount) (M : EnvMap) : EnvSys :=
  { s with maps := Function.update s.maps p M }

end EnvSys

/-- The map after an update, if it is accepted. -/
def EnvMap.after (M : EnvMap) (reply : Reply Unit) (key : List UInt8) (value : Option (List UInt8)) :
    EnvMap :=
  match reply with
  | .done () => Function.update M key value
  | _ => M

/-- A child's slot is not that of the running process. -/
def envStep (s : EnvSys) : EnvAct → Option EnvSys
  | .get p key room => some (s.setProc p (abiEnvGet (s.procs p) key room).1)
  | .list p index keyRoom valueRoom =>
    some (s.setProc p (abiEnvList (s.procs p) index keyRoom valueRoom).1)
  | .set p key value =>
    let (proc, reply) := abiEnvSet (s.procs p) key value
    some ((s.setProc p proc).setMap p (EnvMap.after (s.maps p) reply key (some value)))
  | .remove p key =>
    let (proc, reply) := abiEnvRemove (s.procs p) key
    some ((s.setProc p proc).setMap p (EnvMap.after (s.maps p) reply key none))
  | .start child => some ((s.setProc child .empty).setMap child Env.default)
  | .spawn p child =>
    if p = child then none
    else some (((s.setProc child { EnvProc.empty with env := (s.procs p).env }).setMap child
      (s.maps p)).setProc p { s.procs p with lastError := 0 })

/-- Before the first process. -/
def EnvInit (s : EnvSys) : Prop := ∀ p, s.procs p = .empty ∧ s.maps p = Env.default

/-- What the calls of a process return is said by the map `M`. -/
structure EnvLaw (proc : EnvProc) (M : EnvMap) : Prop where
  get : ∀ key room, (abiEnvGet proc key room).2 =
    match checkedAppSlice key with
    | none => .error errInval
    | some key =>
      match M key with
      | none => .error errNoent
      | some value =>
        match room with
        | none | some 0 => .done (value.length, [])
        | some room => .done (min room value.length, value.take room)
  list : ∃ pairs : List (List UInt8 × List UInt8), (pairs.map Prod.fst).Nodup ∧
    (∀ k v, (k, v) ∈ pairs ↔ M k = some v) ∧
    ∀ index keyRoom valueRoom, (abiEnvList proc index (some keyRoom) (some valueRoom)).2 =
      match pairs[index]? with
      | none => .error errNoent
      | some (key, value) => .done (key.take keyRoom, value.take valueRoom)
  once : ∀ i j, (proc.env i).used = true → (proc.env j).used = true →
    (proc.env i).key = (proc.env j).key → i = j

/-- A process with distinct keys whose overlay stands for `M`. -/
def HasMap (proc : EnvProc) (M : EnvMap) : Prop :=
  Slots.Distinct (Env.slots proc.env) ∧ Env.map proc.env = M

theorem HasMap.law {proc : EnvProc} {M : EnvMap} (h : HasMap proc M) : EnvLaw proc M := by
  obtain ⟨hd, rfl⟩ := h
  refine ⟨fun key room => ?_, ⟨Env.pairs proc.env, Env.nodup_pairs hd, fun k v => Env.mem_pairs hd,
    fun index keyRoom valueRoom => ?_⟩, fun i j hi hj hk => ?_⟩
  · unfold abiEnvGet
    cases checkedAppSlice key with
    | none => rfl
    | some key =>
      dsimp only
      rw [Env.envLookup_eq]
      cases Env.map proc.env key with
      | none => rfl
      | some value =>
        match room with
        | none => rfl
        | some 0 => rfl
        | some (room + 1) => rfl
  · unfold abiEnvList
    dsimp only
    rw [Env.envListEntry_eq]
    cases (Env.pairs proc.env)[index]? <;> rfl
  · exact hd (if_pos hi) (by rw [hk]; exact if_pos hj)

theorem HasMap.congr {proc proc' : EnvProc} {M : EnvMap} (h : HasMap proc M)
    (he : proc'.env = proc.env) : HasMap proc' M := by
  rw [HasMap, he]
  exact h

theorem hasMap_empty : HasMap .empty Env.default := by
  refine ⟨fun i j k v w hi _ => (nomatch hi), funext fun k => ?_⟩
  have hnone : Slots.get (Env.slots EnvProc.empty.env) k = none :=
    Slots.get_eq_none.mpr fun i v hi => nomatch hi
  rw [Env.map, hnone]
  rfl

/-! ## Calls -/

@[simp] theorem env_fail {α : Type} (proc : EnvProc) (code : ℕ) :
    (proc.fail (α := α) code).1.env = proc.env := rfl

@[simp] theorem env_done {α : Type} (proc : EnvProc) (value : α) : (proc.done value).1.env = proc.env :=
  rfl

theorem env_abiEnvGet (proc : EnvProc) (key : List UInt8) (room : Option ℕ) :
    (abiEnvGet proc key room).1.env = proc.env := by
  unfold abiEnvGet
  split
  · rfl
  · split
    · rfl
    · split <;> rfl

theorem env_abiEnvList (proc : EnvProc) (index : ℕ) (keyRoom valueRoom : Option ℕ) :
    (abiEnvList proc index keyRoom valueRoom).1.env = proc.env := by
  unfold abiEnvList
  split
  · split <;> rfl
  · rfl

/-- An update is accepted and changes the map, or rejected and changes `last_error`. -/
theorem HasMap.overlay {proc : EnvProc} {M : EnvMap} (h : HasMap proc M) (key value : List UInt8)
    (deleted : Bool) : HasMap (proc.overlay key value deleted).1
        (EnvMap.after M (proc.overlay key value deleted).2 key (if deleted then none else some value)) ∧
      ((proc.overlay key value deleted).2 ≠ .done () →
        ∃ code, proc.overlay key value deleted = proc.fail code) := by
  obtain ⟨hd, rfl⟩ := h
  unfold EnvProc.overlay
  cases ho : envSetOverlay proc.env key value deleted with
  | error code => exact ⟨⟨hd, rfl⟩, fun _ => ⟨code, rfl⟩⟩
  | ok env =>
    obtain ⟨hd', hmap⟩ := Env.envSetOverlay_spec hd ho
    exact ⟨⟨hd', hmap⟩, fun hc => absurd rfl hc⟩

theorem HasMap.set {proc : EnvProc} {M : EnvMap} (h : HasMap proc M) (key value : List UInt8) :
    HasMap (abiEnvSet proc key value).1
        (EnvMap.after M (abiEnvSet proc key value).2 key (some value)) ∧
      ((abiEnvSet proc key value).2 ≠ .done () → ∃ code, abiEnvSet proc key value = proc.fail code) := by
  unfold abiEnvSet
  cases hk : checkedAppSlice key with
  | none => exact ⟨h, fun _ => ⟨_, rfl⟩⟩
  | some key' =>
    cases hv : checkedAppSlice value with
    | none => exact ⟨h, fun _ => ⟨_, rfl⟩⟩
    | some value' =>
      obtain rfl := checkedAppSlice_eq hk
      obtain rfl := checkedAppSlice_eq hv
      exact h.overlay key' value' false

theorem HasMap.remove {proc : EnvProc} {M : EnvMap} (h : HasMap proc M) (key : List UInt8) :
    HasMap (abiEnvRemove proc key).1 (EnvMap.after M (abiEnvRemove proc key).2 key none) ∧
      ((abiEnvRemove proc key).2 ≠ .done () → ∃ code, abiEnvRemove proc key = proc.fail code) := by
  unfold abiEnvRemove
  cases hk : checkedAppSlice key with
  | none => exact ⟨h, fun _ => ⟨_, rfl⟩⟩
  | some key' =>
    obtain rfl := checkedAppSlice_eq hk
    exact h.overlay key' [] true

/-! ## Runs -/

/-- Every process has its map. -/
def EnvInv (s : EnvSys) : Prop := ∀ p, HasMap (s.procs p) (s.maps p)

variable {s s' : EnvSys}

/-- A process changed with its map. -/
theorem EnvInv.update (h : EnvInv s) {p : Fin processCount} {proc : EnvProc} {M : EnvMap}
    (hp : HasMap proc M) : EnvInv ((s.setProc p proc).setMap p M) := by
  intro q
  by_cases hq : q = p
  · subst hq
    simpa [EnvSys.setProc, EnvSys.setMap] using hp
  · simpa [EnvSys.setProc, EnvSys.setMap, hq] using h q

/-- A process changed apart from its overlay. -/
theorem EnvInv.frame (h : EnvInv s) {p : Fin processCount} {proc : EnvProc}
    (he : proc.env = (s.procs p).env) : EnvInv (s.setProc p proc) := by
  intro q
  by_cases hq : q = p
  · subst hq
    simpa [EnvSys.setProc] using (h q).congr he
  · simpa [EnvSys.setProc, hq] using h q

theorem EnvInv.step (h : EnvInv s) {act : EnvAct} (hs : envStep s act = some s') : EnvInv s' := by
  cases act with
  | get p key room =>
    cases hs
    exact h.frame (env_abiEnvGet ..)
  | list p index keyRoom valueRoom =>
    cases hs
    exact h.frame (env_abiEnvList ..)
  | set p key value =>
    cases hs
    exact h.update ((h p).set key value).1
  | remove p key =>
    cases hs
    exact h.update ((h p).remove key).1
  | start child =>
    cases hs
    exact h.update hasMap_empty
  | spawn p child =>
    simp only [envStep] at hs
    split_ifs at hs with hp
    cases hs
    have hchild := h.update (p := child)
      (@HasMap.congr _ { EnvProc.empty with env := (s.procs p).env } _ (h p) rfl)
    refine hchild.frame ?_
    simp [EnvSys.setProc, EnvSys.setMap, hp]

theorem envInv_of_reach (h : Reach EnvInit (fun _ _ => True) envStep s) : EnvInv s := by
  refine h.inv (fun s hi q => ?_) fun s act s' hi _ hs => hi.step hs
  rw [(hi q).1, (hi q).2]
  exact hasMap_empty

/-- **The environment of a process is the map of its accepted calls over the defaults**: lookup and
listing are those of the map, a key has one slot of the overlay, and a rejected call changes
`last_error` only. A child starts with the map of its parent, and each call changes the map of its
own process. -/
theorem envLaw_of_reach (h : Reach EnvInit (fun _ _ => True) envStep s) (p : Fin processCount) :
    EnvLaw (s.procs p) (s.maps p) ∧
      (∀ key value, (abiEnvSet (s.procs p) key value).2 ≠ .done () →
        ∃ code, abiEnvSet (s.procs p) key value = (s.procs p).fail code) ∧
      ∀ key, (abiEnvRemove (s.procs p) key).2 ≠ .done () →
        ∃ code, abiEnvRemove (s.procs p) key = (s.procs p).fail code := by
  have hinv := envInv_of_reach h
  exact ⟨(hinv p).law, fun key value => ((hinv p).set key value).2, fun key => ((hinv p).remove key).2⟩

/-- No process yet. -/
def envBoot : EnvSys := ⟨fun _ => .empty, fun _ => Env.default⟩

theorem envInit_envBoot : EnvInit envBoot := fun _ => ⟨rfl, rfl⟩

/-- Process 0 sets `HOME` and removes `USER`, process 1 is spawned by it and removes `HOME`. -/
def childRun : List EnvAct :=
  [.start 0, .set 0 (ascii "HOME") (ascii "/home"), .remove 0 (ascii "USER"), .spawn 0 1,
    .remove 1 (ascii "HOME")]

theorem envLaw_of_reach_childRun : ∃ s, exec envStep envBoot childRun = some s ∧
    EnvLaw (s.procs 0) (s.maps 0) ∧ EnvLaw (s.procs 1) (s.maps 1) := by
  obtain ⟨s, hs⟩ : ∃ s, exec envStep envBoot childRun = some s := ⟨_, rfl⟩
  have hr := reach_of_exec (.start envInit_envBoot) (allGood_true _ _) hs
  exact ⟨s, hs, (envLaw_of_reach hr 0).1, (envLaw_of_reach hr 1).1⟩

/-- **A key that is no argument is refused with another error.** -/
theorem not_envGet_noent : ¬ ∀ s, Reach EnvInit (fun _ _ => True) envStep s → ∀ p key room,
    s.maps p key = none → (abiEnvGet (s.procs p) key room).2 = .error errNoent := by
  intro hall
  have hno : Env.default [] = none := by decide
  have := hall envBoot (.start envInit_envBoot) 0 [] none hno
  exact absurd this (by decide)

end Rymos
