import Rymos.Base.Slots
import Rymos.Pfs.Fd

/-!
# The environment of a process

Six defaults, overlaid with the variables a process has set or removed.

* `AppEnvVar`, `EnvProc`: a slot of the overlay, and what the calls of a process read and change.
  Keys and values are lists with the bounds of their buffers.
* `envLookup`, `envListEntry`, `envSetOverlay`, `abiEnvGet`, `abiEnvList`, `abiEnvSet`,
  `abiEnvRemove`: the functions and the calls.
* `overlay`, `Env.map`: the overlay as a table of slots, and the environment as a map.
* **`envLookup_eq`**, **`envSetOverlay_spec`**, **`envListEntry_eq`**: lookup, update and listing
  are those of the map.
-/

namespace Rymos

open ByteBuf

abbrev appEnvCount : ℕ := 64

abbrev appEnvKeyMax : ℕ := 24

abbrev appEnvValueMax : ℕ := 96

structure AppEnvVar where
  used : Bool
  deleted : Bool
  key : List UInt8
  value : List UInt8
  key_le : key.length ≤ appEnvKeyMax
  value_le : value.length ≤ appEnvValueMax
  deriving DecidableEq

def AppEnvVar.empty : AppEnvVar := ⟨false, false, [], [], Nat.zero_le _, Nat.zero_le _⟩

/-- The overlay of a process. -/
abbrev Env : Type := Fin appEnvCount → AppEnvVar

/-- `ENV`. -/
def envDefaults : List (List UInt8 × List UInt8) :=
  [(ascii "PATH", ascii "programs"), (ascii "HOME", ascii "/"), (ascii "SHELL", ascii "rysh"),
    (ascii "USER", ascii "root"), (ascii "RYMOS_TARGET", ascii "x86_64-rymos"),
    (ascii "TMPDIR", ascii "pfs:tmp")]

/-- The first used entry with the key. -/
def envFind (env : Env) (key : List UInt8) : Option (Fin appEnvCount) :=
  (List.finRange appEnvCount).find? fun index => (env index).used && (env index).key == key

def envLookup (env : Env) (key : List UInt8) : Option (List UInt8) :=
  match envFind env key with
  | some index => if (env index).deleted then none else some (env index).value
  | none => (envDefaults.find? fun pair => pair.1 == key).map Prod.snd

def envOverlayHasKey (env : Env) (key : List UInt8) : Bool := (envFind env key).isSome

/-- The loops of `env_list_entry` over the entries to be shown; `none` is one that is passed over. -/
def envListLoop (wanted seen : ℕ) :
    List (Option (List UInt8 × List UInt8)) → Option (List UInt8 × List UInt8)
  | [] => none
  | none :: rest => envListLoop wanted seen rest
  | some pair :: rest => if seen == wanted then some pair else envListLoop wanted (seen + 1) rest

/-- The entries of the first loop, then those of the second. -/
def envShown (env : Env) : List (Option (List UInt8 × List UInt8)) :=
  ((List.finRange appEnvCount).map fun index =>
    if (env index).used && !(env index).deleted then some ((env index).key, (env index).value)
    else none) ++
  envDefaults.map fun pair => if envOverlayHasKey env pair.1 then none else some pair

def envListEntry (env : Env) (wanted : ℕ) : Option (List UInt8 × List UInt8) :=
  envListLoop wanted 0 (envShown env)

/-- The loop of `env_set_overlay`: the entry with the key, else the first free one. -/
def envSlotLoop (env : Env) (key : List UInt8) :
    List (Fin appEnvCount) → Option (Fin appEnvCount) → Option (Fin appEnvCount)
  | [], slot => slot
  | index :: rest, slot =>
    if (env index).used && (env index).key == key then some index
    else envSlotLoop env key rest
      (if slot.isNone && !(env index).used then some index else slot)

/-- `b'='` -/
abbrev equalsSign : UInt8 := 61

def envSetOverlay (env : Env) (key value : List UInt8) (deleted : Bool) : Except ℕ Env :=
  if h : key.length ≤ appEnvKeyMax ∧ value.length ≤ appEnvValueMax then
    if key.isEmpty || key.any fun byte => byte == equalsSign || byte == 0 then .error errInval
    else
      match envSlotLoop env key (List.finRange appEnvCount) none with
      | none => .error errNospc
      | some slot =>
        .ok (Function.update env slot ⟨true, deleted, key, value, h.1, h.2⟩)
  else .error errInval

/-! ## Calls -/

/-- What the environment calls of a process read and change. -/
structure EnvProc where
  env : Env
  lastError : ℕ

def EnvProc.empty : EnvProc := ⟨fun _ => .empty, 0⟩

/-- `set_app_error` with its `-1`. -/
def EnvProc.fail {α : Type} (proc : EnvProc) (code : ℕ) : EnvProc × Reply α :=
  ({ proc with lastError := code }, .error code)

/-- `clear_app_error` and a value. -/
def EnvProc.done {α : Type} (proc : EnvProc) (value : α) : EnvProc × Reply α :=
  ({ proc with lastError := 0 }, .done value)

/-- The number returned and the bytes copied; `room` is the length of the caller's buffer, if it
has one. -/
def abiEnvGet (proc : EnvProc) (key : List UInt8) (room : Option ℕ) :
    EnvProc × Reply (ℕ × List UInt8) :=
  match checkedAppSlice key with
  | none => proc.fail errInval
  | some key =>
    match envLookup proc.env key with
    | none => proc.fail errNoent
    | some value =>
      match room with
      | none | some 0 => proc.done (value.length, [])
      | some room => proc.done (min room value.length, value.take room)

/-- The bytes copied of key and value. -/
def abiEnvList (proc : EnvProc) (index : ℕ) (keyRoom valueRoom : Option ℕ) :
    EnvProc × Reply (List UInt8 × List UInt8) :=
  match keyRoom, valueRoom with
  | some keyRoom, some valueRoom =>
    match envListEntry proc.env index with
    | none => proc.fail errNoent
    | some (key, value) => proc.done (key.take keyRoom, value.take valueRoom)
  | _, _ => proc.fail errInval

/-- The end of `env_set_overlay`. -/
def EnvProc.overlay (proc : EnvProc) (key value : List UInt8) (deleted : Bool) :
    EnvProc × Reply Unit :=
  match envSetOverlay proc.env key value deleted with
  | .error code => proc.fail code
  | .ok env => ({ env := env, lastError := 0 }, .done ())

def abiEnvSet (proc : EnvProc) (key value : List UInt8) : EnvProc × Reply Unit :=
  match checkedAppSlice key with
  | none => proc.fail errInval
  | some key =>
    match checkedAppSlice value with
    | none => proc.fail errInval
    | some value => proc.overlay key value false

def abiEnvRemove (proc : EnvProc) (key : List UInt8) : EnvProc × Reply Unit :=
  match checkedAppSlice key with
  | none => proc.fail errInval
  | some key => proc.overlay key [] true

/-! ## The environment as a map -/

/-- What an entry of the overlay says: a value, or that there is none. -/
def AppEnvVar.slot (entry : AppEnvVar) : Option (List UInt8 × Option (List UInt8)) :=
  if entry.used then some (entry.key, if entry.deleted then none else some entry.value) else none

namespace Env

variable {env : Env} {key value : List UInt8}

def slots (env : Env) : Slots appEnvCount (List UInt8) (Option (List UInt8)) :=
  fun index => (env index).slot

/-- The value of a default. -/
def default (key : List UInt8) : Option (List UInt8) :=
  (envDefaults.find? fun pair => pair.1 == key).map Prod.snd

/-- The defaults, overlaid. -/
def map (env : Env) (key : List UInt8) : Option (List UInt8) :=
  (env.slots.get key).getD (default key)

theorem find_eq (env : Env) (key : List UInt8) : envFind env key = env.slots.find key := by
  refine congrArg₂ List.find? (funext fun i => ?_) rfl
  unfold slots AppEnvVar.slot
  cases (env i).used
  · rfl
  · rw [Bool.eq_iff_iff]
    simp [Option.any]

theorem slots_of_find {i : Fin appEnvCount} (h : envFind env key = some i) :
    env.slots i = some (key, if (env i).deleted then none else some (env i).value) := by
  rw [find_eq] at h
  obtain ⟨v, hi⟩ := Slots.find_eq_some h
  have hslot := hi
  unfold slots AppEnvVar.slot at hslot
  by_cases hu : (env i).used = true
  · rw [if_pos hu, Option.some.injEq, Prod.mk.injEq] at hslot
    rw [hi, hslot.2]
  · rw [if_neg hu] at hslot
    cases hslot

/-- **Lookup is that of the map.** -/
theorem envLookup_eq (env : Env) (key : List UInt8) : envLookup env key = env.map key := by
  unfold envLookup map
  cases hf : envFind env key with
  | none =>
    rw [find_eq, Slots.find_eq_none, ← Slots.get_eq_none] at hf
    rw [hf]
    rfl
  | some i =>
    have hi := slots_of_find hf
    rw [find_eq] at hf
    rw [Slots.get_of_find hf hi]
    rfl

/-! ## Updates -/

/-- The entry the loop stops at. -/
theorem envSlotLoop_eq (l : List (Fin appEnvCount)) (slot : Option (Fin appEnvCount)) :
    envSlotLoop env key l slot =
      (l.find? fun index => (env index).used && (env index).key == key).or
        (slot.or (l.find? fun index => !(env index).used)) := by
  induction l generalizing slot with
  | nil => cases slot <;> rfl
  | cons index l ih =>
    rw [envSlotLoop]
    by_cases hk : ((env index).used && (env index).key == key) = true
    · rw [if_pos hk, List.find?_cons_of_pos (by exact hk)]
      rfl
    · rw [if_neg hk, ih, List.find?_cons_of_neg (by exact hk)]
      congr 1
      cases slot with
      | some s => rfl
      | none => cases hu : (env index).used <;> simp [hu]

theorem free_eq (env : Env) :
    (List.finRange appEnvCount).find? (fun index => !(env index).used) = env.slots.free := by
  refine congrArg₂ List.find? (funext fun i => ?_) rfl
  unfold slots AppEnvVar.slot
  cases (env i).used <;> rfl

/-- An accepted update writes the slot of its key, or a free one if the key has none. -/
theorem envSetOverlay_slots (hd : Slots.Distinct env.slots) {deleted : Bool} {env' : Env}
    (h : envSetOverlay env key value deleted = .ok env') :
    ∃ i, (∀ j v, env.slots j = some (key, v) → j = i) ∧
      (env.slots i = none ∨ ∃ v, env.slots i = some (key, v)) ∧
      Env.slots env' = Function.update env.slots i (some (key, if deleted then none else some value)) := by
  unfold envSetOverlay at h
  split_ifs at h with hl hk
  rw [envSlotLoop_eq] at h
  change (match (envFind env key).or (none.or _) with
    | none => Except.error errNospc
    | some slot => .ok (Function.update env slot ⟨true, deleted, key, value, _, _⟩)) = .ok env' at h
  rw [Option.none_or, free_eq] at h
  have hslots (i : Fin appEnvCount) :
      Env.slots (Function.update env i ⟨true, deleted, key, value, hl.1, hl.2⟩) =
        Function.update env.slots i (some (key, if deleted then none else some value)) := by
    funext j
    by_cases hj : j = i
    · subst hj
      simp [slots, AppEnvVar.slot]
    · simp [slots, hj]
  cases hf : envFind env key with
  | some i =>
    rw [hf] at h
    cases h
    have hi := slots_of_find hf
    exact ⟨i, fun j v hj => hd hj hi, .inr ⟨_, hi⟩, hslots i⟩
  | none =>
    rw [hf, Option.none_or] at h
    rw [find_eq, Slots.find_eq_none] at hf
    cases hfree : env.slots.free with
    | none => rw [hfree] at h; cases h
    | some i =>
      rw [hfree] at h
      cases h
      exact ⟨i, fun j v hj => absurd hj (hf j v), .inl (Slots.free_eq_some hfree), hslots i⟩

/-- **An accepted update changes one key of the map**, and a key keeps one slot. -/
theorem envSetOverlay_spec (hd : Slots.Distinct env.slots) {deleted : Bool} {env' : Env}
    (h : envSetOverlay env key value deleted = .ok env') : Slots.Distinct (Env.slots env') ∧
      Env.map env' = Function.update env.map key (if deleted then none else some value) := by
  obtain ⟨i, hone, hslot, hs⟩ := envSetOverlay_slots hd h
  refine ⟨hs ▸ hd.update hone, funext fun k => ?_⟩
  unfold map
  rw [hs, hd.put hone hslot]
  by_cases hkk : k = key
  · subst hkk
    simp
  · simp [hkk]

/-- A key keeps its slot. -/
theorem envFind_isSome_of_set (hd : Slots.Distinct env.slots) {deleted : Bool} {env' : Env}
    (h : envSetOverlay env key value deleted = .ok env') {k : List UInt8}
    (hk : k = key ∨ (envFind env k).isSome = true) : (envFind env' k).isSome = true := by
  obtain ⟨i, -, hslot, hs⟩ := envSetOverlay_slots hd h
  rw [Option.isSome_iff_ne_none, find_eq, Ne, Slots.find_eq_none]
  intro hnone
  by_cases hkk : k = key
  · subst hkk
    exact hnone i _ (by rw [hs, Function.update_self])
  · obtain ⟨j, hj⟩ := Option.isSome_iff_exists.mp (hk.resolve_left hkk)
    rw [find_eq] at hj
    obtain ⟨v, hv⟩ := Slots.find_eq_some hj
    have hji : j ≠ i := by
      rintro rfl
      rcases hslot with hi | ⟨w, hi⟩
      · rw [hi] at hv; cases hv
      · rw [hi, Option.some.injEq, Prod.mk.injEq] at hv
        exact hkk hv.1.symm
    exact hnone j v (by rw [hs, Function.update_of_ne hji, hv])

/-- A key and a value `env_set_overlay` takes. -/
structure Settable (key value : List UInt8) : Prop where
  key_le : key.length ≤ appEnvKeyMax
  value_le : value.length ≤ appEnvValueMax
  key_ok : (key.isEmpty || key.any fun byte => byte == equalsSign || byte == 0) = false

theorem settable_of_set {deleted : Bool} {env' : Env}
    (h : envSetOverlay env key value deleted = .ok env') : Settable key value := by
  unfold envSetOverlay at h
  split_ifs at h with hl hk
  exact ⟨hl.1, hl.2, Bool.eq_false_iff.mpr hk⟩

/-- A key that has a slot can be set again. -/
theorem exists_envSetOverlay (hs : Settable key value) (hk : (envFind env key).isSome = true)
    (deleted : Bool) : ∃ env', envSetOverlay env key value deleted = .ok env' := by
  obtain ⟨i, hi⟩ := Option.isSome_iff_exists.mp hk
  unfold envSetOverlay
  rw [dif_pos ⟨hs.key_le, hs.value_le⟩, if_neg (by simp [hs.key_ok]), envSlotLoop_eq]
  unfold envFind at hi
  rw [hi]
  exact ⟨_, rfl⟩

/-! ## Listing -/

/-- The pairs shown, in the order of their numbers. -/
def pairs (env : Env) : List (List UInt8 × List UInt8) := (envShown env).filterMap id

theorem envListLoop_eq {wanted seen : ℕ} (h : seen ≤ wanted)
    (l : List (Option (List UInt8 × List UInt8))) :
    envListLoop wanted seen l = (l.filterMap id)[wanted - seen]? := by
  induction l generalizing seen with
  | nil => rfl
  | cons e l ih =>
    cases e with
    | none => exact ih h
    | some pair =>
      rw [envListLoop, List.filterMap_cons_some (f := id) (b := pair) rfl]
      by_cases hw : seen = wanted
      · rw [if_pos (beq_iff_eq.mpr hw), hw, Nat.sub_self, List.getElem?_cons_zero]
      · rw [if_neg (by simpa using hw), ih (by omega),
          show wanted - seen = wanted - (seen + 1) + 1 by omega, List.getElem?_cons_succ]

/-- **The listing goes through the pairs.** -/
theorem envListEntry_eq (env : Env) (wanted : ℕ) : envListEntry env wanted = env.pairs[wanted]? :=
  envListLoop_eq (Nat.zero_le wanted) _

theorem pairs_eq (env : Env) : env.pairs =
    (List.finRange appEnvCount).filterMap (fun index =>
      if (env index).used && !(env index).deleted then some ((env index).key, (env index).value)
      else none) ++ envDefaults.filter fun pair => !envOverlayHasKey env pair.1 := by
  rw [pairs, envShown, List.filterMap_append, List.filterMap_map, List.filterMap_map,
    ← List.filterMap_eq_filter]
  refine congrArg₂ (· ++ ·) rfl (List.filterMap_congr fun pair _ => ?_)
  cases h : envOverlayHasKey env pair.1 <;> simp [Option.guard, h]

theorem default_eq_some {k v : List UInt8} : default k = some v ↔ (k, v) ∈ envDefaults := by
  have hfind : ∀ l : List (List UInt8 × List UInt8), (l.map Prod.fst).Nodup →
      ((l.find? fun pair => pair.1 == k).map Prod.snd = some v ↔ (k, v) ∈ l) := by
    intro l
    induction l with
    | nil => simp
    | cons pair l ih =>
      intro hn
      rw [List.map_cons, List.nodup_cons] at hn
      by_cases hk : pair.1 = k
      · subst hk
        rw [List.find?_cons_of_pos (by simp), List.mem_cons]
        simp only [Option.map_some, Option.some.injEq]
        constructor
        · rintro rfl
          exact .inl rfl
        · rintro (h | h)
          · rw [← h]
          · exact absurd (List.mem_map_of_mem h) hn.1
      · rw [List.find?_cons_of_neg (by simpa using hk), ih hn.2, List.mem_cons]
        refine ⟨.inr, fun h => h.resolve_left ?_⟩
        rintro rfl
        exact hk rfl
  exact hfind envDefaults (by decide)

/-- **The pairs are those of the map.** -/
theorem mem_pairs (hd : Slots.Distinct env.slots) {k v : List UInt8} :
    (k, v) ∈ env.pairs ↔ env.map k = some v := by
  rw [pairs_eq, List.mem_append, List.mem_filterMap, List.mem_filter, ← default_eq_some]
  unfold map envOverlayHasKey
  -- an overlaid key has the value of its slot, any other that of the default
  have hover : (∃ index ∈ List.finRange appEnvCount,
      (if (env index).used && !(env index).deleted then some ((env index).key, (env index).value)
        else none) = some (k, v)) ↔ env.slots.get k = some (some v) := by
    rw [Slots.get_eq_some hd]
    refine exists_congr fun index => ?_
    simp only [List.mem_finRange, true_and, slots, AppEnvVar.slot]
    cases (env index).used <;> cases (env index).deleted <;> simp
  rw [hover]
  cases hf : envFind env k with
  | none =>
    rw [find_eq, Slots.find_eq_none, ← Slots.get_eq_none] at hf
    simp [hf]
  | some i =>
    have hi := slots_of_find hf
    rw [find_eq] at hf
    rw [Slots.get_of_find hf hi]
    simp

/-- **No key is shown twice.** -/
theorem nodup_pairs (hd : Slots.Distinct env.slots) : (env.pairs.map Prod.fst).Nodup := by
  rw [pairs_eq, List.map_append, List.nodup_append]
  have hslot : ∀ {index k}, k ∈ (if (env index).used && !(env index).deleted then
      some ((env index).key, (env index).value) else none).map Prod.fst →
      ∃ v, env.slots index = some (k, v) := by
    intro index k hk
    simp only [Option.mem_def, Option.map_eq_some_iff] at hk
    obtain ⟨pair, hk, rfl⟩ := hk
    split_ifs at hk with hu
    cases hk
    rw [Bool.and_eq_true] at hu
    exact ⟨_, if_pos hu.1⟩
  refine ⟨?_, ?_, ?_⟩
  · rw [List.map_filterMap]
    refine (List.nodup_finRange _).filterMap fun i j k hi hj => ?_
    obtain ⟨v, hi⟩ := hslot hi
    obtain ⟨w, hj⟩ := hslot hj
    exact hd hi hj
  · have hn : (envDefaults.map Prod.fst).Nodup := by decide
    exact (List.filter_sublist.map Prod.fst).nodup hn
  · intro k hk k' hk' hkk
    subst hkk
    rw [List.map_filterMap, List.mem_filterMap] at hk
    obtain ⟨i, -, hi⟩ := hk
    obtain ⟨v, hi⟩ := hslot hi
    obtain ⟨pair, hp, rfl⟩ := List.mem_map.mp hk'
    have hno := (List.mem_filter.mp hp).2
    simp only [envOverlayHasKey, Bool.not_eq_true', Option.isSome_eq_false_iff,
      Option.isNone_iff_eq_none] at hno
    rw [find_eq, Slots.find_eq_none] at hno
    exact hno i v hi

end Env

end Rymos
