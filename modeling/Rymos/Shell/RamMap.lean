import Rymos.Base.Runs
import Rymos.Shell.RamFs

/-!
# The RAM filesystem as a map

* `Node`, `NameMap`, `RamCall.effect`: names with files and directories, and what each command is
  for: what it makes of the map, or that it should not succeed.
* `RamFs.slots`, `RamFs.map`, `RamFs.Ok`: the map the entries stand for, and when they stand for one.
* `RamFs.Safe`: the command finds no entry of the other kind, no full table where it needs an entry,
  and no entry under the name it moves to.
* `touchRaw_old`, `touchRaw_new`, `writeRaw_spec`: the two functions the commands share.
* **`lawful_iff`**: a command does what it is for, or nothing, exactly if it is safe.
* **`ramfs_law`**: in a run, all commands do exactly if all are safe.
-/

namespace Rymos

open ByteBuf Transition

inductive Node
  | file (data : List UInt8)
  | dir
  deriving DecidableEq

def Node.isDir : Node → Bool
  | .file _ => false
  | .dir => true

/-- The entry of each name. -/
abbrev NameMap : Type := List UInt8 → Option Node

/-- What a command that succeeds makes of the map; `none` if it is not to succeed. A file stays a
file and a directory a directory. -/
def RamCall.effect (M : NameMap) : RamCall → Option NameMap
  | .touch name =>
    match M name with
    | none => some (Function.update M name (some (.file [])))
    | some _ => some M
  | .write name text =>
    if M name = some .dir then none else some (Function.update M name (some (.file text)))
  | .append name text =>
    match M name with
    | none => some (Function.update M name (some (.file text)))
    | some (.file data) => some (Function.update M name (some (.file (data ++ text))))
    | some .dir => none
  | .copy src dst =>
    match M src with
    | some (.file data) =>
      if M dst = some .dir then none else some (Function.update M dst (some (.file data)))
    | _ => none
  | .move src dst =>
    match M src with
    | some node =>
      if (M dst).any (fun old => old.isDir != node.isDir) then none
      else some (Function.update (Function.update M src none) dst (some node))
    | none => none
  | .rm name =>
    match M name with
    | some (.file _) => some (Function.update M name none)
    | _ => none
  | .mkdir name =>
    match M name with
    | none => some (Function.update M name (some .dir))
    | some .dir => some M
    | some (.file _) => none
  | .rmdir name =>
    match M name with
    | some .dir => some (Function.update M name none)
    | _ => none

/-! ## The map of the entries -/

def FileEntry.node (entry : FileEntry) : Node := if entry.isDir then .dir else .file entry.data

/-- What an entry says, if it is used. -/
def FileEntry.slot (entry : FileEntry) : Option (List UInt8 × Node) :=
  if entry.used then some (entry.name, entry.node) else none

@[simp] theorem FileEntry.slot_empty : FileEntry.empty.slot = none := rfl

theorem FileEntry.slot_of_used {entry : FileEntry} (h : entry.used = true) :
    entry.slot = some (entry.name, entry.node) := if_pos h

theorem FileEntry.slot_eq_some {entry : FileEntry} {name : List UInt8} {node : Node}
    (h : entry.slot = some (name, node)) :
    entry.used = true ∧ entry.name = name ∧ entry.node = node := by
  unfold slot at h
  split_ifs at h with hu
  cases h
  exact ⟨hu, rfl, rfl⟩

@[simp] theorem FileEntry.isDir_node (entry : FileEntry) : entry.node.isDir = entry.isDir := by
  unfold node
  cases entry.isDir <;> rfl

theorem FileEntry.data_of_node {entry : FileEntry} {data : List UInt8}
    (h : entry.node = .file data) : entry.isDir = false ∧ entry.data = data := by
  unfold node at h
  split_ifs at h with hd
  cases h
  exact ⟨by simpa using hd, rfl⟩

namespace RamFs

variable {fs : RamFs} {name : List UInt8} {node : Node} {i : Fin fileCount}

def slots (fs : RamFs) : Slots fileCount (List UInt8) Node := fun i => (fs.entries i).slot

def map (fs : RamFs) : NameMap := fs.slots.get

/-- Every entry is used. -/
def Full (fs : RamFs) : Prop := fs.slots.free = none

/-- No name has two entries, and an unused entry has no contents. -/
structure Ok (fs : RamFs) : Prop where
  distinct : Slots.Distinct fs.slots
  clean : ∀ i, (fs.entries i).used = false → (fs.entries i).data = []

theorem find_eq (fs : RamFs) (name : List UInt8) : fs.find name = fs.slots.find name := by
  refine congrArg₂ List.find? (funext fun i => ?_) rfl
  unfold slots FileEntry.slot
  cases (fs.entries i).used
  · rfl
  · rw [Bool.eq_iff_iff]
    simp [Option.any]

theorem freeSlot_eq (fs : RamFs) : fs.freeSlot = fs.slots.free := by
  refine congrArg₂ List.find? (funext fun i => ?_) rfl
  unfold slots FileEntry.slot
  cases (fs.entries i).used <;> rfl

theorem slots_set (fs : RamFs) (i : Fin fileCount) (entry : FileEntry) :
    (fs.set i entry).slots = Function.update fs.slots i entry.slot := by
  funext j
  by_cases hj : j = i
  · subst hj
    simp [slots, set]
  · simp [slots, set, hj]

theorem entries_set_of_ne (fs : RamFs) {j : Fin fileCount} (h : j ≠ i) (entry : FileEntry) :
    (fs.set i entry).entries j = fs.entries j := Function.update_of_ne h ..

@[simp] theorem entries_set_self (fs : RamFs) (i : Fin fileCount) (entry : FileEntry) :
    (fs.set i entry).entries i = entry := Function.update_self ..

/-- The entry of a name. -/
theorem entry_of_find (h : fs.find name = some i) : (fs.entries i).used = true ∧
    (fs.entries i).name = name ∧ fs.map name = some (fs.entries i).node := by
  rw [find_eq] at h
  obtain ⟨node, hi⟩ := Slots.find_eq_some h
  obtain ⟨hu, hn, rfl⟩ := FileEntry.slot_eq_some hi
  exact ⟨hu, hn, Slots.get_of_find h hi⟩

theorem find_of_map (h : fs.map name = some node) :
    ∃ i, fs.find name = some i ∧ (fs.entries i).node = node := by
  cases hf : fs.find name with
  | none => rw [map, Slots.get, ← find_eq, hf] at h; cases h
  | some i => exact ⟨i, rfl, Option.some.inj ((entry_of_find hf).2.2.symm.trans h)⟩

theorem map_eq_none : fs.map name = none ↔ fs.find name = none := by
  rw [map, Slots.get_eq_none, find_eq, Slots.find_eq_none]

theorem Ok.clean_set (h : fs.Ok) (entry : FileEntry) (hu : entry.used = true) (i j : Fin fileCount)
    (hj : ((fs.set i entry).entries j).used = false) : ((fs.set i entry).entries j).data = [] := by
  by_cases hji : j = i
  · subst hji
    rw [entries_set_self, hu] at hj
    cases hj
  · rw [entries_set_of_ne fs hji] at hj ⊢
    exact h.clean j hj

/-- An entry overwritten under its name. -/
theorem Ok.set (h : fs.Ok) (hf : fs.find name = some i) (entry : FileEntry)
    (hu : entry.used = true) (hn : entry.name = name) :
    (fs.set i entry).Ok ∧ (fs.set i entry).map = Function.update fs.map name (some entry.node) := by
  obtain ⟨hiu, hin, -⟩ := entry_of_find hf
  have hi : fs.slots i = some (name, (fs.entries i).node) := by
    rw [← hin]
    exact FileEntry.slot_of_used hiu
  have hk : ∀ j v', fs.slots j = some (name, v') → j = i := fun j v' hj => h.distinct hj hi
  have hs : (fs.set i entry).slots = Function.update fs.slots i (some (name, entry.node)) := by
    rw [slots_set, FileEntry.slot_of_used hu, hn]
  refine ⟨⟨hs ▸ h.distinct.update hk, h.clean_set _ hu i⟩, ?_⟩
  rw [map, hs]
  exact h.distinct.put hk (.inr ⟨_, hi⟩) _

/-- An unused entry filled. -/
theorem Ok.fill (h : fs.Ok) (hf : fs.find name = none) (hi : fs.freeSlot = some i)
    (entry : FileEntry) (hu : entry.used = true) (hn : entry.name = name) :
    (fs.set i entry).Ok ∧ (fs.set i entry).map = Function.update fs.map name (some entry.node) := by
  rw [find_eq, Slots.find_eq_none] at hf
  rw [freeSlot_eq] at hi
  have hk : ∀ j v', fs.slots j = some (name, v') → j = i := fun j v' hj => absurd hj (hf j v')
  have hs : (fs.set i entry).slots = Function.update fs.slots i (some (name, entry.node)) := by
    rw [slots_set, FileEntry.slot_of_used hu, hn]
  refine ⟨⟨hs ▸ h.distinct.update hk, h.clean_set _ hu i⟩, ?_⟩
  rw [map, hs]
  exact h.distinct.put hk (.inl (Slots.free_eq_some hi)) _

/-- An entry emptied. -/
theorem Ok.clear (h : fs.Ok) (hf : fs.find name = some i) :
    (fs.set i .empty).Ok ∧ (fs.set i .empty).map = Function.update fs.map name none := by
  obtain ⟨hiu, hin, -⟩ := entry_of_find hf
  have hi : fs.slots i = some (name, (fs.entries i).node) := by
    rw [← hin]
    exact FileEntry.slot_of_used hiu
  have hs : (fs.set i .empty).slots = Function.update fs.slots i none := by
    rw [slots_set, FileEntry.slot_empty]
  obtain ⟨hd, hget⟩ := h.distinct.clear hi
  refine ⟨⟨hs ▸ hd, fun j hj => ?_⟩, by rw [map, hs, hget]; rfl⟩
  by_cases hji : j = i
  · subst hji
    rw [entries_set_self]
    rfl
  · rw [entries_set_of_ne fs hji] at hj ⊢
    exact h.clean j hj

/-! ## The shared functions -/

/-- A name that has an entry: it gets the kind asked for. -/
theorem touchRaw_old (h : fs.Ok) (hm : fs.map name = some node) (hl : name.length ≤ fileNameMax)
    (isDir : Bool) : ∃ fs' node', fs.touchRaw name hl isDir = (fs', true) ∧ fs'.Ok ∧
      fs'.map = Function.update fs.map name (some node') ∧ node'.isDir = isDir ∧
      (node.isDir = isDir → node' = node) := by
  obtain ⟨i, hf, rfl⟩ := find_of_map hm
  obtain ⟨hu, hn, -⟩ := entry_of_find hf
  obtain ⟨hok, hmap⟩ := h.set hf { fs.entries i with isDir := isDir } hu hn
  refine ⟨_, _, by simp only [touchRaw, hf], hok, hmap, FileEntry.isDir_node _, fun hk => ?_⟩
  rw [FileEntry.isDir_node] at hk
  rw [← hk]

/-- A name without entry: it gets an empty one, if one is free. -/
theorem touchRaw_new (h : fs.Ok) (hm : fs.map name = none) (hl : name.length ≤ fileNameMax)
    (isDir : Bool) : fs.Full ∧ fs.touchRaw name hl isDir = (fs, false) ∨
      ¬ fs.Full ∧ ∃ fs', fs.touchRaw name hl isDir = (fs', true) ∧ fs'.Ok ∧
        fs'.map = Function.update fs.map name (some (if isDir then .dir else .file [])) := by
  have hf := map_eq_none.mp hm
  rcases hs : fs.freeSlot with _ | i
  · refine .inl ⟨by rwa [Full, ← freeSlot_eq], ?_⟩
    simp only [touchRaw, hf, hs]
  · refine .inr ⟨by rw [Full, ← freeSlot_eq, hs]; simp, ?_⟩
    have hclean : (fs.entries i).data = [] := by
      rw [freeSlot_eq] at hs
      refine h.clean i ?_
      by_contra hu
      have := Slots.free_eq_some hs
      rw [slots, FileEntry.slot_of_used (by simpa using hu)] at this
      cases this
    obtain ⟨hok, hmap⟩ := h.fill hf hs { fs.entries i with
      used := true, isDir := isDir, name := name, name_le := hl } rfl rfl
    refine ⟨_, by simp only [touchRaw, hf, hs], hok, ?_⟩
    rw [hmap, FileEntry.node]
    dsimp only
    rw [hclean]

/-- A name gets the text, unless it needs an entry and none is free. -/
theorem writeRaw_spec (h : fs.Ok) (hl : name.length ≤ fileNameMax) {text : List UInt8}
    (ht : text.length ≤ fileDataMax) :
    (fs.map name = none ∧ fs.Full) ∧ fs.writeRaw name hl text ht = fs ∨
      ¬ (fs.map name = none ∧ fs.Full) ∧ (fs.writeRaw name hl text ht).Ok ∧
        (fs.writeRaw name hl text ht).map = Function.update fs.map name (some (.file text)) := by
  -- the entry `touch_raw` leaves is the one `find` returns
  have hwrite : ∀ {fs' node'}, fs.touchRaw name hl false = (fs', true) → fs'.Ok →
      fs'.map = Function.update fs.map name (some node') →
      (fs.writeRaw name hl text ht).Ok ∧
        (fs.writeRaw name hl text ht).map = Function.update fs.map name (some (.file text)) := by
    intro fs' node' htouch hok hmap
    obtain ⟨i, hf, -⟩ := @find_of_map fs' name node' (by simp [hmap])
    obtain ⟨hu, hn, -⟩ := entry_of_find hf
    have hset := hok.set hf { fs'.entries i with
      isDir := false, data := text, data_le := ht } hu hn
    rw [hmap, Function.update_idem] at hset
    simp only [writeRaw, htouch, Bool.not_true, Bool.false_eq_true, if_false, hf, Option.getD_some]
    exact hset
  cases hm : fs.map name with
  | none =>
    rcases touchRaw_new h hm hl false with ⟨hfull, htouch⟩ | ⟨hfull, fs', htouch, hok, hmap⟩
    · refine .inl ⟨⟨rfl, hfull⟩, ?_⟩
      simp [writeRaw, htouch]
    · exact .inr ⟨fun hc => hfull hc.2, hwrite htouch hok hmap⟩
  | some node =>
    obtain ⟨fs', node', htouch, hok, hmap, -⟩ := touchRaw_old h hm hl false
    exact .inr ⟨fun hc => by simp at hc, hwrite htouch hok hmap⟩

/-! ## Commands -/

/-- The command does what it is for if it prints `ok`, and nothing if it prints an error; names
stay distinct. -/
def Lawful (fs : RamFs) (call : RamCall) : Prop :=
  (if (fs.call call).2 = "ok" then call.effect fs.map = some (fs.call call).1.map
    else (fs.call call).1.map = fs.map) ∧ Slots.Distinct (fs.call call).1.slots

/-- The name is not a directory, and has an entry or can get one. -/
def Takes (fs : RamFs) (name : List UInt8) : Prop :=
  fs.map name ≠ some .dir ∧ ¬ (fs.map name = none ∧ fs.Full)

/-- The command meets no entry of the other kind, no full table where it needs an entry, and no
entry under the name it moves to. -/
def Safe (fs : RamFs) : RamCall → Prop
  | .touch name => validName name = true → fs.map name ≠ some .dir
  | .write name text => validName name = true → text.length ≤ fileDataMax → fs.Takes name
  | .append name text =>
    validName name = true → fs.map name = none → text.length ≤ fileDataMax → ¬ fs.Full
  | .copy src dst => validName dst = true → ∀ data, fs.map src = some (.file data) → fs.Takes dst
  | .move src dst => validName dst = true → fs.map src ≠ none → fs.map dst = none ∨ dst = src
  | .mkdir name => validName name = true → ∀ data, fs.map name ≠ some (.file data)
  | .rm _ | .rmdir _ => True

/-- A command that prints an error and changes nothing. -/
theorem lawful_of_error (h : fs.Ok) {call : RamCall} (line : String)
    (hc : fs.call call = (fs, line)) (hne : line ≠ "ok") : fs.Lawful call := by
  rw [Lawful, hc]
  exact ⟨by rw [if_neg hne], h.distinct⟩

/-- What a command that prints `ok` should have done. -/
theorem lawful_of_ok {call : RamCall} (fs' : RamFs) (hc : fs.call call = (fs', "ok")) :
    fs.Lawful call ↔ call.effect fs.map = some fs'.map ∧ Slots.Distinct fs'.slots := by
  rw [Lawful, hc, if_pos rfl]

theorem lawful_touch (h : fs.Ok) (name : List UInt8) :
    fs.Lawful (.touch name) ↔ fs.Safe (.touch name) := by
  by_cases hv : validName name = true
  · cases hm : fs.map name with
    | none =>
      refine iff_of_true ?_ fun _ => by simp [hm]
      rcases touchRaw_new h hm (length_of_validName hv) false with ⟨-, ht⟩ | ⟨-, fs', ht, hok, hmap⟩
      · exact lawful_of_error h "ramfs full" (by simp [call, touch, hv, ht]) (by decide)
      · rw [lawful_of_ok fs' (by simp [call, touch, hv, ht])]
        exact ⟨by simp [RamCall.effect, hm, hmap], hok.distinct⟩
    | some node =>
      obtain ⟨fs', node', ht, hok, hmap, hk, hsame⟩ :=
        touchRaw_old h hm (length_of_validName hv) false
      rw [lawful_of_ok fs' (by simp [call, touch, hv, ht]), Safe]
      simp only [RamCall.effect, hm, Option.some.injEq, hmap, eq_comm (a := fs.map),
        Function.update_eq_self_iff, hv, forall_const]
      constructor
      · rintro ⟨rfl, -⟩ hd
        rw [Option.some.inj hd] at hk
        cases hk
      · intro hd
        refine ⟨?_, hok.distinct⟩
        cases node with
        | dir => exact absurd rfl hd
        | file data => exact hsame rfl
  · refine iff_of_true ?_ fun hc => absurd hc hv
    exact lawful_of_error h "invalid name" (by simp [call, touch, hv]) (by decide)

theorem lawful_mkdir (h : fs.Ok) (name : List UInt8) :
    fs.Lawful (.mkdir name) ↔ fs.Safe (.mkdir name) := by
  by_cases hv : validName name = true
  · cases hm : fs.map name with
    | none =>
      refine iff_of_true ?_ fun _ => by simp [hm]
      rcases touchRaw_new h hm (length_of_validName hv) true with ⟨-, ht⟩ | ⟨-, fs', ht, hok, hmap⟩
      · exact lawful_of_error h "ramfs full" (by simp [call, touch, hv, ht]) (by decide)
      · rw [lawful_of_ok fs' (by simp [call, touch, hv, ht])]
        exact ⟨by simp [RamCall.effect, hm, hmap], hok.distinct⟩
    | some node =>
      obtain ⟨fs', node', ht, hok, hmap, hk, hsame⟩ :=
        touchRaw_old h hm (length_of_validName hv) true
      rw [lawful_of_ok fs' (by simp [call, touch, hv, ht]), Safe]
      cases node with
      | dir =>
        refine iff_of_true ⟨?_, hok.distinct⟩ fun _ data => by simp [hm]
        rw [hmap, hsame rfl, ← hm, Function.update_eq_self]
        simp [RamCall.effect, hm]
      | file data =>
        refine iff_of_false (fun hc => ?_) fun hc => hc hv data hm
        simp [RamCall.effect, hm] at hc
  · refine iff_of_true ?_ fun hc => absurd hc hv
    exact lawful_of_error h "invalid name" (by simp [call, touch, hv]) (by decide)

/-- What `ok` after a `write_raw` is worth. -/
theorem lawful_writeRaw (h : fs.Ok) {call : RamCall} {name text : List UInt8}
    (hl : name.length ≤ fileNameMax) (ht : text.length ≤ fileDataMax)
    (hc : fs.call call = (fs.writeRaw name hl text ht, "ok"))
    (he : call.effect fs.map =
      if fs.map name = some .dir then none
      else some (Function.update fs.map name (some (.file text)))) :
    fs.Lawful call ↔ fs.Takes name := by
  rw [lawful_of_ok _ hc, he, Takes]
  by_cases hd : fs.map name = some .dir
  · rw [if_pos hd]
    exact iff_of_false (fun hc => nomatch hc.1) fun hc => hc.1 hd
  rw [if_neg hd]
  rcases writeRaw_spec h hl ht with ⟨hfull, hw⟩ | ⟨hfull, hok, hmap⟩
  · refine iff_of_false (fun hc => ?_) fun hc => hc.2 hfull
    rw [hw, Option.some.injEq, Function.update_eq_self_iff, hfull.1] at hc
    cases hc.1
  · exact iff_of_true ⟨by rw [hmap], hok.distinct⟩ ⟨hd, hfull⟩

theorem lawful_write (h : fs.Ok) (name text : List UInt8) :
    fs.Lawful (.write name text) ↔ fs.Safe (.write name text) := by
  by_cases hv : validName name = true
  · by_cases ht : text.length ≤ fileDataMax
    · rw [lawful_writeRaw h (length_of_validName hv) ht (by simp [call, write, hv, ht]) rfl, Safe]
      exact ⟨fun hc _ _ => hc, fun hc => hc hv ht⟩
    · refine iff_of_true ?_ fun _ hc => absurd hc ht
      exact lawful_of_error h "write: text too large" (by simp [call, write, hv, ht])
        (by decide)
  · refine iff_of_true ?_ fun hc => absurd hc hv
    exact lawful_of_error h "invalid name" (by simp [call, write, hv]) (by decide)

theorem lawful_append (h : fs.Ok) (name text : List UInt8) :
    fs.Lawful (.append name text) ↔ fs.Safe (.append name text) := by
  by_cases hv : validName name = true
  · cases hf : fs.find name with
    | none =>
      have hm := map_eq_none.mpr hf
      by_cases ht : text.length ≤ fileDataMax
      · rw [lawful_writeRaw h (length_of_validName hv) ht (by simp [call, append, write, hv, hf, ht])
          (by simp [RamCall.effect, hm]), Takes, Safe]
        simp [hm, hv, ht]
      · refine iff_of_true ?_ fun _ _ hc => absurd hc ht
        exact lawful_of_error h "write: text too large"
          (by simp [call, append, write, hv, hf, ht]) (by decide)
    | some i =>
      obtain ⟨hu, hn, hm⟩ := entry_of_find hf
      refine iff_of_true ?_ fun _ hc => by simp [hm] at hc
      by_cases hd : (fs.entries i).isDir = true
      · exact lawful_of_error h "append: is a directory" (by simp [call, append, hv, hf, hd])
          (by decide)
      · by_cases ht : ((fs.entries i).data ++ text).length ≤ fileDataMax
        · obtain ⟨hok, hmap⟩ := h.set hf { fs.entries i with
            data := (fs.entries i).data ++ text, data_le := ht } hu hn
          have hcall : fs.call (.append name text) = (fs.set i { fs.entries i with
              data := (fs.entries i).data ++ text, data_le := ht }, "ok") := by
            simp only [call, append, hv, hf, if_true]
            rw [if_neg hd, dif_pos ht]
          rw [lawful_of_ok _ hcall]
          refine ⟨?_, hok.distinct⟩
          rw [hmap]
          simp only [RamCall.effect, hm, FileEntry.node, hd]
          rfl
        · exact lawful_of_error h "append: text too large"
            (by simp only [call, append, hv, hf, hd, dif_neg ht]; rfl) (by decide)
  · refine iff_of_true ?_ fun hc => absurd hc hv
    exact lawful_of_error h "invalid name" (by simp [call, append, hv]) (by decide)

theorem lawful_copy (h : fs.Ok) (src dst : List UInt8) :
    fs.Lawful (.copy src dst) ↔ fs.Safe (.copy src dst) := by
  by_cases hv : validName dst = true
  · cases hf : fs.find src with
    | none =>
      refine iff_of_true ?_ fun _ data => by simp [map_eq_none.mpr hf]
      exact lawful_of_error h "copy: source not found" (by simp [call, copy, hv, hf])
        (by decide)
    | some i =>
      obtain ⟨-, -, hm⟩ := entry_of_find hf
      by_cases hd : (fs.entries i).isDir = true
      · refine iff_of_true ?_ fun _ data => by simp [hm, FileEntry.node, hd]
        exact lawful_of_error h "copy: directories not supported yet"
          (by simp [call, copy, hv, hf, hd]) (by decide)
      · have hnode : fs.map src = some (.file (fs.entries i).data) := by
          rw [hm, FileEntry.node, if_neg hd]
        rw [lawful_writeRaw h (length_of_validName hv) (fs.entries i).data_le
          (by simp [call, copy, hv, hf, hd]) (by simp only [RamCall.effect, hnode]), Safe]
        exact ⟨fun hc _ _ _ => hc, fun hc => hc hv _ hnode⟩
  · refine iff_of_true ?_ fun hc => absurd hc hv
    exact lawful_of_error h "invalid destination" (by simp [call, copy, hv]) (by decide)

theorem lawful_move (h : fs.Ok) (src dst : List UInt8) :
    fs.Lawful (.move src dst) ↔ fs.Safe (.move src dst) := by
  by_cases hv : validName dst = true
  · cases hf : fs.find src with
    | none =>
      refine iff_of_true ?_ fun _ hc => absurd (map_eq_none.mpr hf) hc
      exact lawful_of_error h "move: source not found" (by simp [call, moveEntry, hv, hf])
        (by decide)
    | some i =>
      obtain ⟨hu, hn, hm⟩ := entry_of_find hf
      have hl := length_of_validName hv
      have hi : fs.slots i = some (src, (fs.entries i).node) := by
        rw [← hn]
        exact FileEntry.slot_of_used hu
      obtain ⟨entry, hcall, hslot⟩ : ∃ entry, fs.call (.move src dst) = (fs.set i entry, "ok") ∧
          entry.slot = some (dst, (fs.entries i).node) := by
        refine ⟨{ fs.entries i with name := dst, name_le := hl }, ?_, if_pos hu⟩
        simp only [call, moveEntry, hv, hf, if_true]
        rw [dif_pos hl]
      have hs := slots_set fs i entry
      rw [hslot] at hs
      have hmap : (fs.set i entry).map =
          Slots.get (Function.update fs.slots i (some (dst, (fs.entries i).node))) := by
        rw [map, hs]
      rw [lawful_of_ok _ hcall, hmap, hs, Safe]
      constructor
      · rintro ⟨-, hd⟩ - -
        cases hmd : fs.map dst with
        | none => exact .inl rfl
        | some node =>
          -- the entry with the name before, and the one moved to it
          obtain ⟨j, hfj, rfl⟩ := find_of_map hmd
          obtain ⟨huj, hnj, -⟩ := entry_of_find hfj
          have hj : fs.slots j = some (dst, (fs.entries j).node) := by
            rw [← hnj]
            exact FileEntry.slot_of_used huj
          by_cases hji : j = i
          · exact .inr (by rw [← hnj, ← hn, hji])
          · exact absurd (hd (by rw [Function.update_of_ne hji, hj]) (Function.update_self ..)) hji
      · intro hsafe
        have hk : ∀ j v', fs.slots j = some (dst, v') → j = i := by
          intro j v' hj
          rcases hsafe hv (by simp [hm]) with hnone | rfl
          · exact absurd hj (Slots.get_eq_none.mp hnone j v')
          · exact h.distinct hj hi
        obtain ⟨hd, hget⟩ := h.distinct.rekey hi hk
        refine ⟨?_, hd⟩
        rw [hget]
        rcases hsafe hv (by simp [hm]) with hnone | rfl
        · simp only [RamCall.effect, hm, hnone, Option.any_none]
          rfl
        · simp only [RamCall.effect, hm, Option.any_some, bne_self_eq_false]
          rfl
  · refine iff_of_true ?_ fun hc => absurd hc hv
    exact lawful_of_error h "invalid destination" (by simp [call, moveEntry, hv])
      (by decide)

theorem lawful_rm (h : fs.Ok) (name : List UInt8) : fs.Lawful (.rm name) := by
  cases hf : fs.find name with
  | none =>
    exact lawful_of_error h "not found" (by simp [call, remove, hf]) (by decide)
  | some i =>
    obtain ⟨-, -, hm⟩ := entry_of_find hf
    by_cases hd : (fs.entries i).isDir = true
    · exact lawful_of_error h "rm: is a directory" (by simp [call, remove, hf, hd])
        (by decide)
    · obtain ⟨hok, hmap⟩ := h.clear hf
      rw [lawful_of_ok (fs.set i .empty) (by simp [call, remove, hf, hd])]
      refine ⟨?_, hok.distinct⟩
      simp only [RamCall.effect, hm, FileEntry.node, hd, hmap]
      rfl

theorem lawful_rmdir (h : fs.Ok) (name : List UInt8) : fs.Lawful (.rmdir name) := by
  cases hf : fs.find name with
  | none =>
    exact lawful_of_error h "not found" (by simp [call, remove, hf]) (by decide)
  | some i =>
    obtain ⟨-, -, hm⟩ := entry_of_find hf
    by_cases hd : (fs.entries i).isDir = true
    · obtain ⟨hok, hmap⟩ := h.clear hf
      rw [lawful_of_ok (fs.set i .empty) (by simp [call, remove, hf, hd])]
      refine ⟨?_, hok.distinct⟩
      simp only [RamCall.effect, hm, FileEntry.node, hd, hmap]
      rfl
    · exact lawful_of_error h "rmdir: not a directory" (by simp [call, remove, hf, hd])
        (by decide)

/-- **A command does what it is for exactly if it is safe.** -/
theorem lawful_iff (h : fs.Ok) (call : RamCall) : fs.Lawful call ↔ fs.Safe call := by
  cases call with
  | touch name => exact lawful_touch h name
  | write name text => exact lawful_write h name text
  | append name text => exact lawful_append h name text
  | copy src dst => exact lawful_copy h src dst
  | move src dst => exact lawful_move h src dst
  | rm name => exact iff_of_true (lawful_rm h name) trivial
  | mkdir name => exact lawful_mkdir h name
  | rmdir name => exact iff_of_true (lawful_rmdir h name) trivial

/-! ## Runs -/

theorem ok_touchRaw (h : fs.Ok) (hl : name.length ≤ fileNameMax) (isDir : Bool) :
    (fs.touchRaw name hl isDir).1.Ok := by
  cases hm : fs.map name with
  | none =>
    rcases touchRaw_new h hm hl isDir with ⟨-, ht⟩ | ⟨-, fs', ht, hok, -⟩
    · rwa [ht]
    · rwa [ht]
  | some node =>
    obtain ⟨fs', _, ht, hok, -⟩ := touchRaw_old h hm hl isDir
    rwa [ht]

theorem ok_touch (h : fs.Ok) (name : List UInt8) (isDir : Bool) : (fs.touch name isDir).1.Ok := by
  unfold touch
  split_ifs with hv
  · have := ok_touchRaw h (length_of_validName hv) isDir
    dsimp only
    split_ifs
    · exact this
    · exact this
  · exact h

theorem ok_writeRaw (h : fs.Ok) (hl : name.length ≤ fileNameMax) {text : List UInt8}
    (ht : text.length ≤ fileDataMax) : (fs.writeRaw name hl text ht).Ok := by
  rcases writeRaw_spec h hl ht with ⟨-, hw⟩ | ⟨-, hok, -⟩
  · rwa [hw]
  · exact hok

theorem ok_write (h : fs.Ok) (name text : List UInt8) : (fs.write name text).1.Ok := by
  unfold write
  split_ifs with hv ht
  · exact ok_writeRaw h _ ht
  · exact h
  · exact h

theorem ok_remove (h : fs.Ok) (name : List UInt8) (dir : Bool) : (fs.remove name dir).1.Ok := by
  unfold remove
  split
  · rename_i i hf
    split_ifs
    · exact (h.clear hf).1
    · exact h
    · exact h
  · exact h

theorem ok_append (h : fs.Ok) (name text : List UInt8) : (fs.append name text).1.Ok := by
  unfold append
  split_ifs
  · split
    · exact ok_write h name text
    · rename_i i hf
      obtain ⟨hu, hn, -⟩ := entry_of_find hf
      dsimp only
      split_ifs with hd ht
      · exact h
      · exact (h.set hf { fs.entries i with
          data := (fs.entries i).data ++ text, data_le := ht } hu hn).1
      · exact h
  · exact h

theorem ok_copy (h : fs.Ok) (src dst : List UInt8) : (fs.copy src dst).1.Ok := by
  unfold copy
  split_ifs with hv
  · split
    · exact h
    · dsimp only
      split_ifs
      · exact h
      · exact ok_writeRaw h _ _
  · exact h

theorem moveEntry_cases (fs : RamFs) (src dst : List UInt8) : (fs.moveEntry src dst).1 = fs ∨
    ∃ i entry, entry.used = true ∧ (fs.moveEntry src dst).1 = fs.set i entry := by
  unfold moveEntry
  split
  · split
    · exact .inl rfl
    · rename_i i hf
      split
      · rename_i hl
        exact .inr ⟨i, { fs.entries i with name := dst, name_le := hl }, (entry_of_find hf).1, rfl⟩
      · exact .inl rfl
  · exact .inl rfl

/-- Only a move can give a name a second entry. -/
theorem Lawful.ok (h : fs.Ok) {call : RamCall} (hl : fs.Lawful call) : (fs.call call).1.Ok := by
  cases call with
  | touch name => exact ok_touch h name false
  | write name text => exact ok_write h name text
  | append name text => exact ok_append h name text
  | copy src dst => exact ok_copy h src dst
  | move src dst =>
    refine ⟨hl.2, ?_⟩
    rcases moveEntry_cases fs src dst with he | ⟨i, entry, hu, he⟩
    · rw [call, he]
      exact h.clean
    · rw [call, he]
      exact h.clean_set _ hu i
  | rm name => exact ok_remove h name false
  | mkdir name => exact ok_touch h name true
  | rmdir name => exact ok_remove h name true

end RamFs

/-- A command word and the rest of its line. -/
abbrev RamAct : Type := RamWord × List UInt8

def ramStep (fs : RamFs) (act : RamAct) : Option RamFs := some (runCommand fs act.1 act.2).1

/-- The filesystem the shell starts with. -/
def seededFs : RamFs := RamFs.new.seed

/-- A line that prints `ok` is a command that has done what it is for, a line that prints anything
else has changed nothing, and names are distinct afterwards. -/
def LawfulLine (fs : RamFs) (act : RamAct) : Prop :=
  ((runCommand fs act.1 act.2).2 = "ok" → ∃ call, parse act.1 act.2 = .ok call ∧
      call.effect fs.map = some (runCommand fs act.1 act.2).1.map) ∧
    ((runCommand fs act.1 act.2).2 ≠ "ok" → (runCommand fs act.1 act.2).1.map = fs.map) ∧
    Slots.Distinct (runCommand fs act.1 act.2).1.slots

/-- The command on the line is safe. -/
def SafeLine (fs : RamFs) (act : RamAct) : Prop :=
  ∀ call, parse act.1 act.2 = .ok call → fs.Safe call

/-- No usage line is `ok`. -/
theorem usage_ne_ok {word : RamWord} {rest : List UInt8} {usage : String}
    (h : parse word rest = .error usage) : usage ≠ "ok" := by
  have hname : ∀ {line call}, parseName line call rest = .error usage → usage = line := by
    intro line call h
    simp only [parseName] at h
    split_ifs at h
    cases h
    rfl
  have htext : ∀ {line call}, parseText line call rest = .error usage → usage = line := by
    intro line call h
    simp only [parseText] at h
    split_ifs at h
    cases h
    rfl
  have hpair : ∀ {line call}, parsePair line call rest = .error usage → usage = line := by
    intro line call h
    simp only [parsePair] at h
    split_ifs at h
    cases h
    rfl
  cases word with
  | touch | rm | mkdir | rmdir =>
    rw [hname h]
    decide
  | write | append =>
    rw [htext h]
    decide
  | copy | move =>
    rw [hpair h]
    decide

theorem lawfulLine_iff {fs : RamFs} (h : fs.Ok) (act : RamAct) :
    LawfulLine fs act ↔ SafeLine fs act := by
  unfold LawfulLine SafeLine runCommand
  cases hp : parse act.1 act.2 with
  | error usage =>
    exact iff_of_true ⟨fun hc => absurd hc (usage_ne_ok hp), fun _ => rfl, h.distinct⟩ nofun
  | ok call =>
    have hl := RamFs.lawful_iff h call
    rw [RamFs.Lawful] at hl
    simp only [Except.ok.injEq, forall_eq', exists_eq_left']
    rw [← hl]
    split_ifs with hok
    · simp [hok]
    · simp [hok]

theorem LawfulLine.ok {fs fs' : RamFs} {act : RamAct} (h : fs.Ok) (hl : LawfulLine fs act)
    (hs : ramStep fs act = some fs') : fs'.Ok := by
  cases hs
  have hsafe := (lawfulLine_iff h act).mp hl
  unfold SafeLine at hsafe
  unfold runCommand
  cases hp : parse act.1 act.2 with
  | error usage => exact h
  | ok call => exact ((RamFs.lawful_iff h call).mpr (hsafe call hp)).ok h

theorem ok_seededFs : seededFs.Ok := by
  have hnew : RamFs.new.Ok := ⟨fun i j k v w hi _ => (nomatch hi), fun i _ => rfl⟩
  exact RamFs.ok_touchRaw (RamFs.ok_writeRaw (RamFs.ok_writeRaw hnew _ _) _ _) _ _

/-- **The RAM filesystem is a map exactly in the runs whose commands are all safe**: names are
distinct in every state, and every line does what it is for or prints an error. -/
theorem ramfs_law (acts : List RamAct) : Slots.Distinct seededFs.slots ∧
    (AllGood LawfulLine ramStep seededFs acts ↔ AllGood SafeLine ramStep seededFs acts) :=
  ⟨ok_seededFs.distinct, allGood_congr (fun _ act h => lawfulLine_iff h act)
    (fun _ _ _ h hl hs => hl.ok h hs) ok_seededFs acts⟩

/-- `mv readme notes`, right after the boot. -/
def ontoRun : List RamAct := [(.move, ascii " readme notes")]

/-- **A move onto a name that has an entry gives the name a second one.** -/
theorem not_ramfs_law_ontoRun : ¬ ∀ acts, AllGood LawfulLine ramStep seededFs acts := by
  intro hall
  obtain ⟨-, -, hd⟩ := (hall ontoRun).1
  have h₀ : ((runCommand seededFs .move (ascii " readme notes")).1.slots 0).map Prod.fst =
      some (ascii "notes") := by decide +kernel
  have h₁ : ((runCommand seededFs .move (ascii " readme notes")).1.slots 1).map Prod.fst =
      some (ascii "notes") := by decide +kernel
  obtain ⟨⟨_, v⟩, hv, rfl⟩ := Option.map_eq_some_iff.mp h₀
  obtain ⟨⟨_, w⟩, hw, hk⟩ := Option.map_eq_some_iff.mp h₁
  rw [← hk] at hv
  exact absurd (hd hv hw) (by decide)

end Rymos
