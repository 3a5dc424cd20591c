import Mathlib.Tactic
import Rymos.Spawn.Calls

/-!
# Program names and the buffer of their path

* `programFile`: the file a name stands for. **`programPath_eq`**: `program_path` returns it, or panics.
* `NameFits`: the names whose path has room in the buffer.
* `spawnPrepared_isSome`, `abiSpawn_isSome`, `abiSpawnArgv_isSome`, `runProgram_isSome`: who panics.
* `NameSafe`, **`nameSafe_iff`**: a name the kernel can be given; `not_nameSafe_twenty`.
-/

namespace Rymos

open ByteBuf

/-- `programs/<name>.elf`, unless the name says otherwise. -/
def programFile (name : List UInt8) : List UInt8 :=
  if name.contains slash then name
  else programsPrefix ++ name ++ if endsWith name elfSuffix then [] else elfSuffix

/-- The file has a path of at most 32 bytes. -/
def NameFits (name : List UInt8) : Prop :=
  if name.contains slash then name.length ≤ 32
  else name.length ≤ if endsWith name elfSuffix then 23 else 19

instance (name : List UInt8) : Decidable (NameFits name) := by unfold NameFits; infer_instance

theorem length_programsPrefix : programsPrefix.length = 9 := rfl

theorem length_elfSuffix : elfSuffix.length = 4 := rfl

theorem nameFits_iff (name : List UInt8) : NameFits name ↔ (programFile name).length ≤ 32 := by
  unfold NameFits programFile
  split_ifs <;> simp only [List.length_append, List.length_nil, length_programsPrefix,
    length_elfSuffix] <;> omega

section Copy

variable {n : ℕ} {output : Buf n} {off : ℕ} {bytes : List UInt8}

theorem copyInto_of_le (h : off + bytes.length ≤ n) :
    copyInto output off bytes = some (output.put off bytes) := if_pos h

theorem copyInto_of_lt (h : n < off + bytes.length) : copyInto output off bytes = none :=
  if_neg (Nat.not_le.mpr h)

/-- A copy behind bytes that are there extends them. -/
theorem slice_put_append {pre : List UInt8} (h : output.slice 0 pre.length = pre)
    (hfit : pre.length + bytes.length ≤ n) :
    (output.put pre.length bytes).slice 0 (pre ++ bytes).length = pre ++ bytes := by
  rw [List.length_append, Buf.slice_add, Buf.slice_put_disj output (by simp), h, Nat.zero_add,
    Buf.slice_put_same output _ _ hfit]

end Copy

/-- **`program_path` returns the path of the file**, or panics when it has no room. -/
theorem programPath_eq (name : List UInt8) (output : Buf 32) :
    (NameFits name ∧ ∃ output', programPath name output = some (output', (programFile name).length) ∧
      output'.slice 0 (programFile name).length = programFile name) ∨
    (¬ NameFits name ∧ programPath name output = none) := by
  rw [nameFits_iff]
  have hroom : 0 + programsPrefix.length ≤ 32 := by decide
  have hpre : (output.put 0 programsPrefix).slice 0 programsPrefix.length = programsPrefix :=
    Buf.slice_put_same output 0 programsPrefix hroom
  unfold programPath programFile
  by_cases hs : name.contains slash = true
  · rw [if_pos hs, if_pos hs]
    by_cases hfit : name.length ≤ 32
    · rw [copyInto_of_le (by omega)]
      exact .inl ⟨hfit, _, rfl, Buf.slice_put_same output 0 name (by omega)⟩
    · rw [copyInto_of_lt (by omega)]
      exact .inr ⟨hfit, rfl⟩
  · rw [if_neg hs, if_neg hs, copyInto_of_le hroom, Option.bind_some]
    by_cases hn : programsPrefix.length + name.length ≤ 32
    · have hname := slice_put_append hpre hn
      rw [copyInto_of_le hn, Option.bind_some]
      by_cases he : endsWith name elfSuffix = true
      · simp only [he, Bool.not_true, Bool.false_eq_true, if_false, if_true, List.append_nil,
          List.length_append]
        exact .inl ⟨hn, _, rfl, by simpa using hname⟩
      · simp only [he, Bool.not_false, if_true, Bool.false_eq_true, if_false, ← List.length_append]
        by_cases hfit : (programsPrefix ++ name).length + elfSuffix.length ≤ 32
        · rw [copyInto_of_le hfit]
          exact .inl ⟨by rwa [List.length_append], _, rfl, slice_put_append hname hfit⟩
        · rw [copyInto_of_lt (by omega)]
          exact .inr ⟨by rwa [List.length_append], rfl⟩
    · rw [copyInto_of_lt (by omega)]
      refine .inr ⟨?_, rfl⟩
      simp only [List.length_append]
      omega

/-! ## Who panics -/

section Calls

variable {s : SpawnSys} {name args : List UInt8} {outcome : Except PrepareFault ℕ}

theorem spawnPrepared_isSome (argv : Option (List (List UInt8))) :
    (spawnPrepared s name args argv outcome).isSome = true ↔
      processCount ≤ s.current ∨ NameFits name := by
  unfold spawnPrepared
  by_cases hc : s.current ≥ processCount
  · simp [hc]
  · rw [if_neg hc]
    rcases programPath_eq name (Buf.zero 32) with ⟨hfit, output, he, -⟩ | ⟨hfit, he⟩
    · rw [he, Option.bind_some]
      simp only [hfit, or_true, iff_true]
      repeat' split
      all_goals rfl
    · rw [he]
      simp [hfit, hc]

theorem abiSpawn_isSome (hfit : NameFits name) : (abiSpawn s name args outcome).isSome = true := by
  unfold abiSpawn
  cases hn : checkedAppSlice name with
  | none => rfl
  | some name' =>
    obtain rfl := checkedAppSlice_eq hn
    dsimp only
    split
    · rfl
    · split
      · rfl
      · split
        · rfl
        · exact (spawnPrepared_isSome none).mpr (.inr hfit)

theorem abiSpawnArgv_isSome (hfit : NameFits name) (argv : List (List UInt8)) :
    (abiSpawnArgv s name argv outcome).isSome = true := by
  unfold abiSpawnArgv
  cases hn : checkedAppSlice name with
  | none => rfl
  | some name' =>
    obtain rfl := checkedAppSlice_eq hn
    dsimp only
    split_ifs
    · rfl
    · split
      · rfl
      · exact (spawnPrepared_isSome _).mpr (.inr hfit)

theorem runProgram_isSome : (runProgram s name args outcome).isSome = true ↔
    (processSpawn s name args).2 = none ∨ NameFits name := by
  unfold runProgram
  rcases hp : processSpawn s name args with ⟨s', _ | index⟩
  · simp
  · rcases programPath_eq name (Buf.zero 32) with ⟨hfit, output, he, -⟩ | ⟨hfit, he⟩
    · simp only [he, Option.bind_some, hfit, or_true, iff_true]
      repeat' split
      all_goals rfl
    · simp [he, hfit]

end Calls

/-! ## Safe names -/

/-- `program_path` stores inside its buffer and returns a length inside it, and no call with the name
panics: each finds the program or fails with an error. -/
structure NameSafe (name : List UInt8) : Prop where
  path : ∀ output, ∃ output' len, programPath name output = some (output', len) ∧ len ≤ 32
  spawn : ∀ s args outcome, (abiSpawn s name args outcome).isSome = true
  spawnArgv : ∀ s argv outcome, (abiSpawnArgv s name argv outcome).isSome = true
  run : ∀ s args outcome, (runProgram s name args outcome).isSome = true

/-- **A name is safe** exactly when the path of its file has room in the buffer: at most 32 bytes with a
`/`, at most 23 with the suffix, and else at most 19. -/
theorem nameSafe_iff (name : List UInt8) : NameSafe name ↔ NameFits name := by
  constructor
  · intro h
    obtain ⟨output', len, he, -⟩ := h.path (Buf.zero 32)
    rcases programPath_eq name (Buf.zero 32) with ⟨hfit, -⟩ | ⟨-, hnone⟩
    · exact hfit
    · rw [hnone] at he
      cases he
  · intro hfit
    refine ⟨fun output => ?_, fun s args outcome => abiSpawn_isSome hfit,
      fun s argv outcome => abiSpawnArgv_isSome hfit argv,
      fun s args outcome => runProgram_isSome.mpr (.inr hfit)⟩
    rcases programPath_eq name output with ⟨-, output', he, -⟩ | ⟨hno, -⟩
    · exact ⟨output', _, he, (nameFits_iff name).mp hfit⟩
    · exact absurd hfit hno

/-- Process 0 runs; the archive is empty. -/
def aloneSys : SpawnSys where
  table := fun i =>
    if i = 0 then { Process.empty with pid := 1, state := .running } else Process.empty
  args := fun _ => .empty
  current := 0
  nextPid := 2
  bootfs := fun _ => none
  console := true

/-- Process 0 runs; every program is there. -/
def programSys : SpawnSys := { aloneSys with bootfs := fun _ => some [] }

/-- **A name of 20 letters panics the kernel**: `spawn` takes up to 24 bytes. -/
theorem not_nameSafe_twenty : ¬ ∀ name, NameSafe name := by
  intro h
  have hsome := (h (ascii "abcdefghijklmnopqrst")).spawn aloneSys [] (.ok 1)
  revert hsome
  decide

end Rymos
