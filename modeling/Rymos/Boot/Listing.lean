import Rymos.Boot.Initrd

/-!
# Listing the boot filesystem

`abi_list` asks the parser for the entry with a number, and does not look at the number of entries.

* `RymosStat`, `listBootfs`, `abiListBootfs`: the branch of `abi_list` for the boot filesystem.
* `WellFormed`, `Safe`, `ListsExactly`: an archive, and what a call should do on it.
* `Reads`, `Wraps`, `Decodes`: the bounds check passes; the offset wraps; the bytes there are an
  entry.
* **`listing_law`**: a call does what it should exactly if no read wraps and, past the table, none
  decodes. `found_iff`: the names that can be opened are those of the table.
  `wellFormed_archive`: what the script writes is an archive.
-/

namespace Rymos

open ByteBuf

structure RymosStat where
  kind : ℕ
  fs : ℕ
  size : ℕ
  createdTicks : ℕ
  modifiedTicks : ℕ
  mode : ℕ
  deriving DecidableEq

abbrev statKindFile : ℕ := 1

abbrev statKindDir : ℕ := 2

abbrev statFsBootfs : ℕ := 1

/-- `PFS_MODE_READ | PFS_MODE_EXEC`. -/
abbrev bootfsMode : ℕ := 5

namespace BootFs

def statOf (e : BootFsEntry) : RymosStat :=
  { kind := if e.kind == 2 then statKindDir else statKindFile, fs := statFsBootfs,
    size := e.dataLen, createdTicks := 0, modifiedTicks := 0, mode := bootfsMode }

def listBootfs (fs : BootFs) (wanted : ℕ) : Option (Option (List UInt8 × RymosStat)) :=
  (fs.entry wanted).map fun e => e.map fun e => (fs.nameOf e, statOf e)

/-- `abi_list` in the namespace of the boot filesystem, with a name buffer of `room` bytes. -/
def abiListBootfs (fs : BootFs) (index room : ℕ) : Option (Reply (List UInt8 × RymosStat)) :=
  if room = 0 then some (.error errInval)
  else
    (fs.listBootfs index).map fun found =>
    match found with
    | none => .error errNoent
    | some (name, stat) => .done (name.take room, stat)

/-- An archive: the table is there and its entries decode. -/
structure WellFormed (fs : BootFs) : Prop where
  valid : fs.valid = true
  entry_size : 42 ≤ fs.entrySize
  table : 12 + fs.entryCount * fs.entrySize ≤ fs.size
  decodes : ∀ index < fs.entryCount, ∃ e, fs.decode (12 + index * fs.entrySize) = some e

/-- The parser reads no byte outside the archive, and the entry it returns lies inside. -/
def Safe (fs : BootFs) (index : ℕ) : Prop :=
  ∃ o, fs.entry index = some o ∧ ∀ e ∈ o, fs.Inside e

/-- The call returns the entry of the table with the number, or `ERR_NOENT` if there is none. -/
def ListsExactly (fs : BootFs) (index : ℕ) : Prop :=
  ∀ room, 0 < room →
    if index < fs.entryCount then
      ∃ e, fs.decode (12 + index * fs.entrySize) = some e ∧
        fs.abiListBootfs index room = some (.done ((fs.nameOf e).take room, statOf e))
    else fs.abiListBootfs index room = some (.error errNoent)

/-- The bounds check of `entry` passes. -/
def Reads (fs : BootFs) (index : ℕ) : Prop :=
  42 ≤ fs.entrySize ∧ usize (fs.entryOffset index + 42) ≤ fs.size

/-- The end of the entry wraps around. -/
def Wraps (fs : BootFs) (index : ℕ) : Prop := 2 ^ 64 ≤ fs.entryOffset index + 42

/-- The bytes at an offset are an entry: its name is not too long and its data is in the archive. -/
def Decodes (fs : BootFs) (offset : ℕ) : Prop :=
  (fs.image.getD (offset + 1) 0).toNat ≤ 32 ∧
    numberAt fs.image (offset + 2) 4 + numberAt fs.image (offset + 6) 4 ≤ fs.size

variable {fs : BootFs} {index : ℕ}

theorem decode_isSome_iff (fs : BootFs) (offset : ℕ) :
    (∃ e, fs.decode offset = some e) ↔ fs.Decodes offset := by
  unfold decode Decodes
  dsimp only
  split_ifs with hc
  · simp only [Bool.or_eq_true, decide_eq_true_eq, gt_iff_lt] at hc
    refine iff_of_false (fun ⟨_, he⟩ => nomatch he) fun hd => ?_
    omega
  · simp only [Bool.or_eq_true, decide_eq_true_eq, not_or, not_lt, gt_iff_lt] at hc
    exact iff_of_true ⟨_, rfl⟩ hc

/-- What `entry` does, case by case. -/
theorem entry_cases (hs : fs.size < 2 ^ 64) (index : ℕ) :
    ¬ fs.Reads index ∧ fs.entry index = some none ∨
      fs.Reads index ∧ fs.Wraps index ∧ fs.entry index = none ∨
      fs.Reads index ∧ ¬ fs.Wraps index ∧
        fs.entry index = some (fs.decode (fs.entryOffset index)) := by
  unfold Reads Wraps entry
  by_cases he : fs.entrySize < 42
  · exact .inl ⟨fun h => by omega, if_pos he⟩
  rw [if_neg he]
  dsimp only
  by_cases hr : usize (fs.entryOffset index + 42) > fs.size
  · exact .inl ⟨fun h => by omega, if_pos hr⟩
  rw [if_neg hr]
  by_cases hw : 2 ^ 64 ≤ fs.entryOffset index + 42
  · exact .inr (.inl ⟨⟨by omega, by omega⟩, hw, if_neg (by omega)⟩)
  · have hu := usize_of_lt (x := fs.entryOffset index + 42) (by omega)
    exact .inr (.inr ⟨⟨by omega, by omega⟩, hw, if_pos (by omega)⟩)

theorem safe_iff (hs : fs.size < 2 ^ 64) : fs.Safe index ↔ ¬ (fs.Reads index ∧ fs.Wraps index) := by
  unfold Safe
  rcases entry_cases hs index with ⟨hr, he⟩ | ⟨hr, hw, he⟩ | ⟨-, hw, he⟩
  · rw [he]
    exact iff_of_true ⟨none, rfl, by simp⟩ fun h => hr h.1
  · rw [he]
    exact iff_of_false (fun ⟨o, ho, _⟩ => nomatch ho) fun h => h ⟨hr, hw⟩
  · refine iff_of_true ⟨_, he, fun e hd => ?_⟩ fun h => hw h.2
    rw [Option.mem_def] at hd
    exact entry_inside (he.trans (congrArg some hd))

/-- Inside the table of an archive the call returns its entry. -/
theorem WellFormed.lists (h : fs.WellFormed) (hi : index < fs.entryCount) :
    fs.Safe index ∧ fs.ListsExactly index := by
  have hlt : index < 65536 := hi.trans fs.entryCount_lt
  have hmul : index * fs.entrySize < 65536 * 65536 := Nat.mul_lt_mul'' hlt fs.entrySize_lt
  have hend : (index + 1) * fs.entrySize ≤ fs.entryCount * fs.entrySize :=
    Nat.mul_le_mul_right _ hi
  have htable := h.table
  have hsize := h.entry_size
  rw [Nat.succ_mul] at hend
  obtain ⟨e, hd⟩ := h.decodes index hi
  have he : fs.entry index = some (some e) := by
    rw [entry_of_fits (by rw [entryOffset_eq hlt]; omega), entryOffset_eq hlt,
      if_pos ⟨hsize, by omega⟩, hd]
  refine ⟨⟨some e, he, fun e' h' => ?_⟩, fun room hroom => ?_⟩
  · cases h'
    exact entry_inside he
  · rw [if_pos hi]
    refine ⟨e, hd, ?_⟩
    rw [abiListBootfs, if_neg (by omega), listBootfs, he]
    rfl

/-- **A listing call does what it should exactly if its read does not wrap and, past the table of an
archive, does not decode.** -/
theorem listing_iff (hs : fs.size < 2 ^ 64) (index : ℕ) :
    (fs.Safe index ∧ (fs.WellFormed → fs.ListsExactly index)) ↔
      ¬ (fs.Reads index ∧ fs.Wraps index) ∧
        (fs.WellFormed → fs.entryCount ≤ index →
          ¬ (fs.Reads index ∧ fs.Decodes (fs.entryOffset index))) := by
  rw [safe_iff hs]
  refine and_congr_right fun hsafe => forall_congr' fun hwf => ?_
  by_cases hi : index < fs.entryCount
  · exact iff_of_true (hwf.lists hi).2 fun hle => absurd hi (by omega)
  have hle : fs.entryCount ≤ index := by omega
  unfold ListsExactly
  simp only [if_neg hi, hle, forall_const]
  have hlist : ∀ {o room}, 0 < room → fs.entry index = some o →
      (fs.abiListBootfs index room = some (.error errNoent) ↔ o = none) := by
    intro o room hroom ho
    rw [abiListBootfs, if_neg (by omega), listBootfs, ho]
    cases o with
    | none => exact iff_of_true rfl rfl
    | some e => exact iff_of_false (fun h => nomatch h) fun h => nomatch h
  rcases entry_cases hs index with ⟨hr, he⟩ | ⟨hr, hw, -⟩ | ⟨hr, -, he⟩
  · exact iff_of_true (fun room hroom => (hlist hroom he).mpr rfl) fun h => hr h.1
  · exact absurd ⟨hr, hw⟩ hsafe
  · have hd := decode_isSome_iff fs (fs.entryOffset index)
    constructor
    · rintro hall ⟨-, hdec⟩
      obtain ⟨e, hde⟩ := hd.mpr hdec
      have := (hlist Nat.one_pos he).mp (hall 1 Nat.one_pos)
      rw [hde] at this
      cases this
    · intro hno room hroom
      rw [hlist hroom he]
      cases hde : fs.decode (fs.entryOffset index) with
      | none => rfl
      | some e => exact absurd ⟨hr, hd.mp ⟨e, hde⟩⟩ hno

/-- The names that can be opened are those of the entries of the table. -/
theorem found_iff (fs : BootFs) (name : List UInt8) :
    (∃ e, fs.findEntry name = some (some e)) ↔
      ∃ index < fs.entryCount, ∃ e, fs.entry index = some (some e) ∧ fs.nameOf e = name := by
  rw [findEntry, findWith_eq, Option.map_id]
  constructor
  · rintro ⟨e, he⟩
    have hf := Option.some.inj he
    obtain ⟨i, hi, hent⟩ := List.mem_filterMap.mp (List.mem_of_find?_eq_some hf)
    exact ⟨i, List.mem_range.mp hi, e, Option.join_eq_some_iff.mp hent,
      by simpa using List.find?_some hf⟩
  · rintro ⟨i, hi, e, hent, hn⟩
    have hmem : e ∈ fs.table :=
      List.mem_filterMap.mpr ⟨i, List.mem_range.mpr hi, Option.join_eq_some_iff.mpr hent⟩
    cases hf : fs.table.find? fun e => fs.nameOf e == name with
    | none => exact absurd (List.find?_eq_none.mp hf e hmem) (by simp [hn])
    | some e' => exact ⟨e', rfl⟩

/-- **Listing and lookup.** A call does what it should exactly if its read does not wrap and, past
the table of an archive, does not decode; the names that can be opened are those of the table. -/
theorem listing_law (hs : fs.size < 2 ^ 64) :
    (∀ index, (fs.Safe index ∧ (fs.WellFormed → fs.ListsExactly index)) ↔
      ¬ (fs.Reads index ∧ fs.Wraps index) ∧
        (fs.WellFormed → fs.entryCount ≤ index →
          ¬ (fs.Reads index ∧ fs.Decodes (fs.entryOffset index)))) ∧
      ∀ name, (∃ e, fs.findEntry name = some (some e)) ↔
        ∃ index < fs.entryCount, ∃ e, fs.entry index = some (some e) ∧ fs.nameOf e = name :=
  ⟨listing_iff hs, found_iff fs⟩

end BootFs

/-- What the script writes is an archive. -/
theorem wellFormed_archive {files : List BootFile} (h : ∀ file ∈ files, Packable file)
    (hcount : files.length ≤ 65535)
    (hsize : 12 + files.length * bootEntrySize + (contents files).length < 2 ^ 32) :
    (BootFs.mk (archive files)).WellFormed := by
  have hlen := length_archive h
  have hes := entrySize_archive h
  have hec := entryCount_archive h hcount
  refine ⟨valid_archive h, by rw [hes], by rw [hes, hec, BootFs.size, hlen]; omega, fun i hi => ?_⟩
  rw [hec] at hi
  have hsplit : files = files.take i ++ files[i] :: files.drop (i + 1) := by
    rw [List.getElem_cons_drop, List.take_append_drop]
  obtain ⟨e, he, -⟩ := entry_packed h hcount hsize hsplit
  rw [List.length_take, min_eq_left hi.le] at he
  have hentry := Option.join_eq_some_iff.mp he
  rw [← BootFs.entryOffset_eq (by omega)]
  have hsz : (BootFs.mk (archive files)).size < 2 ^ 64 := by rw [BootFs.size, hlen]; omega
  rcases BootFs.entry_cases hsz i with ⟨-, hc⟩ | ⟨-, -, hc⟩ | ⟨-, -, hc⟩
  · rw [hentry] at hc
    cases hc
  · rw [hentry] at hc
    cases hc
  · rw [hentry] at hc
    exact ⟨e, (Option.some.inj hc).symm⟩

/-- A file of 42 zeros. -/
def zeroFile : List BootFile := [(ascii "a", List.replicate 42 0)]

theorem wellFormed_zeroFile : (BootFs.mk (archive zeroFile)).WellFormed := by
  refine wellFormed_archive (fun file hf => ?_) (by decide) (by decide)
  rw [zeroFile, List.mem_singleton] at hf
  subst hf
  exact packable_of_all (by decide) (by decide) (by decide)

/-- The read for number 0 does not wrap, and number 0 is in the table. -/
theorem listing_law_zeroFile : (BootFs.mk (archive zeroFile)).ListsExactly 0 := by
  have hs : (BootFs.mk (archive zeroFile)).size < 2 ^ 64 := by decide +kernel
  have hw : ¬ (BootFs.mk (archive zeroFile)).Wraps 0 := by
    unfold BootFs.Wraps
    decide +kernel
  have hc : ¬ (BootFs.mk (archive zeroFile)).entryCount ≤ 0 := by decide +kernel
  exact (((BootFs.listing_law hs).1 0).mpr ⟨fun h => hw h.2, fun _ h => absurd h hc⟩).2
    wellFormed_zeroFile

/-- **The zeros behind the table are listed as an entry.** -/
theorem not_listing_zeroFile : ¬ ∀ fs : BootFs, fs.size < 2 ^ 64 → ∀ index < 2 ^ 64,
    fs.Safe index ∧ (fs.WellFormed → fs.ListsExactly index) := by
  intro hall
  have hs : (BootFs.mk (archive zeroFile)).size < 2 ^ 64 := by decide +kernel
  have hlist := (hall _ hs 1 (by norm_num)).2 wellFormed_zeroFile 1 Nat.one_pos
  have hc : ¬ 1 < (BootFs.mk (archive zeroFile)).entryCount := by decide +kernel
  rw [if_neg hc] at hlist
  have hreply : (BootFs.mk (archive zeroFile)).abiListBootfs 1 1 ≠ some (.error errNoent) := by
    decide +kernel
  exact hreply hlist

end Rymos
