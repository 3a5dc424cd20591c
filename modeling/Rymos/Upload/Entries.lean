import Mathlib.Tactic
import Rymos.Pfs.Space
import Rymos.Upload.Tool

/-!
# The uploader on the header of the kernel

The script has its own layout, its own entries and its own allocator.

* `RymfsInv`: both invariants of a header; an entry in use is a file or a directory.
* **`setEntry_eq_ok`**: `set_entry` stores what `pfs_set_entry` stores. `findEntry_eq`, `freeEntry_eq`,
  `usedExtents_eq`: the entries are read alike.
* **`findFreeRun_eq`**, **`pfsGrowExtents_of_alloc`**: the allocators take the same sectors.
-/

namespace Rymos

open ByteBuf Extents

/-- **The invariants of a RYMFS5 header.** -/
structure RymfsInv (header : Header) : Prop where
  alloc : AllocInv header
  tree : TreeInv header
  kind : ∀ j < pfsEntryCount, pfsEntryUsed header j = true →
    pfsEntryKind header j = pfsKindFile ∨ pfsEntryKind header j = pfsKindDir

namespace PfsPut

theorem bind_eq_ok {α β : Type} {x : Except String α} {f : α → Except String β} {b : β} :
    (x >>= f) = .ok b ↔ ∃ a, x = .ok a ∧ f a = .ok b := by
  cases x with
  | error e => exact ⟨fun h => (by cases h), by rintro ⟨_, h, -⟩; cases h⟩
  | ok a => exact ⟨fun h => ⟨a, rfl, h⟩, by rintro ⟨_, h, hf⟩; cases h; exact hf⟩

/-! ## Stores -/

section Stores

variable {header header' : Header} {index size : ℕ} {name : List Char} {kind : UInt8}
  {extents : List PfsExtent}

theorem entryOffset_eq (index : ℕ) : entryOffset index = pfsEntryOffset index := rfl

theorem setItem_eq_ok {offset value : ℕ} : setItem header offset value = .ok header' ↔
    value < 256 ∧ header' = header.put offset [UInt8.ofNat value] := by
  rw [setItem]
  split_ifs with h
  · exact ⟨fun he => ⟨h, (Except.ok.inj he).symm⟩, fun he => congrArg _ he.2.symm⟩
  · exact ⟨fun he => (by cases he), fun he => absurd he.1 h⟩

theorem toBytes_eq_ok {value length : ℕ} {bytes : List UInt8} :
    toBytes value length = .ok bytes ↔ value < 256 ^ length ∧ bytes = leBytes length value := by
  rw [toBytes]
  split_ifs with h
  · exact ⟨fun he => ⟨h, (Except.ok.inj he).symm⟩, fun he => congrArg _ he.2.symm⟩
  · exact ⟨fun he => (by cases he), fun he => absurd he.1 h⟩

/-- The loops over the extents store the same bytes. -/
theorem putExtents_eq_ok {offset : ℕ} : putExtents header offset extents = .ok header' ↔
    (∀ e ∈ extents, Fits e) ∧ header' = Rymos.putExtents header offset extents := by
  induction extents generalizing header offset with
  | nil =>
    exact ⟨fun he => ⟨fun e he' => (by cases he'), (Except.ok.inj he).symm⟩,
      fun he => congrArg _ he.2.symm⟩
  | cons extent extents ih =>
    simp only [putExtents, bind_eq_ok, toBytes_eq_ok, ih, Rymos.putExtents, List.forall_mem_cons]
    constructor
    · rintro ⟨_, ⟨hs, rfl⟩, _, ⟨hn, rfl⟩, hrest, rfl⟩
      exact ⟨⟨⟨hs, hn⟩, hrest⟩, rfl⟩
    · rintro ⟨⟨⟨hs, hn⟩, hrest⟩, rfl⟩
      exact ⟨_, ⟨hs, rfl⟩, _, ⟨hn, rfl⟩, hrest, rfl⟩

/-- The access bits of a new entry. -/
def defaultMode (kind : UInt8) : UInt8 := if kind == kindDir then modeDefaultDir else modeDefaultFile

/-- **`set_entry` stores what `pfs_set_entry` stores**, with both times unknown. -/
theorem setEntry_eq_ok : setEntry header index name size kind extents = .ok header' ↔
    ((encode name).length ≤ 96 ∧ extents.length ≤ 4 ∧ size < 2 ^ 32 ∧ ∀ e ∈ extents, Fits e) ∧
      header' = pfsSetEntry header index (encode name) size kind extents 0 (defaultMode kind) 0 := by
  rw [setEntry]
  dsimp only
  by_cases hn : (encode name).length > nameMax
  · rw [if_pos hn]
    exact ⟨fun he => (by cases he), fun he => absurd he.1.1 (not_le.mpr hn)⟩
  by_cases hx : extents.length > maxExtents
  · rw [if_neg hn, if_pos hx]
    exact ⟨fun he => (by cases he), fun he => absurd he.1.2.1 (not_le.mpr hx)⟩
  rw [if_neg hn, if_neg hx]
  replace hn : (encode name).length ≤ 96 := not_lt.mp hn
  replace hx : extents.length ≤ 4 := not_lt.mp hx
  have hm : min extents.length pfsMaxExtents = extents.length := Nat.min_eq_left hx
  have ht : extents.take pfsMaxExtents = extents := List.take_of_length_le hx
  simp only [bind_eq_ok, setItem_eq_ok, toBytes_eq_ok, putExtents_eq_ok]
  rw [pfsSetEntry, hm, ht]
  constructor
  · rintro ⟨_, ⟨-, rfl⟩, _, ⟨hs, rfl⟩, _, ⟨-, rfl⟩, _, ⟨hf, rfl⟩, he⟩
    exact ⟨⟨hn, hx, hs, hf⟩, (Except.ok.inj he).symm⟩
  · rintro ⟨⟨-, -, hs, hf⟩, rfl⟩
    exact ⟨_, ⟨by omega, rfl⟩, _, ⟨hs, rfl⟩, _, ⟨by omega, rfl⟩, _, ⟨hf, rfl⟩, rfl⟩

end Stores

/-! ## Reading entries -/

section Reading

variable {header : Header}

theorem findEntry_eq (header : Header) (name : List Char) :
    findEntry header name = pfsFindEntry header (encode name) := rfl

theorem freeEntry_eq (header : Header) : freeEntry header = pfsFreeEntry header := by
  simp only [freeEntry, pfsFreeEntry, pfsEntryUsed, bne, Bool.not_not]
  rfl

/-- The four bytes of a field are all that `read_le32_from_slice` takes. -/
theorem entryExtents_eq (header : Header) (index : ℕ) :
    entryExtents header index = (pfsEntryExtents header index).filter fun e => e.sectors != 0 := rfl

/-- A header whose entries are files and directories has no third kind to skip. -/
theorem kind_ne_file (h : RymfsInv header) {index : ℕ} (hi : index < pfsEntryCount) :
    (header.byte (entryOffset index) != kindFile) =
      (!pfsEntryUsed header index || pfsEntryIsDir header index) := by
  rw [entryOffset_eq]
  cases hu : pfsEntryUsed header index with
  | false =>
    have h0 : header.byte (pfsEntryOffset index) = 0 := by simpa [pfsEntryUsed] using hu
    rw [h0]
    rfl
  | true =>
    rcases h.kind index hi hu with hk | hk <;>
    · rw [pfsEntryKind] at hk
      rw [pfsEntryIsDir, hk]
      rfl

/-- The extents of the other files. -/
theorem usedExtents_eq (h : RymfsInv header) (skip : Option ℕ) :
    usedExtents header skip = otherExtents header skip := by
  rw [usedExtents, otherExtents]
  refine List.flatMap_congr fun index hi => ?_
  rw [entryExtents_eq, kind_ne_file h (List.mem_range.mp hi), Bool.or_assoc]

end Reading

/-! ## Allocation -/

section Allocation

variable {header : Header} {skip : Option ℕ} {extents : List PfsExtent} {candidate maxLen : ℕ}

/-- The scans differ in the width of their numbers only. -/
theorem scanUsed_eq (hfit : ∀ e ∈ extents, e.fin < 2 ^ 32) (next : Option ℕ) :
    scanUsed candidate next extents = scanExtents candidate next extents := by
  induction extents generalizing next with
  | nil => rfl
  | cons e es ih =>
    have hes := ih fun e' he' => hfit e' (List.mem_cons_of_mem _ he')
    have he : u32 (e.start + e.sectors) = e.start + e.sectors :=
      u32_of_lt (hfit e List.mem_cons_self)
    rw [scanUsed, scanExtents, hes, hes, he]

theorem freeRunLoop_eq (hfit : ∀ e ∈ extents, e.fin < 2 ^ 32) (turns : ℕ) :
    freeRunLoop extents maxLen turns candidate = findFreeLoop extents maxLen turns candidate := by
  induction turns generalizing candidate with
  | zero => rfl
  | succ turns ih =>
    rw [freeRunLoop, findFreeLoop, scanUsed_eq hfit]
    cases scanExtents candidate none extents with
    | blocked c => simp only [ih]
    | clear next => rfl

/-- **The searches find the same run.** -/
theorem findFreeRun_eq (h : RymfsInv header) (startFrom maxLen : ℕ) (skip : Option ℕ) :
    findFreeRun header startFrom maxLen skip = pfsFindFreeRun header startFrom maxLen skip := by
  rw [findFreeRun, pfsFindFreeRun, usedExtents_eq h,
    freeRunLoop_eq fun e he => otherExtents_fin h.alloc he]

/-- The script appends the run to extents after which the next sector is taken; there the kernel has no
extent to lengthen. -/
def Closed (header : Header) (skip : Option ℕ) (extents : List PfsExtent) (candidate : ℕ) : Prop :=
  ∀ last ∈ extents.getLast?, last.fin = candidate ∧ ¬ OpenFor header skip candidate

/-- A run that is found is a new extent for the kernel as well. -/
theorem growStep_of_closed {remaining s n : ℕ} (hc : Closed header skip extents candidate)
    (hlen : extents.length < 4) (h : FirstFree (OpenFor header skip) candidate remaining s n) :
    growStep extents s n = some (extents ++ [{ start := s, sectors := n }]) := by
  have hs := h.mem s le_rfl (by have := h.pos; omega)
  rw [growStep]
  cases hl : extents.getLast? with
  | none =>
    rw [List.getLast?_eq_none_iff.mp hl]
    rfl
  | some last =>
    obtain ⟨rfl, hno⟩ := hc last hl
    have hle := h.le
    have hlt := hs.1
    rw [pfsDiskSectors_eq] at hlt
    have hu : u32 (last.start + last.sectors) = last.fin := u32_of_lt (by rw [Run.fin] at *; omega)
    have hne : s ≠ last.fin := by
      rintro rfl
      exact hno hs
    have hcap : ¬ extents.length ≥ pfsMaxExtents := not_le.mpr hlen
    simp only [hu, if_neg hne, if_neg hcap]

/-- **What the loop of the script allocates, the loop of the kernel allocates.** -/
theorem growLoop_of_alloc (h : RymfsInv header) {turns remaining fuel : ℕ} {es : List PfsExtent}
    (hc : remaining ≠ 0 → Closed header skip extents candidate) (hfuel : remaining ≤ fuel)
    (he : allocLoop header skip turns extents remaining candidate = .ok es) :
    growLoop header skip fuel extents remaining candidate = some es := by
  induction turns generalizing extents remaining candidate fuel with
  | zero => cases he
  | succ turns ih =>
    rw [allocLoop] at he
    by_cases hr : remaining = 0
    · rw [if_pos hr] at he
      obtain rfl := Except.ok.inj he
      subst hr
      cases fuel <;> rfl
    by_cases hlen : extents.length ≥ maxExtents
    · rw [if_neg hr, if_pos hlen] at he
      cases he
    rw [if_neg hr, if_neg hlen, findFreeRun_eq h] at he
    obtain ⟨fuel, rfl⟩ := Nat.exists_eq_succ_of_ne_zero (n := fuel) (by omega)
    rw [growLoop, if_neg hr]
    have hff := @pfsFindFreeRun_firstFree header candidate remaining skip
      (fun e he => otherExtents_pos h.alloc he) (Nat.pos_of_ne_zero hr)
    cases hs : pfsFindFreeRun header candidate remaining skip with
    | none =>
      rw [hs] at he
      cases he
    | some r =>
      obtain ⟨s, n⟩ := r
      rw [hs] at he hff
      dsimp only at he hff ⊢
      have hpos := hff.pos
      have hend : s + n ≤ pfsDiskSectors := by
        have := (hff.mem (s + n - 1) (by omega) (by omega)).1
        omega
      rw [growStep_of_closed (hc hr) (not_le.mp hlen) hff]
      have hu : u32 (s + n) = s + n := u32_of_lt (by rw [pfsDiskSectors_eq] at hend; omega)
      dsimp only
      rw [hu]
      refine ih (fun hr' => ?_) (by omega) he
      intro last hlast
      rw [List.getLast?_append, List.getLast?_singleton] at hlast
      obtain rfl := Option.some.inj hlast
      exact ⟨rfl, hff.stop (by omega)⟩

/-- **The sectors the script takes are those the kernel takes** for an empty file. -/
theorem pfsGrowExtents_of_alloc (h : RymfsInv header) {n : ℕ} {es : List PfsExtent}
    (he : allocExtents header n skip = .ok es) : pfsGrowExtents header [] n skip = some es :=
  growLoop_of_alloc h (fun _ last hl => (by cases hl)) le_rfl he

end Allocation

end PfsPut

end Rymos
