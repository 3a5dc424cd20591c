import Mathlib.Tactic
import Rymos.Mem.AddressSpace

/-!
# The memory of a process

* `ProcMem`: the windows of a process and its mapping table.
* `processTrackMapping`, `processUntrackMapping`, `processReclaimMappings`, `appSetHeapWindow`.
* `abiMemAllocPages`, `abiMemMapPages`, `abiMemUnmapPages`: the calls.
* `HasMapping`: an entry in use. **`track_cases`**, **`untrack_cases`**: what the table's operations do.
* **`memAlloc_cases`**, **`memMap_cases`**: a call fails before it takes room, or takes it.
-/

namespace Rymos

abbrev processMappingMax : ℕ := 64
abbrev userHeapMaxPagesPerCall : ℕ := 4096
abbrev userMmapMaxPagesPerCall : ℕ := 16384

structure ProcessMapping where
  used : Bool
  virt : ℕ
  pages : ℕ
deriving DecidableEq

def ProcessMapping.empty : ProcessMapping := { used := false, virt := 0, pages := 0 }

def ProcessMapping.inUse (virt pages : ℕ) : ProcessMapping :=
  { used := true, virt := virt, pages := pages }

/-- The fields of a process in the table that its memory calls use. -/
structure ProcMem where
  heapBase : ℕ
  heapNext : ℕ
  heapLimit : ℕ
  mmapNext : ℕ
  mmapLimit : ℕ
  mappings : Fin processMappingMax → ProcessMapping

def ProcMem.empty : ProcMem :=
  { heapBase := 0, heapNext := 0, heapLimit := 0, mmapNext := 0, mmapLimit := 0,
    mappings := fun _ => .empty }

def ProcMem.setMapping (p : ProcMem) (i : Fin processMappingMax) (mapping : ProcessMapping) :
    ProcMem :=
  { p with mappings := Function.update p.mappings i mapping }

/-! ## The mapping table -/

def processTrackMapping (virt pages : ℕ) (p : ProcMem) : Bool × ProcMem :=
  match (List.finRange processMappingMax).find? fun i => !(p.mappings i).used with
  | none => (false, p)
  | some i => (true, p.setMapping i (.inUse virt pages))

def processUntrackMapping (virt pages : ℕ) (p : ProcMem) : Bool × ProcMem :=
  match (List.finRange processMappingMax).find? fun i => p.mappings i = .inUse virt pages with
  | none => (false, p)
  | some i => (true, p.setMapping i .empty)

/-- The pages of one entry unmapped, with the number of pages taken back so far. -/
def reclaimMapping (r : ℕ × Memory) (mapping : ProcessMapping) : ℕ × Memory :=
  if mapping.used then
    let u := unmapUserPages r.2.kernelPml4 mapping.virt mapping.pages r.2
    (r.1 + u.1, u.2)
  else r

def processReclaimMappings (p : ProcMem) (mem : Memory) : ℕ × ProcMem × Memory :=
  let r := ((List.finRange processMappingMax).map p.mappings).foldl reclaimMapping (0, mem)
  (r.1, { p with
    heapBase := 0
    mappings := fun i => if (p.mappings i).used then .empty else p.mappings i }, r.2)

/-! ## The windows -/

def appSetHeapWindow (pid : ℕ) (p : ProcMem) : ProcMem :=
  { p with
    heapBase := Rymos.heapBase pid
    heapLimit := (Rymos.heapBase pid + userHeapStride) % 2 ^ 64
    mmapLimit := (mmapBase pid + userMmapSize) % 2 ^ 64
    heapNext := if p.heapBase = 0 then Rymos.heapBase pid else p.heapNext
    mmapNext := if p.heapBase = 0 then mmapBase pid else p.mmapNext }

@[simp] theorem appSetHeapWindow_mappings (pid : ℕ) (p : ProcMem) :
    (appSetHeapWindow pid p).mappings = p.mappings := by
  cases p
  rfl

/-- The end of `pages` pages from `next` on, computed with checks, if it is not beyond the limit. -/
def reserve (next limit pages : ℕ) : Option ℕ :=
  if 2 ^ 64 ≤ next + pages * pageSize ∨ limit < next + pages * pageSize then none
  else some (next + pages * pageSize)

/-! ## Calls -/

/-- The pages at `base` tracked and then mapped; not tracked if they could not be mapped. -/
def mapTracked (pml4 base pages : ℕ) (p : ProcMem) (mem : Memory) : ℕ × ProcMem × Memory :=
  match processTrackMapping base pages p with
  | (false, p) => (0, p, mem)
  | (true, p) =>
    match mapUserPages pml4 base pages mem with
    | (false, mem) => (0, (processUntrackMapping base pages p).2, mem)
    | (true, mem) => (base, p, mem)

def abiMemAllocPages (pages : ℕ) (p : ProcMem) (mem : Memory) : ℕ × ProcMem × Memory :=
  if pages = 0 ∨ userHeapMaxPagesPerCall < pages then (0, p, mem)
  else
    match ensureKernelPml4 mem with
    | (none, mem) => (0, p, mem)
    | (some pml4, mem) =>
      if p.heapBase = 0 ∨ p.heapNext = 0 ∨ p.heapLimit = 0 then (0, p, mem)
      else
        match reserve p.heapNext p.heapLimit pages with
        | none => (0, p, mem)
        | some next => mapTracked pml4 p.heapNext pages { p with heapNext := next } mem

/-- `flags & !MEM_MAP_GUARD != 0`: `MEM_MAP_GUARD` is `1`. -/
def badFlags (flags : ℕ) : Prop := flags / 2 ≠ 0

instance (flags : ℕ) : Decidable (badFlags flags) := inferInstanceAs (Decidable (_ ≠ _))

/-- The pages before and after a region with the guard flag. -/
def guardPages (flags : ℕ) : ℕ := if flags % 2 = 1 then 2 else 0

/-- Where the region of a reservation starts. -/
def regionBase (flags base : ℕ) : ℕ := if flags % 2 = 1 then base + pageSize else base

def abiMemMapPages (pages flags : ℕ) (p : ProcMem) (mem : Memory) : ℕ × ProcMem × Memory :=
  if pages = 0 ∨ userMmapMaxPagesPerCall < pages ∨ badFlags flags then (0, p, mem)
  else
    match ensureKernelPml4 mem with
    | (none, mem) => (0, p, mem)
    | (some pml4, mem) =>
      if p.mmapNext = 0 ∨ p.mmapLimit = 0 then (0, p, mem)
      else
        match reserve p.mmapNext p.mmapLimit (pages + guardPages flags) with
        | none => (0, p, mem)
        | some next =>
          mapTracked pml4 (regionBase flags p.mmapNext) pages { p with mmapNext := next } mem

def abiMemUnmapPages (address pages : ℕ) (p : ProcMem) (mem : Memory) : ℤ × ProcMem × Memory :=
  if address = 0 ∨ pages = 0 ∨ userMmapMaxPagesPerCall < pages ∨ address % pageSize ≠ 0 then
    (-1, p, mem)
  else
    match processUntrackMapping address pages p with
    | (false, p) => (-1, p, mem)
    | (true, p) => (0, p, (unmapUserPages mem.kernelPml4 address pages mem).2)

/-! ## What the table's operations do -/

section Table

variable {p p' : ProcMem} {virt pages v n next limit : ℕ} {i j : Fin processMappingMax}

/-- Entry `i` is in use, for `pages` pages at `virt`. -/
def HasMapping (p : ProcMem) (i : Fin processMappingMax) (virt pages : ℕ) : Prop :=
  p.mappings i = .inUse virt pages

instance : Decidable (HasMapping p i virt pages) := inferInstanceAs (Decidable (_ = _))

/-- Every entry is in use. -/
def TableFull (p : ProcMem) : Prop := ∀ i, (p.mappings i).used = true

instance : Decidable (TableFull p) := inferInstanceAs (Decidable (∀ _, _))

theorem hasMapping_of_used (h : (p.mappings i).used = true) :
    HasMapping p i (p.mappings i).virt (p.mappings i).pages := by
  rw [HasMapping, ProcessMapping.inUse, ← h]

theorem HasMapping.used (h : HasMapping p i virt pages) : (p.mappings i).used = true := by
  rw [show p.mappings i = _ from h, ProcessMapping.inUse]

theorem hasMapping_setMapping_inUse : HasMapping (p.setMapping i (.inUse virt pages)) j v n ↔
    j = i ∧ v = virt ∧ n = pages ∨ j ≠ i ∧ HasMapping p j v n := by
  unfold HasMapping ProcMem.setMapping
  by_cases hji : j = i
  · simp [hji, ProcessMapping.inUse, eq_comm]
  · simp [hji]

theorem hasMapping_setMapping_empty :
    HasMapping (p.setMapping i .empty) j v n ↔ j ≠ i ∧ HasMapping p j v n := by
  unfold HasMapping ProcMem.setMapping
  by_cases hji : j = i
  · simp [hji, ProcessMapping.inUse, ProcessMapping.empty]
  · simp [hji]

theorem not_hasMapping (hi : (p.mappings i).used = false) : ¬ HasMapping p i v n := fun h => by
  rw [h.used] at hi
  cases hi

/-- **`process_track_mapping`**: the table is full, or an entry that was not in use is. -/
theorem track_cases (virt pages : ℕ) (p : ProcMem) :
    (processTrackMapping virt pages p = (false, p) ∧ TableFull p) ∨
      ∃ i, (p.mappings i).used = false ∧
        processTrackMapping virt pages p = (true, p.setMapping i (.inUse virt pages)) := by
  unfold processTrackMapping
  rcases hf : (List.finRange processMappingMax).find? fun i => !(p.mappings i).used with _ | i
  · refine .inl ⟨rfl, fun i => ?_⟩
    simpa using List.find?_eq_none.mp hf i (List.mem_finRange i)
  · exact .inr ⟨i, by simpa using List.find?_some hf, rfl⟩

/-- **`process_untrack_mapping`**: there is no such entry, or one is emptied. -/
theorem untrack_cases (virt pages : ℕ) (p : ProcMem) :
    (processUntrackMapping virt pages p = (false, p) ∧ ∀ i, ¬ HasMapping p i virt pages) ∨
      ∃ i, HasMapping p i virt pages ∧
        processUntrackMapping virt pages p = (true, p.setMapping i .empty) := by
  unfold processUntrackMapping
  rcases hf : (List.finRange processMappingMax).find? fun i => p.mappings i = .inUse virt pages
    with _ | i
  · refine .inl ⟨rfl, fun i => ?_⟩
    simpa [HasMapping] using List.find?_eq_none.mp hf i (List.mem_finRange i)
  · exact .inr ⟨i, by simpa [HasMapping] using List.find?_some hf, rfl⟩

/-- An entry just made is the one that is taken back. -/
theorem untrack_track (hi : (p.mappings i).used = false) (hn : ∀ j, ¬ HasMapping p j virt pages) :
    (processUntrackMapping virt pages (p.setMapping i (.inUse virt pages))).2 =
      p.setMapping i .empty := by
  rcases untrack_cases virt pages (p.setMapping i (.inUse virt pages)) with
    ⟨-, hnone⟩ | ⟨j, hj, he⟩
  · exact absurd (hasMapping_setMapping_inUse.mpr (.inl ⟨rfl, rfl, rfl⟩)) (hnone i)
  · rcases hasMapping_setMapping_inUse.mp hj with ⟨rfl, -⟩ | ⟨-, hj⟩
    · rw [he, ProcMem.setMapping, ProcMem.setMapping, Function.update_idem]
      rfl
    · exact absurd hj (hn j)

theorem reserve_eq_some : reserve next limit pages = some n ↔
    n = next + pages * pageSize ∧ n < 2 ^ 64 ∧ n ≤ limit := by
  rw [reserve]
  split_ifs with h
  · refine ⟨nofun, ?_⟩
    rintro ⟨rfl, hlt, hle⟩
    exact h.elim (fun hc => absurd hlt (not_lt.mpr hc)) fun hc => absurd hle (not_le.mpr hc)
  · rw [not_or, not_le, not_lt] at h
    rw [Option.some_inj, eq_comm]
    exact ⟨fun he => ⟨he, he ▸ h⟩, And.left⟩

end Table

/-! ## What the calls do -/

section Calls

variable {p p' : ProcMem} {mem mem' : Memory} {pages flags base pml4 : ℕ}

/-- The heap window is not set up, or has no room for the pages. -/
def HeapFull (pages : ℕ) (p : ProcMem) : Prop :=
  p.heapBase = 0 ∨ p.heapNext = 0 ∨ p.heapLimit = 0 ∨ reserve p.heapNext p.heapLimit pages = none

/-- The mmap window is not set up, or has no room for the pages. -/
def MmapFull (pages : ℕ) (p : ProcMem) : Prop :=
  p.mmapNext = 0 ∨ p.mmapLimit = 0 ∨ reserve p.mmapNext p.mmapLimit pages = none

instance : Decidable (HeapFull pages p) := inferInstanceAs (Decidable (_ ∨ _))
instance : Decidable (MmapFull pages p) := inferInstanceAs (Decidable (_ ∨ _))

/-- The process with its heap used up to `next`. -/
def ProcMem.heapTaken (p : ProcMem) (pages : ℕ) : ProcMem :=
  { p with heapNext := p.heapNext + pages * pageSize }

def ProcMem.mmapTaken (p : ProcMem) (pages : ℕ) : ProcMem :=
  { p with mmapNext := p.mmapNext + pages * pageSize }

/-- **Tracked and mapped**: the table is full, or an entry is made, and taken back if the pages could not
be mapped. -/
theorem mapTracked_cases (pml4 base pages : ℕ) (p : ProcMem) (mem : Memory) :
    (TableFull p ∧ mapTracked pml4 base pages p mem = (0, p, mem)) ∨
      ∃ i, (p.mappings i).used = false ∧ ∃ mem',
        (mapUserPages pml4 base pages mem = (true, mem') ∧
          mapTracked pml4 base pages p mem = (base, p.setMapping i (.inUse base pages), mem')) ∨
        (mapUserPages pml4 base pages mem = (false, mem') ∧ mapTracked pml4 base pages p mem =
          (0, (processUntrackMapping base pages (p.setMapping i (.inUse base pages))).2, mem')) := by
  unfold mapTracked
  rcases track_cases base pages p with ⟨ht, hfull⟩ | ⟨i, hi, ht⟩
  · rw [ht]
    exact .inl ⟨hfull, rfl⟩
  · rw [ht]
    rcases hm : mapUserPages pml4 base pages mem with ⟨_ | _, mem'⟩
    · exact .inr ⟨i, hi, mem', .inr ⟨rfl, rfl⟩⟩
    · exact .inr ⟨i, hi, mem', .inl ⟨rfl, rfl⟩⟩

/-- An entry taken out leaves the windows as they are. -/
theorem untrack_windows (virt pages : ℕ) (p : ProcMem) :
    ∃ m, (processUntrackMapping virt pages p).2 = { p with mappings := m } := by
  rcases untrack_cases virt pages p with ⟨hu, -⟩ | ⟨i, -, hu⟩
  · exact ⟨p.mappings, by rw [hu]⟩
  · exact ⟨_, by rw [hu, ProcMem.setMapping]⟩

/-- Pages tracked and mapped leave the windows as they are. -/
theorem mapTracked_windows (pml4 base pages : ℕ) (p : ProcMem) (mem : Memory) :
    ∃ m, (mapTracked pml4 base pages p mem).2.1 = { p with mappings := m } := by
  rcases mapTracked_cases pml4 base pages p mem with ⟨-, he⟩ | ⟨i, -, mem', ⟨-, he⟩ | ⟨-, he⟩⟩
  · exact ⟨p.mappings, by rw [he]⟩
  · exact ⟨_, by rw [he, ProcMem.setMapping]⟩
  · obtain ⟨m, hm⟩ := untrack_windows base pages (p.setMapping i (.inUse base pages))
    exact ⟨m, by rw [he, hm, ProcMem.setMapping]⟩

theorem ensureKernelPml4_of_ne (h : mem.kernelPml4 ≠ 0) :
    ensureKernelPml4 mem = (some mem.kernelPml4, mem) := if_pos h

theorem reserve_eq_some_of_ne {next limit : ℕ} (h : reserve next limit pages ≠ none) :
    reserve next limit pages = some (next + pages * pageSize) := by
  obtain ⟨n, hn⟩ := Option.ne_none_iff_exists'.mp h
  rw [hn, (reserve_eq_some.mp hn).1]

/-- **`mem_alloc_pages`**: nothing while there is no room, or the pages from the next one on. -/
theorem memAlloc_eq (hn : ¬ (pages = 0 ∨ userHeapMaxPagesPerCall < pages))
    (hk : ensureKernelPml4 mem = (some pml4, mem')) (p : ProcMem) : abiMemAllocPages pages p mem =
      if HeapFull pages p then (0, p, mem')
      else mapTracked pml4 p.heapNext pages (p.heapTaken pages) mem' := by
  rw [abiMemAllocPages, if_neg hn, hk]
  dsimp only
  by_cases hz : p.heapBase = 0 ∨ p.heapNext = 0 ∨ p.heapLimit = 0
  · rw [if_pos hz, if_pos]
    tauto
  · rw [if_neg hz]
    by_cases hr : reserve p.heapNext p.heapLimit pages = none
    · rw [hr, if_pos (.inr (.inr (.inr hr)))]
    · rw [reserve_eq_some_of_ne hr, if_neg]
      · rfl
      · rw [HeapFull]
        tauto

/-- **`mem_map_pages`**, in the same way. -/
theorem memMap_eq (hn : ¬ (pages = 0 ∨ userMmapMaxPagesPerCall < pages ∨ badFlags flags))
    (hk : ensureKernelPml4 mem = (some pml4, mem')) (p : ProcMem) : abiMemMapPages pages flags p mem =
      if MmapFull (pages + guardPages flags) p then (0, p, mem')
      else mapTracked pml4 (regionBase flags p.mmapNext) pages
        (p.mmapTaken (pages + guardPages flags)) mem' := by
  rw [abiMemMapPages, if_neg hn, hk]
  dsimp only
  by_cases hz : p.mmapNext = 0 ∨ p.mmapLimit = 0
  · rw [if_pos hz, if_pos]
    rw [MmapFull]
    tauto
  · rw [if_neg hz]
    by_cases hr : reserve p.mmapNext p.mmapLimit (pages + guardPages flags) = none
    · rw [hr, if_pos (.inr (.inr hr))]
    · rw [reserve_eq_some_of_ne hr, if_neg]
      · rfl
      · rw [MmapFull]
        tauto

end Calls

end Rymos
