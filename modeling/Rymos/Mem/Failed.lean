import Mathlib.Tactic
import Rymos.Mem.Regions

/-!
# Memory requests that fail

* `CostsNothing`: the windows, the table, the translations and the pages left are as before a call.
* `AllocEarly`, `MapEarly`: a call fails before it takes room in its window.
* **`costsNothing_iff`**: a failed call costs nothing just if it fails early.
-/

namespace Rymos

open Transition

/-- A call has changed nothing that a process of the pid can see. -/
structure CostsNothing (pid : ℕ) (p p' : ProcMem) (mem mem' : Memory) : Prop where
  heapNext : p'.heapNext = p.heapNext
  mmapNext : p'.mmapNext = p.mmapNext
  mappings : p'.mappings = p.mappings
  translations : ∀ virt, InUserWindow pid virt → translate mem'.table mem'.kernelPml4 virt =
    translate mem.table mem.kernelPml4 virt
  pages : ∀ n, CanAlloc n mem'.allocator ↔ CanAlloc n mem.allocator

/-- There is no PML4 and no page for one, or there is one and no room in the window. -/
def NoRoom (full : Prop) (mem : Memory) : Prop :=
  mem.kernelPml4 = 0 ∧ mem.allocator.available = [] ∨ mem.kernelPml4 ≠ 0 ∧ full

/-- `mem_alloc_pages` fails before it takes room. -/
def AllocEarly (pages : ℕ) (p : ProcMem) (mem : Memory) : Prop :=
  (pages = 0 ∨ userHeapMaxPagesPerCall < pages) ∨ NoRoom (HeapFull pages p) mem

/-- `mem_map_pages` fails before it takes room. -/
def MapEarly (pages flags : ℕ) (p : ProcMem) (mem : Memory) : Prop :=
  (pages = 0 ∨ userMmapMaxPagesPerCall < pages ∨ badFlags flags) ∨
    NoRoom (MmapFull (pages + guardPages flags) p) mem

section Failed

variable {pid pages base pml4 : ℕ} {p p' : ProcMem} {mem mem' : Memory}

theorem CostsNothing.refl (pid : ℕ) (p : ProcMem) (mem : Memory) : CostsNothing pid p p mem mem :=
  ⟨rfl, rfl, rfl, fun _ _ => rfl, fun _ => Iff.rfl⟩

/-- **`ensure_kernel_pml4`**: no page for it, the one there is, or a page fewer. -/
theorem ensureKernelPml4_cases (mem : Memory) :
    (ensureKernelPml4 mem = (none, mem) ∧ mem.kernelPml4 = 0 ∧ mem.allocator.available = []) ∨
      (ensureKernelPml4 mem = (some mem.kernelPml4, mem) ∧ mem.kernelPml4 ≠ 0) ∨
      ∃ k mem', ensureKernelPml4 mem = (some k, mem') ∧ mem.kernelPml4 = 0 ∧
        mem.allocator.available.length = mem'.allocator.available.length + 1 := by
  by_cases hk : mem.kernelPml4 = 0
  · rw [ensureKernelPml4, if_neg (not_not.mpr hk), cloneActivePml4, allocZeroedPage]
    rcases ha : mem.allocator.allocPage with _ | ⟨page, allocator⟩
    · exact .inl ⟨rfl, hk, allocPage_eq_none.mp ha⟩
    · refine .inr (.inr ⟨page, _, rfl, hk, ?_⟩)
      rw [(allocPage_eq_some ha).1]
      rfl
  · exact .inr (.inl ⟨ensureKernelPml4_of_ne hk, hk⟩)

/-- **A call that gets as far as its window**: it costs nothing just if there is no room. -/
theorem costsNothing_of_window {full : Prop} {r : ℕ × ProcMem × Memory}
    (hnone : ∀ mem', ensureKernelPml4 mem = (none, mem') → r = (0, p, mem'))
    (hfull : full → ∀ k mem', ensureKernelPml4 mem = (some k, mem') → r = (0, p, mem'))
    (hroom : ¬ full → ∀ k mem', ensureKernelPml4 mem = (some k, mem') →
      r.2.1.heapNext ≠ p.heapNext ∨ r.2.1.mmapNext ≠ p.mmapNext) :
    CostsNothing pid p r.2.1 mem r.2.2 ↔ NoRoom full mem := by
  have hmoved : ∀ k mem', ¬ full → ensureKernelPml4 mem = (some k, mem') →
      ¬ CostsNothing pid p r.2.1 mem r.2.2 := fun k mem' hf he hc =>
    (hroom hf k mem' he).elim (fun hn => hn hc.heapNext) fun hn => hn hc.mmapNext
  rcases ensureKernelPml4_cases mem with ⟨he, hk, ha⟩ | ⟨he, hk⟩ | ⟨k, mem', he, hk, hlen⟩
  · rw [hnone mem he]
    exact iff_of_true (CostsNothing.refl pid p mem) (.inl ⟨hk, ha⟩)
  · by_cases hf : full
    · rw [hfull hf _ mem he]
      exact iff_of_true (CostsNothing.refl pid p mem) (.inr ⟨hk, hf⟩)
    · refine iff_of_false (hmoved _ mem hf he) fun hn => ?_
      rcases hn with ⟨hz, -⟩ | ⟨-, hn⟩
      · exact hk hz
      · exact hf hn
  · have hnoroom : ¬ NoRoom full mem := fun hn => by
      rcases hn with ⟨-, ha⟩ | ⟨hn, -⟩
      · rw [ha] at hlen
        cases hlen
      · exact hn hk
    refine iff_of_false (fun hc => ?_) hnoroom
    by_cases hf : full
    · -- the page for the PML4 is gone
      rw [hfull hf k mem' he] at hc
      have hle : mem.allocator.available.length ≤ mem'.allocator.available.length :=
        canAlloc_iff.mp ((hc.pages _).mpr (canAlloc_iff.mpr le_rfl))
      omega
    · exact hmoved k mem' hf he hc

/-- **A memory request that fails costs nothing** just if it fails before it takes room in its window. -/
theorem costsNothing_iff (pid pages flags : ℕ) (p : ProcMem) (mem : Memory) :
    ((abiMemAllocPages pages p mem).1 = 0 →
      (CostsNothing pid p (abiMemAllocPages pages p mem).2.1 mem (abiMemAllocPages pages p mem).2.2 ↔
        AllocEarly pages p mem)) ∧
    ((abiMemMapPages pages flags p mem).1 = 0 →
      (CostsNothing pid p (abiMemMapPages pages flags p mem).2.1 mem
          (abiMemMapPages pages flags p mem).2.2 ↔ MapEarly pages flags p mem)) := by
  have hpos : ∀ {n k : ℕ}, 1 ≤ n → k + n * pageSize ≠ k := fun {n k} hn => by
    simp only [pageSize]
    omega
  refine ⟨fun _ => ?_, fun _ => ?_⟩
  · by_cases hn : pages = 0 ∨ userHeapMaxPagesPerCall < pages
    · rw [abiMemAllocPages, if_pos hn]
      exact iff_of_true (CostsNothing.refl pid p mem) (.inl hn)
    · rw [AllocEarly, or_iff_right hn]
      refine costsNothing_of_window (fun mem' he => ?_) (fun hf k mem' he => ?_) fun hf k mem' he => ?_
      · rw [abiMemAllocPages, if_neg hn, he]
      · rw [memAlloc_eq hn he, if_pos hf]
      · obtain ⟨m, hm⟩ := mapTracked_windows k p.heapNext pages (p.heapTaken pages) mem'
        rw [memAlloc_eq hn he, if_neg hf, hm]
        exact .inl (hpos (by omega))
  · by_cases hn : pages = 0 ∨ userMmapMaxPagesPerCall < pages ∨ badFlags flags
    · rw [abiMemMapPages, if_pos hn]
      exact iff_of_true (CostsNothing.refl pid p mem) (.inl hn)
    · rw [MapEarly, or_iff_right hn]
      refine costsNothing_of_window (fun mem' he => ?_) (fun hf k mem' he => ?_) fun hf k mem' he => ?_
      · rw [abiMemMapPages, if_neg hn, he]
      · rw [memMap_eq hn he, if_pos hf]
      · obtain ⟨m, hm⟩ := mapTracked_windows k (regionBase flags p.mmapNext) pages
          (p.mmapTaken (pages + guardPages flags)) mem'
        rw [memMap_eq hn he, if_neg hf, hm]
        exact .inr (hpos (by omega))

end Failed

/-- On a machine with ten pages they run out while four pages of the heap are mapped: the four addresses
are lost. -/
theorem not_costsNothing_tenPages : ∃ s,
    exec procStep (procBoot 10) startRun = some s ∧
      (abiMemAllocPages 4 (s.procs 1) s.sys.mem).1 = 0 ∧
      ¬ CostsNothing 1 (s.procs 1) (abiMemAllocPages 4 (s.procs 1) s.sys.mem).2.1 s.sys.mem
        (abiMemAllocPages 4 (s.procs 1) s.sys.mem).2.2 := by
  have hrun : (exec procStep (procBoot 10) startRun).map (fun s =>
      ((abiMemAllocPages 4 (s.procs 1) s.sys.mem).1, (s.procs 1).heapNext,
        (abiMemAllocPages 4 (s.procs 1) s.sys.mem).2.1.heapNext)) =
      some (0, heapBase 1, heapBase 1 + 4 * pageSize) := by decide +kernel
  obtain ⟨s, hs, he⟩ := Option.map_eq_some_iff.mp hrun
  simp only [Prod.mk.injEq] at he
  obtain ⟨hzero, hbefore, hafter⟩ := he
  refine ⟨s, hs, hzero, fun hc => ?_⟩
  have hnext := hc.heapNext
  rw [hbefore, hafter] at hnext
  simp [pageSize] at hnext

theorem costsNothing_iff_empty :
    (CostsNothing 1 .empty .empty bootMemory bootMemory ↔ AllocEarly 5000 .empty bootMemory) ∧
      AllocEarly 5000 .empty bootMemory :=
  ⟨(costsNothing_iff 1 5000 0 .empty bootMemory).1 (by decide +kernel), .inl (.inr (by decide))⟩

end Rymos
