import Mathlib.Tactic
import Rymos.Mem.AddressSpace

/-!
# Windows as places

An address is looked up through four indexes. Places are written from the page up: the page of an
address is at `pathOf`, its page table one index shorter.

* `InHeap`, `InMmap`, `InStack`, `InWindow`: the windows of a pid, as addresses.
* `WindowPlace`: the same, as places. **`windowPlace_of_inWindow`**, **`inWindow_of_windowPlace`**,
  **`WindowPlace.unique`**.
-/

namespace Rymos

def pathOf (virt : ℕ) : List ℕ := [ptIndex virt, pdIndex virt, pdptIndex virt, pml4Index virt]

def InHeap (pid virt : ℕ) : Prop :=
  userHeapBase + pid * userHeapStride ≤ virt ∧ virt < userHeapBase + (pid + 1) * userHeapStride

def InMmap (pid virt : ℕ) : Prop :=
  userMmapBase + pid * userMmapStride ≤ virt ∧ virt < userMmapBase + (pid + 1) * userMmapStride

def InStack (pid virt : ℕ) : Prop :=
  kernelStackBase + pid * kernelStackStride ≤ virt ∧
    virt < kernelStackBase + (pid + 1) * kernelStackStride

def InWindow (pid virt : ℕ) : Prop := InHeap pid virt ∨ InMmap pid virt ∨ InStack pid virt

/-- The addresses the processor accepts: bits 47 to 63 are equal. -/
def Canonical (virt : ℕ) : Prop := virt < 2 ^ 47 ∨ 2 ^ 64 - 2 ^ 47 ≤ virt ∧ virt < 2 ^ 64

/-! ## Places -/

/-- The place of the PD that the heap window is a quarter of. -/
def heapPd (pid : ℕ) : List ℕ := [pid / 4 % 512, 288 + pid / 2048]

/-- The place of the PD of the mmap window. -/
def mmapPd (pid : ℕ) : List ℕ := [pid % 512, 320 + pid / 512]

/-- The place of the page table of the stack. -/
def stackTable (pid : ℕ) : List ℕ := [pid % 512, pid / 512, 352]

/-- The places in the heap window of a pid, and so on. -/
def HeapPlace (pid : ℕ) (q : List ℕ) : Prop := ∃ j, j / 128 = pid % 4 ∧ (j :: heapPd pid) <:+ q

def MmapPlace (pid : ℕ) (q : List ℕ) : Prop := mmapPd pid <:+ q

def StackPlace (pid : ℕ) (q : List ℕ) : Prop := stackTable pid <:+ q

def WindowPlace (pid : ℕ) (q : List ℕ) : Prop :=
  HeapPlace pid q ∨ MmapPlace pid q ∨ StackPlace pid q

section Bounds

variable {pid pid' virt j i s : ℕ}

theorem index_lt (virt : ℕ) : pml4Index virt < 512 ∧ pdptIndex virt < 512 ∧ pdIndex virt < 512 ∧
    ptIndex virt < 512 :=
  ⟨Nat.mod_lt _ (by omega), Nat.mod_lt _ (by omega), Nat.mod_lt _ (by omega),
    Nat.mod_lt _ (by omega)⟩

/-- The indexes of the places of a window. -/
theorem windowPlace_pathOf : WindowPlace pid (pathOf virt) ↔
    (pml4Index virt = 288 + pid / 2048 ∧ pdptIndex virt = pid / 4 % 512 ∧
        pdIndex virt / 128 = pid % 4) ∨
      (pml4Index virt = 320 + pid / 512 ∧ pdptIndex virt = pid % 512) ∨
        pml4Index virt = 352 ∧ pdptIndex virt = pid / 512 ∧ pdIndex virt = pid % 512 := by
  have hheap : HeapPlace pid (pathOf virt) ↔ pml4Index virt = 288 + pid / 2048 ∧
      pdptIndex virt = pid / 4 % 512 ∧ pdIndex virt / 128 = pid % 4 := by
    simp only [HeapPlace, heapPd, pathOf]
    constructor
    · rintro ⟨j, hj, hs⟩
      obtain ⟨rfl, hi, hs⟩ : j = pdIndex virt ∧ pid / 4 % 512 = pdptIndex virt ∧
          288 + pid / 2048 = pml4Index virt := by simpa [List.suffix_cons_iff] using hs
      exact ⟨hs.symm, hi.symm, hj⟩
    · rintro ⟨hs, hi, hj⟩
      exact ⟨pdIndex virt, hj, by simp [hs, hi]⟩
  have hmmap : MmapPlace pid (pathOf virt) ↔
      pml4Index virt = 320 + pid / 512 ∧ pdptIndex virt = pid % 512 := by
    simp [MmapPlace, mmapPd, pathOf, List.suffix_cons_iff]
    omega
  have hstack : StackPlace pid (pathOf virt) ↔
      pml4Index virt = 352 ∧ pdptIndex virt = pid / 512 ∧ pdIndex virt = pid % 512 := by
    simp [StackPlace, stackTable, pathOf, List.suffix_cons_iff]
    omega
  rw [WindowPlace, hheap, hmmap, hstack]

/-- **The addresses of a window are looked up at its places.** -/
theorem windowPlace_of_inWindow (hp : pid < 16384) (h : InWindow pid virt) :
    WindowPlace pid (pathOf virt) := by
  rw [windowPlace_pathOf]
  simp only [pml4Index, pdptIndex, pdIndex]
  rcases h with h | h | h
  · simp only [InHeap, userHeapBase, userHeapStride] at h
    omega
  · simp only [InMmap, userMmapBase, userMmapStride] at h
    omega
  · simp only [InStack, kernelStackBase, kernelStackStride] at h
    omega

/-- **Nothing else is looked up there.** -/
theorem inWindow_of_windowPlace (hp : pid < 16384) (hc : Canonical virt)
    (h : WindowPlace pid (pathOf virt)) : InWindow pid virt := by
  simp only [Canonical] at hc
  rw [windowPlace_pathOf] at h
  simp only [pml4Index, pdptIndex, pdIndex] at h
  rcases h with h | h | h
  · left
    simp only [InHeap, userHeapBase, userHeapStride]
    omega
  · right; left
    simp only [InMmap, userMmapBase, userMmapStride]
    omega
  · right; right
    simp only [InStack, kernelStackBase, kernelStackStride]
    omega

/-- **A place is in the windows of one pid.** -/
theorem WindowPlace.unique {q : List ℕ} (hp : pid < 16384) (hp' : pid' < 16384)
    (h : WindowPlace pid q) (h' : WindowPlace pid' q) : pid = pid' := by
  have h₃ : ∀ {j i s j' i' s'}, [j, i, s] <:+ q → [j', i', s'] <:+ q → j = j' ∧ i = i' ∧ s = s' :=
    fun ha hb => by
      simpa [List.suffix_cons_iff] using List.suffix_of_suffix_length_le ha hb (by simp)
  have h₂ : ∀ {i s j' i' s'}, [i, s] <:+ q → [j', i', s'] <:+ q → i = i' ∧ s = s' :=
    fun ha hb => by
      simpa [List.suffix_cons_iff] using List.suffix_of_suffix_length_le ha hb (by simp)
  have h₁ : ∀ {i s i' s'}, [i, s] <:+ q → [i', s'] <:+ q → i = i' ∧ s = s' :=
    fun ha hb => by
      simpa [List.suffix_cons_iff] using List.suffix_of_suffix_length_le ha hb (by simp)
  obtain ⟨j, hj, hs⟩ | hs | hs := h <;> obtain ⟨j', hj', hs'⟩ | hs' | hs' := h'
  · have := h₃ hs hs'
    omega
  · have := h₂ hs' hs
    omega
  · have := h₃ hs hs'
    omega
  · have := h₂ hs hs'
    omega
  · have := h₁ hs hs'
    omega
  · have := h₂ hs hs'
    omega
  · have := h₃ hs hs'
    omega
  · have := h₂ hs' hs
    omega
  · have := h₃ hs hs'
    omega

/-! ## Indexes of the bases -/

theorem heapBase_indexes (hp : pid < 16384) : pml4Index (heapBase pid) = 288 + pid / 2048 ∧
    pdptIndex (heapBase pid) = pid / 4 % 512 ∧ pdIndex (heapBase pid) = pid % 4 * 128 := by
  simp only [heapBase, pml4Index, pdptIndex, pdIndex, userHeapBase, userHeapStride]
  omega

theorem mmapBase_indexes (hp : pid < 16384) : pml4Index (mmapBase pid) = 320 + pid / 512 ∧
    pdptIndex (mmapBase pid) = pid % 512 := by
  simp only [mmapBase, pml4Index, pdptIndex, userMmapBase, userMmapStride]
  omega

theorem stackBase_indexes (hp : pid < 16384) : pml4Index (stackBase pid) = 352 ∧
    pdptIndex (stackBase pid) = pid / 512 ∧ pdIndex (stackBase pid) = pid % 512 := by
  simp only [stackBase, pml4Index, pdptIndex, pdIndex, kernelStackBase, kernelStackStride]
  omega

end Bounds

end Rymos
