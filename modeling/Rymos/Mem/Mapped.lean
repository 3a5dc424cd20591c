import Mathlib.Tactic
import Rymos.Mem.Isolation

/-!
# What is mapped in the windows

* `Mapped`: the kernel's PML4 maps an address. `InUserWindow`: the heap and mmap window of a pid.
* `Spans`: a range of pages has an address. **`pathOf_injective`**: pages have places of their own.
* **`mapped_of_keeps`**, **`mapped_map`**, **`mapped_unmap`**, **`mapped_reclaimTables`**: what the calls of
  the kernel do to what is mapped.
-/

namespace Rymos

open TableTree Transition

/-- The kernel has its PML4 and it maps the address. -/
def Mapped (mem : Memory) (virt : ℕ) : Prop :=
  mem.kernelPml4 ≠ 0 ∧ translate mem.table mem.kernelPml4 virt ≠ none

instance (mem : Memory) (virt : ℕ) : Decidable (Mapped mem virt) := inferInstanceAs (Decidable (_ ∧ _))

def InUserWindow (pid virt : ℕ) : Prop := InHeap pid virt ∨ InMmap pid virt

/-- An address is in the range of `pages` pages at `base`. -/
def Spans (base pages virt : ℕ) : Prop := base ≤ virt ∧ virt < base + pages * pageSize

instance (base pages virt : ℕ) : Decidable (Spans base pages virt) :=
  inferInstanceAs (Decidable (_ ∧ _))

section Addresses

variable {pid base pages virt virt' : ℕ}

theorem InUserWindow.inWindow (h : InUserWindow pid virt) : InWindow pid virt :=
  h.elim .inl fun hm => .inr (.inl hm)

theorem InUserWindow.bounds (hp : pid < 16384) (h : InUserWindow pid virt) :
    2 ^ 64 - 2 ^ 47 ≤ virt ∧ virt < 2 ^ 64 ∧ pml4Index virt ≠ 352 := by
  rw [pml4Index]
  rcases h with h | h
  · simp only [InHeap, userHeapBase, userHeapStride] at h
    omega
  · simp only [InMmap, userMmapBase, userMmapStride] at h
    omega

/-- **Two pages of the upper half have two places.** -/
theorem pathOf_injective (hv : 2 ^ 64 - 2 ^ 47 ≤ virt ∧ virt < 2 ^ 64)
    (hv' : 2 ^ 64 - 2 ^ 47 ≤ virt' ∧ virt' < 2 ^ 64) (ha : virt % pageSize = 0)
    (ha' : virt' % pageSize = 0) (h : pathOf virt = pathOf virt') : virt = virt' := by
  simp only [pathOf, List.cons.injEq, ptIndex, pdIndex, pdptIndex, pml4Index] at h
  obtain ⟨h₁, h₂, h₃, h₄, -⟩ := h
  simp only [pageSize] at ha ha'
  omega

theorem InUser.pageVirt_eq {k : ℕ} (h : InUser pid base pages) (hk : k < pages) :
    pageVirt base k = base + k * pageSize := by
  obtain ⟨-, ⟨-, hhi⟩ | ⟨-, hhi⟩⟩ := h
  · simp only [heapBase, userHeapBase, userHeapStride, pageSize, pageVirt] at hhi ⊢
    omega
  · simp only [mmapBase, userMmapBase, userMmapStride, pageSize, pageVirt] at hhi ⊢
    omega

/-- The pages of a range are those it spans. -/
theorem InUser.mem_pagesFrom (h : InUser pid base pages)
    (ha : virt % pageSize = 0) : virt ∈ pagesFrom base 0 pages ↔ Spans base pages virt := by
  have hb := h.1
  constructor
  · rintro ⟨k, -, hk, rfl⟩
    rw [h.pageVirt_eq (by omega), Spans]
    simp only [pageSize] at *
    omega
  · rintro ⟨hlo, hhi⟩
    have hk : (virt - base) / pageSize < pages := by
      simp only [pageSize] at *
      omega
    refine ⟨(virt - base) / pageSize, Nat.zero_le _, by omega, ?_⟩
    rw [h.pageVirt_eq hk]
    simp only [pageSize] at *
    omega

theorem InUser.inUserWindow (hp : pid < 16384) (h : InUser pid base pages)
    (hc : Spans base pages virt) : InUserWindow pid virt := by
  obtain ⟨hlo, hhi⟩ := hc
  obtain ⟨-, ⟨hb, he⟩ | ⟨hb, he⟩⟩ := h
  · left
    simp only [InHeap, heapBase, userHeapBase, userHeapStride] at *
    omega
  · right
    simp only [InMmap, mmapBase, userMmapBase, userMmapStride] at *
    omega

/-- **The range of one pid has no address of the windows of another.** -/
theorem InUser.not_spans {q : ℕ} (hp : pid < 16384) (hq : q < 16384) (hne : q ≠ pid)
    (h : InUser pid base pages) (hv : InUserWindow q virt) : ¬ Spans base pages virt := fun hc =>
  hne ((windowPlace_of_inWindow hq hv.inWindow).unique hq hp
    (windowPlace_of_inWindow hp (h.inUserWindow hp hc).inWindow))

/-- The place of a page is that of a page of the range just if the range spans it. -/
theorem InUser.pageOf_iff {q : ℕ} (hp : pid < 16384) (hq : q < 16384) (h : InUser pid base pages)
    (hv : InUserWindow q virt) (ha : virt % pageSize = 0) :
    PageOf none (pagesFrom base 0 pages) none (pathOf virt) ↔ Spans base pages virt := by
  rw [← h.mem_pagesFrom ha]
  constructor
  · rintro ⟨-, w, hw, he⟩
    have hwin := h.inWindow hp hw
    obtain ⟨hlo, hhi, -⟩ := hv.bounds hq
    have hwb : 2 ^ 64 - 2 ^ 47 ≤ w ∧ w < 2 ^ 64 := by
      obtain ⟨k, -, hk, rfl⟩ := hw
      refine ⟨?_, Nat.mod_lt _ (by positivity)⟩
      rw [h.pageVirt_eq (by omega)]
      obtain ⟨-, ⟨hb, -⟩ | ⟨hb, -⟩⟩ := h
      · simp only [heapBase, userHeapBase, userHeapStride] at hb
        omega
      · simp only [mmapBase, userMmapBase, userMmapStride] at hb
        omega
    have hwa : w % pageSize = 0 := by
      obtain ⟨k, -, -, rfl⟩ := hw
      exact pageVirt_mod h.1 k
    exact pathOf_injective ⟨hlo, hhi⟩ hwb ha hwa he ▸ hw
  · exact fun hw => ⟨rfl, virt, hw, rfl⟩

end Addresses

section Steps

variable {boot : Memory} {s s' : MemSys} {F F' : Layout (Option ℕ) ℕ ℕ} {pid q base pages virt : ℕ}

/-- **An address of a window is mapped** just if there is a page at its place. -/
theorem SysLayout.mapped_iff (h : SysLayout boot s F) (hp : pid < 16384) (hv : InWindow pid virt) :
    Mapped s.mem virt ↔ F none (pathOf virt) ≠ none := by
  by_cases hk : F none [] = none
  · have hz : s.mem.kernelPml4 = 0 := by
      by_contra hc
      rw [h.inv.kernel, if_neg hc] at hk
      cases hk
    rw [h.inv.eq_none hk]
    exact ⟨fun hm => absurd hz hm.1, fun hn => absurd rfl hn⟩
  · have hr := h.kernel hk
    have hz : s.mem.kernelPml4 ≠ 0 := (h.inv.placed hr).1.2.1.ne'
    rw [Mapped, h.inv.translate hr (ownedPath_window hp hv)]
    exact ⟨fun hm hn => hm.2 (Option.map_eq_none_iff.mpr hn),
      fun hn => ⟨hz, fun hc => hn (Option.map_eq_none_iff.mp hc)⟩⟩

/-- **A call that is not about these windows.** -/
theorem SysLayout.mapped_of_keeps (h : SysLayout boot s F) (h' : SysLayout boot s' F')
    (hk : KeepsUser F F') (hq : q < 16384) (hv : InUserWindow q virt) :
    Mapped s'.mem virt ↔ Mapped s.mem virt := by
  rw [h.mapped_iff hq hv.inWindow, h'.mapped_iff hq hv.inWindow, hk virt (hv.bounds hq).2.2]

/-- A process with a private PML4 runs beside the kernel's. -/
theorem SysInv.kernel_ne (h : SysInv boot s) (hs : s.space pid ≠ none) : s.mem.kernelPml4 ≠ 0 := by
  obtain ⟨F, h⟩ := h
  obtain ⟨t, ht⟩ := Option.ne_none_iff_exists'.mp hs
  exact (h.inv.placed (h.root ht).2).1.2.1.ne'

/-- **`map_user_pages`**: the pages of the range, none of which was mapped, or no page more. -/
theorem SysInv.mapped_map (h : SysInv boot s) (hp : pid < 16384) (hb : InUser pid base pages)
    (he : memStep s (.map pid base pages) = some s') : SysInv boot s' ∧
      (((mapUserPages s.mem.kernelPml4 base pages s.mem).1 = false ∧
        ∀ q virt, q < 16384 → InUserWindow q virt → (Mapped s'.mem virt ↔ Mapped s.mem virt)) ∨
      ((mapUserPages s.mem.kernelPml4 base pages s.mem).1 = true ∧
        ∀ q virt, q < 16384 → InUserWindow q virt → virt % pageSize = 0 →
          (Mapped s'.mem virt ↔ Mapped s.mem virt ∨ Spans base pages virt))) := by
  obtain ⟨F, h⟩ := h
  obtain ⟨F', h', ⟨hm, hg⟩ | ⟨hm, hso⟩⟩ := h.map hp hb he
  · refine ⟨⟨F', h'⟩, .inl ⟨hm, fun q virt hq hv => ?_⟩⟩
    rw [h.mapped_iff hq hv.inWindow, h'.mapped_iff hq hv.inWindow, hg.eq not_onWay_pathOf]
  · refine ⟨⟨F', h'⟩, .inr ⟨hm, fun q virt hq hv ha => ?_⟩⟩
    rw [h.mapped_iff hq hv.inWindow, h'.mapped_iff hq hv.inWindow]
    by_cases hc : Spans base pages virt
    · exact iff_of_true (hso.there virt ((hb.mem_pagesFrom ha).mpr hc)) (.inr hc)
    · have hsame : F' none (pathOf virt) = F none (pathOf virt) := hso.grows.eq fun hP =>
        hP.elim not_onWay_pathOf fun hP => hc ((hb.pageOf_iff hp hq hv ha).mp hP)
      rw [hsame, or_iff_left hc]

/-- **`unmap_user_pages`**: the pages of the range are not mapped, and the others as before. -/
theorem SysInv.mapped_unmap (h : SysInv boot s) (hp : pid < 16384) (hb : InUser pid base pages)
    (he : memStep s (.unmap pid base pages) = some s') : SysInv boot s' ∧
      ∀ q virt, q < 16384 → InUserWindow q virt → virt % pageSize = 0 →
        (Mapped s'.mem virt ↔ Mapped s.mem virt ∧ ¬ Spans base pages virt) := by
  obtain ⟨F, h⟩ := h
  obtain ⟨F', h', hc⟩ := h.unmap hp hb he
  refine ⟨⟨F', h'⟩, fun q virt hq hv ha => ?_⟩
  rw [h.mapped_iff hq hv.inWindow, h'.mapped_iff hq hv.inWindow, ← hb.pageOf_iff hp hq hv ha]
  by_cases hP : PageOf none (pagesFrom base 0 pages) none (pathOf virt)
  · exact iff_of_false (fun hn => hn ((hc none _).1 hP)) fun hn => hn.2 hP
  · rw [(hc none _).2 hP, and_iff_left hP]

/-- **`reclaim_process_window_tables`**: nothing is mapped in the windows of the pid. -/
theorem SysInv.mapped_reclaimTables (h : SysInv boot s) (hp : pid < 16384)
    (he : memStep s (.reclaimTables pid) = some s') : SysInv boot s' ∧
      ∀ q virt, q < 16384 → InUserWindow q virt →
        (Mapped s'.mem virt ↔ Mapped s.mem virt ∧ q ≠ pid) := by
  obtain ⟨F, h⟩ := h
  obtain ⟨F', h', hc⟩ := h.reclaimTables hp he
  refine ⟨⟨F', h'⟩, fun q virt hq hv => ?_⟩
  rw [h.mapped_iff hq hv.inWindow, h'.mapped_iff hq hv.inWindow]
  have hw := windowPlace_of_inWindow hq hv.inWindow
  by_cases hqp : q = pid
  · subst hqp
    refine iff_of_false (fun hn => hn ((hc none _).1 ⟨rfl, ?_⟩)) fun hn => hn.2 rfl
    rcases hw with hw | hw | hw
    · exact .inl hw
    · exact .inr hw
    · exact absurd (stackPlace_pathOf hw) (hv.bounds hq).2.2
  · rw [(hc none _).2 fun hP => hqp ?_, and_iff_left hqp]
    exact hw.unique hq hp (hP.2.elim .inl fun hm => .inr (.inl hm))

/-- The calls that are not about the heap and mmap windows. -/
def MemAct.Aside : MemAct → Prop
  | .create _ | .loadImage _ _ _ | .createStack _ | .reclaimStack _ | .destroy _ => True
  | .map _ _ _ | .unmap _ _ _ | .reclaimTables _ => False

instance (a : MemAct) : Decidable a.Aside := by
  cases a <;> unfold MemAct.Aside <;> infer_instance

/-- **The other calls leave what is mapped in these windows alone.** -/
theorem SysInv.mapped_aside (h : SysInv boot s) (hw : WindowsFree boot) {a : MemAct}
    (ha : OwnAct 16384 s a) (hs : a.Aside) (he : memStep s a = some s') : SysInv boot s' ∧
      ∀ q virt, q < 16384 → InUserWindow q virt → (Mapped s'.mem virt ↔ Mapped s.mem virt) := by
  obtain ⟨F, h⟩ := h
  obtain ⟨hp, hr⟩ := ha
  have hkeeps : ∃ F', SysLayout boot s' F' ∧ KeepsUser F F' := by
    cases a with
    | create pid => exact h.create hw hp he
    | loadImage pid base pages => exact h.loadImage hr he
    | createStack pid => exact h.createStack hw hp he
    | reclaimStack pid => exact h.reclaimStack hp he
    | destroy pid => exact h.destroy he
    | map pid base pages => exact hs.elim
    | unmap pid base pages => exact hs.elim
    | reclaimTables pid => exact hs.elim
  obtain ⟨F', h', hk⟩ := hkeeps
  exact ⟨⟨F', h'⟩, fun q virt hq hv => h.mapped_of_keeps h' hk hq hv⟩

end Steps

end Rymos
