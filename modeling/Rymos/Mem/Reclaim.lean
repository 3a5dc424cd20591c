import Mathlib.Tactic
import Rymos.Mem.Mapping

/-!
# Tables of windows given back

* `KeptClear`: nothing accounted for is left below the tables that are given back.
* **`MemInv.reclaimStack`**, **`MemInv.reclaimWindowTables`**: exactly the tables of the windows of
  the pid, with what is below them.
-/

namespace Rymos

open TableTree

section Reclaim

variable {boot mem mem' : Memory} {kept : Set ℕ} {seen : ℕ → Set ℕ}
  {F : Layout (Option ℕ) ℕ ℕ} {hand : List ℕ} {r : Option ℕ} {p : List ℕ} {i t k pid : ℕ}

/-! ## Lists of entries -/

theorem freeEntries_eq (t : ℕ) (l : List ℕ) (mem : Memory) :
    freeEntries t l mem = freeAll (l.filterMap (mem.next t)) mem := by
  induction l generalizing mem with
  | nil => rfl
  | cons i l ih =>
    rw [freeEntries, List.foldl_cons]
    cases hn : tableEntryAddress (mem.table t i) with
    | none =>
      rw [List.filterMap_cons_none (show mem.next t i = none from hn)]
      exact ih mem
    | some a =>
      rw [List.filterMap_cons_some (show mem.next t i = some a from hn)]
      exact ih (freed a mem)

/-- The entries of a table of the layout, all of them owned, lead to distinct pages below it. -/
theorem MemInv.entries (h : MemInv boot kept seen F hand mem) (ht : F r p = some t) {l : List ℕ}
    (hl : l.Nodup) (ho : ∀ i ∈ l, OwnedPath r (i :: p)) : (l.filterMap (mem.next t)).Nodup ∧
      ∀ a, a ∈ l.filterMap (mem.next t) ↔ ∃ i ∈ l, F r (i :: p) = some a := by
  have hmem : ∀ a, a ∈ l.filterMap (mem.next t) ↔ ∃ i ∈ l, F r (i :: p) = some a := fun a => by
    rw [List.mem_filterMap]
    exact exists_congr fun i => and_congr_right fun hi => by rw [h.lays.child ht (ho i hi)]
  refine ⟨?_, hmem⟩
  induction l with
  | nil => simp
  | cons i l ih =>
    obtain ⟨hi, hl⟩ := List.nodup_cons.mp hl
    have hrest := ih hl (fun j hj => ho j (List.mem_cons_of_mem _ hj)) fun a => by
      rw [List.mem_filterMap]
      exact exists_congr fun j => and_congr_right fun hj => by
        rw [h.lays.child ht (ho j (List.mem_cons_of_mem _ hj))]
    rcases hn : mem.next t i with _ | a
    · rwa [List.filterMap_cons_none hn]
    · rw [List.filterMap_cons_some hn, List.nodup_cons]
      refine ⟨fun hc => ?_, hrest⟩
      obtain ⟨j, hj, hja⟩ := List.mem_filterMap.mp hc
      rw [h.lays.child ht (ho j (List.mem_cons_of_mem _ hj))] at hja
      rw [h.lays.child ht (ho i List.mem_cons_self)] at hn
      obtain ⟨-, he⟩ := h.lays.inj hn hja
      cases he
      exact hi hj

/-! ## Tables -/

/-- No page strictly below a place is accounted for. -/
def KeptClear (kept : Set ℕ) (F : Layout (Option ℕ) ℕ ℕ) (p : List ℕ) : Prop :=
  ∀ i q a, p <:+ q → F none (i :: q) = some a → a ∉ kept

/-- **One page table** of an owned PD. -/
theorem MemInv.freeTableAt (h : MemInv boot kept seen F hand mem) {pd j : ℕ} (hpd : F none p = some pd)
    (hp : p ≠ []) (ho : OwnedPath none (j :: p)) (hk : KeptClear kept F (j :: p)) :
    ∃ F', MemInv boot kept seen F' hand (freeTableAt pd j mem) ∧
      Reclaims (Below none (j :: p)) F F' mem (freeTableAt pd j mem) := by
  have hc : tableEntryAddress (mem.table pd j) = F none (j :: p) := h.lays.child hpd ho
  unfold Rymos.freeTableAt
  rw [hc]
  rcases hf : F none (j :: p) with _ | pt
  · refine ⟨F, h, Reclaims.refl ?_⟩
    rintro r' q ⟨rfl, q', rfl⟩
    exact h.lays.eq_none_append hf q'
  · have hre := h.reclaim (L := [pt]) hpd hp (List.nodup_singleton pt)
      (fun b hb => ⟨j :: p, List.suffix_rfl, List.mem_singleton.mp hb ▸ hf⟩) fun b hb q hq hbq => by
        obtain ⟨q', rfl⟩ := hq
        cases q' with
        | nil =>
          rw [List.nil_append, hf] at hbq
          cases hbq
          exact List.mem_singleton_self _
        | cons m q' => exact absurd hb (hk m (q' ++ j :: p) b (List.suffix_append _ _) hbq)
    exact ⟨_, hre.1, hre.2⟩

/-- What is left below other tables is as it was. -/
theorem KeptClear.of_reclaims {P : Option ℕ → List ℕ → Prop} {F' : Layout (Option ℕ) ℕ ℕ}
    (h : KeptClear kept F p) (hre : Reclaims P F F' mem mem') : KeptClear kept F' p :=
  fun i q a hq ha => h i q a hq (hre.some ha)

/-- **Page tables of one PD.** -/
theorem MemInv.freeTablesAt {pd : ℕ} (hp : p ≠ []) (js : List ℕ) {mem : Memory}
    {F : Layout (Option ℕ) ℕ ℕ} (h : MemInv boot kept seen F hand mem) (hpd : F none p = some pd)
    (ho : ∀ j ∈ js, OwnedPath none (j :: p)) (hk : ∀ j ∈ js, KeptClear kept F (j :: p)) :
    ∃ F', MemInv boot kept seen F' hand (js.foldl (fun mem j => Rymos.freeTableAt pd j mem) mem) ∧
      Reclaims (fun r q => ∃ j ∈ js, Below none (j :: p) r q) F F' mem
        (js.foldl (fun mem j => Rymos.freeTableAt pd j mem) mem) := by
  induction js generalizing mem F with
  | nil => exact ⟨F, h, Reclaims.refl fun r q ⟨j, hj, _⟩ => nomatch hj⟩
  | cons j js ih =>
    obtain ⟨F₁, h₁, hre⟩ := h.freeTableAt hpd hp (ho j List.mem_cons_self) (hk j List.mem_cons_self)
    have hpd' : F₁ none p = some pd := by
      rw [(hre.cleared none p).2, hpd]
      rintro ⟨-, hs⟩
      simpa using hs.length_le
    obtain ⟨F', h', hre'⟩ := ih h₁ hpd' (fun j' hj' => ho j' (List.mem_cons_of_mem _ hj'))
      fun j' hj' => (hk j' (List.mem_cons_of_mem _ hj')).of_reclaims hre
    refine ⟨F', h', (hre.trans hre').congr fun r q => ?_⟩
    simp only [List.mem_cons, exists_eq_or_imp]

/-- **A whole PD** with its page tables. -/
theorem MemInv.freePd (h : MemInv boot kept seen F hand mem) {pdpt pd : ℕ}
    (hpdpt : F none p = some pdpt) (hp : p ≠ []) (hpd : F none (i :: p) = some pd)
    (ho : ∀ j < pageTableEntries, OwnedPath none (j :: i :: p))
    (hk : ∀ j, KeptClear kept F (j :: i :: p)) :
    MemInv boot kept seen (F.prune none (i :: p)) hand
        ((freed pd (freeEntries pd (List.range pageTableEntries) mem)).write pdpt i 0) ∧
      Reclaims (Below none (i :: p)) F (F.prune none (i :: p)) mem
        ((freed pd (freeEntries pd (List.range pageTableEntries) mem)).write pdpt i 0) := by
  obtain ⟨hnd, hmem⟩ := h.entries hpd List.nodup_range fun j hj => ho j (List.mem_range.mp hj)
  have heq : (freed pd (freeEntries pd (List.range pageTableEntries) mem)).write pdpt i 0 =
      Rymos.freeAll ((List.range pageTableEntries).filterMap (mem.next pd) ++ [pd])
        (mem.write pdpt i 0) := by
    rw [freeAll_write, freeAll_append, freeAll_singleton, freeEntries_eq]
  rw [heq]
  refine h.reclaim hpdpt hp ?_ (fun a ha => ?_) fun a ha q hq hqa => ?_
  · refine List.nodup_append.mpr ⟨hnd, List.nodup_singleton pd, fun a ha b hb he => ?_⟩
    obtain ⟨j, -, hj⟩ := (hmem a).mp ha
    rw [he, List.mem_singleton.mp hb] at hj
    simpa using congrArg List.length (h.lays.inj hj hpd).2
  · rcases List.mem_append.mp ha with ha | ha
    · obtain ⟨j, -, hj⟩ := (hmem a).mp ha
      exact ⟨_, List.suffix_cons _ _, hj⟩
    · exact ⟨_, List.suffix_rfl, List.mem_singleton.mp ha ▸ hpd⟩
  · rw [List.mem_append]
    obtain ⟨q', rfl⟩ := hq
    rcases List.eq_nil_or_concat' q' with rfl | ⟨q', j, rfl⟩
    · rw [List.nil_append, hpd] at hqa
      cases hqa
      exact .inr (List.mem_singleton_self _)
    · rw [List.append_assoc, List.singleton_append] at hqa
      cases q' with
      | nil =>
        have hj := (h.lays.owned hqa).2 j List.mem_cons_self
        exact .inl ((hmem a).mpr ⟨j, List.mem_range.mpr hj, hqa⟩)
      | cons m q' => exact absurd ha (hk j m (q' ++ j :: i :: p) a (List.suffix_append _ _) hqa)

/-! ## Windows -/

theorem ownedPath_heap {j : ℕ} (hp : pid < 16384) (hj : j < 512) : OwnedPath none (j :: heapPd pid) := by
  refine ⟨show 288 ≤ _ ∧ _ ≤ 352 by omega, ?_⟩
  simp only [heapPd, List.mem_cons, List.not_mem_nil, or_false, pageTableEntries]
  omega

theorem ownedPath_mmap {j : ℕ} (hp : pid < 16384) (hj : j < 512) : OwnedPath none (j :: mmapPd pid) := by
  refine ⟨show 288 ≤ _ ∧ _ ≤ 352 by omega, ?_⟩
  simp only [mmapPd, List.mem_cons, List.not_mem_nil, or_false, pageTableEntries]
  omega

theorem ownedPath_stack {m : ℕ} (hp : pid < 16384) (hm : m < 512) :
    OwnedPath none (m :: stackTable pid) := by
  refine ⟨show 288 ≤ 352 ∧ 352 ≤ 352 by omega, ?_⟩
  simp only [stackTable, List.mem_cons, List.not_mem_nil, or_false, pageTableEntries]
  omega

variable (hp : pid < 16384)
include hp

/-- **The heap's page tables.** -/
theorem MemInv.reclaimHeap (h : MemInv boot kept seen F hand mem) (hr : F none [] = some k)
    (hk : ∀ j, j / 128 = pid % 4 → KeptClear kept F (j :: heapPd pid)) :
    ∃ F', MemInv boot kept seen F' hand (reclaimHeapTables k pid mem) ∧
      Reclaims (fun r q => r = none ∧ HeapPlace pid q) F F' mem (reclaimHeapTables k pid mem) := by
  obtain ⟨hs, hi, hj⟩ := heapBase_indexes hp
  have hpd : pdOf k (heapBase pid) mem = F none (heapPd pid) := by
    unfold pdOf
    rw [hs, hi]
    exact h.follow _ hr (ownedPath_heap hp (show 0 < 512 by omega)).tail
  have hrange : ∀ j, j ∈ List.range' (pid % 4 * 128) 128 ↔ j / 128 = pid % 4 := fun j => by
    rw [List.mem_range'_1]
    omega
  unfold reclaimHeapTables
  rw [hpd, hj]
  rcases hf : F none (heapPd pid) with _ | pd
  · refine ⟨F, h, Reclaims.refl ?_⟩
    rintro r q ⟨rfl, j, -, q', rfl⟩
    exact h.lays.eq_none_append (h.lays.eq_none hf) q'
  · obtain ⟨F', h', hre⟩ := h.freeTablesAt (List.cons_ne_nil _ _)
      (List.range' (pid % 4 * 128) (userHeapStride / (2 * 1024 * 1024))) hf
      (fun j hj => ownedPath_heap hp (by have := (hrange j).mp hj; omega))
      fun j hj => hk j ((hrange j).mp hj)
    refine ⟨F', h', hre.congr fun r q => ?_⟩
    constructor
    · rintro ⟨j, hj, rfl, hs⟩
      exact ⟨rfl, j, (hrange j).mp hj, hs⟩
    · rintro ⟨rfl, j, hj, hs⟩
      exact ⟨j, (hrange j).mpr hj, rfl, hs⟩

/-- **The PD of the mmap window.** -/
theorem MemInv.reclaimMmap (h : MemInv boot kept seen F hand mem) (hr : F none [] = some k)
    (hk : ∀ j, KeptClear kept F (j :: mmapPd pid)) :
    ∃ F', MemInv boot kept seen F' hand (reclaimMmapTables k pid mem) ∧
      Reclaims (fun r q => r = none ∧ MmapPlace pid q) F F' mem (reclaimMmapTables k pid mem) := by
  obtain ⟨hs, hi⟩ := mmapBase_indexes hp
  have ho : OwnedPath none (mmapPd pid) := (ownedPath_mmap hp (show 0 < 512 by omega)).tail
  have hpdpt : tableEntryAddress (mem.table k (pml4Index (mmapBase pid))) =
      F none [320 + pid / 512] := by
    rw [hs]
    exact h.lays.child hr ho.tail
  have hnone : F none (mmapPd pid) = none →
      Reclaims (fun r q => r = none ∧ MmapPlace pid q) F F mem mem := fun hf => Reclaims.refl <| by
    rintro r q ⟨rfl, q', rfl⟩
    exact h.lays.eq_none_append hf q'
  unfold reclaimMmapTables
  rw [hpdpt, hi]
  rcases hf : F none [320 + pid / 512] with _ | pdpt
  · exact ⟨F, h, hnone (h.lays.eq_none hf)⟩
  have hpd : tableEntryAddress (mem.table pdpt (pid % 512)) = F none (mmapPd pid) :=
    h.lays.child hf ho
  simp only [hpd]
  rcases hf' : F none (mmapPd pid) with _ | pd
  · exact ⟨F, h, hnone hf'⟩
  · obtain ⟨h', hre⟩ := h.freePd hf (List.cons_ne_nil _ _) hf'
      (fun j hj => ownedPath_mmap hp hj) hk
    exact ⟨_, h', hre⟩

/-- **`reclaim_process_window_tables`.** -/
theorem MemInv.reclaimWindowTables (h : MemInv boot kept seen F hand mem)
    (hk : ∀ j, j / 128 = pid % 4 → KeptClear kept F (j :: heapPd pid))
    (hk' : ∀ j, KeptClear kept F (j :: mmapPd pid)) :
    ∃ F', MemInv boot kept seen F' hand (reclaimProcessWindowTables pid mem) ∧
      Reclaims (fun r q => r = none ∧ (HeapPlace pid q ∨ MmapPlace pid q)) F F' mem
        (reclaimProcessWindowTables pid mem) := by
  unfold reclaimProcessWindowTables
  have hroot := h.kernel
  split_ifs at hroot ⊢ with hz
  · refine ⟨F, h, Reclaims.refl ?_⟩
    rintro r q ⟨rfl, -⟩
    simpa using h.lays.eq_none_append hroot q
  · obtain ⟨F₁, h₁, hre⟩ := h.reclaimHeap hp hroot hk
    have hroot' : F₁ none [] = some mem.kernelPml4 := by
      rw [(hre.cleared none []).2, hroot]
      rintro ⟨-, j, -, hs⟩
      simpa using hs.length_le
    obtain ⟨F', h', hre'⟩ := h₁.reclaimMmap hp hroot' fun j => (hk' j).of_reclaims hre
    exact ⟨F', h', (hre.trans hre').congr fun r q => by tauto⟩

theorem stackMappedBase_eq : stackMappedBase pid =
    kernelStackBase + pid * kernelStackStride + 480 * pageSize := by
  simp only [stackMappedBase, stackBase, kernelStackBase, kernelStackStride, kernelStackPages,
    pageSize]
  omega

/-- The mapped pages of a stack. -/
theorem stackPages_pathOf {virt : ℕ}
    (hv : virt ∈ pagesFrom (stackMappedBase pid) 0 kernelStackPages) :
    ∃ m, m < 512 ∧ pathOf virt = m :: stackTable pid := by
  obtain ⟨n, -, hn, rfl⟩ := hv
  rw [stackMappedBase_eq hp]
  simp only [kernelStackPages] at hn
  refine ⟨480 + n, by omega, ?_⟩
  simp only [pathOf, stackTable, pageVirt, ptIndex, pdIndex, pdptIndex, pml4Index, kernelStackBase,
    kernelStackStride, pageSize, List.cons.injEq, and_true]
  omega

/-- **`reclaim_process_stack`**: the stack's pages, and the page table they were in. -/
theorem MemInv.reclaimStack (h : MemInv boot kept seen F hand mem) (hr : F none [] = some k)
    (hk : ∀ m a, F none (m :: stackTable pid) = some a → a ∈ kept →
      PageOf none (pagesFrom (stackMappedBase pid) 0 kernelStackPages) none (m :: stackTable pid)) :
    ∃ F', MemInv boot kept seen F' hand (reclaimProcessStack pid mem) ∧
      Reclaims (fun r q => r = none ∧ StackPlace pid q) F F' mem (reclaimProcessStack pid mem) := by
  obtain ⟨hs, hi, hj⟩ := stackBase_indexes hp
  have hroot := h.kernel
  rw [hr] at hroot
  have hz : mem.kernelPml4 ≠ 0 ∧ mem.kernelPml4 = k := by
    split_ifs at hroot with hz
    cases hroot
    exact ⟨hz, rfl⟩
  have hb : stackMappedBase pid % pageSize = 0 := by
    rw [stackMappedBase_eq hp]
    simp only [kernelStackBase, kernelStackStride, pageSize]
    omega
  obtain ⟨F₁, h₁, hre⟩ := h.unmapUser hb kernelStackPages hr fun virt hv => by
    obtain ⟨m, hm, he⟩ := stackPages_pathOf hp hv
    rw [he]
    exact ownedPath_stack hp hm
  have hsame : ∀ q, q.length < 4 → F₁ none q = F none q := fun q hq => (hre.cleared none q).2 <| by
    rintro ⟨-, virt, -, rfl⟩
    simp [pathOf] at hq
  have hr' : F₁ none [] = some k := by rw [hsame _ (by simp), hr]
  have hpd : pdOf k (stackBase pid) (unmapUserPagesFrom k (stackMappedBase pid) 0 kernelStackPages
      mem).2 = F₁ none (stackTable pid).tail := by
    unfold pdOf
    rw [hs, hi]
    exact h₁.follow _ hr' (ownedPath_stack hp (show 0 < 512 by omega)).tail.tail
  unfold reclaimProcessStack ensureKernelPml4
  rw [if_pos hz.1, hz.2]
  simp only [unmapUserPages, hpd, hj]
  have hpart : ∀ r q, PageOf none (pagesFrom (stackMappedBase pid) 0 kernelStackPages) r q →
      r = none ∧ StackPlace pid q := by
    rintro r q ⟨rfl, virt, hv, rfl⟩
    obtain ⟨m, -, he⟩ := stackPages_pathOf hp hv
    exact ⟨rfl, he ▸ List.suffix_cons _ _⟩
  rcases hf : F₁ none (stackTable pid).tail with _ | pd
  · refine ⟨F₁, h₁, ?_⟩
    have hnone : ∀ q, StackPlace pid q → F none q = none := by
      rintro q ⟨q', rfl⟩
      rw [hsame _ (by simp [stackTable])] at hf
      exact h.lays.eq_none_append (h.lays.eq_none hf) q'
    have hskip : Reclaims (fun r q => r = none ∧ StackPlace pid q) F F mem mem :=
      Reclaims.refl <| by
        rintro r q ⟨rfl, hq⟩
        exact hnone q hq
    exact (hskip.trans hre).congr fun r q => ⟨fun hc => hc.elim id (hpart r q), .inl⟩
  · obtain ⟨F', h', hre'⟩ := h₁.freeTableAt hf (List.cons_ne_nil _ _)
      (ownedPath_stack hp (show 0 < 512 by omega)).tail <| by
        rintro m q a ⟨q', rfl⟩ ha hka
        have hlen := (h₁.lays.owned ha).length_le
        have hnil : q' = [] := List.eq_nil_of_length_eq_zero (by simp [stackTable] at hlen; omega)
        subst hnil
        change F₁ none (m :: stackTable pid) = some a at ha
        rw [(hre.cleared none _).1 (hk m a (hre.some ha) hka)] at ha
        cases ha
    exact ⟨F', h', (hre.trans hre').congr fun r q => ⟨fun hc => hc.elim (hpart r q) id, .inr⟩⟩

end Reclaim

end Rymos
