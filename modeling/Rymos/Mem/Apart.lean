import Mathlib.Tactic
import Rymos.Mem.Isolation

/-!
# Windows that do not collide

* `Apart`: the windows of three pids do not wrap and do not meet. `OnlyOwn`: a call that gives tables
  back leaves what serves any other pid.
* **`windowsApart_iff`**: this is so of the pids below a limit just if the limit is at most `16384`.
-/

namespace Rymos

open TableTree Transition

/-! ## What is asked for -/

/-- The heap window of `p`, the mmap window of `q` and the stack of `r`: none wraps around, two of
different kinds do not meet, nor do two of one kind. -/
structure Apart (p q r : ℕ) : Prop where
  heap : userHeapBase + (p + 1) * userHeapStride < 2 ^ 64
  mmap : userMmapBase + (q + 1) * userMmapStride < 2 ^ 64
  stack : kernelStackBase + (r + 1) * kernelStackStride < 2 ^ 64
  kinds : ∀ virt, ¬ (InHeap p virt ∧ InMmap q virt) ∧ ¬ (InHeap p virt ∧ InStack r virt) ∧
    ¬ (InMmap q virt ∧ InStack r virt)
  pids : p ≠ q → ∀ virt, ¬ (InHeap p virt ∧ InHeap q virt) ∧ ¬ (InMmap p virt ∧ InMmap q virt) ∧
    ¬ (InStack p virt ∧ InStack q virt)

def indexes (virt : ℕ) : List ℕ := [pml4Index virt, pdptIndex virt, pdIndex virt, ptIndex virt]

/-- The entries read on a way down from a table, each with the table it is in. -/
def walk (table : ℕ → ℕ → ℕ) : ℕ → List ℕ → List (ℕ × ℕ)
  | _, [] => []
  | t, i :: is => (t, i) ::
      match tableEntryAddress (table t i) with
      | none => []
      | some u => walk table u is

/-- The entries read to translate an address through the kernel's PML4. -/
def lookups (mem : Memory) (virt : ℕ) : List (ℕ × ℕ) := walk mem.table mem.kernelPml4 (indexes virt)

/-- A page that a call has handed back. -/
def HandedBack (mem mem' : Memory) (a : ℕ) : Prop :=
  a ∈ mem'.allocator.available ∧ a ∉ mem.allocator.available

/-- The entries that a call changes and the tables that it frees serve no address outside the windows
of `pid`; of what serves a window of another pid, it changes and frees nothing. -/
structure OnlyOwn (limit pid : ℕ) (mem mem' : Memory) : Prop where
  entries : ∀ t i, mem'.table t i ≠ mem.table t i → ∀ virt, Canonical virt →
    (t, i) ∈ lookups mem virt → InWindow pid virt
  tables : ∀ a, HandedBack mem mem' a → ∀ virt i, Canonical virt → (a, i) ∈ lookups mem virt →
    InWindow pid virt
  spares : ∀ q, 0 < q → q < limit → q ≠ pid → ∀ virt, InWindow q virt →
    (∀ t i, (t, i) ∈ lookups mem virt → mem'.table t i = mem.table t i ∧ ¬ HandedBack mem mem' t) ∧
      ∀ a, translate mem.table mem.kernelPml4 virt = some (a + virt % pageSize) →
        ¬ HandedBack mem mem' a

/-- The windows of all pids below `limit` are apart, and in every state reached the calls that give a
pid's tables back keep to its windows. -/
def WindowsApart (limit : ℕ) : Prop :=
  (∀ p q r, 0 < p → p < limit → 0 < q → q < limit → 0 < r → r < limit → Apart p q r) ∧
    ∀ boot s, BootOk boot → Reach (MemInit boot) (OwnAct limit) memStep s →
      ∀ pid, 0 < pid → pid < limit →
        OnlyOwn limit pid s.mem (reclaimProcessWindowTables pid s.mem) ∧
          (s.stacked pid = true → OnlyOwn limit pid s.mem (reclaimProcessStack pid s.mem))

/-! ## Lookups and places -/

section Lookups

variable {boot mem mem' : Memory} {kept : Set ℕ} {seen : ℕ → Set ℕ} {F F' : Layout (Option ℕ) ℕ ℕ}
  {hand : List ℕ} {r : Option ℕ} {pid limit virt : ℕ}

/-- **The entries read on an owned way** are those of the tables at its places. -/
theorem MemInv.walk (h : MemInv boot kept seen F hand mem) {t i : ℕ} (is : List ℕ) {p : List ℕ}
    {u : ℕ} (hu : F r p = some u) (ho : OwnedPath r (is.reverse ++ p)) :
    (t, i) ∈ Rymos.walk mem.table u is →
      ∃ q, F r q = some t ∧ (i :: q) <:+ is.reverse ++ p := by
  induction is generalizing p u with
  | nil => exact fun hm => (List.not_mem_nil hm).elim
  | cons j is ih =>
    have hrev : (j :: is).reverse ++ p = is.reverse ++ j :: p := by simp
    rw [hrev] at ho ⊢
    have hsuf : (j :: p) <:+ is.reverse ++ j :: p := List.suffix_append _ _
    have hc : tableEntryAddress (mem.table u j) = F r (j :: p) := h.lays.child hu (ho.suffix hsuf)
    rw [Rymos.walk, hc, List.mem_cons]
    rintro (he | hm)
    · cases he
      exact ⟨p, hu, hsuf⟩
    · rcases hf : F r (j :: p) with _ | v
      · rw [hf] at hm
        exact (List.not_mem_nil hm).elim
      · rw [hf] at hm
        exact ih hf ho hm

/-- Below a table of the boot PML4 there are only such. -/
theorem MemInv.walk_firmware (h : MemInv boot kept seen F hand mem) {t i : ℕ} (is : List ℕ)
    {l : List ℕ} {u : ℕ} (hu : Rymos.follow boot.table boot.cr3 l = some u)
    (hl : l.length + is.length ≤ 4) : (t, i) ∈ Rymos.walk mem.table u is → Firmware boot t := by
  induction is generalizing l u with
  | nil => exact fun hm => (List.not_mem_nil hm).elim
  | cons j is ih =>
    simp only [List.length_cons] at hl
    have hf : Firmware boot u := ⟨l, by omega, hu⟩
    rw [Rymos.walk, (h.firmware hf).1, List.mem_cons]
    rintro (he | hm)
    · cases he
      exact hf
    · rcases hn : tableEntryAddress (boot.table u j) with _ | v
      · rw [hn] at hm
        exact (List.not_mem_nil hm).elim
      · rw [hn] at hm
        obtain ⟨hp, hh, rfl⟩ := tableEntryAddress_eq_some.mp hn
        rcases Nat.lt_or_ge l.length 3 with hlt | hge
        · refine ih (l := l ++ [j]) (Firmware.next hu (by omega) hp hh).2 ?_ hm
          rw [List.length_append, List.length_singleton]
          omega
        · obtain rfl : is = [] := List.length_eq_zero_iff.mp (by omega)
          exact (List.not_mem_nil hm).elim

/-- **The tables a lookup reads** are at the places of the address, or at none but the root. -/
theorem MemInv.lookups (h : MemInv boot kept seen F hand mem) (hk : F none [] = some mem.kernelPml4)
    {t i : ℕ} (hm : (t, i) ∈ Rymos.lookups mem virt) {q : List ℕ} (hq : F none q = some t) :
    q = [] ∨ (i :: q) <:+ pathOf virt := by
  by_cases hs : WindowSlot (pml4Index virt)
  · have ho : OwnedPath none (pathOf virt) := by
      obtain ⟨h₄, h₃, h₂, h₁⟩ := index_lt virt
      refine ⟨hs, fun j hj => ?_⟩
      simp only [pathOf, List.mem_cons, List.not_mem_nil, or_false] at hj
      rcases hj with rfl | rfl | rfl | rfl
      · exact h₁
      · exact h₂
      · exact h₃
      · exact h₄
    obtain ⟨q', hq', hsuf⟩ := h.walk (indexes virt) hk ho hm
    obtain ⟨-, rfl⟩ := h.lays.inj hq hq'
    exact .inr hsuf
  · left
    rw [Rymos.lookups, indexes, Rymos.walk, List.mem_cons] at hm
    rcases hm with he | hm
    · cases he
      exact (h.lays.inj hq hk).2
    · exfalso
      rw [h.top hk hs] at hm
      rcases hn : tableEntryAddress (boot.table boot.cr3 (pml4Index virt)) with _ | u
      · rw [hn] at hm
        exact List.not_mem_nil hm
      · rw [hn] at hm
        obtain ⟨hp, hh, rfl⟩ := tableEntryAddress_eq_some.mp hn
        have hf := h.walk_firmware [pdptIndex virt, pdIndex virt, ptIndex virt]
          (l := [pml4Index virt]) (Firmware.next (l := []) rfl (by simp) hp hh).2 (by simp) hm
        exact (h.firmware hf).2.2 _ _ hq

/-- What is below a place of a window is in it. -/
theorem WindowPlace.suffix {q q' : List ℕ} (h : WindowPlace pid q) (hs : q <:+ q') :
    WindowPlace pid q' := by
  obtain ⟨j, hj, hq⟩ | hq | hq := h
  · exact .inl ⟨j, hj, hq.trans hs⟩
  · exact .inr (.inl (hq.trans hs))
  · exact .inr (.inr (hq.trans hs))

/-- **A call that takes away what is at places of a window** keeps to the window. -/
theorem onlyOwn_of_reclaims {P : Option ℕ → List ℕ → Prop} (h : MemInv boot kept seen F [] mem)
    (hre : Reclaims P F F' mem mem') (hP : ∀ r q, P r q → r = none ∧ WindowPlace pid q)
    (hp : pid < 16384) (hl : limit ≤ 16384) : OnlyOwn limit pid mem mem' := by
  have hkernel : ∀ {q a}, F none q = some a → F none [] = some mem.kernelPml4 := fun hq => by
    obtain ⟨k, hk⟩ := h.lays.some_of_suffix hq List.nil_suffix
    have hroot := h.kernel
    split_ifs at hroot with hz
    · rw [hk] at hroot
      cases hroot
    · exact hroot
  have hentry : ∀ t i, mem'.table t i ≠ mem.table t i → ∀ virt, (t, i) ∈ Rymos.lookups mem virt →
      WindowPlace pid (pathOf virt) := fun t i hne virt hm => by
    obtain ⟨r, q, hq, hPq⟩ := hre.touched hne
    obtain ⟨rfl, hw⟩ := hP _ _ hPq
    rcases h.lookups (hkernel hq) hm hq with rfl | hs
    · have := hw.length
      simp at this
    · exact hw.suffix hs
  have hfreed : ∀ a, HandedBack mem mem' a → ∃ q, F none q = some a ∧ WindowPlace pid q := fun a ha => by
    obtain ⟨r, q, hq, hPq⟩ := (hre.freed ha.1).resolve_left ha.2
    obtain ⟨rfl, hw⟩ := hP _ _ hPq
    exact ⟨q, hq, hw⟩
  have htable : ∀ a, HandedBack mem mem' a → ∀ virt i, (a, i) ∈ Rymos.lookups mem virt →
      WindowPlace pid (pathOf virt) := fun a ha virt i hm => by
    obtain ⟨q, hq, hw⟩ := hfreed a ha
    rcases h.lookups (hkernel hq) hm hq with rfl | hs
    · have := hw.length
      simp at this
    · exact hw.suffix ((List.suffix_cons i q).trans hs)
  refine ⟨fun t i hne virt hc hm => inWindow_of_windowPlace hp hc (hentry t i hne virt hm),
    fun a ha virt i hc hm => inWindow_of_windowPlace hp hc (htable a ha virt i hm),
    fun q hq₀ hq hne virt hv => ⟨fun t i hm => ⟨?_, fun ha => ?_⟩, fun a ht ha => ?_⟩⟩
  · by_contra hc
    exact hne ((hentry t i hc virt hm).unique hp (hq.trans_le hl)
      (windowPlace_of_inWindow (hq.trans_le hl) hv)).symm
  · exact hne ((htable t ha virt i hm).unique hp (hq.trans_le hl)
      (windowPlace_of_inWindow (hq.trans_le hl) hv)).symm
  · obtain ⟨q', hq', hw⟩ := hfreed a ha
    rw [h.translate (hkernel hq') (ownedPath_window (hq.trans_le hl) hv),
      Option.map_eq_some_iff] at ht
    obtain ⟨b, hb, he⟩ := ht
    obtain rfl : b = a := by omega
    obtain ⟨-, rfl⟩ := h.lays.inj hq' hb
    exact hne (hw.unique hp (hq.trans_le hl) (windowPlace_of_inWindow (hq.trans_le hl) hv)).symm

end Lookups

/-! ## The limit -/

theorem apart_of_lt {p q r : ℕ} (hp : p < 16384) (hq : q < 16384) (hr : r < 16384) : Apart p q r := by
  refine ⟨?_, ?_, ?_, fun virt => ?_, fun hne virt => ?_⟩
  · simp only [userHeapBase, userHeapStride]
    omega
  · simp only [userMmapBase, userMmapStride]
    omega
  · simp only [kernelStackBase, kernelStackStride]
    omega
  · simp only [InHeap, InMmap, InStack, userHeapBase, userHeapStride, userMmapBase, userMmapStride,
      kernelStackBase, kernelStackStride]
    omega
  · simp only [InHeap, InMmap, InStack, userHeapBase, userHeapStride, userMmapBase, userMmapStride,
      kernelStackBase, kernelStackStride]
    omega

/-- **The windows of the pids below a limit are apart** just if it is at most `16384`. -/
theorem windowsApart_iff (limit : ℕ) : WindowsApart limit ↔ limit ≤ 16384 := by
  constructor
  · rintro ⟨h, -⟩
    by_contra hl
    have hstack := ((h 1 16384 1 (by omega) (by omega) (by omega) (by omega) (by omega)
      (by omega)).kinds 0xFFFFB00000200000).2.2
    refine hstack ⟨?_, ?_⟩
    · simp only [InMmap, userMmapBase, userMmapStride]
      omega
    · simp only [InStack, kernelStackBase, kernelStackStride]
      omega
  · intro hl
    refine ⟨fun p q r _ hp _ hq _ hr => apart_of_lt (hp.trans_le hl) (hq.trans_le hl)
      (hr.trans_le hl), fun boot s hb hs pid _ hpid => ?_⟩
    have hp := hpid.trans_le hl
    obtain ⟨F, h⟩ := sysInv_of_reach hb
      (hs.mono fun s a ha => ⟨ha.1.trans_le hl, ha.2⟩)
    constructor
    · obtain ⟨F', -, hre⟩ := h.inv.reclaimWindowTables hp (fun _ _ _ _ _ _ _ hc => hc.elim)
        fun _ _ _ _ _ _ hc => hc.elim
      exact onlyOwn_of_reclaims h.inv hre
        (fun r q hq => ⟨hq.1, hq.2.elim .inl fun hm => .inr (.inl hm)⟩) hp hl
    · intro hst
      obtain ⟨F', -, hre⟩ := h.inv.reclaimStack hp (h.kernel (h.stacked pid hst)) fun _ _ _ hc =>
        hc.elim
      exact onlyOwn_of_reclaims h.inv hre (fun r q hq => ⟨hq.1, .inr (.inr hq.2)⟩) hp hl

/-- A process with its stack. -/
def oneStack : List MemAct := [.create 1, .createStack 1]

/-- The tables of pid `16384` given back take the stack of process 1 with them. -/
theorem not_windowsApart_oneStack : ¬ WindowsApart (2 ^ 32) := by
  rintro ⟨-, h⟩
  have hrun : (exec memStep memBoot oneStack).map (fun s => (lookups s.mem (stackMappedBase 1)).any
      fun p => (reclaimProcessWindowTables 16384 s.mem).table p.1 p.2 ≠ s.mem.table p.1 p.2) =
        some true := by decide +kernel
  obtain ⟨s, hs, he⟩ := Option.map_eq_some_iff.mp hrun
  obtain ⟨⟨t, i⟩, hm, hne⟩ := List.any_eq_true.mp he
  have hgood : AllGood (OwnAct (2 ^ 32)) memStep memBoot oneStack :=
    ⟨⟨by decide, trivial⟩, fun _ _ => ⟨⟨by decide, trivial⟩, fun _ _ => trivial⟩⟩
  have hown := (h _ s bootOk_bootMemory (reach_of_exec (.start rfl) hgood hs) 16384 (by decide)
    (by decide)).1
  have hsame := (hown.spares 1 (by decide) (by decide) (by decide) (stackMappedBase 1)
    (.inr (.inr (by unfold InStack; decide)))).1 t i hm
  exact (by simpa using hne : _ ≠ _) hsame.1

end Rymos
