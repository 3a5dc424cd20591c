import Mathlib.Tactic
import Rymos.Base.Tables
import Rymos.Mem.Pages
import Rymos.Mem.Windows

/-!
# Where the pages are

The kernel's own part of memory: below its PML4 the tables of the windows, below the private PML4 of
each process the tables of the image window. The boot PML4's own tables are nobody's.

* `OwnedPath`: the places of this part. `Firmware`: the tables of the boot PML4.
* **`MemInv`**: the layout of the owned places, and which pages are in none.
* **`MemInv.alloc`**, **`MemInv.free`**, **`MemInv.plant`**, **`MemInv.prune`**: what can happen to it.
-/

namespace Rymos

open TableTree

def WindowSlot (s : ℕ) : Prop := 288 ≤ s ∧ s ≤ 352

instance (s : ℕ) : Decidable (WindowSlot s) := inferInstanceAs (Decidable (_ ∧ _))

/-- The PD entries of the image window. -/
def ImageSlot (j : ℕ) : Prop := startPdIndex ≤ j ∧ j < endPdIndex

/-- The places of the kernel's PML4 (`none`) and of the private one of a pid, by their indexes. -/
def OwnedShape : Option ℕ → List ℕ → Prop
  | none, [] => True
  | none, [s] => WindowSlot s
  | none, [_, s] => WindowSlot s
  | none, [_, _, s] => WindowSlot s
  | none, [_, _, _, s] => WindowSlot s
  | some _, [] => True
  | some _, [s] => s = 0
  | some _, [i, s] => i = 0 ∧ s = 0
  | some _, [j, i, s] => ImageSlot j ∧ i = 0 ∧ s = 0
  | some _, [_, j, i, s] => ImageSlot j ∧ i = 0 ∧ s = 0
  | _, _ => False

def OwnedPath (r : Option ℕ) (p : List ℕ) : Prop := OwnedShape r p ∧ ∀ i ∈ p, i < pageTableEntries

/-- The tables of the boot PML4. -/
def Firmware (boot : Memory) (t : ℕ) : Prop :=
  ∃ is, is.length ≤ 3 ∧ follow boot.table boot.cr3 is = some t

/-- Where an entry of memory leads. -/
def Memory.next (mem : Memory) (t i : ℕ) : Option ℕ := tableEntryAddress (mem.table t i)

/-- What holds between the calls of the kernel. `hand` are the pages that a call has allocated and not
placed yet, `kept` the pages that are accounted for, `seen` the top-level entries of the windows that
the private PML4 of a pid is known to have. -/
structure MemInv (boot : Memory) (kept : Set ℕ) (seen : ℕ → Set ℕ) (F : Layout (Option ℕ) ℕ ℕ)
    (hand : List ℕ) (mem : Memory) : Prop where
  lays : Lays OwnedPath mem.next F
  small : ∀ {r p i t}, F r p = some t → OwnedPath r (i :: p) → present (mem.table t i) →
    ¬ huge (mem.table t i)
  loose : (mem.allocator.available ++ hand).Nodup
  page : ∀ a ∈ mem.allocator.available ++ hand, IsPage a
  placed : ∀ {r p a}, F r p = some a → IsPage a ∧ a ∉ mem.allocator.available ++ hand
  all : ∀ a ∈ kept, a ∈ mem.allocator.available ++ hand ∨ a ∈ mem.allocator.refused ∨
    ∃ r p, F r p = some a
  firmware : ∀ {t}, Firmware boot t → mem.table t = boot.table t ∧
    t ∉ mem.allocator.available ++ hand ∧ ∀ r p, F r p ≠ some t
  kernel : F none [] = if mem.kernelPml4 = 0 then none else some mem.kernelPml4
  active : mem.kernelPml4 = 0 → mem.cr3 = boot.cr3
  top : ∀ {k i}, F none [] = some k → ¬ WindowSlot i → mem.table k i = boot.table boot.cr3 i
  clone : ∀ {pid t k i}, F (some pid) [] = some t → F none [] = some k → i ≠ 0 →
    mem.table t i = mem.table k i ∨ WindowSlot i ∧ ¬ present (mem.table t i)
  visible : ∀ {pid t s}, F (some pid) [] = some t → s ∈ seen pid →
    WindowSlot s ∧ present (mem.table t s)
  born : ∀ {pid t}, F (some pid) [] = some t → F none [] ≠ none

section OwnedPath

variable {r : Option ℕ} {p : List ℕ} {i : ℕ}

theorem ownedPath_nil (r : Option ℕ) : OwnedPath r [] := by
  refine ⟨?_, nofun⟩
  cases r <;> trivial

theorem OwnedPath.tail (h : OwnedPath r (i :: p)) : OwnedPath r p := by
  refine ⟨?_, fun j hj => h.2 j (List.mem_cons_of_mem _ hj)⟩
  have hs := h.1
  match r, p with
  | none, [] => trivial
  | none, [_] => exact hs
  | none, [_, _] => exact hs
  | none, [_, _, _] => exact hs
  | none, _ :: _ :: _ :: _ :: _ => exact hs.elim
  | some _, [] => trivial
  | some _, [_] => exact hs.2
  | some _, [_, _] => exact hs.2
  | some _, [_, _, _] => exact hs
  | some _, _ :: _ :: _ :: _ :: _ => exact hs.elim

theorem OwnedPath.suffix {q : List ℕ} (h : OwnedPath r q) (hs : p <:+ q) : OwnedPath r p := by
  obtain ⟨q', rfl⟩ := hs
  induction q' with
  | nil => exact h
  | cons j q' ih => exact ih h.tail

theorem OwnedPath.length_le (h : OwnedPath r p) : p.length ≤ 4 := by
  have hs := h.1
  match r, p with
  | _, [] | _, [_] | _, [_, _] | _, [_, _, _] | _, [_, _, _, _] => simp
  | none, _ :: _ :: _ :: _ :: _ :: _ => exact hs.elim
  | some _, _ :: _ :: _ :: _ :: _ :: _ => exact hs.elim

theorem OwnedPath.slot (h : OwnedPath none [i]) : WindowSlot i := h.1

theorem OwnedPath.eq_zero {pid : ℕ} (h : OwnedPath (some pid) [i]) : i = 0 := h.1

end OwnedPath

section Ops

variable {boot mem mem' : Memory} {kept : Set ℕ} {seen : ℕ → Set ℕ}
  {F : Layout (Option ℕ) ℕ ℕ} {hand : List ℕ} {r : Option ℕ} {p : List ℕ} {i t a : ℕ}

theorem next_eq_none (h : ¬ present (mem.table t i)) : mem.next t i = none := by
  rw [Memory.next, tableEntryAddress, if_pos (.inl h)]

/-- An owned entry leads nowhere only if it is not present. -/
theorem MemInv.not_present (h : MemInv boot kept seen F hand mem) (ht : F r p = some t)
    (ho : OwnedPath r (i :: p)) (hn : F r (i :: p) = none) : ¬ present (mem.table t i) := by
  intro hp
  have hc := h.lays.child ht ho
  rw [hn, Memory.next, tableEntryAddress, if_neg (by simp [hp, h.small ht ho hp])] at hc
  cases hc

theorem MemInv.entry (h : MemInv boot kept seen F hand mem) (ht : F r p = some t)
    (ho : OwnedPath r (i :: p)) (ha : F r (i :: p) = some a) : present (mem.table t i) ∧
      ¬ huge (mem.table t i) ∧ pageAddress (mem.table t i) = a :=
  tableEntryAddress_eq_some.mp ((h.lays.child ht ho).trans ha)

/-- Tables that are nowhere may change. -/
theorem MemInv.retable (h : MemInv boot kept seen F hand mem) {table : ℕ → ℕ → ℕ}
    (hF : ∀ {r p t}, F r p = some t → table t = mem.table t)
    (hw : ∀ {t}, Firmware boot t → table t = mem.table t) :
    MemInv boot kept seen F hand { mem with table := table } where
  lays := h.lays.frame fun {r p u j} hu _ => by
    change tableEntryAddress (table u j) = tableEntryAddress (mem.table u j)
    rw [hF hu]
  small {r p i t} ht ho := by
    change Rymos.present (table t i) → ¬ huge (table t i)
    rw [hF ht]
    exact h.small ht ho
  loose := h.loose
  page := h.page
  placed := h.placed
  all := h.all
  firmware ht := ⟨(hw ht).trans (h.firmware ht).1, (h.firmware ht).2⟩
  kernel := h.kernel
  active := h.active
  top {k i} hk hi := by
    change table k i = _
    rw [hF hk]
    exact h.top hk hi
  clone {pid t k i} ht hk hi := by
    change table t i = table k i ∨ WindowSlot i ∧ ¬ Rymos.present (table t i)
    rw [hF ht, hF hk]
    exact h.clone ht hk hi
  visible {pid t s} ht hs := by
    change WindowSlot s ∧ present (table t s)
    rw [hF ht]
    exact h.visible ht hs
  born := h.born

/-- Pages move between the allocator and the hand. -/
theorem MemInv.reallocate (h : MemInv boot kept seen F hand mem) {hand' : List ℕ}
    {allocator : PhysPageAllocator} (hnd : (allocator.available ++ hand').Nodup)
    (hsub : allocator.available ++ hand' ⊆ mem.allocator.available ++ hand)
    (hall : ∀ b ∈ mem.allocator.available ++ hand,
      b ∈ allocator.available ++ hand' ∨ b ∈ allocator.refused)
    (hre : mem.allocator.refused ⊆ allocator.refused) :
    MemInv boot kept seen F hand' { mem with allocator := allocator } where
  lays := h.lays
  small := h.small
  loose := hnd
  page a ha := h.page a (hsub ha)
  placed ha := ⟨(h.placed ha).1, fun hc => (h.placed ha).2 (hsub hc)⟩
  all a ha := by
    rcases h.all a ha with hc | hc | hc
    · exact (hall a hc).imp id .inl
    · exact .inr (.inl (hre hc))
    · exact .inr (.inr hc)
  firmware ht := ⟨(h.firmware ht).1, fun hc => (h.firmware ht).2.1 (hsub hc), (h.firmware ht).2.2⟩
  kernel := h.kernel
  active := h.active
  top := h.top
  clone := h.clone
  visible := h.visible
  born := h.born

/-- **A page allocated**: it is in the hand, and reads zero. -/
theorem MemInv.alloc (h : MemInv boot kept seen F hand mem)
    (ha : allocZeroedPage mem = (some a, mem')) : MemInv boot kept seen F (a :: hand) mem' ∧
      (∀ i, mem'.table a i = 0) ∧ mem.allocator.available = a :: mem'.allocator.available := by
  unfold allocZeroedPage at ha
  split at ha
  · cases ha
  next page allocator hal =>
  cases ha
  obtain ⟨hav, hre⟩ := allocPage_eq_some hal
  have hmem : a ∈ mem.allocator.available ++ hand := by simp [hav]
  have hperm : (allocator.available ++ a :: hand).Perm (mem.allocator.available ++ hand) := by
    rw [hav]
    exact List.perm_middle
  have htab : MemInv boot kept seen F hand
      { mem with table := Function.update mem.table a fun _ => 0 } := by
    refine h.retable (fun {r p t} ht => ?_) fun {t} ht => ?_
    · exact Function.update_of_ne (by rintro rfl; exact (h.placed ht).2 hmem) _ _
    · exact Function.update_of_ne (by rintro rfl; exact (h.firmware ht).2.1 hmem) _ _
  exact ⟨htab.reallocate (hperm.nodup_iff.mpr h.loose) hperm.subset
    (fun b hb => .inl (hperm.mem_iff.mpr hb)) (fun b hb => by rwa [hre]), fun i => by simp, hav⟩

theorem allocZeroedPage_eq_none (ha : allocZeroedPage mem = (none, mem')) :
    mem' = mem ∧ mem.allocator.available = [] := by
  unfold allocZeroedPage at ha
  split at ha
  · next hal =>
    cases ha
    exact ⟨rfl, allocPage_eq_none.mp hal⟩
  · cases ha

/-- A page allocated is the only table that changes. -/
theorem allocZeroedPage_table (ha : allocZeroedPage mem = (some a, mem')) (ht : t ≠ a) :
    mem'.table t = mem.table t := by
  unfold allocZeroedPage at ha
  split at ha
  · cases ha
  · cases ha
    exact Function.update_of_ne ht _ _

/-- **A page handed back.** -/
theorem MemInv.free (h : MemInv boot kept seen F (a :: hand) mem) :
    MemInv boot kept seen F hand (freed a mem) := by
  have hperm : (a :: mem.allocator.available ++ hand).Perm (mem.allocator.available ++ a :: hand) :=
    List.perm_middle.symm
  have hnd := hperm.nodup_iff.mpr h.loose
  rcases freePage_available mem.allocator a with ⟨hav, hre⟩ | ⟨hav, hre⟩
  · rw [← hav] at hperm hnd
    exact h.reallocate hnd hperm.subset (fun b hb => .inl (hperm.mem_iff.mpr hb))
      fun b hb => by rwa [hre]
  · refine h.reallocate ?_ ?_ (fun b hb => ?_) ?_
    · rw [hav]
      exact (List.nodup_cons.mp hnd).2
    · rw [hav]
      exact fun b hb => hperm.mem_iff.mp (List.mem_cons_of_mem _ hb)
    · rw [hav, hre]
      rcases List.mem_cons.mp (hperm.mem_iff.mpr hb) with rfl | hb
      · exact .inr List.mem_cons_self
      · exact .inl hb
    · rw [hre]
      exact List.subset_cons_self _ _

/-- The pages of a list freed one after the other. -/
def freeAll (L : List ℕ) (mem : Memory) : Memory := L.foldl (fun mem a => freed a mem) mem

theorem MemInv.freeAll (L : List ℕ) {mem : Memory} (h : MemInv boot kept seen F (L ++ hand) mem) :
    MemInv boot kept seen F hand (Rymos.freeAll L mem) := by
  induction L generalizing mem with
  | nil => exact h
  | cons a L ih => exact ih h.free

@[simp] theorem freeAll_table (L : List ℕ) (mem : Memory) : (freeAll L mem).table = mem.table := by
  induction L generalizing mem with
  | nil => rfl
  | cons a L ih => exact ih (freed a mem)

@[simp] theorem freeAll_kernelPml4 (L : List ℕ) (mem : Memory) :
    (freeAll L mem).kernelPml4 = mem.kernelPml4 := by
  induction L generalizing mem with
  | nil => rfl
  | cons a L ih => exact ih (freed a mem)

theorem freeAll_singleton (a : ℕ) (mem : Memory) : freeAll [a] mem = freed a mem := rfl

theorem freeAll_append (L L' : List ℕ) (mem : Memory) :
    freeAll (L ++ L') mem = freeAll L' (freeAll L mem) := List.foldl_append

theorem freeAll_write (L : List ℕ) (mem : Memory) (t i e : ℕ) :
    freeAll L (mem.write t i e) = (freeAll L mem).write t i e := by
  induction L generalizing mem with
  | nil => rfl
  | cons a L ih => exact ih (freed a mem)

theorem freeAll_available (L : List ℕ) {mem : Memory}
    (ha : a ∈ (freeAll L mem).allocator.available) : a ∈ mem.allocator.available ∨ a ∈ L := by
  induction L generalizing mem with
  | nil => exact .inl ha
  | cons b L ih =>
    rcases ih ha with hc | hc
    · change a ∈ (mem.allocator.freePage b).2.available at hc
      rcases freePage_available mem.allocator b with ⟨hav, -⟩ | ⟨hav, -⟩
      · rw [hav] at hc
        rcases List.mem_cons.mp hc with rfl | hc
        · exact .inr List.mem_cons_self
        · exact .inl hc
      · rw [hav] at hc
        exact .inl hc
    · exact .inr (List.mem_cons_of_mem _ hc)

/-- An owned entry that is written is not a top-level one of a private PML4, apart from the first. -/
theorem MemInv.private_write (h : MemInv boot kept seen F hand mem) {e pid u j : ℕ}
    (ht : F r p = some t) (ho : OwnedPath r (i :: p)) (hu : F (some pid) [] = some u) (hj : j ≠ 0) :
    (mem.write t i e).table u j = mem.table u j := by
  refine Memory.write_table_of_ne ?_
  rintro ⟨rfl, rfl⟩
  obtain ⟨rfl, rfl⟩ := h.lays.inj ht hu
  exact hj ho.eq_zero

theorem MemInv.clone_write (h : MemInv boot kept seen F hand mem) {e pid u k j : ℕ}
    (ht : F r p = some t) (ho : OwnedPath r (i :: p)) (he : ¬ present (mem.table t i))
    (hu : F (some pid) [] = some u) (hk : F none [] = some k) (hj : j ≠ 0) :
    (mem.write t i e).table u j = (mem.write t i e).table k j ∨
      WindowSlot j ∧ ¬ Rymos.present ((mem.write t i e).table u j) := by
  rw [h.private_write ht ho hu hj]
  by_cases hki : k = t ∧ j = i
  · obtain ⟨rfl, rfl⟩ := hki
    obtain ⟨rfl, rfl⟩ := h.lays.inj ht hk
    refine .inr ⟨ho.slot, ?_⟩
    rcases h.clone hu hk hj with hc | hc
    · rwa [hc]
    · exact hc.2
  · rw [Memory.write_table_of_ne hki]
    exact h.clone hu hk hj

theorem WindowSlot.ne_zero {s : ℕ} (h : WindowSlot s) : s ≠ 0 := by
  unfold WindowSlot at h
  omega

/-- **An entry set** to the page in the hand. -/
theorem MemInv.plant (h : MemInv boot kept seen F (a :: hand) mem) (ht : F r p = some t)
    (ho : OwnedPath r (i :: p)) (hf : F r (i :: p) = none)
    (hz : ∀ j, OwnedPath r (j :: i :: p) → mem.table a j = 0) :
    MemInv boot kept seen (F.plant r (i :: p) a) hand (mem.write t i (pageEntry a presentWritable)) := by
  have hmem : a ∈ mem.allocator.available ++ a :: hand := by simp
  have hfree : ∀ r' p', F r' p' ≠ some a := fun r' p' hc => (h.placed hc).2 hmem
  have hpage : IsPage a := h.page a hmem
  have hat : a ≠ t := by
    rintro rfl
    exact hfree _ _ ht
  have hsub : mem.allocator.available ++ hand ⊆ mem.allocator.available ++ a :: hand :=
    fun b hb => by
      simp only [List.mem_append, List.mem_cons] at hb ⊢
      tauto
  have hnot := h.not_present ht ho hf
  have hroot : ∀ r', F.plant r (i :: p) a r' [] = F r' [] :=
    fun r' => Layout.plant_of_ne fun hc => List.cons_ne_nil _ _ hc.2.symm
  have hwrite : ∀ {u j}, ¬ (u = t ∧ j = i) →
      (mem.write t i (pageEntry a presentWritable)).table u j = mem.table u j :=
    Memory.write_table_of_ne
  refine ⟨h.lays.plant ht ho hf hfree ?_ ?_ ?_, fun {r' q j u} hu hoj => ?_,
    h.loose.sublist (List.Sublist.append_left (List.sublist_cons_self a hand) _),
    fun b hb => h.page b (hsub hb), fun {r' q b} hb => ?_, fun b hb => ?_, fun {u} hu => ?_, ?_,
    h.active, fun {k j} hk hj => ?_, fun {pid u k j} hu hk hj => ?_,
    fun {pid u s} hu hs => ?_, fun {pid u} hu => ?_⟩
  · rw [Memory.next, Memory.write_table_self, hpage.tableEntryAddress_pageEntry]
  · intro j hj
    rw [Memory.next, hwrite fun hc => hat hc.1, hz j hj, tableEntryAddress_zero]
  · intro u j _ hne
    rw [Memory.next, hwrite hne, Memory.next]
  · by_cases hne : u = t ∧ j = i
    · obtain ⟨rfl, rfl⟩ := hne
      rw [Memory.write_table_self]
      exact fun _ => not_huge_pageEntry a
    · rw [hwrite hne]
      obtain ⟨rfl, rfl, rfl⟩ | ⟨-, hu⟩ := Layout.plant_eq_some.mp hu
      · rw [hz j hoj]
        exact fun hc => absurd hc not_present_zero
      · exact h.small hu hoj
  · obtain ⟨-, -, rfl⟩ | ⟨-, hb⟩ := Layout.plant_eq_some.mp hb
    · refine ⟨hpage, fun hc => ?_⟩
      exact (List.nodup_cons.mp (List.perm_middle.nodup_iff.mp h.loose)).1 hc
    · exact ⟨(h.placed hb).1, fun hc => (h.placed hb).2 (hsub hc)⟩
  · by_cases hba : b = a
    · subst hba
      exact .inr (.inr ⟨r, i :: p, Layout.plant_self⟩)
    · rcases h.all b hb with hc | hc | ⟨r', q, hc⟩
      · refine .inl ?_
        simp only [List.mem_append, List.mem_cons] at hc ⊢
        tauto
      · exact .inr (.inl hc)
      · refine .inr (.inr ⟨r', q, ?_⟩)
        rw [Layout.plant_of_ne, hc]
        rintro ⟨rfl, rfl⟩
        rw [hf] at hc
        cases hc
  · obtain ⟨htab, hav, hF⟩ := h.firmware hu
    refine ⟨?_, fun hc => hav (hsub hc), fun r' q hc => ?_⟩
    · rw [← htab]
      exact Function.update_of_ne (by rintro rfl; exact hF _ _ ht) _ _
    · obtain ⟨-, -, rfl⟩ | ⟨-, hc⟩ := Layout.plant_eq_some.mp hc
      · exact hav hmem
      · exact hF _ _ hc
  · rw [hroot]
    exact h.kernel
  · rw [hroot] at hk
    rw [hwrite, h.top hk hj]
    rintro ⟨rfl, rfl⟩
    obtain ⟨rfl, rfl⟩ := h.lays.inj ht hk
    exact hj ho.slot
  · rw [hroot] at hu hk
    exact h.clone_write ht ho hnot hu hk hj
  · rw [hroot] at hu
    obtain ⟨hslot, hp⟩ := h.visible hu hs
    rw [h.private_write ht ho hu hslot.ne_zero]
    exact ⟨hslot, hp⟩
  · rw [hroot] at hu
    rw [hroot]
    exact h.born hu

/-- The pages `L` of a subtree in the hand, its place no longer referred to. -/
theorem MemInv.cut (h : MemInv boot kept seen F hand mem) {table : ℕ → ℕ → ℕ}
    (hp : p = [] ∧ r ≠ none ∨ 2 ≤ p.length)
    (hF : ∀ {r' q u}, F r' q = some u → ¬ (r' = r ∧ p <:+ q) → ∀ j,
      table u j = if r' = r ∧ j :: q = p then 0 else mem.table u j)
    (hw : ∀ {u}, Firmware boot u → table u = mem.table u) {L : List ℕ} (hL : L.Nodup)
    (hmem : ∀ a ∈ L, ∃ q, p <:+ q ∧ F r q = some a)
    (hall : ∀ a ∈ kept, ∀ q, p <:+ q → F r q = some a → a ∈ L) :
    MemInv boot kept seen (F.prune r p) (L ++ hand) { mem with table := table } := by
  have hroot : ∀ {r' k}, F.prune r p r' [] = some k → F r' [] = some k ∧
      ∀ j, table k j = if r' = r ∧ [j] = p then 0 else mem.table k j := fun hk => by
    obtain ⟨hne, hk⟩ := Layout.prune_eq_some.mp hk
    exact ⟨hk, hF hk hne⟩
  have hkernel : F.prune r p none [] = F none [] := by
    rw [Layout.prune, if_neg]
    rintro ⟨rfl, hs⟩
    rw [List.suffix_nil] at hs
    simp [hs] at hp
  have hlow : ∀ j, [j] ≠ p := fun j hj => by
    rcases hp with ⟨hp, -⟩ | hp <;> simp [← hj] at hp
  have hfree : ∀ b ∈ L, b ∉ mem.allocator.available ++ hand := fun b hb => by
    obtain ⟨q, -, hq⟩ := hmem b hb
    exact (h.placed hq).2
  have hmid : (mem.allocator.available ++ (L ++ hand)).Perm
      (L ++ (mem.allocator.available ++ hand)) := by
    rw [← List.append_assoc, ← List.append_assoc]
    exact List.perm_append_comm.append_right hand
  have hnew : ∀ b, b ∈ mem.allocator.available ++ (L ++ hand) ↔
      b ∈ L ∨ b ∈ mem.allocator.available ++ hand := fun b => by
    rw [hmid.mem_iff, List.mem_append]
  refine ⟨h.lays.prune (fun {r' q u j} hu _ hs hne => ?_) (fun {j q u} he hu => ?_),
    fun {r' q j u} hu hoj => ?_, hmid.nodup_iff.mpr (List.nodup_append.mpr
      ⟨hL, h.loose, fun a ha b hb he => hfree a ha (he ▸ hb)⟩), fun b hb => ?_,
    fun {r' q b} hb => ?_, fun b hb => ?_, fun {u} hu => ?_, ?_, h.active, fun {k j} hk hj => ?_,
    fun {pid u k j} hu hk hj => ?_, fun {pid u s} hu hs => ?_, fun {pid u} hu => ?_⟩
  · change tableEntryAddress (table u j) = tableEntryAddress (mem.table u j)
    rw [hF hu hs, if_neg hne]
  · change tableEntryAddress (table u j) = none
    have hs : ¬ (r = r ∧ p <:+ q) := fun hs => by
      have hlen := hs.2.length_le
      rw [he, List.length_cons] at hlen
      omega
    rw [hF hu hs, if_pos ⟨rfl, he.symm⟩, tableEntryAddress_zero]
  · obtain ⟨hs, hu⟩ := Layout.prune_eq_some.mp hu
    change present (table u j) → ¬ huge (table u j)
    rw [hF hu hs]
    split_ifs
    · exact fun hc => absurd hc not_present_zero
    · exact h.small hu hoj
  · rcases (hnew b).mp hb with hb | hb
    · obtain ⟨q, -, hq⟩ := hmem b hb
      exact (h.placed hq).1
    · exact h.page b hb
  · obtain ⟨hne, hb⟩ := Layout.prune_eq_some.mp hb
    refine ⟨(h.placed hb).1, fun hc => ?_⟩
    rcases (hnew b).mp hc with hc | hc
    · obtain ⟨q', hs, hq⟩ := hmem b hc
      obtain ⟨rfl, rfl⟩ := h.lays.inj hq hb
      exact hne ⟨rfl, hs⟩
    · exact (h.placed hb).2 hc
  · rcases h.all b hb with hc | hc | ⟨r', q, hc⟩
    · exact .inl ((hnew b).mpr (.inr hc))
    · exact .inr (.inl hc)
    · by_cases hs : r' = r ∧ p <:+ q
      · obtain ⟨rfl, hs⟩ := hs
        exact .inl ((hnew b).mpr (.inl (hall b hb q hs hc)))
      · exact .inr (.inr ⟨r', q, Layout.prune_eq_some.mpr ⟨hs, hc⟩⟩)
  · obtain ⟨htab, hav, hno⟩ := h.firmware hu
    refine ⟨(hw hu).trans htab, fun hc => ?_, fun r' q hc => hno _ _ (Layout.prune_le hc)⟩
    rcases (hnew u).mp hc with hc | hc
    · obtain ⟨q, -, hq⟩ := hmem u hc
      exact hno _ _ hq
    · exact hav hc
  · exact hkernel.trans h.kernel
  · obtain ⟨hk, htab⟩ := hroot hk
    change table k j = _
    rw [htab, if_neg (fun hc => hlow j hc.2), h.top hk hj]
  · obtain ⟨hu, htab⟩ := hroot hu
    obtain ⟨hk, htab'⟩ := hroot hk
    change table u j = table k j ∨ WindowSlot j ∧ ¬ present (table u j)
    rw [htab, htab', if_neg (fun hc => hlow j hc.2), if_neg (fun hc => hlow j hc.2)]
    exact h.clone hu hk hj
  · obtain ⟨hu, htab⟩ := hroot hu
    change WindowSlot s ∧ present (table u s)
    rw [htab, if_neg (fun hc => hlow s hc.2)]
    exact h.visible hu hs
  · rw [hkernel]
    exact h.born (Layout.prune_le hu)

/-- **A subtree cut off** at an entry below the top level. -/
theorem MemInv.prune (h : MemInv boot kept seen F hand mem) (ht : F r p = some t) (hp : p ≠ [])
    {L : List ℕ} (hL : L.Nodup) (hmem : ∀ a ∈ L, ∃ q, (i :: p) <:+ q ∧ F r q = some a)
    (hall : ∀ a ∈ kept, ∀ q, (i :: p) <:+ q → F r q = some a → a ∈ L) :
    MemInv boot kept seen (F.prune r (i :: p)) (L ++ hand) (mem.write t i 0) := by
  refine h.cut (.inr ?_) (fun {r' q u} hu _ j => ?_) (fun {u} hu => ?_) hL hmem hall
  · obtain ⟨j, q, rfl⟩ := List.exists_cons_of_ne_nil hp
    simp
  · split_ifs with hc
    · obtain ⟨rfl, he⟩ := hc
      cases he
      rw [ht] at hu
      cases hu
      exact Memory.write_table_self ..
    · refine Memory.write_table_of_ne ?_
      rintro ⟨rfl, rfl⟩
      obtain ⟨rfl, rfl⟩ := h.lays.inj hu ht
      exact hc ⟨rfl, rfl⟩
  · refine Function.update_of_ne ?_ _ _
    rintro rfl
    exact (h.firmware hu).2.2 _ _ ht

/-- The places at or below a place. -/
def Below (r : Option ℕ) (p : List ℕ) (r' : Option ℕ) (q : List ℕ) : Prop := r' = r ∧ p <:+ q

/-- What a call does that only takes away what is at places in `P`: the layout without them, entries
changed that led to them, pages freed that were there. -/
structure Reclaims (P : Option ℕ → List ℕ → Prop) (F F' : Layout (Option ℕ) ℕ ℕ)
    (mem mem' : Memory) : Prop where
  cleared : Layout.Cleared P F F'
  touched : ∀ {t i}, mem'.table t i ≠ mem.table t i → ∃ r q, F r q = some t ∧ P r (i :: q)
  freed : ∀ {a}, a ∈ mem'.allocator.available → a ∈ mem.allocator.available ∨
    ∃ r q, F r q = some a ∧ P r q

/-- **A subtree cut off and freed.** -/
theorem MemInv.reclaim (h : MemInv boot kept seen F hand mem) (ht : F r p = some t) (hp : p ≠ [])
    {L : List ℕ} (hL : L.Nodup) (hmem : ∀ a ∈ L, ∃ q, (i :: p) <:+ q ∧ F r q = some a)
    (hall : ∀ a ∈ kept, ∀ q, (i :: p) <:+ q → F r q = some a → a ∈ L) :
    MemInv boot kept seen (F.prune r (i :: p)) hand (Rymos.freeAll L (mem.write t i 0)) ∧
      Reclaims (Below r (i :: p)) F (F.prune r (i :: p)) mem
        (Rymos.freeAll L (mem.write t i 0)) := by
  refine ⟨(h.prune ht hp hL hmem hall).freeAll, fun r' q => ⟨fun hc => if_pos hc, fun hc => if_neg hc⟩,
    fun {u j} hu => ?_, fun {a} ha => ?_⟩
  · rw [freeAll_table] at hu
    by_cases hne : u = t ∧ j = i
    · obtain ⟨rfl, rfl⟩ := hne
      exact ⟨r, p, ht, rfl, List.suffix_rfl⟩
    · exact absurd (Memory.write_table_of_ne hne) hu
  · rcases freeAll_available L ha with hc | hc
    · exact .inl hc
    · obtain ⟨q, hs, hq⟩ := hmem a hc
      exact .inr ⟨r, q, hq, rfl, hs⟩

section Reclaims

variable {P Q : Option ℕ → List ℕ → Prop} {F' F'' : Layout (Option ℕ) ℕ ℕ} {mem'' : Memory}

theorem Reclaims.refl (h : ∀ r p, P r p → F r p = none) : Reclaims P F F mem mem :=
  ⟨fun r p => ⟨h r p, fun _ => rfl⟩, fun hc => absurd rfl hc, fun ha => .inl ha⟩

theorem Reclaims.some (h : Reclaims P F F' mem mem') (ha : F' r p = some a) : F r p = some a := by
  by_cases hP : P r p
  · rw [(h.cleared r p).1 hP] at ha
    cases ha
  · rwa [(h.cleared r p).2 hP] at ha

theorem Reclaims.trans (h : Reclaims P F F' mem mem') (h' : Reclaims Q F' F'' mem' mem'') :
    Reclaims (fun r p => P r p ∨ Q r p) F F'' mem mem'' := by
  refine ⟨h.cleared.trans h'.cleared, fun {u j} hu => ?_, fun {b} hb => ?_⟩
  · by_cases he : mem''.table u j = mem'.table u j
    · obtain ⟨r, q, hq, hP⟩ := h.touched (he ▸ hu)
      exact ⟨r, q, hq, .inl hP⟩
    · obtain ⟨r, q, hq, hQ⟩ := h'.touched he
      exact ⟨r, q, h.some hq, .inr hQ⟩
  · rcases h'.freed hb with hc | ⟨r, q, hq, hQ⟩
    · rcases h.freed hc with hc | ⟨r, q, hq, hP⟩
      · exact .inl hc
      · exact .inr ⟨r, q, hq, .inl hP⟩
    · exact .inr ⟨r, q, h.some hq, .inr hQ⟩

theorem Reclaims.congr (h : Reclaims P F F' mem mem') (hPQ : ∀ r p, P r p ↔ Q r p) :
    Reclaims Q F F' mem mem' := by
  obtain rfl : P = Q := funext fun r => funext fun p => propext (hPQ r p)
  exact h

end Reclaims

/-- **A private PML4 given up** with everything below it. -/
theorem MemInv.drop {pid : ℕ} (h : MemInv boot kept seen F hand mem) {L : List ℕ} (hL : L.Nodup)
    (hmem : ∀ a, a ∈ L ↔ ∃ q, F (some pid) q = some a) :
    MemInv boot kept seen (F.prune (some pid) []) (L ++ hand) mem := by
  refine h.cut (r := some pid) (p := []) (.inl ⟨rfl, Option.some_ne_none pid⟩)
    (fun {r' q u} _ _ j => ?_) (fun _ => rfl) hL (fun a ha => ?_)
    fun a _ q _ hq => (hmem a).mpr ⟨q, hq⟩
  · rw [if_neg fun hc => List.cons_ne_nil _ _ hc.2]
  · obtain ⟨q, hq⟩ := (hmem a).mp ha
    exact ⟨q, List.nil_suffix, hq⟩

end Ops

end Rymos
