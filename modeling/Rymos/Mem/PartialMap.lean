import Mathlib.Tactic
import Rymos.Mem.Walk

/-!
# The partial map of the page tables

* `Accounted`: the pages that the allocator or the tree accounts for.
* `Extends`, **`Tree.ensureTables`**: tables put on a way; no address is translated otherwise.
* **`Tree.mapPage`**, **`Tree.unmapPage`**: one page.
* **`Tree.unmapUser`**, **`Tree.mapUser`**: a range of pages, and what was mapped of it taken back.
* `TreeOk`, `MapLaw`, `UnmapLaw`, `RangeLaw`, **`partialMap`**: what is asked for.
-/

namespace Rymos

open TableTree

/-- The page is available, was refused, or is a table of the tree. -/
def Accounted (F : Layout Unit ℕ ℕ) (mem : Memory) (a : ℕ) : Prop :=
  a ∈ mem.allocator.available ∨ a ∈ mem.allocator.refused ∨ ∃ p, F () p = some a

/-- A page handed back is accounted for. -/
theorem accounted_freed {F : Layout Unit ℕ ℕ} {a b : ℕ} (mem : Memory) :
    Accounted F (freed a mem) b ↔ Accounted F mem b ∨ b = a := by
  rcases freePage_available mem.allocator a with ⟨hav, href⟩ | ⟨hav, href⟩
  · rw [Accounted, Accounted, freed, freePhysPage, hav, href, List.mem_cons]
    tauto
  · rw [Accounted, Accounted, freed, freePhysPage, hav, href, List.mem_cons]
    tauto

/-- Empty tables are added on the way `w`, and nothing else is changed. -/
structure Extends (pml4 : ℕ) (w : List ℕ) (F F' : Layout Unit ℕ ℕ) (mem mem' : Memory) : Prop where
  grows : Layout.Grows (fun _ q => q <:+ w) F F'
  same : ∀ v, translate mem'.table pml4 v = translate mem.table pml4 v
  entries : ∀ {q u j}, F () q = some u → ¬ (j :: q) <:+ w → mem'.table u j = mem.table u j
  accounted : ∀ a, Accounted F' mem' a ↔ Accounted F mem a

section Tables

variable {mem mem' mem'' : Memory} {F F' F'' : Layout Unit ℕ ℕ} {hand : List ℕ}
  {pml4 virt v i j t u a : ℕ} {p q w : List ℕ}

theorem Extends.refl (pml4 : ℕ) (w : List ℕ) (F : Layout Unit ℕ ℕ) (mem : Memory) :
    Extends pml4 w F F mem mem := ⟨.refl _ _, fun _ => rfl, fun _ _ => rfl, fun _ => Iff.rfl⟩

theorem Extends.trans (h : Extends pml4 w F F' mem mem') (h' : Extends pml4 w F' F'' mem' mem'') :
    Extends pml4 w F F'' mem mem'' where
  grows := h.grows.trans h'.grows
  same := fun v => (h'.same v).trans (h.same v)
  entries := fun hu hs => (h'.entries (h.grows.some hu) hs).trans (h.entries hu hs)
  accounted := fun a => (h'.accounted a).trans (h.accounted a)

/-- A place that is not yet a page goes on, on the way to some address. -/
theorem exists_suffix_pathOf (hs : p <:+ pathOf v) (hl : p.length ≤ 3) :
    ∃ j, (j :: p) <:+ pathOf v := by
  obtain ⟨l, hl'⟩ := hs
  have hne : l ≠ [] := fun hc => by
    have hlen := congrArg List.length hl'
    simp [hc, pathOf] at hlen
    omega
  obtain ⟨l', j, rfl⟩ := (List.eq_nil_or_concat l).resolve_left hne
  exact ⟨j, l', by rw [← hl']; simp⟩

/-- **An empty table planted.** -/
theorem Tree.plant_extends (h : Tree pml4 F hand mem) (ht : F () p = some t)
    (ho : TablePlace () (i :: p)) (hw : (i :: p) <:+ w) (hp : ¬ present (mem.table t i))
    (ha : allocZeroedPage mem = (some a, mem')) :
    Tree pml4 (F.plant () (i :: p) a) hand (mem'.write t i (pageEntry a presentWritable)) ∧
      Extends pml4 w F (F.plant () (i :: p) a) mem (mem'.write t i (pageEntry a presentWritable)) := by
  obtain ⟨h₁, hz, hav, href, htab⟩ := h.alloc ha
  have hp₁ : ¬ present (mem'.table t i) := by rwa [htab ht]
  have h₂ := h₁.plant ht ho hp₁ hz
  have hnone : F () (i :: p) = none := (h.lays.child ht ho).symm.trans (if_pos (.inl hp))
  have hself : F.plant () (i :: p) a () (i :: p) = some a := Layout.plant_self
  refine ⟨h₂, Layout.grows_plant (.inl hnone) hw, fun v => ?_, fun {q u j} hu hs => ?_, fun b => ?_⟩
  · by_cases hv : (i :: p) <:+ pathOf v
    · -- there was nothing, and the table is empty
      obtain ⟨j, hj⟩ := exists_suffix_pathOf hv ho.1
      have hzero : ¬ present ((mem'.write t i (pageEntry a presentWritable)).table a j) := by
        rw [Memory.write_table_of_ne fun hc => h₁.apart ht (by simp [hc.1]), hz]
        exact not_present_zero
      rw [h.translate_of_absent ht hv hp, h₂.translate_of_absent hself hj hzero]
    · rw [h₁.translate_write ht hv]
      exact h.translate_congr fun hu _ => congrFun (htab hu) _
  · rw [Memory.write_table_of_ne, htab hu]
    rintro ⟨rfl, rfl⟩
    obtain ⟨-, rfl⟩ := h.lays.inj hu ht
    exact hs hw
  · have hplant : (∃ q, F.plant () (i :: p) a () q = some b) ↔ b = a ∨ ∃ q, F () q = some b := by
      constructor
      · rintro ⟨q, hq⟩
        obtain ⟨-, -, hq⟩ | ⟨-, hq⟩ := Layout.plant_eq_some.mp hq
        · exact .inl hq.symm
        · exact .inr ⟨q, hq⟩
      · rintro (rfl | ⟨q, hq⟩)
        · exact ⟨_, hself⟩
        · refine ⟨q, Layout.plant_eq_some.mpr (.inr ⟨fun hc => ?_, hq⟩)⟩
          rw [hc.2, hnone] at hq
          cases hq
    rw [Accounted, Accounted, hplant, Memory.write_allocator, hav, href, List.mem_cons, or_assoc,
      or_left_comm (a := b ∈ mem.allocator.refused), or_left_comm (a := b ∈ mem'.allocator.available)]

/-- **`ensure_next_table`**: a large page, a table, no page for one, or a new one. -/
theorem Tree.ensureNext (h : Tree pml4 F hand mem) (ht : F () p = some t)
    (ho : TablePlace () (i :: p)) (hw : (i :: p) <:+ w) :
    (ensureNextTable t i mem = (none, mem) ∧ present (mem.table t i) ∧ huge (mem.table t i)) ∨
      (ensureNextTable t i mem = (some (pageAddress (mem.table t i)), mem) ∧ present (mem.table t i) ∧
        ¬ huge (mem.table t i) ∧ F () (i :: p) = some (pageAddress (mem.table t i))) ∨
      (ensureNextTable t i mem = (none, mem) ∧ ¬ present (mem.table t i) ∧
        mem.allocator.available = []) ∨
      ∃ a mem', ensureNextTable t i mem = (some a, mem') ∧ ¬ present (mem.table t i) ∧
        mem.allocator.available.length = mem'.allocator.available.length + 1 ∧
        (∀ j, mem'.table a j = 0) ∧ Tree pml4 (F.plant () (i :: p) a) hand mem' ∧
        Extends pml4 w F (F.plant () (i :: p) a) mem mem' := by
  rw [ensureNextTable]
  by_cases hp : present (mem.table t i)
  · rw [if_pos hp]
    by_cases hh : huge (mem.table t i)
    · rw [if_pos hh]
      exact .inl ⟨rfl, hp, hh⟩
    · rw [if_neg hh]
      refine .inr (.inl ⟨rfl, hp, hh, ?_⟩)
      rw [← h.lays.child ht ho]
      exact if_neg (by tauto)
  rw [if_neg hp]
  rcases ha : allocZeroedPage mem with ⟨_ | a, mem₁⟩
  · obtain ⟨rfl, hav⟩ := allocZeroedPage_eq_none ha
    exact .inr (.inr (.inl ⟨rfl, hp, hav⟩))
  · obtain ⟨h₁, hz, hav, -, -⟩ := h.alloc ha
    obtain ⟨h₂, hext⟩ := h.plant_extends ht ho hw hp ha
    refine .inr (.inr (.inr ⟨a, _, rfl, hp, ?_, fun j => ?_, h₂, hext⟩))
    · rw [hav, List.length_cons, Memory.write_allocator]
    · rw [Memory.write_table_of_ne fun hc => h₁.apart ht (by simp [hc.1]), hz]

/-- **The tables of a way**, if no large page is on it and there are pages for those missing. -/
theorem Tree.ensureTables (is : List ℕ) {p : List ℕ} {t : ℕ} {F : Layout Unit ℕ ℕ} {mem : Memory}
    (h : Tree pml4 F hand mem) (ht : F () p = some t) (ho : TablePlace () (is.reverse ++ p)) :
    ∃ F' r mem', Rymos.ensureTables t is mem = (r, mem') ∧ Tree pml4 F' hand mem' ∧
      Extends pml4 (is.reverse ++ p) F F' mem mem' ∧
      (∀ u, r = some u → F' () (is.reverse ++ p) = some u) ∧
      (r ≠ none ↔ ¬ hugeOn mem.table t is ∧
        missingFrom mem.table t is ≤ mem.allocator.available.length) := by
  induction is generalizing p t F mem with
  | nil =>
    exact ⟨F, some t, mem, rfl, h, .refl _ _ _ _, fun u hu => by cases hu; exact ht,
      iff_of_true (Option.some_ne_none t) ⟨id, Nat.zero_le _⟩⟩
  | cons i is ih =>
    have hrev : (i :: is).reverse ++ p = is.reverse ++ i :: p := by simp
    rw [hrev] at ho ⊢
    have hs : (i :: p) <:+ is.reverse ++ i :: p := List.suffix_append _ _
    rw [Rymos.ensureTables, hugeOn, missingFrom]
    rcases h.ensureNext ht (ho.suffix hs) hs with ⟨he, hp, hh⟩ | ⟨he, hp, hh, hu⟩ | ⟨he, hp, hav⟩ |
      ⟨a, mem₁, he, hp, hav, hz, h₁, hext⟩
    · rw [he]
      exact ⟨F, none, mem, rfl, h, .refl _ _ _ _, fun _ hu => (by cases hu),
        iff_of_false (fun hc => hc rfl) fun hc => hc.1 ⟨hp, .inl hh⟩⟩
    · rw [he, if_pos hp]
      obtain ⟨F', r, mem', he', h', hext', hr, hiff⟩ := ih h hu ho
      refine ⟨F', r, mem', he', h', hext', hr, hiff.trans (and_congr_left fun _ => not_congr ?_)⟩
      rw [and_iff_right hp, or_iff_right hh]
    · rw [he, if_neg hp, hav]
      exact ⟨F, none, mem, rfl, h, .refl _ _ _ _, fun _ hu => (by cases hu),
        iff_of_false (fun hc => hc rfl) fun hc => by simp at hc⟩
    · rw [he, if_neg hp]
      obtain ⟨F', r, mem', he', h', hext', hr, hiff⟩ := ih h₁ Layout.plant_self ho
      refine ⟨F', r, mem', he', h', hext.trans hext', hr, hiff.trans ?_⟩
      rw [missingFrom_zero hz, hav, and_iff_right (not_hugeOn_zero hz is),
        and_iff_right fun hc => hp hc.1]
      omega

end Tables

/-! ## One page -/

/-- The way to an address is not mapped yet, has no large page, and its tables can be had. -/
def CanMap (mem : Memory) (pml4 virt : ℕ) : Prop :=
  translate mem.table pml4 virt = none ∧ ¬ hugeOn mem.table pml4 (tablePath virt) ∧
    CanAlloc (missingFrom mem.table pml4 (tablePath virt)) mem.allocator

/-- The entry of an address in its page table is that of a page. -/
def Leaf (F : Layout Unit ℕ ℕ) (mem : Memory) (virt a : ℕ) : Prop :=
  ∃ t, F () (tableOf virt) = some t ∧ mem.table t (ptIndex virt) = pageEntry a presentWritable

section Pages

variable {mem mem' : Memory} {F F' : Layout Unit ℕ ℕ} {hand : List ℕ} {pml4 virt v t a b phys : ℕ}

theorem pathOf_suffix : (ptIndex virt :: tableOf virt) <:+ pathOf v ↔ pathOf v = pathOf virt :=
  ⟨fun h => (h.eq_of_length rfl).symm, fun h => h ▸ List.suffix_rfl⟩

theorem pathOf_eq_iff : pathOf v = pathOf virt ↔ ptIndex v = ptIndex virt ∧ tableOf v = tableOf virt := by
  rw [pathOf_eq, pathOf_eq, List.cons.injEq]

theorem pageAddress_pageEntry (ha : phys % pageSize = 0) (hb : phys < 2 ^ 52) :
    pageAddress (pageEntry phys presentWritable) = phys := by
  simp only [pageEntry, pageAddress, presentWritable, pageSize] at *
  omega

/-- **What a leaf translates to.** -/
theorem Tree.translate_leaf (h : Tree pml4 F hand mem) (hl : Leaf F mem virt a)
    (ha : a % pageSize = 0) (hb : a < 2 ^ 52) (hv : pathOf v = pathOf virt) :
    translate mem.table pml4 v = some (a + v % pageSize) := by
  obtain ⟨t, ht, he⟩ := hl
  obtain ⟨hi, hp⟩ := pathOf_eq_iff.mp hv
  rw [h.translate_of_table (hp ▸ ht), translatePt, hi, he, if_pos (present_pageEntry a),
    pageAddress_pageEntry ha hb]

theorem bind_eq_none_congr {α β : Type} {o : Option α} {f g : α → Option β}
    (h : ∀ a, f a = none ↔ g a = none) : o.bind f = none ↔ o.bind g = none := by
  cases o with
  | none => exact Iff.rfl
  | some a => exact h a

theorem large_eq_none_congr {c : Prop} [Decidable c] {α : Type} {a b : α} {o o' : Option α}
    (h : o = none ↔ o' = none) :
    (if c then some a else o) = none ↔ (if c then some b else o') = none := by
  by_cases hc : c
  · simp [hc]
  · simp [hc, h]

/-- Whether an address is mapped depends on its page only. -/
theorem translate_eq_none_congr {table : ℕ → ℕ → ℕ} (hv : pathOf v = pathOf virt) :
    translate table pml4 v = none ↔ translate table pml4 virt = none := by
  simp only [pathOf, List.cons.injEq, and_true] at hv
  obtain ⟨h₁, h₂, h₃, h₄⟩ := hv
  have hpt : ∀ pt, translatePt table pt v = none ↔ translatePt table pt virt = none := fun pt => by
    rw [translatePt, translatePt, h₁]
    exact large_eq_none_congr Iff.rfl
  have hpd : ∀ pd, translatePd table pd v = none ↔ translatePd table pd virt = none := fun pd => by
    simp only [translatePd, h₂]
    exact large_eq_none_congr (bind_eq_none_congr hpt)
  have hpdpt : ∀ t, translatePdpt table t v = none ↔ translatePdpt table t virt = none := fun t => by
    simp only [translatePdpt, h₃]
    exact large_eq_none_congr (bind_eq_none_congr hpd)
  rw [translate_eq, translate_eq, h₄]
  exact bind_eq_none_congr hpdpt

/-- **An entry of a page table set** concerns one page. -/
theorem Tree.translate_set (h : Tree pml4 F hand mem) (ht : F () (tableOf virt) = some t)
    (hv : pathOf v ≠ pathOf virt) (e : ℕ) :
    translate (mem.write t (ptIndex virt) e).table pml4 v = translate mem.table pml4 v :=
  h.translate_write ht (mt pathOf_suffix.mp hv) e

/-- **`map_page`.** -/
theorem Tree.mapPage (h : Tree pml4 F hand mem) (hv : virt % pageSize = 0)
    (ha : phys % pageSize = 0) : ∃ F' mem', Tree pml4 F' hand mem' ∧
      (∀ b, Accounted F' mem' b ↔ Accounted F mem b) ∧ Layout.Grows (fun _ q => q <:+ tableOf virt) F F' ∧
      ((Rymos.mapPage pml4 virt phys presentWritable mem = (false, mem') ∧ ¬ CanMap mem pml4 virt ∧
          (∀ {q u j}, F () q = some u → ¬ (j :: q) <:+ tableOf virt →
            mem'.table u j = mem.table u j) ∧
          ∀ v, translate mem'.table pml4 v = translate mem.table pml4 v) ∨
        (Rymos.mapPage pml4 virt phys presentWritable mem = (true, mem') ∧ CanMap mem pml4 virt ∧
          Leaf F' mem' virt phys ∧
          (∀ {q u j}, F () q = some u → ¬ (j :: q) <:+ pathOf virt → mem'.table u j = mem.table u j) ∧
          ∀ v, pathOf v ≠ pathOf virt →
            translate mem'.table pml4 v = translate mem.table pml4 v)) := by
  have hguard : ¬ (pml4 = 0 ∨ virt % pageSize ≠ 0 ∨ phys % pageSize ≠ 0) := by
    have hpos := h.pos
    omega
  obtain ⟨F', r, mem', he, h', hext, hr, hiff⟩ := h.ensureTables (tablePath virt) h.root
    (tablePlace_tableOf virt)
  rw [tablePath_reverse] at hext hr
  rw [Rymos.mapPage, if_neg hguard, he, CanMap, canAlloc_iff]
  rcases r with _ | t
  · refine ⟨F', mem', h', hext.accounted, hext.grows, .inl ⟨rfl, fun hc => ?_, hext.entries, hext.same⟩⟩
    exact hiff.mpr hc.2 rfl
  have ht := hr t rfl
  have hcan := hiff.mp nofun
  have htr : translate mem.table pml4 virt = translatePt mem'.table t virt := by
    rw [← hext.same virt, h'.translate_of_table ht]
  by_cases hp : present (mem'.table t (ptIndex virt))
  · simp only [if_pos hp]
    refine ⟨F', mem', h', hext.accounted, hext.grows, .inl ⟨rfl, fun hc => ?_, hext.entries, hext.same⟩⟩
    have hnone := hc.1
    rw [htr, translatePt, if_pos hp] at hnone
    cases hnone
  · simp only [if_neg hp]
    have hnone : translate mem.table pml4 virt = none := by rw [htr, translatePt, if_neg hp]
    refine ⟨F', _, h'.write ht _, hext.accounted, hext.grows, .inr ⟨rfl, ⟨hnone, hcan⟩,
      ⟨t, ht, Memory.write_table_self ..⟩, fun {q u j} hu hs => ?_, fun v hne => ?_⟩⟩
    · rw [Memory.write_table_of_ne, hext.entries hu fun hc => hs (hc.trans (List.suffix_cons _ _))]
      rintro ⟨rfl, rfl⟩
      obtain ⟨-, rfl⟩ := h'.lays.inj (hext.grows.some hu) ht
      exact hs List.suffix_rfl
    · rw [h'.translate_set ht hne, hext.same]

/-- **`unmap_page`**: not a page mapped by a page table, or its entry is cleared. -/
theorem Tree.unmapPage (h : Tree pml4 F hand mem) (hv : virt % pageSize = 0) :
    (Rymos.unmapPage pml4 virt mem = (none, mem) ∧
        (translate mem.table pml4 virt = none ∨ hugeOn mem.table pml4 (tablePath virt))) ∨
      ∃ t, F () (tableOf virt) = some t ∧ present (mem.table t (ptIndex virt)) ∧
        Rymos.unmapPage pml4 virt mem =
          (some (pageAddress (mem.table t (ptIndex virt))), mem.write t (ptIndex virt) 0) := by
  have hguard : ¬ (pml4 = 0 ∨ virt % pageSize ≠ 0) := by
    have hpos := h.pos
    omega
  rw [Rymos.unmapPage, if_neg hguard, h.pageTableOf_eq]
  rcases ht : F () (tableOf virt) with _ | t
  · refine .inl ⟨rfl, ?_⟩
    by_cases hh : hugeOn mem.table pml4 (tablePath virt)
    · exact .inr hh
    · exact .inl (h.translate_of_none ht hh)
  by_cases hp : present (mem.table t (ptIndex virt))
  · exact .inr ⟨t, rfl, hp, if_neg (not_not_intro hp)⟩
  · refine .inl ⟨if_pos hp, .inl ?_⟩
    rw [h.translate_of_table ht, translatePt, if_neg hp]

/-- **An entry cleared.** -/
theorem Tree.translate_clear (h : Tree pml4 F hand mem) (ht : F () (tableOf virt) = some t)
    (hv : pathOf v = pathOf virt) :
    translate (mem.write t (ptIndex virt) 0).table pml4 v = none := by
  obtain ⟨hi, hp⟩ := pathOf_eq_iff.mp hv
  rw [(h.write ht 0).translate_of_table (hp ▸ ht), translatePt, hi, Memory.write_table_self,
    if_neg not_present_zero]

end Pages

/-! ## Ranges of pages -/

/-- The pages of a list are at the addresses of the pages `index` on from `base`. -/
def Leaves (F : Layout Unit ℕ ℕ) (mem : Memory) (base : ℕ) : ℕ → List ℕ → Prop
  | _, [] => True
  | index, a :: ds => Leaf F mem (pageVirt base index) a ∧ Leaves F mem base (index + 1) ds

/-- An address of the pages `index` to `index + n` from `base` on, as far as tables tell addresses apart. -/
def OnPages (base index n v : ℕ) : Prop :=
  ∃ k, index ≤ k ∧ k < index + n ∧ pathOf v = pathOf (pageVirt base k)

section Ranges

variable {mem mem' mem₀ : Memory} {F F' F₀ : Layout Unit ℕ ℕ} {hand ds : List ℕ}
  {pml4 base index n virt v t a d : ℕ}

theorem onPages_succ : OnPages base index (n + 1) v ↔
    pathOf v = pathOf (pageVirt base index) ∨ OnPages base (index + 1) n v := by
  constructor
  · rintro ⟨k, hk, hk', hv⟩
    rcases hk.eq_or_lt with rfl | hlt
    · exact .inl hv
    · exact .inr ⟨k, hlt, by omega, hv⟩
  · rintro (hv | ⟨k, hk, hk', hv⟩)
    · exact ⟨index, le_rfl, by omega, hv⟩
    · exact ⟨k, by omega, by omega, hv⟩

theorem onPages_append : OnPages base 0 (n + 1) v ↔
    OnPages base 0 n v ∨ pathOf v = pathOf (pageVirt base n) := by
  constructor
  · rintro ⟨k, hk, hk', hv⟩
    rcases (Nat.lt_succ_iff.mp (by omega : k < n + 1)).eq_or_lt with rfl | hlt
    · exact .inr hv
    · exact .inl ⟨k, hk, by omega, hv⟩
  · rintro (⟨k, hk, hk', hv⟩ | hv)
    · exact ⟨k, hk, by omega, hv⟩
    · exact ⟨n, Nat.zero_le _, by omega, hv⟩

theorem Leaves.mono (h : Leaves F mem base index ds)
    (hl : ∀ {virt a}, a ∈ ds → Leaf F mem virt a → Leaf F' mem' virt a) :
    Leaves F' mem' base index ds := by
  induction ds generalizing index with
  | nil => trivial
  | cons a ds ih =>
    exact ⟨hl List.mem_cons_self h.1, ih h.2 fun ha => hl (List.mem_cons_of_mem _ ha)⟩

theorem leaves_append (ds : List ℕ) {index : ℕ} : Leaves F mem base index (ds ++ [a]) ↔
    Leaves F mem base index ds ∧ Leaf F mem (pageVirt base (index + ds.length)) a := by
  induction ds generalizing index with
  | nil => simp [Leaves]
  | cons d ds ih =>
    have hlen : index + 1 + ds.length = index + (d :: ds).length := by
      rw [List.length_cons]
      omega
    rw [List.cons_append, Leaves, Leaves, ih, hlen, and_assoc]

theorem Leaves.leaf (h : Leaves F mem base index ds) {k : ℕ} (hk : ds[k]? = some a) :
    Leaf F mem (pageVirt base (index + k)) a := by
  induction ds generalizing index k with
  | nil => cases hk
  | cons d ds ih =>
    cases k with
    | zero =>
      cases hk
      exact h.1
    | succ k =>
      rw [show index + (k + 1) = index + 1 + k by omega]
      exact ih h.2 hk

/-- A leaf is where another page's entry is not. -/
theorem Leaf.write (h : Leaf F mem v d) (ha : mem.table t (ptIndex virt) = pageEntry a presentWritable)
    (hd : IsPage d) (hp : IsPage a) (hne : d ≠ a) (e : ℕ) :
    Leaf F (mem.write t (ptIndex virt) e) v d := by
  obtain ⟨u, hu, he⟩ := h
  refine ⟨u, hu, ?_⟩
  rw [Memory.write_table_of_ne, he]
  rintro ⟨rfl, hi⟩
  rw [hi, ha] at he
  have hadd := congrArg pageAddress he
  rw [hp.pageAddress_pageEntry, hd.pageAddress_pageEntry] at hadd
  exact hne hadd.symm

/-- **`unmap_user_pages`** of pages that are mapped: each one is handed back. -/
theorem Tree.unmapUser (hb : base % pageSize = 0) (ds : List ℕ) {index : ℕ} {mem : Memory}
    (h : Tree pml4 F (ds ++ hand) mem) (hl : Leaves F mem base index ds) :
    Tree pml4 F hand (unmapUserPagesFrom pml4 base index ds.length mem).2 ∧
      (∀ b, Accounted F (unmapUserPagesFrom pml4 base index ds.length mem).2 b ↔ Accounted F mem b ∨ b ∈ ds) ∧
      ∀ v, (OnPages base index ds.length v →
          translate (unmapUserPagesFrom pml4 base index ds.length mem).2.table pml4 v = none) ∧
        (¬ OnPages base index ds.length v →
          translate (unmapUserPagesFrom pml4 base index ds.length mem).2.table pml4 v =
            translate mem.table pml4 v) := by
  induction ds generalizing index mem with
  | nil =>
    refine ⟨h, fun b => ?_, fun v => ⟨?_, fun _ => rfl⟩⟩
    · rw [or_iff_left List.not_mem_nil]
      exact Iff.rfl
    · rintro ⟨k, hk, hk', -⟩
      rw [List.length_nil] at hk'
      omega
  | cons a ds ih =>
    obtain ⟨⟨t, ht, he⟩, hl⟩ := hl
    have hpage : ∀ d ∈ a :: ds, IsPage d := fun d hd =>
      h.page d (List.mem_append_right _ (List.mem_append_left _ hd))
    have hnd : (a :: ds).Nodup :=
      (List.nodup_append.mp (List.nodup_append.mp h.loose).2.1).1
    have ha := hpage a List.mem_cons_self
    have hun : Rymos.unmapPage pml4 (pageVirt base index) mem =
        (some a, mem.write t (ptIndex (pageVirt base index)) 0) := by
      have hpr : present (mem.table t (ptIndex (pageVirt base index))) := he ▸ present_pageEntry a
      rcases h.unmapPage (pageVirt_mod hb index) with ⟨-, hc⟩ | ⟨t', ht', -, hu⟩
      · have htr := h.translate_leaf ⟨t, ht, he⟩ ha.1 ha.2.2 rfl
        rcases hc with hc | hc
        · cases htr.symm.trans hc
        · exact absurd hc (h.not_hugeOn ht)
      · obtain rfl : t = t' := Option.some.inj (ht.symm.trans ht')
        rw [hu, he, ha.pageAddress_pageEntry]
    have h₁ : Tree pml4 F (ds ++ hand) (freed a (mem.write t (ptIndex (pageVirt base index)) 0)) :=
      (h.write ht 0).free
    have hl₁ : Leaves F (freed a (mem.write t (ptIndex (pageVirt base index)) 0)) base (index + 1) ds :=
      hl.mono fun {virt d} hd hleaf => hleaf.write he (hpage d (List.mem_cons_of_mem _ hd)) ha
        (fun hc => (List.nodup_cons.mp hnd).1 (hc ▸ hd)) 0
    obtain ⟨h', hacc, htr⟩ := ih h₁ hl₁
    rw [List.length_cons, unmapUserPagesFrom, hun]
    simp only [ha.2.1.ne', if_false]
    refine ⟨h', fun b => ?_, fun v => ⟨fun hv => ?_, fun hv => ?_⟩⟩
    · rw [hacc, accounted_freed, List.mem_cons, or_assoc]
      exact Iff.rfl
    · by_cases hrest : OnPages base (index + 1) ds.length v
      · exact (htr v).1 hrest
      · rw [(htr v).2 hrest]
        exact h.translate_clear ht ((onPages_succ.mp hv).resolve_right hrest)
    · have hne := fun hc => hv (onPages_succ.mpr hc)
      rw [(htr v).2 fun hc => hne (.inr hc)]
      exact h.translate_set ht (fun hc => hne (.inl hc)) 0

/-- The first pages of a range are mapped, where nothing was before. -/
structure RangeSoFar (pml4 base index : ℕ) (F₀ : Layout Unit ℕ ℕ) (mem₀ : Memory)
    (F : Layout Unit ℕ ℕ) (mem : Memory) (ds : List ℕ) : Prop where
  tree : Tree pml4 F (ds ++ []) mem
  length : ds.length = index
  leaves : Leaves F mem base 0 ds
  fresh : ∀ v, OnPages base 0 index v → translate mem₀.table pml4 v = none
  same : ∀ v, ¬ OnPages base 0 index v →
    translate mem.table pml4 v = translate mem₀.table pml4 v
  accounted : ∀ b, Accounted F mem b ∨ b ∈ ds ↔ Accounted F₀ mem₀ b

theorem RangeSoFar.start (h : Tree pml4 F [] mem) (base : ℕ) :
    RangeSoFar pml4 base 0 F mem F mem [] where
  tree := h
  length := rfl
  leaves := trivial
  fresh := by
    rintro v ⟨k, -, hk, -⟩
    omega
  same := fun _ _ => rfl
  accounted := fun _ => or_iff_left List.not_mem_nil

/-- **What was mapped is taken back.** -/
theorem RangeSoFar.back (h : RangeSoFar pml4 base index F₀ mem₀ F mem ds) (hb : base % pageSize = 0) :
    Tree pml4 F [] (unmapUserPages pml4 base index mem).2 ∧
      (∀ v, translate (unmapUserPages pml4 base index mem).2.table pml4 v =
        translate mem₀.table pml4 v) ∧
      ∀ b, Accounted F (unmapUserPages pml4 base index mem).2 b ↔ Accounted F₀ mem₀ b := by
  obtain ⟨htree, hacc, htr⟩ := h.tree.unmapUser hb ds h.leaves
  rw [h.length] at htree hacc htr
  refine ⟨htree, fun v => ?_, fun b => (hacc b).trans (h.accounted b)⟩
  by_cases hv : OnPages base 0 index v
  · exact ((htr v).1 hv).trans (h.fresh v hv).symm
  · exact ((htr v).2 hv).trans (h.same v hv)

/-- A page in the hand, before its entry is set. -/
theorem RangeSoFar.alloc (h : RangeSoFar pml4 base index F₀ mem₀ F mem ds)
    (ha : allocZeroedPage mem = (some a, mem')) : Tree pml4 F (a :: ds ++ []) mem' ∧
      Leaves F mem' base 0 ds ∧ (∀ v, translate mem'.table pml4 v = translate mem.table pml4 v) ∧
      ∀ b, Accounted F mem' b ∨ b = a ↔ Accounted F mem b := by
  obtain ⟨h₁, -, hav, href, htab⟩ := h.tree.alloc ha
  refine ⟨h₁, h.leaves.mono ?_, fun v => h.tree.translate_congr fun hu _ => congrFun (htab hu) _,
    fun b => ?_⟩
  · rintro virt d - ⟨t, ht, he⟩
    exact ⟨t, ht, (congrFun (htab ht) _).trans he⟩
  · rw [Accounted, Accounted, hav, href, List.mem_cons]
    tauto

/-- **One page more, or all taken back.** -/
theorem RangeSoFar.step (h : RangeSoFar pml4 base index F₀ mem₀ F mem ds) (hb : base % pageSize = 0)
    (ha : allocZeroedPage mem = (some a, mem')) : ∃ F' mem'',
      (mapPage pml4 (pageVirt base index) a presentWritable mem' = (false, mem'') ∧
        RangeSoFar pml4 base index F₀ mem₀ F' (freed a mem'') ds) ∨
      (mapPage pml4 (pageVirt base index) a presentWritable mem' = (true, mem'') ∧
        RangeSoFar pml4 base (index + 1) F₀ mem₀ F' mem'' (ds ++ [a])) := by
  obtain ⟨h₁, hl₁, hsame₁, hacc₁⟩ := h.alloc ha
  have hpage : IsPage a := h₁.page a (by simp)
  obtain ⟨F', mem'', h₂, hacc₂, hg, hres⟩ := h₁.mapPage (pageVirt_mod hb index) hpage.1
  refine ⟨F', mem'', ?_⟩
  rcases hres with ⟨hm, -, hent, hsame⟩ | ⟨hm, hcan, hleaf, hent, hsame⟩
  · refine .inl ⟨hm, h₂.free, h.length, ?_, h.fresh, fun v hv => ?_, fun b => ?_⟩
    · -- a leaf is not on the way to a table
      refine hl₁.mono fun {virt d} _ ⟨t, ht, he⟩ => ⟨t, hg.some ht, (hent ht fun hc => ?_).trans he⟩
      have hlen := hc.length_le
      simp [tableOf] at hlen
    · exact ((hsame v).trans (hsame₁ v)).trans (h.same v hv)
    · rw [← h.accounted b, ← hacc₁ b, ← hacc₂ b, accounted_freed]
  · -- the address is not one of those that are mapped already
    have hother : ∀ {virt d}, d ∈ ds → Leaf F mem' virt d →
        pathOf (pageVirt base index) ≠ pathOf virt := by
      intro virt d hd hleaf' hc
      have hd' : IsPage d := h₁.page d (by simp [hd])
      cases (h₁.translate_leaf hleaf' hd'.1 hd'.2.2 hc).symm.trans hcan.1
    have hfresh : ∀ {v}, pathOf v = pathOf (pageVirt base index) →
        translate mem₀.table pml4 v = none := by
      intro v hv
      rw [← h.same v, ← hsame₁ v]
      · exact (translate_eq_none_congr hv).mpr hcan.1
      · rintro ⟨k, -, hk, hvk⟩
        obtain ⟨d, hd⟩ : ∃ d, ds[k]? = some d :=
          ⟨_, List.getElem?_eq_getElem (by rw [h.length]; omega)⟩
        have hleaf' := hl₁.leaf hd
        rw [Nat.zero_add] at hleaf'
        exact hother (List.mem_of_getElem? hd) hleaf' (hv.symm.trans hvk)
    refine .inr ⟨hm, h₂.perm ?_, ?_, ?_, fun v hv => ?_, fun v hv => ?_, fun b => ?_⟩
    · simpa using (List.perm_append_singleton a ds).symm
    · rw [List.length_append, h.length, List.length_singleton]
    · rw [leaves_append, Nat.zero_add, h.length]
      refine ⟨hl₁.mono fun {virt d} hd hleaf' => ?_, hleaf⟩
      have hne := hother hd hleaf'
      obtain ⟨t, ht, he⟩ := hleaf'
      exact ⟨t, hg.some ht, (hent ht (mt pathOf_suffix.mp hne)).trans he⟩
    · rcases onPages_append.mp hv with hv | hv
      · exact h.fresh v hv
      · exact hfresh hv
    · have hne := fun hc => hv (onPages_append.mpr hc)
      rw [hsame v fun hc => hne (.inr hc), hsame₁ v, h.same v fun hc => hne (.inl hc)]
    · rw [← h.accounted b, ← hacc₁ b, ← hacc₂ b, List.mem_append, List.mem_singleton]
      tauto

/-- **`map_user_pages`**: all pages of the range, or nothing. -/
theorem RangeSoFar.mapUser (hb : base % pageSize = 0) (n : ℕ) {index : ℕ} {mem : Memory}
    {F : Layout Unit ℕ ℕ} {ds : List ℕ} (h : RangeSoFar pml4 base index F₀ mem₀ F mem ds) :
    ∃ F' mem', (mapUserPagesFrom pml4 base index n mem = (false, mem') ∧ Tree pml4 F' [] mem' ∧
        (∀ v, translate mem'.table pml4 v = translate mem₀.table pml4 v) ∧
        ∀ b, Accounted F' mem' b ↔ Accounted F₀ mem₀ b) ∨
      (mapUserPagesFrom pml4 base index n mem = (true, mem') ∧
        ∃ ds', RangeSoFar pml4 base (index + n) F₀ mem₀ F' mem' ds') := by
  induction n generalizing index mem F ds with
  | zero => exact ⟨F, mem, .inr ⟨rfl, ds, h⟩⟩
  | succ n ih =>
    rw [mapUserPagesFrom]
    rcases ha : allocZeroedPage mem with ⟨_ | a, mem₁⟩
    · obtain ⟨rfl, -⟩ := allocZeroedPage_eq_none ha
      exact ⟨F, _, .inl ⟨rfl, h.back hb⟩⟩
    obtain ⟨F₁, mem₂, ⟨hm, h₁⟩ | ⟨hm, h₁⟩⟩ := h.step hb ha
    · simp only [hm]
      exact ⟨F₁, _, .inl ⟨rfl, h₁.back hb⟩⟩
    · simp only [hm]
      rw [show index + (n + 1) = index + 1 + n by omega]
      exact ih h₁

end Ranges

/-! ## What is asked for -/

/-- A way from the PML4 to a table. -/
def IsWay (p : List ℕ) : Prop := p.length ≤ 3 ∧ ∀ i ∈ p, i < pageTableEntries

/-- The tables reached from a PML4 are a tree: no table is shared by two entries, and none is a page of the
allocator, which has distinct pages. -/
structure TreeOk (pml4 : ℕ) (mem : Memory) : Prop where
  root : 0 < pml4 ∧ pml4 % pageSize = 0
  once : ∀ {p q t}, IsWay p → IsWay q → follow mem.table pml4 p = some t →
    follow mem.table pml4 q = some t → p = q
  apart : ∀ {p t}, IsWay p → follow mem.table pml4 p = some t → t ∉ mem.allocator.available
  distinct : mem.allocator.available.Nodup
  pages : ∀ a ∈ mem.allocator.available, IsPage a

/-- The pages in use for data: not available, not handed back, and no tables. -/
def heldData (pml4 : ℕ) (mem : Memory) : Set ℕ :=
  {a | a ∉ mem.allocator.available ∧ a ∉ mem.allocator.refused ∧
    ∀ p, IsWay p → follow mem.table pml4 p ≠ some a}

/-- `map_page` of a page with the flags that every caller passes. -/
structure MapLaw (mem : Memory) (pml4 virt phys : ℕ) (r : Bool × Memory) : Prop where
  succeeds : r.1 = true ↔ CanMap mem pml4 virt
  here : r.1 = true → ∀ v, pathOf v = pathOf virt →
    translate r.2.table pml4 v = some (phys + v % pageSize)
  elsewhere : r.1 = true → ∀ v, pathOf v ≠ pathOf virt →
    translate r.2.table pml4 v = translate mem.table pml4 v
  failed : r.1 = false → ∀ v, translate r.2.table pml4 v = translate mem.table pml4 v
  tree : TreeOk pml4 r.2

structure UnmapLaw (mem : Memory) (pml4 virt : ℕ) (r : Option ℕ × Memory) : Prop where
  returns : ∀ phys, r.1 = some phys ↔
    translate mem.table pml4 virt = some phys ∧ ¬ hugeOn mem.table pml4 (tablePath virt)
  here : r.1 ≠ none → ∀ v, pathOf v = pathOf virt → translate r.2.table pml4 v = none
  elsewhere : ∀ v, pathOf v ≠ pathOf virt →
    translate r.2.table pml4 v = translate mem.table pml4 v
  nothing : r.1 = none → r.2 = mem
  allocator : r.2.allocator = mem.allocator
  tree : TreeOk pml4 r.2

/-- `map_user_pages` maps all pages of the range to pages of their own, or nothing. -/
structure RangeLaw (mem : Memory) (pml4 base n : ℕ) (r : Bool × Memory) : Prop where
  mapped : r.1 = true → ∃ ds : List ℕ, ds.length = n ∧ ds.Nodup ∧
    (∀ k a, ds[k]? = some a → translate r.2.table pml4 (pageVirt base k) = some a) ∧
    ∀ v, ¬ OnPages base 0 n v → translate r.2.table pml4 v = translate mem.table pml4 v
  failed : r.1 = false → (∀ v, translate r.2.table pml4 v = translate mem.table pml4 v) ∧
    heldData pml4 r.2 = heldData pml4 mem
  tree : TreeOk pml4 r.2

section Law

variable {mem : Memory} {F : Layout Unit ℕ ℕ} {pml4 virt phys base a : ℕ} {p q : List ℕ}

theorem isWay_reverse : IsWay p.reverse ↔ TablePlace () p := by
  simp only [IsWay, TablePlace, List.length_reverse, List.mem_reverse]

theorem follow_concat (table : ℕ → ℕ → ℕ) (t i : ℕ) (is : List ℕ) : follow table t (is ++ [i]) =
    (follow table t is).bind fun u => tableEntryAddress (table u i) := by
  induction is generalizing t with
  | nil => simp [follow]
  | cons j is ih => simp only [List.cons_append, follow, ih, Option.bind_assoc]

instance (r : Unit) (p : List ℕ) : Decidable (TablePlace r p) := inferInstanceAs (Decidable (_ ∧ _))

/-- The tables as they are reached from the PML4. -/
def tablesOf (pml4 : ℕ) (mem : Memory) : Layout Unit ℕ ℕ := fun r p =>
  if TablePlace r p then follow mem.table pml4 p.reverse else none

theorem TreeOk.tree (h : TreeOk pml4 mem) : Tree pml4 (tablesOf pml4 mem) [] mem := by
  have hof : ∀ {p t}, tablesOf pml4 mem () p = some t →
      TablePlace () p ∧ follow mem.table pml4 p.reverse = some t := fun {p t} ht => by
    rw [tablesOf] at ht
    split_ifs at ht with hp
    exact ⟨hp, ht⟩
  refine { lays := ⟨fun ht => (hof ht).1, fun {r i p t} ht => ?_, fun {r i p t} ht ho => ?_,
             fun {r p r' q t} ht hq => ⟨rfl, ?_⟩⟩, root := rfl, pos := h.root.1, apart := fun ht hc => ?_,
           loose := ?_, page := ?_ }
  · obtain ⟨ho, ht⟩ := hof ht
    rw [List.reverse_cons, follow_concat] at ht
    obtain ⟨u, hu, -⟩ := Option.bind_eq_some_iff.mp ht
    exact ⟨u, (if_pos (ho.suffix (List.suffix_cons _ _))).trans hu⟩
  · obtain ⟨-, ht⟩ := hof ht
    rw [tablesOf, if_pos ho, List.reverse_cons, follow_concat, ht]
    rfl
  · obtain ⟨hp, ht⟩ := hof ht
    obtain ⟨hq', hq⟩ := hof hq
    exact List.reverse_injective (h.once (isWay_reverse.mpr hp) (isWay_reverse.mpr hq') ht hq)
  · obtain ⟨hp, ht⟩ := hof ht
    rw [List.append_nil] at hc
    exact h.apart (isWay_reverse.mpr hp) ht hc
  · rw [List.append_nil]
    exact h.distinct
  · rw [List.append_nil]
    exact h.pages

theorem Tree.follow_way (h : Tree pml4 F [] mem) (hp : IsWay p) :
    Rymos.follow mem.table pml4 p = F () p.reverse := by
  have ho : TablePlace () (p.reverse ++ []) := by
    rw [List.append_nil, ← isWay_reverse, List.reverse_reverse]
    exact hp
  rw [h.follow p h.root ho, List.append_nil]

/-- A page allocated and handed back at once. -/
theorem Tree.alloc_free {mem' : Memory} (h : Tree pml4 F [] mem)
    (ha : allocZeroedPage mem = (some a, mem')) : Tree pml4 F [] (freed a mem') ∧
      (∀ v, translate (freed a mem').table pml4 v = translate mem.table pml4 v) ∧
      ∀ b, Accounted F (freed a mem') b ↔ Accounted F mem b := by
  obtain ⟨h₁, -, hav, href, htab⟩ := h.alloc ha
  refine ⟨h₁.free, fun v => h.translate_congr fun hu _ => congrFun (htab hu) _, fun b => ?_⟩
  rw [accounted_freed, Accounted, Accounted, hav, href, List.mem_cons]
  tauto

/-- The pages in the hand put to use. -/
theorem Tree.drop {hand : List ℕ} (h : Tree pml4 F hand mem) : Tree pml4 F [] mem where
  lays := h.lays
  root := h.root
  pos := h.pos
  apart := fun ht hc => h.apart ht (by simpa using Or.inl hc)
  loose := by simpa using (List.nodup_append.mp h.loose).1
  page := fun a ha => h.page a (by simpa using Or.inl ha)

theorem Tree.treeOk (h : Tree pml4 F [] mem) (hr : pml4 % pageSize = 0) : TreeOk pml4 mem where
  root := ⟨h.pos, hr⟩
  once := fun hp hq ht ht' => by
    rw [h.follow_way hp] at ht
    rw [h.follow_way hq] at ht'
    exact List.reverse_injective (h.lays.inj ht ht').2
  apart := fun hp ht hc => by
    rw [h.follow_way hp] at ht
    exact h.apart ht (List.mem_append_left _ hc)
  distinct := (List.nodup_append.mp h.loose).1
  pages := fun a ha => h.page a (List.mem_append_left _ ha)

theorem Tree.mem_heldData (h : Tree pml4 F [] mem) : a ∈ heldData pml4 mem ↔ ¬ Accounted F mem a := by
  have htable : (∀ p, IsWay p → Rymos.follow mem.table pml4 p ≠ some a) ↔
      ¬ ∃ p, F () p = some a := by
    constructor
    · rintro hn ⟨p, hp⟩
      have hw : IsWay p.reverse := isWay_reverse.mpr (h.lays.owned hp)
      refine hn p.reverse hw ?_
      rw [h.follow_way hw, List.reverse_reverse, hp]
    · intro hn p hw hc
      exact hn ⟨p.reverse, (h.follow_way hw).symm.trans hc⟩
  rw [heldData, Set.mem_ofPred_eq, htable, Accounted]
  tauto

theorem TreeOk.mapLaw (h : TreeOk pml4 mem) (hv : virt % pageSize = 0) (ha : phys % pageSize = 0)
    (hb : phys < 2 ^ 52) : MapLaw mem pml4 virt phys (mapPage pml4 virt phys presentWritable mem) := by
  obtain ⟨F', mem', h', -, -, ⟨hm, hcan, -, hsame⟩ | ⟨hm, hcan, hleaf, -, hsame⟩⟩ :=
    h.tree.mapPage hv ha
  · rw [hm]
    exact ⟨iff_of_false nofun hcan, nofun, nofun, fun _ => hsame, h'.treeOk h.root.2⟩
  · rw [hm]
    exact ⟨iff_of_true rfl hcan, fun _ v hv => h'.translate_leaf hleaf ha hb hv, fun _ => hsame, nofun,
      h'.treeOk h.root.2⟩

theorem TreeOk.unmapLaw (h : TreeOk pml4 mem) (hv : virt % pageSize = 0) :
    UnmapLaw mem pml4 virt (unmapPage pml4 virt mem) := by
  rcases h.tree.unmapPage hv with ⟨hu, hn⟩ | ⟨t, ht, hp, hu⟩
  · rw [hu]
    refine ⟨fun phys => iff_of_false (fun he => by cases he) ?_, fun hc => absurd rfl hc, fun _ _ => rfl, fun _ => rfl,
      rfl, h⟩
    rintro ⟨htr, hh⟩
    rcases hn with hn | hn
    · cases htr.symm.trans hn
    · exact hh hn
  · rw [hu]
    have htr : translate mem.table pml4 virt = some (pageAddress (mem.table t (ptIndex virt))) := by
      rw [h.tree.translate_of_table ht, translatePt, if_pos hp, hv, Nat.add_zero]
    refine ⟨fun phys => ?_, fun _ v hv => h.tree.translate_clear ht hv,
      fun v hne => h.tree.translate_set ht hne 0, fun hc => (by cases hc), rfl, (h.tree.write ht 0).treeOk h.root.2⟩
    rw [htr, and_iff_left (h.tree.not_hugeOn ht)]

/-- A call that has changed no translation. -/
theorem TreeOk.rangeLaw_of_false (h : TreeOk pml4 mem) {mem' : Memory} {F' : Layout Unit ℕ ℕ}
    (h' : Tree pml4 F' [] mem') (hsame : ∀ v, translate mem'.table pml4 v = translate mem.table pml4 v)
    (hacc : ∀ b, Accounted F' mem' b ↔ Accounted (tablesOf pml4 mem) mem b) (base n : ℕ) :
    RangeLaw mem pml4 base n (false, mem') := by
  refine ⟨nofun, fun _ => ⟨hsame, ?_⟩, h'.treeOk h.root.2⟩
  ext b
  rw [h'.mem_heldData, h.tree.mem_heldData, hacc]

/-- A range that does not start at a page is not mapped. -/
theorem TreeOk.rangeLaw_of_unaligned (h : TreeOk pml4 mem) (hb : base % pageSize ≠ 0) (n : ℕ) :
    RangeLaw mem pml4 base n (mapUserPages pml4 base n mem) := by
  cases n with
  | zero => exact ⟨fun _ => ⟨[], rfl, .nil, nofun, fun _ _ => rfl⟩, nofun, h⟩
  | succ n =>
    rw [mapUserPages, mapUserPagesFrom]
    rcases ha : allocZeroedPage mem with ⟨_ | a, mem₁⟩
    · obtain ⟨rfl, -⟩ := allocZeroedPage_eq_none ha
      exact h.rangeLaw_of_false h.tree (fun _ => rfl) (fun _ => Iff.rfl) _ _
    · have hm : mapPage pml4 (pageVirt base 0) a presentWritable mem₁ = (false, mem₁) := by
        rw [mapPage, if_pos]
        simp only [pageVirt, pageSize] at hb ⊢
        omega
      obtain ⟨h', hsame, hacc⟩ := h.tree.alloc_free ha
      simp only [hm]
      exact h.rangeLaw_of_false h' hsame hacc _ _

theorem TreeOk.rangeLaw (h : TreeOk pml4 mem) (base n : ℕ) :
    RangeLaw mem pml4 base n (mapUserPages pml4 base n mem) := by
  by_cases hb : base % pageSize = 0
  · obtain ⟨F', mem', ⟨hm, h', hsame, hacc⟩ | ⟨hm, ds, h'⟩⟩ :=
      (RangeSoFar.start h.tree base).mapUser hb n
    · rw [mapUserPages, hm]
      exact h.rangeLaw_of_false h' hsame hacc _ _
    · rw [Nat.zero_add] at h'
      rw [mapUserPages, hm]
      refine ⟨fun _ => ⟨ds, h'.length, ?_, fun k a hk => ?_, h'.same⟩, nofun,
        h'.tree.drop.treeOk h.root.2⟩
      · have hnd := (List.nodup_append.mp h'.tree.loose).2.1
        rwa [List.append_nil] at hnd
      · have hleaf := h'.leaves.leaf hk
        rw [Nat.zero_add] at hleaf
        have ha : IsPage a := h'.tree.page a (by simp [List.mem_of_getElem? hk])
        rw [h'.tree.translate_leaf hleaf ha.1 ha.2.2 rfl, pageVirt_mod hb k, Nat.add_zero]
  · exact h.rangeLaw_of_unaligned hb n

/-- **`map_page` and `unmap_page` are a partial map of pages**, below any PML4 whose tables are a tree, and
`map_user_pages` maps a range or nothing. -/
theorem partialMap (h : TreeOk pml4 mem) :
    (∀ virt phys, virt % pageSize = 0 → phys % pageSize = 0 → phys < 2 ^ 52 →
        MapLaw mem pml4 virt phys (mapPage pml4 virt phys presentWritable mem)) ∧
      (∀ virt, virt % pageSize = 0 → UnmapLaw mem pml4 virt (unmapPage pml4 virt mem)) ∧
      ∀ base n, RangeLaw mem pml4 base n (mapUserPages pml4 base n mem) :=
  ⟨fun _ _ hv ha hb => h.mapLaw hv ha hb, fun _ hv => h.unmapLaw hv, h.rangeLaw⟩

end Law

/-- A PML4 without tables, and three pages to hand out. -/
def emptyTables : Memory where
  table := fun _ _ => 0
  allocator := { ranges := [], freeStack := [0x2000, 0x3000, 0x4000], refused := [] }
  kernelPml4 := 0x1000
  cr3 := 0x1000

theorem treeOk_emptyTables : TreeOk 0x1000 emptyTables := by
  have hof : ∀ {p t}, follow emptyTables.table 0x1000 p = some t → p = [] ∧ t = 0x1000 := by
    intro p t ht
    cases p with
    | nil => exact ⟨rfl, (Option.some.inj ht).symm⟩
    | cons i p => cases ht
  refine ⟨by decide, fun _ _ ht hq => (hof ht).1.trans (hof hq).1.symm, fun _ ht => ?_, by decide,
    by decide⟩
  rw [(hof ht).2]
  decide

theorem partialMap_emptyTables :
    (mapPage 0x1000 0 0x5000 presentWritable emptyTables).1 = true ∧
      MapLaw emptyTables 0x1000 0 0x5000 (mapPage 0x1000 0 0x5000 presentWritable emptyTables) ∧
      UnmapLaw emptyTables 0x1000 0 (unmapPage 0x1000 0 emptyTables) ∧
      RangeLaw emptyTables 0x1000 0 2 (mapUserPages 0x1000 0 2 emptyTables) :=
  ⟨by decide, (partialMap treeOk_emptyTables).1 0 0x5000 (by decide) (by decide) (by decide),
    (partialMap treeOk_emptyTables).2.1 0 (by decide), (partialMap treeOk_emptyTables).2.2 0 2⟩

/-- The same, with a large page of 1 GiB at address `0`. -/
def largePage : Memory :=
  { emptyTables with table := fun t i =>
      if t = 0x1000 ∧ i = 0 then 0x5003 else if t = 0x5000 ∧ i = 0 then 0x83 else 0 }

theorem treeOk_largePage : TreeOk 0x1000 largePage := by
  have hof : ∀ {p t}, follow largePage.table 0x1000 p = some t →
      p = [] ∧ t = 0x1000 ∨ p = [0] ∧ t = 0x5000 := by
    intro p t ht
    rcases p with _ | ⟨i, p⟩
    · exact .inl ⟨rfl, (Option.some.inj ht).symm⟩
    obtain ⟨u, hu, ht⟩ := Option.bind_eq_some_iff.mp ht
    by_cases hi : i = 0
    · subst hi
      obtain rfl : 0x5000 = u := Option.some.inj hu
      rcases p with _ | ⟨j, p⟩
      · exact .inr ⟨rfl, (Option.some.inj ht).symm⟩
      obtain ⟨w, hw, -⟩ := Option.bind_eq_some_iff.mp ht
      by_cases hj : j = 0
      · subst hj
        cases hw
      · simp [largePage, hj] at hw
    · simp [largePage, hi] at hu
  refine ⟨by decide, fun {p q t} _ _ ht hq => ?_, fun {p t} _ ht => ?_, by decide, by decide⟩
  · rcases hof ht with ⟨rfl, rfl⟩ | ⟨rfl, rfl⟩
    · rcases hof hq with ⟨rfl, -⟩ | ⟨-, hc⟩
      · rfl
      · cases hc
    · rcases hof hq with ⟨-, hc⟩ | ⟨rfl, -⟩
      · cases hc
      · rfl
  · rcases hof ht with ⟨-, rfl⟩ | ⟨-, rfl⟩
    · decide
    · decide

/-- A large page is translated, but `unmap_page` returns none; a physical address beyond `2 ^ 52` is cut off;
and the tables do not tell the address `2 ^ 48` from `0`. -/
theorem not_partialMap :
    (TreeOk 0x1000 largePage ∧ translate largePage.table 0x1000 0 = some 0 ∧
        (unmapPage 0x1000 0 largePage).1 = none) ∧
      TreeOk 0x1000 emptyTables ∧ (mapPage 0x1000 0 (2 ^ 52) presentWritable emptyTables).1 = true ∧
        translate (mapPage 0x1000 0 (2 ^ 52) presentWritable emptyTables).2.table 0x1000 0 = some 0 ∧
        translate emptyTables.table 0x1000 (2 ^ 48) = none ∧
        translate (mapPage 0x1000 0 0x5000 presentWritable emptyTables).2.table 0x1000 (2 ^ 48) =
          some 0x5000 :=
  ⟨⟨treeOk_largePage, by decide, by decide⟩, treeOk_emptyTables, by decide, by decide, by decide,
    by decide⟩

end Rymos
