import Mathlib.Tactic
import Rymos.Mem.Mapping

/-!
# The walk through the tables of one PML4

* `TablePlace`, **`Tree`**: the tables below a PML4 are a tree, apart from the pages of the allocator.
* `translatePdpt`, `translatePd`, `translatePt`: what is left of the walk at each level. `translate_eq`.
* **`Tree.translate_congr`**, **`Tree.translate_of_absent`**: which entries an address depends on.
* `hugeOn`, `missingFrom`: a way that ends early.
* **`Tree.alloc`**, **`Tree.free`**, **`Tree.write`**, **`Tree.plant`**: what can happen to a tree.
-/

namespace Rymos

open TableTree

/-- The places of the tables below a PML4, the last index first. -/
def TablePlace (_ : Unit) (p : List ℕ) : Prop := p.length ≤ 3 ∧ ∀ i ∈ p, i < pageTableEntries

/-- `F` are the tables below a PML4. No table is at two places, and none is a page of the allocator or in the
hand; these are distinct. -/
structure Tree (pml4 : ℕ) (F : Layout Unit ℕ ℕ) (hand : List ℕ) (mem : Memory) : Prop where
  lays : Lays TablePlace mem.next F
  root : F () [] = some pml4
  pos : 0 < pml4
  apart : ∀ {p t}, F () p = some t → t ∉ mem.allocator.available ++ hand
  loose : (mem.allocator.available ++ hand).Nodup
  page : ∀ a ∈ mem.allocator.available ++ hand, IsPage a

/-! ## Translation by levels -/

def translatePt (table : ℕ → ℕ → ℕ) (pt virt : ℕ) : Option ℕ :=
  if present (table pt (ptIndex virt)) then
    some (pageAddress (table pt (ptIndex virt)) + virt % pageSize)
  else none

def translatePd (table : ℕ → ℕ → ℕ) (pd virt : ℕ) : Option ℕ :=
  let e := table pd (pdIndex virt)
  if present e ∧ huge e then some (e / 2 ^ 21 % 2 ^ 31 * 2 ^ 21 + virt % 2 ^ 21)
  else (tableEntryAddress e).bind fun pt => translatePt table pt virt

def translatePdpt (table : ℕ → ℕ → ℕ) (pdpt virt : ℕ) : Option ℕ :=
  let e := table pdpt (pdptIndex virt)
  if present e ∧ huge e then some (e / 2 ^ 30 % 2 ^ 22 * 2 ^ 30 + virt % 2 ^ 30)
  else (tableEntryAddress e).bind fun pd => translatePd table pd virt

/-- What a walk does with an entry that may map a large page itself. -/
theorem walk_entry (e : ℕ) (large : Option ℕ) (next : ℕ → Option ℕ) :
    (if present e ∧ huge e then large else (tableEntryAddress e).bind next) =
      if ¬ present e then none else if huge e then large else next (pageAddress e) := by
  unfold tableEntryAddress
  by_cases hp : present e
  · by_cases hh : huge e
    · rw [if_pos ⟨hp, hh⟩, if_neg (not_not.mpr hp), if_pos hh]
    · rw [if_neg (mt And.right hh), if_neg (not_or.mpr ⟨not_not.mpr hp, hh⟩),
        if_neg (not_not.mpr hp), if_neg hh, Option.bind_some]
  · rw [if_neg (mt And.left hp), if_pos (.inl hp), if_pos hp, Option.bind_none]

theorem translate_eq (table : ℕ → ℕ → ℕ) (pml4 virt : ℕ) : translate table pml4 virt =
    (tableEntryAddress (table pml4 (pml4Index virt))).bind fun pdpt => translatePdpt table pdpt virt := by
  unfold translate tableEntryAddress
  by_cases h₄ : ¬ present (table pml4 (pml4Index virt)) ∨ huge (table pml4 (pml4Index virt))
  · rw [if_pos h₄, if_pos h₄, Option.bind_none]
  · rw [if_neg h₄, if_neg h₄, Option.bind_some]
    simp only [translatePdpt, translatePd, walk_entry, translatePt, ite_not]

section Walk

variable {mem mem' : Memory} {table' : ℕ → ℕ → ℕ} {F : Layout Unit ℕ ℕ} {hand : List ℕ}
  {pml4 virt v i j t u a : ℕ} {p q : List ℕ}

theorem mem_pathOf_lt (virt : ℕ) : ∀ i ∈ pathOf virt, i < pageTableEntries := by
  intro i hi
  obtain ⟨h₄, h₃, h₂, h₁⟩ := index_lt virt
  simp only [pathOf, List.mem_cons, List.not_mem_nil, or_false] at hi
  rcases hi with rfl | rfl | rfl | rfl
  · exact h₁
  · exact h₂
  · exact h₃
  · exact h₄

/-- A step of the walk is one of four. -/
theorem suffix_pathOf (h : (j :: q) <:+ pathOf virt) :
    (q = [] ∧ j = pml4Index virt) ∨ (q = [pml4Index virt] ∧ j = pdptIndex virt) ∨
      (q = [pdptIndex virt, pml4Index virt] ∧ j = pdIndex virt) ∨
      (q = tableOf virt ∧ j = ptIndex virt) := by
  simp only [pathOf, List.suffix_cons_iff, List.cons.injEq, List.suffix_nil, reduceCtorEq, or_false] at h
  rcases h with ⟨rfl, rfl⟩ | ⟨rfl, rfl⟩ | ⟨rfl, rfl⟩ | ⟨rfl, rfl⟩
  · exact .inr (.inr (.inr ⟨rfl, rfl⟩))
  · exact .inr (.inr (.inl ⟨rfl, rfl⟩))
  · exact .inr (.inl ⟨rfl, rfl⟩)
  · exact .inl ⟨rfl, rfl⟩

/-- A suffix of the way to a table is a place. -/
theorem tablePlace_of_suffix (h : p <:+ tableOf virt) (r : Unit) : TablePlace r p :=
  ⟨h.length_le, fun i hi => mem_pathOf_lt virt i (List.mem_cons_of_mem _ (h.subset hi))⟩

theorem tablePlace_tableOf (virt : ℕ) : TablePlace () (tableOf virt) :=
  tablePlace_of_suffix List.suffix_rfl ()

theorem TablePlace.suffix {r : Unit} (h : TablePlace r q) (hs : p <:+ q) : TablePlace r p :=
  ⟨hs.length_le.trans h.1, fun i hi => h.2 i (hs.subset hi)⟩

/-- Where an entry on the way leads. -/
theorem Tree.child (h : Tree pml4 F hand mem) (ht : F () p = some t) (virt : ℕ)
    (hs : (i :: p) <:+ tableOf virt) : tableEntryAddress (mem.table t i) = F () (i :: p) := h.lays.child ht (tablePlace_of_suffix hs ())

/-- **The walk depends on the entries on its way only.** -/
theorem Tree.translate_congr (h : Tree pml4 F hand mem)
    (hs : ∀ {q j u}, F () q = some u → (j :: q) <:+ pathOf virt → table' u j = mem.table u j) :
    translate table' pml4 virt = translate mem.table pml4 virt := by
  have hsuf : ∀ {p q : List ℕ}, p ++ q = pathOf virt → q <:+ pathOf virt := fun {p q} he => ⟨p, he⟩
  have h₄ := hs h.root (hsuf (p := [_, _, _]) rfl)
  rw [translate_eq, translate_eq, h₄, h.child h.root virt ⟨[_, _], rfl⟩]
  rcases hF₄ : F () [pml4Index virt] with _ | pdpt
  · rfl
  have h₃ := hs hF₄ (hsuf (p := [_, _]) rfl)
  rw [Option.bind_some, Option.bind_some, translatePdpt, translatePdpt, h₃,
    h.child hF₄ virt ⟨[_], rfl⟩]
  rcases hF₃ : F () [pdptIndex virt, pml4Index virt] with _ | pd
  · rfl
  have h₂ := hs hF₃ (hsuf (p := [_]) rfl)
  rw [Option.bind_some, Option.bind_some, translatePd, translatePd, h₂,
    h.child hF₃ virt ⟨[], rfl⟩]
  rcases hF₂ : F () [pdIndex virt, pdptIndex virt, pml4Index virt] with _ | pt
  · rfl
  have h₁ := hs hF₂ (hsuf (p := []) rfl)
  rw [Option.bind_some, Option.bind_some, translatePt, translatePt, h₁]

/-- The translation of an address that has a page table. -/
theorem Tree.translate_of_table (h : Tree pml4 F hand mem) (ht : F () (tableOf virt) = some t) :
    translate mem.table pml4 virt = translatePt mem.table t virt := by
  obtain ⟨pd, hpd⟩ := h.lays.some_of_suffix ht (p := [pdptIndex virt, pml4Index virt]) ⟨[_], rfl⟩
  obtain ⟨pdpt, hpdpt⟩ := h.lays.some_of_suffix hpd (p := [pml4Index virt]) ⟨[_], rfl⟩
  have hc₄ := h.child h.root virt (i := pml4Index virt) ⟨[_, _], rfl⟩
  have hc₃ := h.child hpdpt virt (i := pdptIndex virt) ⟨[_], rfl⟩
  have hc₂ := h.child hpd virt (i := pdIndex virt) ⟨[], rfl⟩
  rw [hpdpt] at hc₄
  rw [hpd] at hc₃
  change _ = F () (tableOf virt) at hc₂
  rw [ht] at hc₂
  have hn : ∀ {e b}, tableEntryAddress e = some b → ¬ (present e ∧ huge e) := fun he hc =>
    (tableEntryAddress_eq_some.mp he).2.1 hc.2
  rw [translate_eq, hc₄, Option.bind_some, translatePdpt, if_neg (hn hc₃), hc₃, Option.bind_some,
    translatePd, if_neg (hn hc₂), hc₂, Option.bind_some]

/-- **An entry that is not present on the way** ends it. -/
theorem Tree.translate_of_absent (h : Tree pml4 F hand mem) (hq : F () q = some u)
    (hs : (j :: q) <:+ pathOf virt) (hp : ¬ present (mem.table u j)) :
    translate mem.table pml4 virt = none := by
  have hnone : tableEntryAddress (mem.table u j) = none := if_pos (.inl hp)
  rcases suffix_pathOf hs with ⟨rfl, rfl⟩ | ⟨rfl, rfl⟩ | ⟨rfl, rfl⟩ | ⟨rfl, rfl⟩
  · rw [h.root] at hq
    cases hq
    rw [translate_eq, hnone]
    rfl
  · rw [translate_eq, h.child h.root virt ⟨[_, _], rfl⟩, hq, Option.bind_some, translatePdpt,
      if_neg (fun hc => hp hc.1), hnone]
    rfl
  · obtain ⟨pdpt, hpdpt⟩ := h.lays.parent hq
    have hc₃ := h.child hpdpt virt (i := pdptIndex virt) ⟨[_], rfl⟩
    rw [hq] at hc₃
    rw [translate_eq, h.child h.root virt ⟨[_, _], rfl⟩, hpdpt, Option.bind_some, translatePdpt,
      if_neg (fun hc => (tableEntryAddress_eq_some.mp hc₃).2.1 hc.2), hc₃, Option.bind_some, translatePd,
      if_neg (fun hc => hp hc.1), hnone]
    rfl
  · rw [h.translate_of_table hq, translatePt, if_neg hp]

/-! ## Ways that end early -/

/-- An entry of a large page is on the way. -/
def hugeOn (table : ℕ → ℕ → ℕ) : ℕ → List ℕ → Prop
  | _, [] => False
  | t, i :: is => present (table t i) ∧ (huge (table t i) ∨ hugeOn table (pageAddress (table t i)) is)

/-- The number of tables missing at the end of the way. -/
def missingFrom (table : ℕ → ℕ → ℕ) : ℕ → List ℕ → ℕ
  | _, [] => 0
  | t, i :: is =>
    if present (table t i) then missingFrom table (pageAddress (table t i)) is else is.length + 1

theorem not_hugeOn_zero {table : ℕ → ℕ → ℕ} (hz : ∀ j, table t j = 0) (is : List ℕ) :
    ¬ hugeOn table t is := by
  cases is with
  | nil => exact id
  | cons i is =>
    rintro ⟨hp, -⟩
    rw [hz] at hp
    exact not_present_zero hp

theorem missingFrom_zero {table : ℕ → ℕ → ℕ} (hz : ∀ j, table t j = 0) (is : List ℕ) :
    missingFrom table t is = is.length := by
  cases is with
  | nil => rfl
  | cons i is => rw [missingFrom, hz, if_neg not_present_zero, List.length_cons]

/-- The table at the end of a way. -/
theorem Tree.follow (h : Tree pml4 F hand mem) (is : List ℕ) (ht : F () p = some t)
    (ho : TablePlace () (is.reverse ++ p)) : follow mem.table t is = F () (is.reverse ++ p) := by
  induction is generalizing p t with
  | nil => exact ht.symm
  | cons i is ih =>
    have hrev : (i :: is).reverse ++ p = is.reverse ++ i :: p := by simp
    rw [hrev] at ho ⊢
    have ho' : TablePlace () (i :: p) := ho.suffix (List.suffix_append _ _)
    have hc : tableEntryAddress (mem.table t i) = F () (i :: p) := h.lays.child ht ho'
    rw [Rymos.follow, hc]
    rcases hf : F () (i :: p) with _ | u
    · exact (h.lays.eq_none_append hf _).symm
    · exact ih hf ho

theorem not_hugeOn_of_follow {table : ℕ → ℕ → ℕ} {is : List ℕ}
    (hf : Rymos.follow table t is = some u) : ¬ hugeOn table t is := by
  induction is generalizing t with
  | nil => exact id
  | cons i is ih =>
    obtain ⟨w, hw, hf⟩ := Option.bind_eq_some_iff.mp hf
    obtain ⟨-, hh, rfl⟩ := tableEntryAddress_eq_some.mp hw
    rintro ⟨-, hc | hc⟩
    · exact hh hc
    · exact ih hf hc

/-- **A way without a table at its end** has an entry of a large page on it, or one that is not present. -/
theorem Tree.absent_of_none (h : Tree pml4 F hand mem) (is : List ℕ) (ht : F () p = some t)
    (ho : TablePlace () (is.reverse ++ p)) (hn : F () (is.reverse ++ p) = none)
    (hh : ¬ hugeOn mem.table t is) : ∃ q j u, F () q = some u ∧ (j :: q) <:+ is.reverse ++ p ∧
      ¬ present (mem.table u j) := by
  induction is generalizing p t with
  | nil =>
    rw [List.reverse_nil, List.nil_append, ht] at hn
    cases hn
  | cons i is ih =>
    have hrev : (i :: is).reverse ++ p = is.reverse ++ i :: p := by simp
    rw [hrev] at ho hn ⊢
    have hs : (i :: p) <:+ is.reverse ++ i :: p := List.suffix_append _ _
    by_cases hp : present (mem.table t i)
    · have hhuge : ¬ huge (mem.table t i) := fun hc => hh ⟨hp, .inl hc⟩
      have hc : F () (i :: p) = some (pageAddress (mem.table t i)) := by
        rw [← h.lays.child ht (ho.suffix hs)]
        exact if_neg (by tauto)
      exact ih hc ho hn fun hc => hh ⟨hp, .inr hc⟩
    · exact ⟨p, i, t, ht, hs, hp⟩

theorem tablePath_reverse (virt : ℕ) : (tablePath virt).reverse ++ [] = tableOf virt := rfl

theorem Tree.pageTableOf_eq (h : Tree pml4 F hand mem) (virt : ℕ) :
    pageTableOf pml4 virt mem = F () (tableOf virt) :=
  h.follow (tablePath virt) h.root (tablePlace_tableOf virt)

/-- **Without a page table** an address is not mapped, but for a large page. -/
theorem Tree.translate_of_none (h : Tree pml4 F hand mem) (hn : F () (tableOf virt) = none)
    (hh : ¬ hugeOn mem.table pml4 (tablePath virt)) : translate mem.table pml4 virt = none := by
  obtain ⟨q, j, u, hq, hs, hp⟩ :=
    h.absent_of_none (tablePath virt) h.root (tablePlace_tableOf virt) hn hh
  exact h.translate_of_absent hq (hs.trans (List.suffix_cons _ _)) hp

theorem Tree.not_hugeOn (h : Tree pml4 F hand mem) (ht : F () (tableOf virt) = some t) :
    ¬ hugeOn mem.table pml4 (tablePath virt) :=
  not_hugeOn_of_follow ((h.pageTableOf_eq virt).trans ht)

end Walk

/-! ## What can happen to a tree -/

section Ops

variable {mem mem' : Memory} {F : Layout Unit ℕ ℕ} {hand hand' : List ℕ}
  {pml4 virt v i j t u a e : ℕ} {p q : List ℕ}

/-- Entries of tables, and of other pages, changed where no table depends on them. -/
theorem Tree.retable (h : Tree pml4 F hand mem) {table : ℕ → ℕ → ℕ}
    (hF : ∀ {p t i}, F () p = some t → TablePlace () (i :: p) → table t i = mem.table t i) :
    Tree pml4 F hand { mem with table := table } where
  lays := h.lays.frame fun hu ho => congrArg tableEntryAddress (hF hu ho)
  root := h.root
  pos := h.pos
  apart := h.apart
  loose := h.loose
  page := h.page

theorem Tree.perm (h : Tree pml4 F hand mem) (hp : hand.Perm hand') : Tree pml4 F hand' mem where
  lays := h.lays
  root := h.root
  pos := h.pos
  apart := fun ht hc => h.apart ht ((hp.append_left _).mem_iff.mpr hc)
  loose := (hp.append_left _).nodup_iff.mp h.loose
  page := fun a ha => h.page a ((hp.append_left _).mem_iff.mpr ha)

/-- **A page allocated**: it is in the hand, and reads zero. -/
theorem Tree.alloc (h : Tree pml4 F hand mem) (ha : allocZeroedPage mem = (some a, mem')) :
    Tree pml4 F (a :: hand) mem' ∧ (∀ i, mem'.table a i = 0) ∧
      mem.allocator.available = a :: mem'.allocator.available ∧
      mem'.allocator.refused = mem.allocator.refused ∧
      ∀ {p t}, F () p = some t → mem'.table t = mem.table t := by
  rw [allocZeroedPage] at ha
  rcases hp : mem.allocator.allocPage with _ | ⟨page, allocator⟩
  · rw [hp] at ha
    cases ha
  rw [hp] at ha
  cases ha
  obtain ⟨hav, href⟩ := allocPage_eq_some hp
  have hne : ∀ {p t}, F () p = some t → t ≠ a := fun ht hc => by
    refine h.apart ht ?_
    rw [hav, hc]
    exact List.mem_cons_self
  have htab : ∀ {p t}, F () p = some t →
      Function.update mem.table a (fun _ => 0) t = mem.table t := fun ht =>
    Function.update_of_ne (hne ht) ..
  have hperm : (mem.allocator.available ++ hand).Perm (allocator.available ++ a :: hand) := by
    rw [hav]
    exact List.perm_middle.symm
  have htree := h.retable fun {p t i} ht _ => congrFun (htab ht) i
  refine ⟨{ lays := htree.lays, root := h.root, pos := h.pos, apart := fun ht hc => ?_, loose := ?_,
            page := fun b hb => h.page b (hperm.mem_iff.mpr hb) }, fun i => ?_, hav, href, htab⟩
  · exact h.apart ht (hperm.mem_iff.mpr hc)
  · exact hperm.nodup_iff.mp h.loose
  · show Function.update mem.table a (fun _ => 0) a i = 0
    rw [Function.update_self]

/-- **A page handed back**: it is available again, or was refused. -/
theorem Tree.free (h : Tree pml4 F (a :: hand) mem) : Tree pml4 F hand (freed a mem) := by
  have hsub : ∀ b ∈ (freed a mem).allocator.available ++ hand,
      b ∈ mem.allocator.available ++ a :: hand := by
    intro b hb
    rcases freePage_available mem.allocator a with ⟨he, -⟩ | ⟨he, -⟩
    · rw [freed, freePhysPage, he] at hb
      exact List.perm_middle.mem_iff.mpr hb
    · rw [freed, freePhysPage, he] at hb
      exact List.perm_middle.mem_iff.mpr (List.mem_cons_of_mem _ hb)
  have hnd : (a :: (mem.allocator.available ++ hand)).Nodup := List.perm_middle.nodup_iff.mp h.loose
  refine { lays := ?_, root := h.root, pos := h.pos, apart := fun ht hc => h.apart ht (hsub _ hc),
           loose := ?_, page := fun b hb => h.page b (hsub b hb) }
  · exact h.lays
  · rcases freePage_available mem.allocator a with ⟨he, -⟩ | ⟨he, -⟩
    · rw [freed, freePhysPage, he]
      exact hnd
    · rw [freed, freePhysPage, he]
      exact (List.nodup_cons.mp hnd).2

/-- **An entry of a page table set.** -/
theorem Tree.write (h : Tree pml4 F hand mem) (ht : F () (tableOf virt) = some t) (e : ℕ) :
    Tree pml4 F hand (mem.write t (ptIndex virt) e) := by
  refine h.retable fun {p u j} hu ho => Memory.write_table_of_ne fun hc => ?_
  obtain ⟨-, rfl⟩ := h.lays.inj hu (hc.1 ▸ ht)
  have hlen := ho.1
  simp [tableOf] at hlen

/-- **A table put where there is none**: it is empty and was in the hand. -/
theorem Tree.plant (h : Tree pml4 F (a :: hand) mem) (ht : F () p = some t)
    (ho : TablePlace () (i :: p)) (hp : ¬ present (mem.table t i)) (hz : ∀ j, mem.table a j = 0) :
    Tree pml4 (F.plant () (i :: p) a) hand (mem.write t i (pageEntry a presentWritable)) := by
  have hmem : a ∈ mem.allocator.available ++ a :: hand := by simp
  have hne : ∀ {p u}, F () p = some u → u ≠ a := fun hu hc => h.apart hu (hc ▸ hmem)
  have hnone : F () (i :: p) = none := (h.lays.child ht ho).symm.trans (if_pos (.inl hp))
  have hnd : (a :: (mem.allocator.available ++ hand)).Nodup := List.perm_middle.nodup_iff.mp h.loose
  refine { lays := ?_, root := ?_, pos := h.pos, apart := fun {q b} hb hc => ?_,
           loose := (List.nodup_cons.mp hnd).2, page := fun b hb => h.page b ?_ }
  · refine h.lays.plant ht ho hnone (fun r q hc => hne hc rfl) ?_ (fun j _ => ?_) fun {u j} hu hc => ?_
    · rw [Memory.next, Memory.write_table_self]
      exact (h.page a hmem).tableEntryAddress_pageEntry
    · rw [Memory.next, Memory.write_table_of_ne fun hc => hne ht hc.1.symm, hz]
      exact tableEntryAddress_zero
    · rw [Memory.next, Memory.write_table_of_ne hc]
      rfl
  · rw [Layout.plant_of_ne fun hc => by simp at hc]
    exact h.root
  · obtain ⟨-, -, rfl⟩ | ⟨-, hb⟩ := Layout.plant_eq_some.mp hb
    · exact (List.nodup_cons.mp hnd).1 hc
    · exact h.apart hb (List.perm_middle.mem_iff.mpr (List.mem_cons_of_mem _ hc))
  · exact List.perm_middle.mem_iff.mpr (List.mem_cons_of_mem _ hb)

/-- **An entry matters to the addresses on whose way it is.** -/
theorem Tree.translate_write (h : Tree pml4 F hand mem) (ht : F () p = some t)
    (hv : ¬ (i :: p) <:+ pathOf v) (e : ℕ) :
    translate (mem.write t i e).table pml4 v = translate mem.table pml4 v := by
  refine h.translate_congr fun {q j u} hu hs => Memory.write_table_of_ne fun hc => ?_
  obtain ⟨rfl, rfl⟩ := hc
  obtain ⟨-, rfl⟩ := h.lays.inj hu ht
  exact hv hs

end Ops

end Rymos
