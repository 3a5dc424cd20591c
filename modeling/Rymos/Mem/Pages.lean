import Mathlib.Tactic
import Rymos.Mem.Paging

/-!
# The allocator's pages

* `IsPage`: a page that an entry can refer to. `tableEntryAddress_pageEntry`.
* `PhysPageAllocator.available`: the pages it will hand out, in order. **`allocPage_eq_some`**,
  **`allocPage_eq_none`**, **`freePage_available`**, **`canAlloc_iff`**.
* `Memory.write_table` and its like: what the operations on memory leave alone.
-/

namespace Rymos

/-- A page of physical memory within the reach of an entry. -/
def IsPage (page : ℕ) : Prop := page % pageSize = 0 ∧ 0 < page ∧ page < 2 ^ 52

instance (page : ℕ) : Decidable (IsPage page) := inferInstanceAs (Decidable (_ ∧ _ ∧ _))

section Entries

variable {page : ℕ}

@[simp] theorem not_present_zero : ¬ present 0 := by simp [present]

@[simp] theorem tableEntryAddress_zero : tableEntryAddress 0 = none := by simp [tableEntryAddress]

theorem IsPage.pageAddress (h : IsPage page) : pageAddress page = page := by
  unfold IsPage at h
  simp only [Rymos.pageAddress, pageSize] at *
  omega

theorem present_pageEntry (page : ℕ) : present (pageEntry page presentWritable) := by
  simp only [present, pageEntry, Rymos.pageAddress, pageSize, presentWritable]
  omega

theorem not_huge_pageEntry (page : ℕ) : ¬ huge (pageEntry page presentWritable) := by
  simp only [huge, pageEntry, Rymos.pageAddress, pageSize, presentWritable]
  omega

theorem IsPage.pageAddress_pageEntry (h : IsPage page) :
    Rymos.pageAddress (pageEntry page presentWritable) = page := by
  unfold IsPage at h
  simp only [pageEntry, Rymos.pageAddress, pageSize, presentWritable] at *
  omega

/-- **An entry that was written leads to its page.** -/
theorem IsPage.tableEntryAddress_pageEntry (h : IsPage page) :
    tableEntryAddress (pageEntry page presentWritable) = some page := by
  rw [tableEntryAddress, if_neg, h.pageAddress_pageEntry]
  simp [present_pageEntry, not_huge_pageEntry]

theorem tableEntryAddress_eq_some {entry : ℕ} : tableEntryAddress entry = some page ↔
    present entry ∧ ¬ huge entry ∧ Rymos.pageAddress entry = page := by
  unfold tableEntryAddress
  split_ifs with h
  · exact iff_of_false nofun (by tauto)
  · simp only [Option.some.injEq]
    tauto

end Entries

/-! ## Pages handed out -/

def PageRange.pages (range : PageRange) : List ℕ :=
  List.range' range.next ((range.stop - range.next + (pageSize - 1)) / pageSize) pageSize

/-- The pages that will be handed out, the next one first. -/
def PhysPageAllocator.available (a : PhysPageAllocator) : List ℕ :=
  a.freeStack ++ a.ranges.flatMap PageRange.pages

section Allocator

variable {a a' : PhysPageAllocator} {page : ℕ}

theorem PageRange.pages_of_lt {range : PageRange} (h : range.next < range.stop) :
    range.pages = range.next :: PageRange.pages { range with next := range.next + pageSize } := by
  have hn : (range.stop - range.next + (pageSize - 1)) / pageSize =
      (range.stop - (range.next + pageSize) + (pageSize - 1)) / pageSize + 1 := by
    simp only [pageSize]
    omega
  rw [pages, pages, hn, List.range'_succ]

theorem PageRange.pages_of_le {range : PageRange} (h : range.stop ≤ range.next) :
    range.pages = [] := by
  rw [pages, Nat.sub_eq_zero_of_le h, Nat.zero_add, Nat.div_eq_of_lt (by decide), List.range'_zero]

theorem takeRange_eq_none {ranges : List PageRange} :
    takeRange ranges = none ↔ ranges.flatMap PageRange.pages = [] := by
  induction ranges with
  | nil => simp [takeRange]
  | cons range ranges ih =>
    rw [takeRange, List.flatMap_cons]
    split_ifs with h
    · rw [PageRange.pages_of_lt h, List.cons_append]
      exact iff_of_false id (List.cons_ne_nil _ _)
    · rw [PageRange.pages_of_le (by omega), Option.map_eq_none_iff, ih, List.nil_append]

theorem takeRange_eq_some {ranges rest : List PageRange} (h : takeRange ranges = some (page, rest)) :
    ranges.flatMap PageRange.pages = page :: rest.flatMap PageRange.pages := by
  induction ranges generalizing rest with
  | nil => cases h
  | cons range ranges ih =>
    rw [takeRange] at h
    split_ifs at h with hlt
    · cases h
      rw [List.flatMap_cons, List.flatMap_cons, PageRange.pages_of_lt hlt, List.cons_append]
    · obtain ⟨⟨page', rest'⟩, ht, he⟩ := Option.map_eq_some_iff.mp h
      cases he
      rw [List.flatMap_cons, List.flatMap_cons, PageRange.pages_of_le (by omega), ih ht,
        List.nil_append, List.nil_append]

theorem allocPage_eq_none : a.allocPage = none ↔ a.available = [] := by
  unfold PhysPageAllocator.allocPage PhysPageAllocator.available
  split
  · next h => simp [h]
  · next h => rw [h, Option.map_eq_none_iff, takeRange_eq_none, List.nil_append]

theorem allocPage_eq_some (h : a.allocPage = some (page, a')) :
    a.available = page :: a'.available ∧ a'.refused = a.refused := by
  unfold PhysPageAllocator.allocPage at h
  unfold PhysPageAllocator.available
  split at h
  · next hs =>
    cases h
    exact ⟨by simp [hs], rfl⟩
  · next hs =>
    obtain ⟨⟨page', ranges⟩, ht, he⟩ := Option.map_eq_some_iff.mp h
    cases he
    exact ⟨by simp [hs, takeRange_eq_some ht], rfl⟩

/-- **A page handed back is available**, or was refused. -/
theorem freePage_available (a : PhysPageAllocator) (page : ℕ) :
    (a.freePage page).2.available = page :: a.available ∧ (a.freePage page).2.refused = a.refused ∨
      (a.freePage page).2.available = a.available ∧
        (a.freePage page).2.refused = page :: a.refused := by
  unfold PhysPageAllocator.freePage
  split_ifs
  · exact .inr ⟨rfl, rfl⟩
  · exact .inl ⟨rfl, rfl⟩

/-- `n` calls of `alloc_page` one after the other succeed. -/
def CanAlloc : ℕ → PhysPageAllocator → Prop
  | 0, _ => True
  | n + 1, a => ∃ page a', a.allocPage = some (page, a') ∧ CanAlloc n a'

/-- **As many calls succeed as there are pages available.** -/
theorem canAlloc_iff {n : ℕ} : CanAlloc n a ↔ n ≤ a.available.length := by
  induction n generalizing a with
  | zero => exact iff_of_true trivial (Nat.zero_le _)
  | succ n ih =>
    constructor
    · rintro ⟨page, a', ha, hn⟩
      rw [(allocPage_eq_some ha).1, List.length_cons]
      exact Nat.succ_le_succ (ih.mp hn)
    · intro hn
      rcases ha : a.allocPage with _ | ⟨page, a'⟩
      · rw [allocPage_eq_none.mp ha] at hn
        cases hn
      · rw [(allocPage_eq_some ha).1, List.length_cons] at hn
        exact ⟨page, a', ha, ih.mpr (Nat.le_of_succ_le_succ hn)⟩

end Allocator

/-! ## Frames -/

section Frames

variable (mem : Memory) (table index entry page : ℕ)

@[simp] theorem Memory.write_allocator : (mem.write table index entry).allocator = mem.allocator := rfl
@[simp] theorem Memory.write_kernelPml4 : (mem.write table index entry).kernelPml4 = mem.kernelPml4 :=
  rfl
@[simp] theorem Memory.write_cr3 : (mem.write table index entry).cr3 = mem.cr3 := rfl
@[simp] theorem freed_table : (freed page mem).table = mem.table := rfl
@[simp] theorem freed_kernelPml4 : (freed page mem).kernelPml4 = mem.kernelPml4 := rfl
@[simp] theorem freed_cr3 : (freed page mem).cr3 = mem.cr3 := rfl

@[simp] theorem Memory.write_table_self :
    (mem.write table index entry).table table index = entry := by simp [Memory.write]

variable {mem table index entry} {table' index' : ℕ}

theorem Memory.write_table_of_ne (h : ¬ (table' = table ∧ index' = index)) :
    (mem.write table index entry).table table' index' = mem.table table' index' := by
  simp only [Memory.write]
  by_cases ht : table' = table
  · subst ht
    rw [Function.update_self, Function.update_of_ne fun hi => h ⟨rfl, hi⟩]
  · rw [Function.update_of_ne ht]

theorem freed_write : freed page (mem.write table index entry) =
    (freed page mem).write table index entry := rfl

end Frames

end Rymos
