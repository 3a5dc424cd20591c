import Mathlib.Tactic

/-!
# Physical pages and page tables

* `PhysPageAllocator`: `allocPage`, `freePage`.
* `Memory`: the page tables by physical address, the allocator, the kernel's own PML4.
* `ensureNextTable`, `mapPage`, `unmapPage`, `mapUserPages`, `unmapUserPages`, `mapImagePages`:
  the kernel's mapping functions.
* `translate`: what the processor does with an address.
-/

namespace Rymos

abbrev pageSize : ℕ := 4096
abbrev pageTableEntries : ℕ := 512
abbrev freePageStackMax : ℕ := 4096
abbrev appLoadMin : ℕ := 0x200000
abbrev appLoadMax : ℕ := 0x9000000

/-! ## The allocator -/

structure PageRange where
  next : ℕ
  stop : ℕ

/-- The ranges not handed out yet and the pages handed back, the last one first. `refused` records the
pages that `free_page` did not take. -/
structure PhysPageAllocator where
  ranges : List PageRange
  freeStack : List ℕ
  refused : List ℕ

/-- The next page of the first range that has one. -/
def takeRange : List PageRange → Option (ℕ × List PageRange)
  | [] => none
  | range :: ranges =>
    if range.next < range.stop then
      some (range.next, { range with next := range.next + pageSize } :: ranges)
    else (takeRange ranges).map fun (page, ranges) => (page, range :: ranges)

def PhysPageAllocator.allocPage (a : PhysPageAllocator) : Option (ℕ × PhysPageAllocator) :=
  match a.freeStack with
  | page :: freeStack => some (page, { a with freeStack := freeStack })
  | [] => (takeRange a.ranges).map fun (page, ranges) => (page, { a with ranges := ranges })

def PhysPageAllocator.freePage (a : PhysPageAllocator) (page : ℕ) : Bool × PhysPageAllocator :=
  if page % pageSize ≠ 0 ∨ freePageStackMax ≤ a.freeStack.length then
    (false, { a with refused := page :: a.refused })
  else (true, { a with freeStack := page :: a.freeStack })

/-! ## Entries -/

/-- `entry & PAGE_PRESENT != 0`. -/
def present (entry : ℕ) : Prop := entry % 2 = 1

/-- `entry & PAGE_HUGE != 0`. -/
def huge (entry : ℕ) : Prop := entry / 2 ^ 7 % 2 = 1

instance (entry : ℕ) : Decidable (present entry) := inferInstanceAs (Decidable (_ = _))
instance (entry : ℕ) : Decidable (huge entry) := inferInstanceAs (Decidable (_ = _))

/-- `entry & PAGE_ADDR_MASK`. -/
def pageAddress (entry : ℕ) : ℕ := entry / pageSize % 2 ^ 40 * pageSize

/-- `PAGE_PRESENT | PAGE_WRITABLE`, the flags of every entry written. -/
abbrev presentWritable : ℕ := 3

def pageEntry (page flags : ℕ) : ℕ := pageAddress page + flags

def pml4Index (virt : ℕ) : ℕ := virt / 2 ^ 39 % 512
def pdptIndex (virt : ℕ) : ℕ := virt / 2 ^ 30 % 512
def pdIndex (virt : ℕ) : ℕ := virt / 2 ^ 21 % 512
def ptIndex (virt : ℕ) : ℕ := virt / 2 ^ 12 % 512

def tableEntryAddress (entry : ℕ) : Option ℕ :=
  if ¬ present entry ∨ huge entry then none else some (pageAddress entry)

/-! ## Memory -/

/-- `table` is the physical memory read as page tables: entry `i` of the page at an address. -/
structure Memory where
  table : ℕ → ℕ → ℕ
  allocator : PhysPageAllocator
  kernelPml4 : ℕ
  cr3 : ℕ

namespace Memory

def write (mem : Memory) (table index entry : ℕ) : Memory :=
  { mem with
    table := Function.update mem.table table (Function.update (mem.table table) index entry) }

/-- `copy_nonoverlapping` of a whole table. -/
def copyTable (mem : Memory) (source target : ℕ) : Memory :=
  { mem with table := Function.update mem.table target (mem.table source) }

/-- Entries `start` to `stop` of a table set to zero. -/
def clearEntries (mem : Memory) (table start stop : ℕ) : Memory :=
  { mem with table := Function.update mem.table table fun index =>
      if start ≤ index ∧ index < stop then 0 else mem.table table index }

end Memory

def allocZeroedPage (mem : Memory) : Option ℕ × Memory :=
  match mem.allocator.allocPage with
  | none => (none, mem)
  | some (page, allocator) =>
    (some page, { mem with
      allocator := allocator
      table := Function.update mem.table page fun _ => 0 })

def freePhysPage (page : ℕ) (mem : Memory) : Bool × Memory :=
  ((mem.allocator.freePage page).1, { mem with allocator := (mem.allocator.freePage page).2 })

/-- `free_phys_page` with its result ignored. -/
def freed (page : ℕ) (mem : Memory) : Memory := (freePhysPage page mem).2

/-! ## Mapping -/

def ensureNextTable (table index : ℕ) (mem : Memory) : Option ℕ × Memory :=
  let entry := mem.table table index
  if present entry then
    if huge entry then (none, mem) else (some (pageAddress entry), mem)
  else
    match allocZeroedPage mem with
    | (none, mem) => (none, mem)
    | (some next, mem) => (some next, mem.write table index (pageEntry next presentWritable))

/-- `ensure_next_table` along a way of entries, from the top. -/
def ensureTables (table : ℕ) : List ℕ → Memory → Option ℕ × Memory
  | [], mem => (some table, mem)
  | index :: indexes, mem =>
    match ensureNextTable table index mem with
    | (none, mem) => (none, mem)
    | (some next, mem) => ensureTables next indexes mem

/-- The way from the PML4 to the page table of an address. -/
def tablePath (virt : ℕ) : List ℕ := [pml4Index virt, pdptIndex virt, pdIndex virt]

def mapPage (pml4 virt phys flags : ℕ) (mem : Memory) : Bool × Memory :=
  if pml4 = 0 ∨ virt % pageSize ≠ 0 ∨ phys % pageSize ≠ 0 then (false, mem)
  else
    match ensureTables pml4 (tablePath virt) mem with
    | (none, mem) => (false, mem)
    | (some pt, mem) =>
      if present (mem.table pt (ptIndex virt)) then (false, mem)
      else (true, mem.write pt (ptIndex virt) (pageEntry phys flags))

/-- The table at the end of a way of entries, by `table_entry_address`. -/
def follow (table : ℕ → ℕ → ℕ) : ℕ → List ℕ → Option ℕ
  | t, [] => some t
  | t, i :: is => (tableEntryAddress (table t i)).bind fun u => follow table u is

/-- The page table that an address is looked up in. -/
def pageTableOf (pml4 virt : ℕ) (mem : Memory) : Option ℕ := follow mem.table pml4 (tablePath virt)

def unmapPage (pml4 virt : ℕ) (mem : Memory) : Option ℕ × Memory :=
  if pml4 = 0 ∨ virt % pageSize ≠ 0 then (none, mem)
  else
    match pageTableOf pml4 virt mem with
    | none => (none, mem)
    | some pt =>
      let entry := mem.table pt (ptIndex virt)
      if ¬ present entry then (none, mem)
      else (some (pageAddress entry), mem.write pt (ptIndex virt) 0)

/-- The address of page `index` from `base` on. -/
def pageVirt (base index : ℕ) : ℕ := (base + index * pageSize) % 2 ^ 64

/-- `unmap_user_pages` at the pages `index` on, with the number of pages the allocator took back. -/
def unmapUserPagesFrom (pml4 base : ℕ) : ℕ → ℕ → Memory → ℕ × Memory
  | _, 0, mem => (0, mem)
  | index, n + 1, mem =>
    match unmapPage pml4 (pageVirt base index) mem with
    | (none, mem) => unmapUserPagesFrom pml4 base (index + 1) n mem
    | (some phys, mem) =>
      if phys = 0 then unmapUserPagesFrom pml4 base (index + 1) n mem
      else
        let rest := unmapUserPagesFrom pml4 base (index + 1) n (freed phys mem)
        ((if (freePhysPage phys mem).1 then rest.1 + 1 else rest.1), rest.2)

def unmapUserPages (pml4 base pageCount : ℕ) (mem : Memory) : ℕ × Memory :=
  unmapUserPagesFrom pml4 base 0 pageCount mem

/-- `map_user_pages` at the pages `index` on: those before it are mapped already. -/
def mapUserPagesFrom (pml4 base : ℕ) : ℕ → ℕ → Memory → Bool × Memory
  | _, 0, mem => (true, mem)
  | index, n + 1, mem =>
    match allocZeroedPage mem with
    | (none, mem) => (false, (unmapUserPages pml4 base index mem).2)
    | (some phys, mem) =>
      match mapPage pml4 (pageVirt base index) phys presentWritable mem with
      | (false, mem) => (false, (unmapUserPages pml4 base index (freed phys mem)).2)
      | (true, mem) => mapUserPagesFrom pml4 base (index + 1) n mem

def mapUserPages (pml4 base pageCount : ℕ) (mem : Memory) : Bool × Memory :=
  mapUserPagesFrom pml4 base 0 pageCount mem

def pageMapped (pml4 virt : ℕ) (mem : Memory) : Bool :=
  if pml4 = 0 ∨ virt % pageSize ≠ 0 then false
  else
    match pageTableOf pml4 virt mem with
    | none => false
    | some pt => (tableEntryAddress (mem.table pt (ptIndex virt))).isSome

/-- `map_image_pages` at the pages `index` on. -/
def mapImagePagesFrom (pml4 base : ℕ) : ℕ → ℕ → Memory → Bool × Memory
  | _, 0, mem => (true, mem)
  | index, n + 1, mem =>
    if pageMapped pml4 (pageVirt base index) mem then
      mapImagePagesFrom pml4 base (index + 1) n mem
    else
      match allocZeroedPage mem with
      | (none, mem) => (false, mem)
      | (some phys, mem) =>
        match mapPage pml4 (pageVirt base index) phys presentWritable mem with
        | (false, mem) => (false, freed phys mem)
        | (true, mem) => mapImagePagesFrom pml4 base (index + 1) n mem

def mapImagePages (pml4 base pageCount : ℕ) (mem : Memory) : Bool × Memory :=
  mapImagePagesFrom pml4 base 0 pageCount mem

/-! ## Translation -/

/-- The processor's walk: an entry of the PDPT or of the PD may map a large page itself, one of the PML4
may not. -/
def translate (table : ℕ → ℕ → ℕ) (pml4 virt : ℕ) : Option ℕ :=
  let e₄ := table pml4 (pml4Index virt)
  if ¬ present e₄ ∨ huge e₄ then none
  else
    let e₃ := table (pageAddress e₄) (pdptIndex virt)
    if ¬ present e₃ then none
    else if huge e₃ then some (e₃ / 2 ^ 30 % 2 ^ 22 * 2 ^ 30 + virt % 2 ^ 30)
    else
      let e₂ := table (pageAddress e₃) (pdIndex virt)
      if ¬ present e₂ then none
      else if huge e₂ then some (e₂ / 2 ^ 21 % 2 ^ 31 * 2 ^ 21 + virt % 2 ^ 21)
      else
        let e₁ := table (pageAddress e₂) (ptIndex virt)
        if ¬ present e₁ then none else some (pageAddress e₁ + virt % pageSize)

end Rymos
