import Mathlib.Tactic
import Rymos.Base.Runs
import Rymos.Mem.Pages

/-!
# The page allocator over runs

* `PhysAllocator`: the allocator with its counters. `addRange`, `allocPage`, `freePage`,
  `initPhysicalAllocator`: from the memory map of the firmware.
* `allocPage_base`, `freePage_base`: without the counters it is `PhysPageAllocator`.
* `AllocSys`, `allocStep`: the allocator with the pages its callers hold.
* **`allocLaw_of_reach`**: no page is handed out twice.
-/

namespace Rymos

open Transition

abbrev maxPhysRanges : ℕ := 32

/-! ## Alignment -/

def alignUpU64 (value align : ℕ) : ℕ := (value + align - 1) % 2 ^ 64 / align * align

def alignDownU64 (value align : ℕ) : ℕ := value / align * align

/-! ## The allocator -/

/-- The ranges are the first `range_count` of the array. -/
structure PhysAllocator extends PhysPageAllocator where
  totalPages : ℕ
  allocatedPages : ℕ

namespace PhysAllocator

def empty : PhysAllocator :=
  { ranges := [], freeStack := [], refused := [], totalPages := 0, allocatedPages := 0 }

def addRange (a : PhysAllocator) (start stop : ℕ) : PhysAllocator :=
  let start := alignUpU64 start pageSize
  let stop := alignDownU64 stop pageSize
  if stop ≤ start ∨ maxPhysRanges ≤ a.ranges.length then a
  else { a with
    ranges := a.ranges ++ [{ next := start, stop := stop }]
    totalPages := a.totalPages + (stop - start) / pageSize }

def allocPage (a : PhysAllocator) : Option (ℕ × PhysAllocator) :=
  match a.freeStack with
  | page :: freeStack =>
    some (page, { a with freeStack := freeStack, allocatedPages := a.allocatedPages + 1 })
  | [] => (takeRange a.ranges).map fun (page, ranges) =>
      (page, { a with ranges := ranges, allocatedPages := a.allocatedPages + 1 })

def freePage (a : PhysAllocator) (page : ℕ) : Bool × PhysAllocator :=
  if page % pageSize ≠ 0 ∨ freePageStackMax ≤ a.freeStack.length then
    (false, { a with refused := page :: a.refused })
  else (true, { a with freeStack := page :: a.freeStack, allocatedPages := a.allocatedPages - 1 })

end PhysAllocator

structure EfiMemoryDescriptor where
  typ : ℕ
  physicalStart : ℕ
  numberOfPages : ℕ

/-- The type of memory that is free to use. -/
abbrev efiConventionalMemory : ℕ := 7

/-- The end of a descriptor's memory. -/
def EfiMemoryDescriptor.stop (d : EfiMemoryDescriptor) : ℕ :=
  d.physicalStart + d.numberOfPages * pageSize

def addDescriptor (a : PhysAllocator) (d : EfiMemoryDescriptor) : PhysAllocator :=
  if d.typ ≠ efiConventionalMemory then a
  else
    a.addRange (if d.physicalStart < appLoadMax then appLoadMax else d.physicalStart)
      (d.stop % 2 ^ 64)

/-- The descriptors in the order of the map; none if there is no boot information. -/
def initPhysicalAllocator (memoryMap : List EfiMemoryDescriptor) : PhysAllocator :=
  memoryMap.foldl addDescriptor .empty

/-! ## Runs -/

/-- `held` are the pages that were handed out and not taken back. -/
structure AllocSys where
  alloc : PhysAllocator
  held : List ℕ

inductive AllocAct where
  | alloc
  | free (page : ℕ)

def allocStep (s : AllocSys) : AllocAct → Option AllocSys
  | .alloc =>
    match s.alloc.allocPage with
    | none => some s
    | some (page, alloc) => some { alloc := alloc, held := page :: s.held }
  | .free page =>
    let (ok, alloc) := s.alloc.freePage page
    some { alloc := alloc, held := if ok then s.held.erase page else s.held }

def AllocInit (memoryMap : List EfiMemoryDescriptor) (s : AllocSys) : Prop :=
  s = { alloc := initPhysicalAllocator memoryMap, held := [] }

/-- Callers free what they hold. -/
def FreesHeld (s : AllocSys) : AllocAct → Prop
  | .alloc => True
  | .free page => page ∈ s.held

instance (s : AllocSys) : (act : AllocAct) → Decidable (FreesHeld s act)
  | .alloc => isTrue trivial
  | .free page => inferInstanceAs (Decidable (page ∈ s.held))

def EfiMemoryDescriptor.Has (d : EfiMemoryDescriptor) (x : ℕ) : Prop :=
  d.physicalStart ≤ x ∧ x < d.stop

/-- A memory map: descriptors start at an address of a page, do not wrap and do not overlap. -/
structure UefiMap (memoryMap : List EfiMemoryDescriptor) : Prop where
  start : ∀ d ∈ memoryMap, d.physicalStart + pageSize ≤ 2 ^ 64
  fits : ∀ d ∈ memoryMap, d.stop < 2 ^ 64
  apart : memoryMap.Pairwise fun d e => ∀ x, ¬ (d.Has x ∧ e.Has x)

/-- A whole page of conventional memory that is not below the image window's end. -/
def Usable (memoryMap : List EfiMemoryDescriptor) (page : ℕ) : Prop :=
  page % pageSize = 0 ∧ appLoadMax ≤ page ∧
    ∃ d ∈ memoryMap, d.typ = efiConventionalMemory ∧ d.physicalStart ≤ page ∧ page + pageSize ≤ d.stop

structure AllocLaw (memoryMap : List EfiMemoryDescriptor) (s : AllocSys) : Prop where
  returned : ∀ page alloc, s.alloc.allocPage = some (page, alloc) →
    Usable memoryMap page ∧ page ∉ s.held
  apart : (s.alloc.freeStack ++ s.alloc.ranges.flatMap PageRange.pages ++ s.held).Nodup
  aligned : ∀ page ∈ s.alloc.freeStack ++ s.alloc.ranges.flatMap PageRange.pages ++ s.held,
    page % pageSize = 0
  counted : s.alloc.allocatedPages = s.held.length
  exhausted : s.alloc.allocPage = none →
    s.alloc.freeStack = [] ∧ ∀ range ∈ s.alloc.ranges, range.stop ≤ range.next

/-! ## Without the counters -/

section Base

variable {a a' : PhysAllocator} {page : ℕ}

theorem allocPage_base (a : PhysAllocator) :
    a.allocPage.map (fun r => (r.1, r.2.toPhysPageAllocator)) =
      a.toPhysPageAllocator.allocPage := by
  rw [PhysAllocator.allocPage, PhysPageAllocator.allocPage]
  cases a.freeStack with
  | cons page freeStack => rfl
  | nil =>
    dsimp only
    rw [Option.map_map]
    rfl

theorem allocPage_eq (h : a.allocPage = some (page, a')) :
    a.available = page :: a'.available ∧ a'.allocatedPages = a.allocatedPages + 1 := by
  have hb := allocPage_base a
  rw [h] at hb
  refine ⟨(allocPage_eq_some hb.symm).1, ?_⟩
  rw [PhysAllocator.allocPage] at h
  split at h
  · cases h
    rfl
  · obtain ⟨r, -, hr⟩ := Option.map_eq_some_iff.mp h
    cases hr
    rfl

theorem freePage_base (a : PhysAllocator) (page : ℕ) :
    ((a.freePage page).1, (a.freePage page).2.toPhysPageAllocator) =
      a.toPhysPageAllocator.freePage page := by
  rw [PhysAllocator.freePage, PhysPageAllocator.freePage]
  split_ifs <;> rfl

/-- A page taken back, or refused. -/
theorem freePage_cases (a : PhysAllocator) (page : ℕ) :
    ((a.freePage page).1 = true ∧ (a.freePage page).2.available = page :: a.available ∧
        (a.freePage page).2.allocatedPages = a.allocatedPages - 1) ∨
      (a.freePage page).1 = false ∧ (a.freePage page).2.available = a.available ∧
        (a.freePage page).2.allocatedPages = a.allocatedPages := by
  rw [PhysAllocator.freePage]
  split_ifs
  · exact .inr ⟨rfl, rfl, rfl⟩
  · exact .inl ⟨rfl, rfl, rfl⟩

end Base

/-! ## The ranges -/

section Ranges

variable {memoryMap : List EfiMemoryDescriptor} {d : EfiMemoryDescriptor} {a : PhysAllocator}
  {page : ℕ}

/-- The pages of a range with aligned ends. -/
theorem PageRange.mem_pages {range : PageRange} (hn : range.next % pageSize = 0)
    (hs : range.stop % pageSize = 0) : page ∈ range.pages ↔
      page % pageSize = 0 ∧ range.next ≤ page ∧ page + pageSize ≤ range.stop := by
  simp only [PageRange.pages, List.mem_range', pageSize] at *
  constructor
  · rintro ⟨k, hk, rfl⟩
    omega
  · rintro ⟨ha, hlo, hhi⟩
    exact ⟨(page - range.next) / 4096, by omega, by omega⟩

theorem PageRange.nodup_pages (range : PageRange) : range.pages.Nodup :=
  List.nodup_range' _

theorem alignUpU64_spec {value : ℕ} (h : value + pageSize ≤ 2 ^ 64) :
    alignUpU64 value pageSize % pageSize = 0 ∧ value ≤ alignUpU64 value pageSize := by
  simp only [alignUpU64, pageSize] at *
  omega

theorem alignDownU64_spec (value : ℕ) :
    alignDownU64 value pageSize % pageSize = 0 ∧ alignDownU64 value pageSize ≤ value := by
  simp only [alignDownU64, pageSize]
  omega

/-- What a range adds: nothing, or the whole pages in it. -/
theorem addRange_cases (a : PhysAllocator) {start stop : ℕ} (h : start + pageSize ≤ 2 ^ 64) :
    a.addRange start stop = a ∨
      ∃ range : PageRange, (a.addRange start stop).freeStack = a.freeStack ∧
        (a.addRange start stop).allocatedPages = a.allocatedPages ∧
        (a.addRange start stop).ranges = a.ranges ++ [range] ∧
        ∀ page ∈ range.pages, page % pageSize = 0 ∧ start ≤ page ∧ page + pageSize ≤ stop := by
  obtain ⟨hup, hle⟩ := alignUpU64_spec h
  obtain ⟨hdown, hge⟩ := alignDownU64_spec stop
  rw [PhysAllocator.addRange]
  split_ifs
  · exact .inl rfl
  · refine .inr ⟨_, rfl, rfl, rfl, fun page hp => ?_⟩
    obtain ⟨ha, hlo, hhi⟩ := (PageRange.mem_pages (by exact hup) (by exact hdown)).mp hp
    exact ⟨ha, hle.trans hlo, hhi.trans hge⟩

/-- What a descriptor adds: nothing, or pages of its own that can be used. -/
theorem addDescriptor_cases (hstart : d.physicalStart + pageSize ≤ 2 ^ 64) (hfits : d.stop < 2 ^ 64)
    (a : PhysAllocator) : addDescriptor a d = a ∨
      ∃ range : PageRange, (addDescriptor a d).freeStack = a.freeStack ∧
        (addDescriptor a d).allocatedPages = a.allocatedPages ∧
        (addDescriptor a d).ranges = a.ranges ++ [range] ∧
        ∀ page ∈ range.pages, page % pageSize = 0 ∧ appLoadMax ≤ page ∧
          d.typ = efiConventionalMemory ∧ d.physicalStart ≤ page ∧ page + pageSize ≤ d.stop := by
  rw [addDescriptor, Nat.mod_eq_of_lt hfits]
  by_cases htyp : d.typ ≠ efiConventionalMemory
  · rw [if_pos htyp]
    exact .inl rfl
  rw [if_neg htyp]
  obtain ⟨start, hs⟩ : ∃ start,
      (if d.physicalStart < appLoadMax then appLoadMax else d.physicalStart) = start := ⟨_, rfl⟩
  have hlo : start + pageSize ≤ 2 ^ 64 ∧ appLoadMax ≤ start ∧ d.physicalStart ≤ start := by
    by_cases hlt : d.physicalStart < appLoadMax
    · rw [if_pos hlt] at hs
      subst hs
      exact ⟨by decide, le_rfl, hlt.le⟩
    · rw [if_neg hlt] at hs
      subst hs
      exact ⟨hstart, not_lt.mp hlt, le_rfl⟩
  rw [hs]
  rcases @addRange_cases a start d.stop hlo.1 with h | ⟨range, hf, hc, hr, hp⟩
  · exact .inl h
  · refine .inr ⟨range, hf, hc, hr, fun page hpage => ?_⟩
    obtain ⟨ha, hge, hle⟩ := hp page hpage
    exact ⟨ha, hlo.2.1.trans hge, not_not.mp htyp, hlo.2.2.trans hge, hle⟩

/-- The pages to hand out are distinct pages of the descriptors added, apart from those to come. -/
structure Added (memoryMap rest : List EfiMemoryDescriptor) (a : PhysAllocator) : Prop where
  none_free : a.freeStack = []
  none_held : a.allocatedPages = 0
  nodup : (a.ranges.flatMap PageRange.pages).Nodup
  usable : ∀ page ∈ a.ranges.flatMap PageRange.pages, Usable memoryMap page
  apart : ∀ page ∈ a.ranges.flatMap PageRange.pages, ∀ d ∈ rest, ¬ d.Has page

/-- **One descriptor more.** -/
theorem Added.next {rest : List EfiMemoryDescriptor} (h : Added memoryMap (d :: rest) a)
    (hm : d ∈ memoryMap) (hstart : d.physicalStart + pageSize ≤ 2 ^ 64) (hfits : d.stop < 2 ^ 64)
    (hapart : ∀ e ∈ rest, ∀ x, ¬ (d.Has x ∧ e.Has x)) : Added memoryMap rest (addDescriptor a d) := by
  rcases addDescriptor_cases hstart hfits a with he | ⟨range, hf, hc, hr, hp⟩
  · rw [he]
    exact ⟨h.none_free, h.none_held, h.nodup, h.usable,
      fun page hpage e he => h.apart page hpage e (List.mem_cons_of_mem _ he)⟩
  have hpages : (addDescriptor a d).ranges.flatMap PageRange.pages =
      a.ranges.flatMap PageRange.pages ++ range.pages := by
    rw [hr, List.flatMap_append]
    simp
  have hown : ∀ page ∈ range.pages, d.Has page := by
    intro page hpage
    obtain ⟨-, -, -, hlo, hhi⟩ := hp page hpage
    exact ⟨hlo, by simp only [pageSize] at hhi; omega⟩
  refine ⟨hf.trans h.none_free, hc.trans h.none_held, ?_, ?_, ?_⟩
  · rw [hpages, List.nodup_append]
    refine ⟨h.nodup, range.nodup_pages, ?_⟩
    rintro page hold _ hnew rfl
    exact h.apart page hold d List.mem_cons_self (hown page hnew)
  · intro page hpage
    rw [hpages] at hpage
    rcases List.mem_append.mp hpage with hold | hnew
    · exact h.usable page hold
    · obtain ⟨ha, hmin, htyp, hlo, hhi⟩ := hp page hnew
      exact ⟨ha, hmin, d, hm, htyp, hlo, hhi⟩
  · intro page hpage e he
    rw [hpages] at hpage
    rcases List.mem_append.mp hpage with hold | hnew
    · exact h.apart page hold e (List.mem_cons_of_mem _ he)
    · exact fun hhas => hapart e he page ⟨hown page hnew, hhas⟩

/-- **The allocator at boot**: distinct usable pages. -/
theorem UefiMap.added (h : UefiMap memoryMap) : Added memoryMap [] (initPhysicalAllocator memoryMap) := by
  have hfold : ∀ (rest : List EfiMemoryDescriptor) (a : PhysAllocator), rest ⊆ memoryMap →
      rest.Pairwise (fun d e => ∀ x, ¬ (d.Has x ∧ e.Has x)) → Added memoryMap rest a →
        Added memoryMap [] (rest.foldl addDescriptor a) := by
    intro rest
    induction rest with
    | nil => exact fun _ _ _ ha => ha
    | cons d rest ih =>
      intro a hsub hpair ha
      obtain ⟨hd, hpair⟩ := List.pairwise_cons.mp hpair
      have hm : d ∈ memoryMap := hsub List.mem_cons_self
      refine ih _ (fun e he => hsub (List.mem_cons_of_mem _ he)) hpair ?_
      exact ha.next hm (h.start d hm) (h.fits d hm) hd
  exact hfold memoryMap .empty (List.Subset.refl _) h.apart
    ⟨rfl, rfl, List.nodup_nil, nofun, nofun⟩

end Ranges

/-! ## The law -/

section Law

variable {memoryMap : List EfiMemoryDescriptor} {s s' : AllocSys}

/-- The pages to hand out and those held are distinct usable pages, and the held ones are counted. -/
structure HeldInv (memoryMap : List EfiMemoryDescriptor) (s : AllocSys) : Prop where
  nodup : (s.alloc.available ++ s.held).Nodup
  usable : ∀ page ∈ s.alloc.available ++ s.held, Usable memoryMap page
  counted : s.alloc.allocatedPages = s.held.length

theorem AllocInit.inv (hm : UefiMap memoryMap) (h : AllocInit memoryMap s) : HeldInv memoryMap s := by
  cases h
  have ha := hm.added
  have hav : (initPhysicalAllocator memoryMap).available ++ [] =
      (initPhysicalAllocator memoryMap).ranges.flatMap PageRange.pages := by
    rw [PhysPageAllocator.available, ha.none_free, List.nil_append, List.append_nil]
  refine ⟨?_, ?_, ha.none_held⟩
  · rw [hav]
    exact ha.nodup
  · rw [hav]
    exact ha.usable

/-- The pages there are stay the same ones. -/
theorem HeldInv.of_perm (h : HeldInv memoryMap s)
    (hp : (s'.alloc.available ++ s'.held).Perm (s.alloc.available ++ s.held))
    (hc : s'.alloc.allocatedPages = s'.held.length) : HeldInv memoryMap s' :=
  ⟨hp.nodup_iff.mpr h.nodup, fun page hpage => h.usable page (hp.mem_iff.mp hpage), hc⟩

theorem allocStep_free (s : AllocSys) (page : ℕ) : allocStep s (.free page) = some
    { alloc := (s.alloc.freePage page).2
      held := if (s.alloc.freePage page).1 then s.held.erase page else s.held } := rfl

/-- **A call moves pages between the allocator and its callers.** -/
theorem HeldInv.step (h : HeldInv memoryMap s) {act : AllocAct} (hg : FreesHeld s act)
    (hs : allocStep s act = some s') : HeldInv memoryMap s' := by
  cases act with
  | alloc =>
    rw [allocStep] at hs
    split at hs
    · cases hs
      exact h
    · next page alloc ha =>
      cases hs
      obtain ⟨hav, hcount⟩ := allocPage_eq ha
      refine h.of_perm ?_ ?_
      · rw [hav]
        exact List.perm_middle
      · rw [hcount, h.counted, List.length_cons]
  | free page =>
    rw [allocStep_free] at hs
    obtain rfl := (Option.some.inj hs).symm
    rcases freePage_cases s.alloc page with ⟨hok, hav, hcount⟩ | ⟨hok, hav, hcount⟩
    · refine h.of_perm ?_ ?_
      · simp only [hok, if_true, hav]
        exact List.perm_middle.symm.trans
          ((List.perm_cons_erase (show page ∈ s.held from hg)).symm.append_left _)
      · simp only [hok, if_true, hcount, h.counted]
        exact (List.length_erase_of_mem hg).symm
    · refine h.of_perm ?_ ?_
      · simp only [hok, hav]
        exact List.Perm.refl _
      · simp only [hok, hcount, h.counted]
        rfl

theorem HeldInv.law (h : HeldInv memoryMap s) : AllocLaw memoryMap s := by
  refine ⟨fun page alloc ha => ?_, h.nodup, fun page hpage => (h.usable page hpage).1, h.counted,
    fun hnone => ?_⟩
  · obtain ⟨hav, -⟩ := allocPage_eq ha
    have hnd := h.nodup
    rw [hav, List.cons_append, List.nodup_cons] at hnd
    refine ⟨h.usable page ?_, fun hc => hnd.1 (List.mem_append_right _ hc)⟩
    rw [hav]
    exact List.mem_cons_self
  · have hb := allocPage_base s.alloc
    rw [hnone, Option.map_none] at hb
    have hav := allocPage_eq_none.mp hb.symm
    obtain ⟨hfree, hranges⟩ := List.append_eq_nil_iff.mp hav
    refine ⟨hfree, fun range hr => ?_⟩
    by_contra hlt
    have := List.flatMap_eq_nil_iff.mp hranges range hr
    rw [PageRange.pages_of_lt (not_le.mp hlt)] at this
    cases this

/-- **No page is handed out twice**, in any run in which callers free what they hold. -/
theorem allocLaw_of_reach (hm : UefiMap memoryMap)
    (h : Reach (AllocInit memoryMap) FreesHeld allocStep s) : AllocLaw memoryMap s :=
  HeldInv.law <| h.inv (I := HeldInv memoryMap) (fun _ hi => hi.inv hm) fun _ _ _ hx hg hs => hx.step hg hs

end Law

/-- Memory below and above the end of the image window, with memory in use in between. -/
def smallMap : List EfiMemoryDescriptor :=
  [{ typ := 7, physicalStart := 0x100000, numberOfPages := 0x8F02 },
    { typ := 2, physicalStart := 0x9002000, numberOfPages := 16 },
    { typ := 7, physicalStart := 0xA000000, numberOfPages := 2 }]

theorem uefiMap_smallMap : UefiMap smallMap := by
  refine ⟨by decide, by decide, ?_⟩
  simp only [smallMap, List.pairwise_cons, List.mem_cons, List.not_mem_nil, or_false, forall_eq_or_imp,
    forall_eq, EfiMemoryDescriptor.Has, EfiMemoryDescriptor.stop, pageSize]
  refine ⟨⟨fun x => by omega, fun x => by omega⟩, fun x => by omega, nofun, .nil⟩

/-- Three pages handed out, the second one taken back and handed out again. -/
def handOut : List AllocAct := [.alloc, .alloc, .alloc, .free 0x9001000, .alloc]

theorem allocLaw_of_reach_handOut : ∃ s,
    exec allocStep { alloc := initPhysicalAllocator smallMap, held := [] } handOut = some s ∧
      s.held = [0x9001000, 0xA000000, 0x9000000] ∧ AllocLaw smallMap s := by
  have hrun : (exec allocStep { alloc := initPhysicalAllocator smallMap, held := [] } handOut).map
      AllocSys.held = some [0x9001000, 0xA000000, 0x9000000] := by decide +kernel
  obtain ⟨s, hs, hheld⟩ := Option.map_eq_some_iff.mp hrun
  have hg : AllGood FreesHeld allocStep { alloc := initPhysicalAllocator smallMap, held := [] }
      handOut := by decide +kernel
  have hstart : Reach (AllocInit smallMap) FreesHeld allocStep
      { alloc := initPhysicalAllocator smallMap, held := [] } := .start rfl
  exact ⟨s, hs, hheld, allocLaw_of_reach uefiMap_smallMap (reach_of_exec hstart hg hs)⟩

end Rymos
