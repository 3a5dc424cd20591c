import Mathlib.Tactic
import Rymos.Base.Intervals
import Rymos.Base.Runs
import Rymos.Mem.Paging

/-!
# The heap of a program

* `BumpAllocator`, `BumpAllocator.alloc`: the allocator of the runtime. `alignUp` wraps as the code's does.
* `le_alignUp`, `alignUp_lt`, `dvd_alignUp`, **`chunkPages_bounds`**: what the sums come to if none wraps.
* **`alloc_of_fits`**, **`alloc_of_not_asks`**, **`alloc_of_none`**, **`alloc_of_some`**: the four ends of a
  call.
* `HeapSys`, `heapStep`: the allocator with the regions it got and the blocks it returned.
* `HeapLaw`, `CallLaw`: what is asked of a state and of a call.
* **`heapLaw_of_reach`**: both hold while the next address and the alignment stay below `2 ^ 64` together.
-/

namespace Rymos

open Transition Intervals

abbrev minHeapChunk : ℕ := 64 * 1024

/-- `(value + align - 1) & !(align - 1)`, for a power of two. -/
def alignUp (value align : ℕ) : ℕ := (value + align - 1) % 2 ^ 64 / align * align

/-- `stop` is `end`. -/
structure BumpAllocator where
  base : ℕ
  next : ℕ
  stop : ℕ
  allocated : ℕ
deriving DecidableEq

def BumpAllocator.empty : BumpAllocator := { base := 0, next := 0, stop := 0, allocated := 0 }

/-- The pages asked for, for a block that does not fit. -/
def chunkPages (size align : ℕ) : ℕ := alignUp (max (size + align) minHeapChunk) pageSize / pageSize

/-- The block is the first one of the chunk. -/
def BumpAllocator.start (b : BumpAllocator) (base pages size align : ℕ) : BumpAllocator where
  base := if b.base = 0 then base else b.base
  next := alignUp base align + size
  stop := (base + pages * pageSize) % 2 ^ 64
  allocated := (b.allocated + pages * pageSize) % 2 ^ 64

/-- The address of the block, `0` for none. `memAllocPages` is the call of the kernel, with what it
changes. -/
def BumpAllocator.alloc {σ : Type} (memAllocPages : ℕ → σ → Option ℕ × σ) (size align : ℕ)
    (b : BumpAllocator) (s : σ) : ℕ × BumpAllocator × σ :=
  if 2 ^ 64 ≤ alignUp b.next align + size then (0, b, s)
  else if alignUp b.next align + size ≤ b.stop then
    (alignUp b.next align, { b with next := alignUp b.next align + size }, s)
  else if 2 ^ 64 ≤ size + align then (0, b, s)
  else
    match memAllocPages (chunkPages size align) s with
    | (none, s) => (0, b, s)
    | (some base, s) =>
      if 2 ^ 64 ≤ alignUp base align + size then (0, b, s)
      else if (base + chunkPages size align * pageSize) % 2 ^ 64 < alignUp base align + size then
        (0, b, s)
      else (alignUp base align, b.start base (chunkPages size align) size align, s)

/-! ## Sums -/

/-- A size and an alignment that a layout can have. -/
structure ValidLayout (size align : ℕ) : Prop where
  nonzero : 0 < size
  power : ∃ k, align = 2 ^ k
  fits : size + align ≤ 2 ^ 63

section Sums

variable {value size align : ℕ}

theorem ValidLayout.pos (h : ValidLayout size align) : 0 < align := by
  obtain ⟨k, rfl⟩ := h.power
  positivity

theorem alignUp_eq (h : value + align ≤ 2 ^ 64) :
    alignUp value align = (value + align - 1) / align * align := by
  by_cases ha : align = 0
  · simp [alignUp, ha]
  · rw [alignUp, Nat.mod_eq_of_lt (by omega)]

theorem le_alignUp (h : value + align ≤ 2 ^ 64) (ha : 0 < align) : value ≤ alignUp value align := by
  rw [alignUp_eq h]
  have hmod := Nat.mod_lt (value + align - 1) ha
  have hdiv := Nat.div_add_mod (value + align - 1) align
  rw [Nat.mul_comm align] at hdiv
  omega

theorem alignUp_lt (h : value + align ≤ 2 ^ 64) (ha : 0 < align) :
    alignUp value align < value + align := by
  rw [alignUp_eq h]
  have hdiv := Nat.div_mul_le_self (value + align - 1) align
  omega

theorem dvd_alignUp (value align : ℕ) : align ∣ alignUp value align := Nat.dvd_mul_left align _

/-- **A chunk has room for the block wherever it starts**, and is not much larger. -/
theorem chunkPages_bounds (h : ValidLayout size align) :
    size + align ≤ chunkPages size align * pageSize ∧
      chunkPages size align * pageSize < max (size + align) minHeapChunk + pageSize := by
  have hfits := h.fits
  have hmax : max (size + align) minHeapChunk + pageSize ≤ 2 ^ 64 := by
    simp only [minHeapChunk, pageSize]
    omega
  have hexact : chunkPages size align * pageSize =
      alignUp (max (size + align) minHeapChunk) pageSize := Nat.div_mul_cancel (dvd_alignUp _ _)
  rw [hexact]
  exact ⟨(le_max_left _ _).trans (le_alignUp hmax (by decide)), alignUp_lt hmax (by decide)⟩

end Sums

/-! ## One call -/

/-- The block fits into the chunk. -/
def BumpAllocator.Fits (size align : ℕ) (b : BumpAllocator) : Prop :=
  alignUp b.next align + size ≤ b.stop

/-- The call gets as far as to ask the kernel for a chunk. -/
def BumpAllocator.Asks (size align : ℕ) (b : BumpAllocator) : Prop :=
  alignUp b.next align + size < 2 ^ 64 ∧ ¬ b.Fits size align ∧ size + align < 2 ^ 64

instance (size align : ℕ) (b : BumpAllocator) : Decidable (b.Fits size align) :=
  inferInstanceAs (Decidable (_ ≤ _))

instance (size align : ℕ) (b : BumpAllocator) : Decidable (b.Asks size align) :=
  inferInstanceAs (Decidable (_ ∧ _ ∧ _))

section Calls

variable {σ : Type} {m : ℕ → σ → Option ℕ × σ} {size align base : ℕ} {b : BumpAllocator} {s s' : σ}

theorem BumpAllocator.alloc_of_fits (h : b.Fits size align) (hs : b.stop < 2 ^ 64) :
    b.alloc m size align s =
      (alignUp b.next align, { b with next := alignUp b.next align + size }, s) := by
  have hle : alignUp b.next align + size ≤ b.stop := h
  rw [BumpAllocator.alloc, if_neg (by omega), if_pos hle]

theorem BumpAllocator.alloc_of_not_asks (h : ¬ b.Fits size align) (ha : ¬ b.Asks size align) :
    b.alloc m size align s = (0, b, s) := by
  have hle : ¬ alignUp b.next align + size ≤ b.stop := h
  rw [BumpAllocator.alloc, if_neg hle]
  split_ifs with hend hsize
  · rfl
  · rfl
  · exact absurd ⟨not_le.mp hend, h, not_le.mp hsize⟩ ha

theorem BumpAllocator.alloc_of_none (h : b.Asks size align)
    (hm : m (chunkPages size align) s = (none, s')) : b.alloc m size align s = (0, b, s') := by
  have hle : ¬ alignUp b.next align + size ≤ b.stop := h.2.1
  rw [BumpAllocator.alloc, if_neg (not_le.mpr h.1), if_neg hle, if_neg (not_le.mpr h.2.2), hm]

/-- **A new chunk has room for the block.** -/
theorem BumpAllocator.alloc_of_some (h : b.Asks size align) (hv : ValidLayout size align)
    (hm : m (chunkPages size align) s = (some base, s'))
    (hb : base + chunkPages size align * pageSize < 2 ^ 64) :
    b.alloc m size align s =
      (alignUp base align, b.start base (chunkPages size align) size align, s') := by
  have hle : ¬ alignUp b.next align + size ≤ b.stop := h.2.1
  have hpages := (chunkPages_bounds hv).1
  have hlt : alignUp base align < base + align := alignUp_lt (by omega) hv.pos
  rw [BumpAllocator.alloc, if_neg (not_le.mpr h.1), if_neg hle, if_neg (not_le.mpr h.2.2), hm]
  simp only
  rw [if_neg (by omega), Nat.mod_eq_of_lt hb, if_neg (by omega)]

end Calls

/-! ## Runs -/

/-- A block returned. -/
structure Block where
  addr : ℕ
  size : ℕ
  align : ℕ
deriving DecidableEq

def Block.interval (b : Block) : Interval := ⟨b.addr, b.addr + b.size⟩

/-- The allocator, the regions it got and the blocks it returned, the last ones first. -/
structure HeapSys where
  bump : BumpAllocator
  regions : List Interval
  blocks : List Block
deriving DecidableEq

/-- A call, with the answer of `mem_alloc_pages` if it is asked. -/
structure Request where
  size : ℕ
  align : ℕ
  answer : Option ℕ

/-- The region that `pages` pages at `base` are. -/
def chunk (base pages : ℕ) : Interval := ⟨base, base + pages * pageSize⟩

theorem chunk_length (base pages : ℕ) : (chunk base pages).length = pages * pageSize :=
  Nat.add_sub_cancel_left _ _

def answerWith (answer : Option ℕ) (pages : ℕ) (regions : List Interval) :
    Option ℕ × List Interval :=
  match answer with
  | none => (none, regions)
  | some base => (some base, chunk base pages :: regions)

/-- What a request comes to. -/
def HeapSys.call (s : HeapSys) (r : Request) : ℕ × BumpAllocator × List Interval :=
  s.bump.alloc (answerWith r.answer) r.size r.align s.regions

def heapStep (s : HeapSys) (r : Request) : Option HeapSys :=
  let (addr, bump, regions) := s.call r
  some { bump, regions, blocks := if addr = 0 then s.blocks else ⟨addr, r.size, r.align⟩ :: s.blocks }

def HeapInit (s : HeapSys) : Prop := s = { bump := .empty, regions := [], blocks := [] }

/-- A region that the kernel may return: its address is not `0`, its end, which the kernel computes with a
check, is an address, and it is apart from those before. -/
structure FreshRegion (s : HeapSys) (base pages : ℕ) : Prop where
  pos : 0 < base
  lt : base + pages * pageSize < 2 ^ 64
  apart : ∀ I ∈ s.regions, (chunk base pages).Apart I

def GoodRequest (s : HeapSys) (r : Request) : Prop :=
  ValidLayout r.size r.align ∧
    ∀ base, r.answer = some base → FreshRegion s base (chunkPages r.size r.align)

/-- The next address is so low that it can be aligned. -/
def AlignsNext (s : HeapSys) (r : Request) : Prop := s.bump.next + r.align < 2 ^ 64

instance (s : HeapSys) (r : Request) : Decidable (AlignsNext s r) := inferInstanceAs (Decidable (_ < _))

/-- What is asked of a state. -/
structure HeapLaw (s : HeapSys) : Prop where
  aligned : ∀ b ∈ s.blocks, b.align ∣ b.addr
  inside : ∀ b ∈ s.blocks, ∃ I ∈ s.regions, b.interval.Within I
  disjoint : s.blocks.Pairwise fun b c => b.interval.Apart c.interval

/-- No sum that a call computes without a check is too large for its type. -/
structure NoWrap (s : HeapSys) (r : Request) : Prop where
  next : s.bump.next + r.align < 2 ^ 64
  pages : s.bump.Asks r.size r.align → max (r.size + r.align) minHeapChunk + pageSize < 2 ^ 64
  fresh : s.bump.Asks r.size r.align → ∀ base, r.answer = some base →
    base + chunkPages r.size r.align * pageSize < 2 ^ 64 ∧ base + r.align < 2 ^ 64 ∧
      s.bump.allocated + chunkPages r.size r.align * pageSize < 2 ^ 64

/-- A block of the chunk, without asking the kernel. -/
def BumpAllocator.Serves (size align : ℕ) (b : BumpAllocator) : Prop :=
  ∀ {σ : Type} (memAllocPages : ℕ → σ → Option ℕ × σ) (s : σ), ∃ addr b',
    b.alloc memAllocPages size align s = (addr, b', s) ∧ addr ≠ 0 ∧ align ∣ addr ∧ b.next ≤ addr ∧
      addr + size ≤ b.stop

/-- What is asked of a call. -/
structure CallLaw (s : HeapSys) (r : Request) : Prop where
  wraps : NoWrap s r
  after : ∀ s', heapStep s r = some s' → HeapLaw s'
  null : (s.call r).1 = 0 → (s.call r).2.1 = s.bump ∧ ∀ size align, ValidLayout size align →
    s.bump.next + size + align ≤ s.bump.stop + 1 → (s.call r).2.1.Serves size align

/-! ## The invariant -/

/-- What is left of the chunk. -/
def BumpAllocator.rest (b : BumpAllocator) : Interval := ⟨b.next, b.stop⟩

structure HeapInv (s : HeapSys) : Prop where
  law : HeapLaw s
  le : s.bump.next ≤ s.bump.stop
  lt : s.bump.stop < 2 ^ 64
  /-- What is left, if anything, is a part of a region. -/
  left : s.bump.next < s.bump.stop → ∃ I ∈ s.regions, s.bump.rest.Within I
  free : ∀ b ∈ s.blocks, b.interval.Apart s.bump.rest
  regions : ∀ I ∈ s.regions, 0 < I.lo ∧ I.hi < 2 ^ 64
  apart : s.regions.Pairwise Interval.Apart
  allocated : s.bump.allocated ≤ total s.regions

theorem heapInv_init {s : HeapSys} (h : HeapInit s) : HeapInv s := by
  cases h
  exact { law := ⟨nofun, nofun, .nil⟩, le := le_rfl, lt := by decide, left := nofun, free := nofun,
          regions := nofun, apart := .nil, allocated := le_rfl }

section Steps

variable {s s' : HeapSys} {r : Request} {base size align : ℕ}

/-- **A block of the chunk.** -/
theorem HeapInv.serve (h : HeapInv s) (hv : ValidLayout size align)
    (ha : s.bump.next + align < 2 ^ 64) (hf : s.bump.Fits size align) :
    HeapInv { bump := { s.bump with next := alignUp s.bump.next align + size }
              regions := s.regions
              blocks := ⟨alignUp s.bump.next align, size, align⟩ :: s.blocks } := by
  have hle := le_alignUp ha.le hv.pos
  have hfits : alignUp s.bump.next align + size ≤ s.bump.stop := hf
  have hpos := hv.nonzero
  obtain ⟨I, hI, hrest⟩ := h.left (by omega)
  have hblock : (Block.mk (alignUp s.bump.next align) size align).interval.Within s.bump.rest :=
    ⟨hle, hfits⟩
  have hleft : Interval.Within ⟨alignUp s.bump.next align + size, s.bump.stop⟩ s.bump.rest :=
    ⟨hle.trans (Nat.le_add_right _ _), le_rfl⟩
  exact
    { law :=
        { aligned := List.forall_mem_cons.mpr ⟨dvd_alignUp _ _, h.law.aligned⟩
          inside := List.forall_mem_cons.mpr ⟨⟨I, hI, hblock.trans hrest⟩, h.law.inside⟩
          disjoint := List.pairwise_cons.mpr
            ⟨fun b hb => ((h.free b hb).within (.refl _) hblock).symm, h.law.disjoint⟩ }
      le := hfits
      lt := h.lt
      left := fun _ => ⟨I, hI, hleft.trans hrest⟩
      free := List.forall_mem_cons.mpr
        ⟨.inl le_rfl, fun b hb => (h.free b hb).within (.refl _) hleft⟩
      regions := h.regions
      apart := h.apart
      allocated := h.allocated }

theorem FreshRegion.alignUp_ne_zero (h : FreshRegion s base (chunkPages size align))
    (hv : ValidLayout size align) : alignUp base align ≠ 0 := by
  have hpos := h.pos
  have hlt := h.lt
  have hpages := (chunkPages_bounds hv).1
  have hle : base ≤ alignUp base align := le_alignUp (by omega) hv.pos
  omega

/-- **The first block of a new chunk.** -/
theorem HeapInv.grow (h : HeapInv s) (hv : ValidLayout size align)
    (hr : FreshRegion s base (chunkPages size align)) :
    HeapInv { bump := s.bump.start base (chunkPages size align) size align
              regions := chunk base (chunkPages size align) :: s.regions
              blocks := ⟨alignUp base align, size, align⟩ :: s.blocks } := by
  obtain ⟨hbase, hend, hapart⟩ := hr
  obtain ⟨hpages, -⟩ := chunkPages_bounds hv
  have hpos := hv.nonzero
  have hle : base ≤ alignUp base align := le_alignUp (by omega) hv.pos
  have hlt : alignUp base align < base + align := alignUp_lt (by omega) hv.pos
  have hstop : (base + chunkPages size align * pageSize) % 2 ^ 64 =
      base + chunkPages size align * pageSize := Nat.mod_eq_of_lt hend
  have hfit : alignUp base align + size ≤ base + chunkPages size align * pageSize := by omega
  have hblock : (Block.mk (alignUp base align) size align).interval.Within
      (chunk base (chunkPages size align)) := ⟨hle, hfit⟩
  have hrest : (s.bump.start base (chunkPages size align) size align).rest.Within
      (chunk base (chunkPages size align)) := ⟨hle.trans (Nat.le_add_right _ _), hstop.le⟩
  have hold : ∀ {I}, I.Within (chunk base (chunkPages size align)) → ∀ b ∈ s.blocks,
      b.interval.Apart I := fun {I} hI b hb => by
    obtain ⟨J, hJ, hb⟩ := h.law.inside b hb
    exact (hapart J hJ).symm.within hb hI
  exact
    { law :=
        { aligned := List.forall_mem_cons.mpr ⟨dvd_alignUp _ _, h.law.aligned⟩
          inside := List.forall_mem_cons.mpr ⟨⟨_, List.mem_cons_self, hblock⟩, fun b hb =>
            let ⟨I, hI, hin⟩ := h.law.inside b hb
            ⟨I, List.mem_cons_of_mem _ hI, hin⟩⟩
          disjoint := List.pairwise_cons.mpr ⟨fun b hb => (hold hblock b hb).symm, h.law.disjoint⟩ }
      le := hfit.trans hstop.ge
      lt := hstop.trans_lt hend
      left := fun _ => ⟨_, List.mem_cons_self, hrest⟩
      free := List.forall_mem_cons.mpr ⟨.inl le_rfl, hold hrest⟩
      regions := List.forall_mem_cons.mpr ⟨⟨hbase, hend⟩, h.regions⟩
      apart := List.pairwise_cons.mpr ⟨hapart, h.apart⟩
      allocated :=
        calc (s.bump.allocated + chunkPages size align * pageSize) % 2 ^ 64
            ≤ s.bump.allocated + chunkPages size align * pageSize := Nat.mod_le _ _
          _ ≤ chunkPages size align * pageSize + total s.regions := by
              have := h.allocated
              omega
          _ = total (chunk base (chunkPages size align) :: s.regions) := by
              rw [total_cons, chunk_length] }

/-- What a call comes to while the next address can be aligned. -/
theorem HeapInv.call_cases (h : HeapInv s) (hg : GoodRequest s r) :
    (s.bump.Fits r.size r.align ∧ s.call r = (alignUp s.bump.next r.align,
        { s.bump with next := alignUp s.bump.next r.align + r.size }, s.regions)) ∨
      (¬ s.bump.Fits r.size r.align ∧ s.call r = (0, s.bump, s.regions)) ∨
      ∃ base, r.answer = some base ∧ s.bump.Asks r.size r.align ∧ s.call r = (alignUp base r.align,
        s.bump.start base (chunkPages r.size r.align) r.size r.align,
        chunk base (chunkPages r.size r.align) :: s.regions) := by
  by_cases hf : s.bump.Fits r.size r.align
  · exact .inl ⟨hf, BumpAllocator.alloc_of_fits hf h.lt⟩
  · by_cases ha : s.bump.Asks r.size r.align
    · cases he : r.answer with
      | none =>
        refine .inr (.inl ⟨hf, ?_⟩)
        rw [HeapSys.call, he]
        exact BumpAllocator.alloc_of_none ha rfl
      | some base =>
        refine .inr (.inr ⟨base, rfl, ha, ?_⟩)
        rw [HeapSys.call, he]
        exact BumpAllocator.alloc_of_some ha hg.1 rfl (hg.2 base he).lt
    · exact .inr (.inl ⟨hf, BumpAllocator.alloc_of_not_asks hf ha⟩)

theorem HeapInv.alignUp_ne_zero (h : HeapInv s) (hv : ValidLayout size align)
    (ha : s.bump.next + align < 2 ^ 64) (hf : s.bump.Fits size align) :
    alignUp s.bump.next align ≠ 0 := by
  have hle := le_alignUp ha.le hv.pos
  have hfits : alignUp s.bump.next align + size ≤ s.bump.stop := hf
  have hpos := hv.nonzero
  obtain ⟨I, hI, hrest⟩ := h.left (by omega)
  have hlo := (h.regions I hI).1
  have hnext : I.lo ≤ s.bump.next := hrest.1
  omega

theorem HeapInv.step (h : HeapInv s) (hg : GoodRequest s r) (ha : AlignsNext s r)
    (hs : heapStep s r = some s') : HeapInv s' := by
  rw [heapStep, Option.some.injEq] at hs
  subst hs
  rcases h.call_cases hg with ⟨hf, hc⟩ | ⟨-, hc⟩ | ⟨base, hb, -, hc⟩
  · rw [hc]
    simp only [if_neg (h.alignUp_ne_zero hg.1 ha hf)]
    exact h.serve hg.1 ha hf
  · rw [hc]
    exact h
  · have hnew := hg.2 base hb
    rw [hc]
    simp only [if_neg (hnew.alignUp_ne_zero hg.1)]
    exact h.grow hg.1 hnew

/-- What is left of the chunk serves what fits into it. -/
theorem HeapInv.serves (h : HeapInv s) (hv : ValidLayout size align)
    (hroom : s.bump.next + size + align ≤ s.bump.stop + 1) : s.bump.Serves size align := by
  intro σ m t
  have hlt := h.lt
  have hpos := hv.nonzero
  have hpos' := hv.pos
  have hup : alignUp s.bump.next align < s.bump.next + align := alignUp_lt (by omega) hpos'
  have hf : s.bump.Fits size align := show alignUp s.bump.next align + size ≤ s.bump.stop by omega
  exact ⟨_, _, BumpAllocator.alloc_of_fits hf h.lt,
    h.alignUp_ne_zero hv (by omega) hf, dvd_alignUp _ _, le_alignUp (by omega) hpos', hf⟩

theorem HeapInv.noWrap (h : HeapInv s) (hg : GoodRequest s r) (ha : AlignsNext s r) : NoWrap s r := by
  have hfits := hg.1.fits
  refine ⟨ha, fun _ => ?_, fun _ base hb => ?_⟩
  · simp only [minHeapChunk, pageSize]
    omega
  · obtain ⟨hbase, hend, hapart⟩ := hg.2 base hb
    have hpages := (chunkPages_bounds hg.1).1
    have htotal : total (chunk base (chunkPages r.size r.align) :: s.regions) ≤ 2 ^ 64 - 1 :=
      total_le (List.pairwise_cons.mpr ⟨hapart, h.apart⟩) (List.forall_mem_cons.mpr
        ⟨Nat.le_sub_one_of_lt hend, fun I hI => Nat.le_sub_one_of_lt (h.regions I hI).2⟩)
    rw [total_cons, chunk_length] at htotal
    have hall := h.allocated
    exact ⟨hend, by omega, by omega⟩

theorem HeapInv.callLaw_iff (h : HeapInv s) (hg : GoodRequest s r) :
    CallLaw s r ↔ AlignsNext s r := by
  refine ⟨fun hl => hl.wraps.next, fun ha => ?_⟩
  refine ⟨h.noWrap hg ha, fun s' hs => (h.step hg ha hs).law, fun hzero => ?_⟩
  rcases h.call_cases hg with ⟨hf, hc⟩ | ⟨-, hc⟩ | ⟨base, hb, -, hc⟩
  · rw [hc] at hzero
    exact absurd hzero (h.alignUp_ne_zero hg.1 ha hf)
  · rw [hc]
    exact ⟨rfl, fun size align hv hroom => h.serves hv hroom⟩
  · rw [hc] at hzero
    exact absurd hzero ((hg.2 base hb).alignUp_ne_zero hg.1)

end Steps

/-- **The blocks of a program** are aligned, inside regions of the kernel and apart, as long as every call's
next address and alignment are together below `2 ^ 64`; a call keeps to what is asked of it just then. -/
theorem heapLaw_of_reach {s : HeapSys}
    (h : Reach HeapInit (fun s r => GoodRequest s r ∧ AlignsNext s r) heapStep s) :
    HeapLaw s ∧ ∀ r, GoodRequest s r → (CallLaw s r ↔ AlignsNext s r) := by
  have hinv : HeapInv s := h.inv (fun _ => heapInv_init) fun _ _ _ hi hg => hi.step hg.1 hg.2
  exact ⟨hinv.law, fun _ hg => hinv.callLaw_iff hg⟩

/-- A program without blocks. -/
def noHeap : HeapSys := { bump := .empty, regions := [], blocks := [] }

/-- A first block, in a chunk at the start of the first window. -/
def firstBlock : Request := { size := 8, align := 8, answer := some 0xFFFF900000000000 }

theorem validLayout_eight : ValidLayout 8 8 := ⟨by decide, ⟨3, rfl⟩, by decide⟩

theorem goodRequest_firstBlock : GoodRequest noHeap firstBlock :=
  ⟨validLayout_eight, fun _ he => by cases he; exact ⟨by decide, by decide, nofun⟩⟩

theorem goodRequest_of_none {s : HeapSys} {size align : ℕ} (h : ValidLayout size align) :
    GoodRequest s ⟨size, align, none⟩ := ⟨h, nofun⟩

/-- The state after it. -/
def oneBlock : HeapSys where
  bump := { base := 0xFFFF900000000000, next := 0xFFFF900000000008, stop := 0xFFFF900000010000,
            allocated := minHeapChunk }
  regions := [⟨0xFFFF900000000000, 0xFFFF900000010000⟩]
  blocks := [⟨0xFFFF900000000000, 8, 8⟩]

theorem heapStep_firstBlock : heapStep noHeap firstBlock = some oneBlock := by decide +kernel

theorem validLayout_large : ValidLayout 8 (2 ^ 47) := ⟨by decide, ⟨47, rfl⟩, by decide⟩

theorem heapLaw_of_reach_oneBlock :
    HeapLaw oneBlock ∧ CallLaw oneBlock ⟨8, 8, none⟩ ∧ ¬ CallLaw oneBlock ⟨8, 2 ^ 47, none⟩ := by
  obtain ⟨hlaw, hcall⟩ := heapLaw_of_reach
    (.next (.start rfl) ⟨goodRequest_firstBlock, by decide⟩ heapStep_firstBlock)
  exact ⟨hlaw, (hcall _ (goodRequest_of_none validLayout_eight)).mpr (by decide), fun h =>
    absurd ((hcall _ (goodRequest_of_none validLayout_large)).mp h) (by decide)⟩

/-- The next address is aligned to the address `0`: the request returns no block, and the next one a block at
address `8`. -/
theorem not_heapLaw_of_reach : ∃ s, Reach HeapInit GoodRequest heapStep s ∧
    ⟨8, 8, 8⟩ ∈ s.blocks ∧ s.regions = oneBlock.regions ∧ ¬ HeapLaw s := by
  have hlarge : heapStep oneBlock ⟨8, 2 ^ 47, none⟩ =
      some { oneBlock with bump := { oneBlock.bump with next := 8 } } := by decide +kernel
  have hlow : heapStep { oneBlock with bump := { oneBlock.bump with next := 8 } } ⟨8, 8, none⟩ =
      some { oneBlock with
        bump := { oneBlock.bump with next := 16 }
        blocks := ⟨8, 8, 8⟩ :: oneBlock.blocks } := by decide +kernel
  refine ⟨_, .next (.next (.next (.start rfl) goodRequest_firstBlock heapStep_firstBlock)
    (goodRequest_of_none validLayout_large) hlarge) (goodRequest_of_none validLayout_eight) hlow,
    List.mem_cons_self, rfl, fun hl => ?_⟩
  obtain ⟨I, hI, hin⟩ := hl.inside ⟨8, 8, 8⟩ List.mem_cons_self
  obtain rfl : I = ⟨0xFFFF900000000000, 0xFFFF900000010000⟩ := List.mem_singleton.mp hI
  exact absurd hin (by decide)

end Rymos
