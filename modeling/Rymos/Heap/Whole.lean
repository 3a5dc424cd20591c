import Mathlib.Tactic
import Rymos.Heap.Bump
import Rymos.Mem.Returned

/-!
# The heap window of a program

* `giveUpFrom`, `failsIn`: the memory in which a call decides to return nothing.
* **`MemInv.giveUp_of_fresh`**: while a fresh range is mapped, that is one without a page left.
* `ProgSys`, `ProgAct`, `progStep`: the machine, with the allocator of each program.
* `WindowSet`, `BumpOk`, **`progInv_of_reach`**: windows, and chunks inside them.
* **`wholeHeap_iff`**: a request fails for want of window or pages only, unless the mapping table is full.
-/

namespace Rymos

open TableTree Transition

/-! ## Where a request fails -/

/-- `map_user_pages` up to the point where it takes back what it has mapped. -/
def giveUpFrom (pml4 base : ℕ) : ℕ → ℕ → Memory → Option Memory
  | _, 0, _ => none
  | index, n + 1, mem =>
    match allocZeroedPage mem with
    | (none, mem) => some mem
    | (some phys, mem) =>
      match mapPage pml4 (pageVirt base index) phys presentWritable mem with
      | (false, mem) => some mem
      | (true, mem) => giveUpFrom pml4 base (index + 1) n mem

/-- `mem_alloc_pages` up to the point where it decides to return `0`. -/
def failsIn (pages : ℕ) (p : ProcMem) (mem : Memory) : Option Memory :=
  if pages = 0 ∨ userHeapMaxPagesPerCall < pages then some mem
  else
    match ensureKernelPml4 mem with
    | (none, mem) => some mem
    | (some pml4, mem) =>
      if HeapFull pages p then some mem
      else if (processTrackMapping p.heapNext pages p).1 then giveUpFrom pml4 p.heapNext 0 pages mem
      else some mem

section Fails

variable {boot : Memory} {kept : Set ℕ} {seen : ℕ → Set ℕ} {hand : List ℕ} {r : Option ℕ}
  {pml4 base pid pages : ℕ} {s : ProcSys} {p : ProcMem}

/-- **A fresh range that cannot be mapped**: where that turns out, no page is left. -/
theorem MemInv.giveUp_of_fresh (hb : base % pageSize = 0) (n : ℕ) {index : ℕ} {mem : Memory}
    {F : Layout (Option ℕ) ℕ ℕ} (h : MemInv boot kept seen F hand mem) (hr : F r [] = some pml4)
    (ho : ∀ virt ∈ pagesFrom base index n, OwnedPath r (pathOf virt))
    (hf : ∀ virt ∈ pagesFrom base index n, F r (pathOf virt) = none) (hd : DistinctPages base index n)
    (hfail : (mapUserPagesFrom pml4 base index n mem).1 = false) :
    ∃ mem', giveUpFrom pml4 base index n mem = some mem' ∧ mem'.allocator.available = [] := by
  induction n generalizing index mem F with
  | zero => cases hfail
  | succ n ih =>
    rw [mapUserPagesFrom] at hfail
    rw [giveUpFrom]
    rcases ha : allocZeroedPage mem with ⟨_ | phys, mem₁⟩
    · obtain ⟨rfl, hav⟩ := allocZeroedPage_eq_none ha
      exact ⟨mem₁, rfl, hav⟩
    obtain ⟨h₁, -, -⟩ := h.alloc ha
    rw [ha] at hfail
    obtain ⟨mem₂, ⟨hm, hav, -⟩ | ⟨hm, -, F₂, h₂, hr₂, hf₂⟩⟩ := h₁.map_fresh hb hr ho hf hd
    · simp only [hm]
      exact ⟨mem₂, rfl, hav⟩
    · simp only [hm] at hfail ⊢
      exact ih h₂ hr₂ (fun virt hv => ho virt (pagesFrom_tail hv)) hf₂ hd.tail hfail

/-- **A request that fails although there is room in the window**: the mapping table is full, or no page is
left where it fails. -/
theorem ProcInv.memAlloc_eq_zero (h : ProcInv boot s) (hp : pid < 16384) (hs : s.sys.space pid ≠ none)
    (hn : ¬ (pages = 0 ∨ userHeapMaxPagesPerCall < pages)) (hroom : ¬ HeapFull pages (s.procs pid))
    (hz : (abiMemAllocPages pages (s.procs pid) s.sys.mem).1 = 0) : TableFull (s.procs pid) ∨
      ∃ mem', failsIn pages (s.procs pid) s.sys.mem = some mem' ∧ mem'.allocator.available = [] := by
  have hk := ensureKernelPml4_of_ne (h.inv.kernel_ne hs)
  have hfew : 1 ≤ pages ∧ pages ≤ userMmapMaxPagesPerCall := by
    simp only [userHeapMaxPagesPerCall, userMmapMaxPagesPerCall] at hn ⊢
    omega
  obtain ⟨hok, hr, ha⟩ := (h.ok hp).heapTaken hp hfew hroom
  rw [memAlloc_eq hn hk, if_neg hroom] at hz
  rw [failsIn, if_neg hn, hk]
  simp only [if_neg hroom]
  rcases track_cases (s.procs pid).heapNext pages (s.procs pid) with ⟨-, hfull⟩ | ⟨i, hi, htrack⟩
  · exact .inl hfull
  right
  rw [htrack, if_pos rfl]
  obtain ⟨F, hF⟩ := h.inv
  obtain ⟨t, ht⟩ := Option.ne_none_iff_exists'.mp hs
  have hrange := hok.inUser hr
  refine hF.inv.giveUp_of_fresh hr.aligned pages (hF.root ht).2
    (fun virt hv => ownedPath_window hp (hrange.inWindow hp hv))
    (fun virt hv => h.fresh_region (p := (s.procs pid).heapTaken pages) hp rfl hok hr ha hF hv)
    (hrange.distinctPages hp) ?_
  rcases mapTracked_cases s.sys.mem.kernelPml4 (s.procs pid).heapNext pages
    ((s.procs pid).heapTaken pages) s.sys.mem with ⟨hfull, -⟩ | ⟨j, -, mem', ⟨-, he⟩ | ⟨he, -⟩⟩
  · have hused := hfull i
    cases hi.symm.trans hused
  · rw [he] at hz
    exact absurd (.inr (.inl hz)) hroom
  · exact congrArg Prod.fst he

end Fails

/-! ## Programs -/

structure ProgSys where
  kernel : ProcSys
  bump : ℕ → BumpAllocator

inductive ProgAct where
  /-- Anything that is not an allocation. -/
  | other (a : ProcAct)
  | alloc (pid size align : ℕ)

/-- `mem_alloc_pages` of the runtime, called by the process. -/
def memAllocPages (pid pages : ℕ) (s : ProcSys) : Option ℕ × ProcSys :=
  let r := abiMemAllocPages pages (s.procs pid) s.sys.mem
  (if r.1 = 0 then none else some r.1,
    s.put pid r.2.1 r.2.2 (returned r.1 pages false (s.regions pid)))

def ProgSys.alloc (pid size align : ℕ) (s : ProgSys) : ℕ × BumpAllocator × ProcSys :=
  (s.bump pid).alloc (memAllocPages pid) size align s.kernel

def progStep (s : ProgSys) : ProgAct → Option ProgSys
  | .other a => (procStep s.kernel a).map fun kernel => { s with kernel := kernel }
  | .alloc pid size align => (s.kernel.sys.space pid).map fun _ =>
      let r := s.alloc pid size align
      { kernel := r.2.2, bump := Function.update s.bump pid r.2.1 }

def ProgInit (boot : Memory) (s : ProgSys) : Prop :=
  ProcInit boot s.kernel ∧ s.bump = fun _ => .empty

/-- A request below 16 MiB, with its alignment. -/
def SmallRequest (size align : ℕ) : Prop := ValidLayout size align ∧ size + align < 16 * 1024 * 1024

/-- The requests of one program are small; those of other programs are anything. -/
def GoodProg (pid : ℕ) (s : ProgSys) : ProgAct → Prop
  | .other a => GoodProc s.kernel a
  | .alloc q size align => q < 16384 ∧ (q = pid → SmallRequest size align)

/-! ## Windows -/

/-- Once a process has its heap window, it ends 256 MiB after its start. -/
def WindowSet (pid : ℕ) (p : ProcMem) : Prop :=
  p.heapBase ≠ 0 → p.heapNext ≠ 0 ∧ p.heapLimit = heapBase pid + userHeapStride

section Windows

variable {pid pages flags address : ℕ} {p : ProcMem} {mem : Memory} {s s' : ProcSys} {a : ProcAct}

/-- What a call leaves of the heap window. -/
structure KeepsHeap (p p' : ProcMem) : Prop where
  base : p'.heapBase = p.heapBase
  limit : p'.heapLimit = p.heapLimit
  next : p.heapNext ≤ p'.heapNext

theorem KeepsHeap.refl (p : ProcMem) : KeepsHeap p p := ⟨rfl, rfl, le_rfl⟩

theorem KeepsHeap.windowSet {p' : ProcMem} (h : KeepsHeap p p') (hw : WindowSet pid p) :
    WindowSet pid p' := by
  intro hb
  obtain ⟨hn, hl⟩ := hw (h.base ▸ hb)
  have hle := h.next
  exact ⟨by omega, h.limit.trans hl⟩

theorem memAlloc_keepsHeap (pages : ℕ) (p : ProcMem) (mem : Memory) :
    KeepsHeap p (abiMemAllocPages pages p mem).2.1 := by
  by_cases hn : pages = 0 ∨ userHeapMaxPagesPerCall < pages
  · rw [abiMemAllocPages, if_pos hn]
    exact .refl p
  rcases he : ensureKernelPml4 mem with ⟨_ | pml4, mem'⟩
  · rw [abiMemAllocPages, if_neg hn, he]
    exact .refl p
  rw [memAlloc_eq hn he]
  split_ifs
  · exact .refl p
  · obtain ⟨m, hm⟩ := mapTracked_windows pml4 p.heapNext pages (p.heapTaken pages) mem'
    rw [hm]
    exact ⟨rfl, rfl, Nat.le_add_right _ _⟩

theorem memMap_keepsHeap (pages flags : ℕ) (p : ProcMem) (mem : Memory) :
    KeepsHeap p (abiMemMapPages pages flags p mem).2.1 := by
  by_cases hn : pages = 0 ∨ userMmapMaxPagesPerCall < pages ∨ badFlags flags
  · rw [abiMemMapPages, if_pos hn]
    exact .refl p
  rcases he : ensureKernelPml4 mem with ⟨_ | pml4, mem'⟩
  · rw [abiMemMapPages, if_neg hn, he]
    exact .refl p
  rw [memMap_eq hn he]
  split_ifs
  · exact .refl p
  · obtain ⟨m, hm⟩ := mapTracked_windows pml4 (regionBase flags p.mmapNext) pages
      (p.mmapTaken (pages + guardPages flags)) mem'
    rw [hm]
    exact ⟨rfl, rfl, le_rfl⟩

theorem memUnmap_keepsHeap (address pages : ℕ) (p : ProcMem) (mem : Memory) :
    KeepsHeap p (abiMemUnmapPages address pages p mem).2.1 := by
  obtain ⟨m, hm⟩ := untrack_windows address pages p
  unfold abiMemUnmapPages
  split_ifs
  · exact .refl p
  · rcases hu : processUntrackMapping address pages p with ⟨_ | _, p'⟩
    · rw [hu] at hm
      subst hm
      exact ⟨rfl, rfl, le_rfl⟩
    · rw [hu] at hm
      subst hm
      exact ⟨rfl, rfl, le_rfl⟩

theorem windowSet_set (hp : pid < 16384) (h : WindowSet pid p) :
    WindowSet pid (appSetHeapWindow pid p) := by
  intro hb
  obtain ⟨hheap, hmmap⟩ := windows_apart hp
  have hpos : userHeapBase ≤ heapBase pid := by
    rw [heapBase_eq hp]
    exact Nat.le_add_right _ _
  refine ⟨?_, Nat.mod_eq_of_lt (by simp only [userMmapStride] at hmmap; omega)⟩
  rw [appSetHeapWindow]
  simp only
  split_ifs with hz
  · simp only [userHeapBase] at hpos
    omega
  · exact (h hz).1

/-- **Every step of the machine** keeps the windows. -/
theorem windowSet_step (h : ∀ {q}, q < 16384 → WindowSet q (s.procs q))
    (he : procStep s a = some s') (hp : pid < 16384) : WindowSet pid (s'.procs pid) := by
  have hupd : ∀ {q p'}, (q = pid → WindowSet pid p') →
      WindowSet pid (Function.update s.procs q p' pid) := fun {q p'} hw => by
    by_cases hq : q = pid
    · rw [hq, Function.update_self]
      exact hw hq
    · rw [Function.update_of_ne (Ne.symm hq)]
      exact h hp
  cases a with
  | kernel b =>
    obtain ⟨sys, -, rfl⟩ := Option.map_eq_some_iff.mp he
    exact h hp
  | setHeapWindow q =>
    obtain ⟨t, -, rfl⟩ := Option.map_eq_some_iff.mp he
    exact hupd fun hq => by
      subst hq
      exact windowSet_set hp (h hp)
  | memAlloc q pages =>
    obtain ⟨t, -, rfl⟩ := Option.map_eq_some_iff.mp he
    exact hupd fun hq => by
      subst hq
      exact (memAlloc_keepsHeap pages _ _).windowSet (h hp)
  | memMap q pages flags =>
    obtain ⟨t, -, rfl⟩ := Option.map_eq_some_iff.mp he
    exact hupd fun hq => by
      subst hq
      exact (memMap_keepsHeap pages flags _ _).windowSet (h hp)
  | memUnmap q address pages =>
    obtain ⟨t, -, rfl⟩ := Option.map_eq_some_iff.mp he
    exact hupd fun hq => by
      subst hq
      exact (memUnmap_keepsHeap address pages _ _).windowSet (h hp)
  | finish q =>
    obtain ⟨t, -, rfl⟩ := Option.map_eq_some_iff.mp he
    exact hupd fun _ hb => absurd rfl hb

end Windows

/-! ## Chunks -/

/-- The chunk of a program, once it has one, is in its heap window. -/
structure BumpOk (pid : ℕ) (b : BumpAllocator) : Prop where
  le : b.next ≤ b.stop
  inside : b.stop ≤ heapBase pid + userHeapStride
  start : b.stop ≠ 0 → heapBase pid ≤ b.next

/-- Some pages are in the heap window. -/
def InHeapWindow (pid base pages : ℕ) : Prop :=
  heapBase pid ≤ base ∧ base + pages * pageSize ≤ heapBase pid + userHeapStride

section Chunks

variable {σ : Type} {m : ℕ → σ → Option ℕ × σ} {t : σ} {pid size align base : ℕ} {b : BumpAllocator}

theorem bumpOk_empty (pid : ℕ) : BumpOk pid .empty := ⟨le_rfl, Nat.zero_le _, fun h => absurd rfl h⟩

/-- The heap windows are far from both ends of the address space. -/
theorem heapBase_bounds (hp : pid < 16384) :
    0 < heapBase pid ∧ heapBase pid + userHeapStride + 2 ^ 30 ≤ 2 ^ 64 := by
  obtain ⟨hheap, hmmap⟩ := windows_apart hp
  have hbase := heapBase_eq hp
  simp only [userHeapBase, userMmapStride] at hbase hmmap
  omega

theorem SmallRequest.chunkPages (h : SmallRequest size align) :
    ¬ (chunkPages size align = 0 ∨ userHeapMaxPagesPerCall < chunkPages size align) := by
  obtain ⟨hv, hlt⟩ := h
  obtain ⟨hle, hmax⟩ := chunkPages_bounds hv
  have hpos := hv.nonzero
  simp only [userHeapMaxPagesPerCall, pageSize, minHeapChunk] at *
  omega

/-- **A block of the chunk.** -/
theorem BumpOk.serve (h : BumpOk pid b) (hp : pid < 16384) (hr : SmallRequest size align)
    (hf : b.Fits size align) : alignUp b.next align ≠ 0 ∧
      BumpOk pid { b with next := alignUp b.next align + size } := by
  obtain ⟨hpos, htop⟩ := heapBase_bounds hp
  obtain ⟨hv, hlt⟩ := hr
  have hin := h.inside
  have hnext := h.le
  have hsize := hv.nonzero
  have hle : b.next ≤ alignUp b.next align := le_alignUp (by omega) hv.pos
  have hfits : alignUp b.next align + size ≤ b.stop := hf
  have hstart := h.start (by omega)
  exact ⟨by omega, hfits, hin, fun _ => (hstart.trans hle).trans (Nat.le_add_right _ _)⟩

theorem BumpOk.asks (h : BumpOk pid b) (hp : pid < 16384) (hr : SmallRequest size align)
    (hf : ¬ b.Fits size align) : b.Asks size align := by
  obtain ⟨-, htop⟩ := heapBase_bounds hp
  obtain ⟨hv, hlt⟩ := hr
  have hin := h.inside
  have hnext := h.le
  have hup : alignUp b.next align < b.next + align := alignUp_lt (by omega) hv.pos
  exact ⟨by omega, hf, by omega⟩

/-- **A new chunk.** -/
theorem BumpOk.grow (hp : pid < 16384) (hr : SmallRequest size align)
    (hw : InHeapWindow pid base (chunkPages size align)) : alignUp base align ≠ 0 ∧
      BumpOk pid (b.start base (chunkPages size align) size align) := by
  obtain ⟨hpos, htop⟩ := heapBase_bounds hp
  obtain ⟨hv, hlt⟩ := hr
  obtain ⟨hlo, hhi⟩ := hw
  have hpages := (chunkPages_bounds hv).1
  have hle : base ≤ alignUp base align := le_alignUp (by omega) hv.pos
  have hup : alignUp base align < base + align := alignUp_lt (by omega) hv.pos
  have hstop : (base + chunkPages size align * pageSize) % 2 ^ 64 =
      base + chunkPages size align * pageSize := Nat.mod_eq_of_lt (by omega)
  refine ⟨by omega, ?_, hstop.trans_le hhi, fun _ => (hlo.trans hle).trans (Nat.le_add_right _ _)⟩
  calc alignUp base align + size ≤ base + chunkPages size align * pageSize := by omega
    _ = (base + chunkPages size align * pageSize) % 2 ^ 64 := hstop.symm

/-- **A request of a program**: a block of the chunk, or the answer of the kernel decides. -/
theorem BumpOk.alloc_cases (h : BumpOk pid b) (hp : pid < 16384) (hr : SmallRequest size align)
    (hm : ∀ base, (m (chunkPages size align) t).1 = some base →
      InHeapWindow pid base (chunkPages size align)) :
    (b.Fits size align ∧ b.alloc m size align t = (alignUp b.next align,
        { b with next := alignUp b.next align + size }, t)) ∨
      (¬ b.Fits size align ∧ (m (chunkPages size align) t).1 = none ∧
        b.alloc m size align t = (0, b, (m (chunkPages size align) t).2)) ∨
      ∃ base, ¬ b.Fits size align ∧ (m (chunkPages size align) t).1 = some base ∧
        b.alloc m size align t = (alignUp base align,
          b.start base (chunkPages size align) size align, (m (chunkPages size align) t).2) := by
  obtain ⟨-, htop⟩ := heapBase_bounds hp
  by_cases hf : b.Fits size align
  · have hin := h.inside
    exact .inl ⟨hf, BumpAllocator.alloc_of_fits hf (by omega)⟩
  right
  have hasks := h.asks hp hr hf
  rcases hans : m (chunkPages size align) t with ⟨_ | base, t'⟩
  · exact .inl ⟨hf, rfl, BumpAllocator.alloc_of_none hasks hans⟩
  · obtain ⟨-, hhi⟩ := hm base (by rw [hans])
    exact .inr ⟨base, hf, rfl, BumpAllocator.alloc_of_some hasks hr.1 hans (by omega)⟩

/-- The kernel is asked at most once, for one chunk. -/
theorem BumpAllocator.alloc_state (b : BumpAllocator) (size align : ℕ) (t : σ) :
    (b.alloc m size align t).2.2 = t ∨
      (b.alloc m size align t).2.2 = (m (Rymos.chunkPages size align) t).2 := by
  rw [BumpAllocator.alloc]
  rcases m (Rymos.chunkPages size align) t with ⟨_ | base, t'⟩
  · split_ifs
    · exact .inl rfl
    · exact .inl rfl
    · exact .inl rfl
    · exact .inr rfl
  · split_ifs
    · exact .inl rfl
    · exact .inl rfl
    · exact .inl rfl
    · dsimp only
      split_ifs
      · exact .inr rfl
      · exact .inr rfl
      · exact .inr rfl

end Chunks

/-! ## The invariant -/

/-- What holds of the machine, and of the allocator of one program. -/
structure ProgInv (boot : Memory) (pid : ℕ) (s : ProgSys) : Prop where
  kernel : ProcInv boot s.kernel
  windows : ∀ {q}, q < 16384 → WindowSet q (s.kernel.procs q)
  bump : BumpOk pid (s.bump pid)

section Programs

variable {boot : Memory} {pid q pages size align base : ℕ} {k : ProcSys} {s s' : ProgSys}
  {a : ProgAct}

/-- **The answer of the kernel** is the next page of the window; the table has an entry for it. -/
theorem ProcInv.memAllocPages_eq_some (h : ProcInv boot k) (hp : pid < 16384)
    (hs : k.sys.space pid ≠ none) (he : (memAllocPages pid pages k).1 = some base) :
    base = (k.procs pid).heapNext ∧ ¬ TableFull (k.procs pid) ∧ InHeapWindow pid base pages := by
  have hz : (abiMemAllocPages pages (k.procs pid) k.sys.mem).1 = base ∧ base ≠ 0 := by
    rw [memAllocPages] at he
    dsimp only at he
    split_ifs at he with hz
    cases he
    exact ⟨rfl, hz⟩
  obtain ⟨he, hne⟩ := hz
  have hok := h.ok hp
  by_cases hn : pages = 0 ∨ userHeapMaxPagesPerCall < pages
  · rw [abiMemAllocPages, if_pos hn] at he
    exact absurd he.symm hne
  rw [memAlloc_eq hn (ensureKernelPml4_of_ne (h.inv.kernel_ne hs))] at he
  by_cases hf : HeapFull pages (k.procs pid)
  · rw [if_pos hf] at he
    exact absurd he.symm hne
  rw [if_neg hf] at he
  have hbase : base = (k.procs pid).heapNext ∧ ¬ TableFull (k.procs pid) := by
    rcases mapTracked_cases k.sys.mem.kernelPml4 (k.procs pid).heapNext pages
      ((k.procs pid).heapTaken pages) k.sys.mem with ⟨-, ht⟩ | ⟨i, hi, mem', ⟨-, ht⟩ | ⟨-, ht⟩⟩
    · rw [ht] at he
      exact absurd he.symm hne
    · rw [ht] at he
      exact ⟨he.symm, fun hfull => by cases hi.symm.trans (hfull i)⟩
    · rw [ht] at he
      exact absurd he.symm hne
  simp only [HeapFull, not_or] at hf
  obtain ⟨-, -, htop⟩ := reserve_eq_some.mp (reserve_eq_some_of_ne hf.2.2.2)
  refine ⟨hbase.1, hbase.2, ?_⟩
  rw [hbase.1]
  exact ⟨hok.heapNext.2.1 hf.2.1, htop.trans hok.heapLimit⟩

theorem procStep_memAlloc (hs : k.sys.space pid ≠ none) (pages : ℕ) :
    procStep k (.memAlloc pid pages) = some (memAllocPages pid pages k).2 := by
  obtain ⟨t, ht⟩ := Option.ne_none_iff_exists'.mp hs
  rw [procStep, ht]
  rfl

/-- **An allocation** of any program. -/
theorem ProgInv.alloc (h : ProgInv boot pid s) (hp : pid < 16384) (hq : q < 16384)
    (hr : q = pid → SmallRequest size align) (he : progStep s (.alloc q size align) = some s') :
    ProgInv boot pid s' := by
  obtain ⟨hs, rfl⟩ := has_space he
  have hstep := procStep_memAlloc hs (chunkPages size align)
  have hkernel : ProcInv boot (s.alloc q size align).2.2 ∧
      ∀ {q'}, q' < 16384 → WindowSet q' ((s.alloc q size align).2.2.procs q') := by
    rcases (s.bump q).alloc_state size align s.kernel with hk | hk
    · rw [ProgSys.alloc, hk]
      exact ⟨h.kernel, h.windows⟩
    · rw [ProgSys.alloc, hk]
      exact ⟨h.kernel.memAlloc hq hstep, fun hq' => windowSet_step h.windows hstep hq'⟩
  refine ⟨hkernel.1, hkernel.2, ?_⟩
  by_cases hqp : q = pid
  · subst hqp
    dsimp only
    rw [Function.update_self]
    have hans : ∀ base, (memAllocPages q (chunkPages size align) s.kernel).1 = some base →
        InHeapWindow q base (chunkPages size align) := fun base hb =>
      (h.kernel.memAllocPages_eq_some hp hs hb).2.2
    rcases h.bump.alloc_cases hp (hr rfl) hans with ⟨hf, hc⟩ | ⟨-, -, hc⟩ | ⟨base, -, hb, hc⟩
    · rw [ProgSys.alloc, hc]
      exact (h.bump.serve hp (hr rfl) hf).2
    · rw [ProgSys.alloc, hc]
      exact h.bump
    · rw [ProgSys.alloc, hc]
      exact (BumpOk.grow hp (hr rfl) (hans base hb)).2
  · dsimp only
    rw [Function.update_of_ne (Ne.symm hqp)]
    exact h.bump

theorem ProgInv.step (h : ProgInv boot pid s) (hw : WindowsFree boot) (hp : pid < 16384)
    (ha : GoodProg pid s a) (he : progStep s a = some s') : ProgInv boot pid s' := by
  cases a with
  | other b =>
    obtain ⟨k, hk, rfl⟩ := Option.map_eq_some_iff.mp he
    exact ⟨h.kernel.step hw ha hk, fun hq => windowSet_step h.windows hk hq, h.bump⟩
  | alloc q size align => exact h.alloc hp ha.1 ha.2 he

theorem ProgInit.progInv (hb : BootOk boot) (h : ProgInit boot s) (pid : ℕ) : ProgInv boot pid s := by
  refine ⟨h.1.procInv hb, fun _ => ?_, ?_⟩
  · rw [h.1.2.1]
    exact fun hz => absurd rfl hz
  · rw [h.2]
    exact bumpOk_empty pid

/-- **It holds in every state reached.** -/
theorem progInv_of_reach (hb : BootOk boot) (hp : pid < 16384)
    (h : Reach (ProgInit boot) (GoodProg pid) progStep s) : ProgInv boot pid s :=
  h.inv (fun _ hi => hi.progInv hb pid) fun _ _ _ hi ha => hi.step hb.windows hp ha

end Programs

/-! ## What is asked for -/

/-- A program runs only while its process has its windows. -/
def HasWindows (pid : ℕ) (s : ProgSys) : Prop :=
  s.kernel.sys.space pid ≠ none ∧ (s.kernel.procs pid).heapBase ≠ 0

/-- The chunk that a request needs does not fit below the limit of the window. -/
def ChunkTooLarge (pid size align : ℕ) (s : ProgSys) : Prop :=
  (s.kernel.procs pid).heapLimit <
    (s.kernel.procs pid).heapNext + chunkPages size align * pageSize

/-- No page is left where the request for the chunk fails. -/
def NoPagesLeft (pid size align : ℕ) (s : ProgSys) : Prop :=
  ∃ mem, failsIn (chunkPages size align) (s.kernel.procs pid) s.kernel.sys.mem = some mem ∧
    mem.allocator.available = []

/-- The request fails for want of window or pages only. -/
def UsesWindow (pid size align : ℕ) (s : ProgSys) : Prop :=
  (s.alloc pid size align).1 = 0 → ChunkTooLarge pid size align s ∨ NoPagesLeft pid size align s

/-- The chunk in use has room, or there is an entry for a new one, or it could not be had anyway. -/
def EntryForChunk (pid size align : ℕ) (s : ProgSys) : Prop :=
  (s.bump pid).Fits size align ∨ ¬ TableFull (s.kernel.procs pid) ∨ ChunkTooLarge pid size align s ∨
    s.kernel.sys.mem.allocator.available = []

section Whole

variable {boot : Memory} {pid size align : ℕ} {s : ProgSys}

/-- With windows, only the room is asked for. -/
theorem ProgInv.heapFull_iff (h : ProgInv boot pid s) (hp : pid < 16384) (hw : HasWindows pid s) :
    HeapFull (chunkPages size align) (s.kernel.procs pid) ↔ ChunkTooLarge pid size align s := by
  obtain ⟨hnext, hlimit⟩ := h.windows hp hw.2
  obtain ⟨hpos, htop⟩ := heapBase_bounds hp
  rw [HeapFull, or_iff_right hw.2, or_iff_right hnext, or_iff_right (by omega), reserve, ChunkTooLarge]
  split_ifs with hc
  · exact iff_of_true rfl (hc.elim (fun hc => by omega) id)
  · exact iff_of_false not_false fun hl => hc (.inr hl)

theorem ProgInv.usesWindow_iff (h : ProgInv boot pid s) (hp : pid < 16384) (hw : HasWindows pid s)
    (hr : SmallRequest size align) : UsesWindow pid size align s ↔ EntryForChunk pid size align s := by
  have hfull : HeapFull (chunkPages size align) (s.kernel.procs pid) ↔ ChunkTooLarge pid size align s :=
    h.heapFull_iff hp hw
  have hans : ∀ base, (memAllocPages pid (chunkPages size align) s.kernel).1 = some base →
      InHeapWindow pid base (chunkPages size align) := fun base hb =>
    (h.kernel.memAllocPages_eq_some hp hw.1 hb).2.2
  have hzero : (memAllocPages pid (chunkPages size align) s.kernel).1 = none →
      (abiMemAllocPages (chunkPages size align) (s.kernel.procs pid) s.kernel.sys.mem).1 = 0 := by
    intro hn
    rw [memAllocPages] at hn
    dsimp only at hn
    split_ifs at hn with hz
    exact hz
  rcases h.bump.alloc_cases hp hr hans with ⟨hf, hc⟩ | ⟨hf, hn, hc⟩ | ⟨base, -, hb, hc⟩
  · refine iff_of_true (fun hz => ?_) (.inl hf)
    rw [ProgSys.alloc, hc] at hz
    exact absurd hz (h.bump.serve hp hr hf).1
  · rw [UsesWindow, EntryForChunk, ProgSys.alloc, hc, or_iff_right hf]
    simp only [forall_const]
    by_cases hlarge : ChunkTooLarge pid size align s
    · exact iff_of_true (.inl hlarge) (.inr (.inl hlarge))
    rw [or_iff_right hlarge, or_iff_right hlarge]
    have hroom := mt hfull.mp hlarge
    by_cases ht : TableFull (s.kernel.procs pid)
    · -- the call ends before it changes the memory
      rw [or_iff_right (not_not_intro ht), NoPagesLeft, failsIn, if_neg hr.chunkPages,
        ensureKernelPml4_of_ne (h.kernel.inv.kernel_ne hw.1)]
      rcases track_cases (s.kernel.procs pid).heapNext (chunkPages size align)
        (s.kernel.procs pid) with ⟨htrack, -⟩ | ⟨i, hi, -⟩
      · simp only [if_neg hroom, htrack, Bool.false_eq_true, if_false, Option.some.injEq, exists_eq_left']
      · cases hi.symm.trans (ht i)
    · refine iff_of_true ?_ (.inl ht)
      rcases h.kernel.memAlloc_eq_zero hp hw.1 hr.chunkPages hroom (hzero hn) with hc | hc
      · exact absurd hc ht
      · exact hc
  · refine iff_of_true (fun hz => ?_) (.inr (.inl fun ht => ?_))
    · rw [ProgSys.alloc, hc] at hz
      exact absurd hz (BumpOk.grow (b := s.bump pid) hp hr (hans base hb)).1
    · exact absurd ht (h.kernel.memAllocPages_eq_some hp hw.1 hb).2.1

/-- **A program can use its whole heap window** unless the mapping table stops it: a request fails for want of
window or of pages only, just if it needs no new chunk, or the table has an entry for it, or one of the two is
used up already. -/
theorem wholeHeap_iff (hb : BootOk boot) (hp : pid < 16384)
    (h : Reach (ProgInit boot) (GoodProg pid) progStep s) (hw : HasWindows pid s)
    (hr : SmallRequest size align) : UsesWindow pid size align s ↔ EntryForChunk pid size align s :=
  (progInv_of_reach hb hp h).usesWindow_iff hp hw hr

end Whole

/-! ## A full table -/

section FullTable

variable {p : ProcMem} {i : Fin processMappingMax} {k virt pages : ℕ} {s : ProgSys}

def usedEntries (p : ProcMem) : Finset (Fin processMappingMax) :=
  Finset.univ.filter fun i => (p.mappings i).used = true

theorem tableFull_iff : TableFull p ↔ (usedEntries p).card = processMappingMax := by
  constructor
  · intro h
    rw [usedEntries, Finset.filter_true_of_mem fun i _ => h i, Finset.card_univ, Fintype.card_fin]
  · intro h i
    have hall : usedEntries p = Finset.univ :=
      (Finset.card_eq_iff_eq_univ _).mp (h.trans (Fintype.card_fin _).symm)
    have hi : i ∈ usedEntries p := hall ▸ Finset.mem_univ i
    exact (Finset.mem_filter.mp hi).2

theorem card_usedEntries_setMapping (hi : (p.mappings i).used = false) :
    (usedEntries (p.setMapping i (.inUse virt pages))).card = (usedEntries p).card + 1 := by
  have hnot : i ∉ usedEntries p := fun hc => by
    have hu := (Finset.mem_filter.mp hc).2
    cases hi.symm.trans hu
  have hins : usedEntries (p.setMapping i (.inUse virt pages)) = insert i (usedEntries p) := by
    ext j
    rw [usedEntries, usedEntries, Finset.mem_insert, Finset.mem_filter, Finset.mem_filter,
      ProcMem.setMapping]
    by_cases hj : j = i
    · subst hj
      simp [ProcessMapping.inUse]
    · simp [hj]
  rw [hins, Finset.card_insert_of_notMem hnot]

/-- A machine at boot, with the allocators of the programs. -/
def progBoot (pages : ℕ) : ProgSys := { kernel := procBoot pages, bump := fun _ => .empty }

/-- A program that asks for `k` blocks of 60 KiB, one after the other. -/
def chunkRun (k : ℕ) : List ProgAct :=
  startRun.map .other ++ List.replicate k (.alloc 1 61440 8)

theorem smallRequest_chunk : SmallRequest 61440 8 := ⟨⟨by decide, ⟨3, rfl⟩, by decide⟩, by decide⟩

theorem chunkPages_chunk : chunkPages 61440 8 = 16 := rfl

/-- The program has `k` chunks of 64 KiB, and the last one has no room for another block. -/
structure ChunksTaken (k : ℕ) (s : ProgSys) : Prop where
  windows : HasWindows 1 s
  entries : (usedEntries (s.kernel.procs 1)).card = k
  next : (s.kernel.procs 1).heapNext = heapBase 1 + k * (16 * pageSize)
  full : ¬ (s.bump 1).Fits 61440 8
  pages : 19993 ≤ s.kernel.sys.mem.allocator.available.length + 64 * k

theorem ChunksTaken.not_tooLarge (h : ChunksTaken k s) (hi : ProgInv (bootWith 20000) 1 s)
    (hk : k ≤ 64) : ¬ ChunkTooLarge 1 61440 8 s := by
  have hlimit := (hi.windows (by decide) h.windows.2).2
  have hnext := h.next
  rw [ChunkTooLarge, chunkPages_chunk]
  simp only [pageSize, userHeapStride] at *
  omega

/-- A chunk whose first block is 60 KiB long has no room for another one. -/
theorem not_fits_start {pid base : ℕ} {b : BumpAllocator} (hp : pid < 16384)
    (hw : InHeapWindow pid base 16) : ¬ (b.start base 16 61440 8).Fits 61440 8 := by
  obtain ⟨-, htop⟩ := heapBase_bounds hp
  obtain ⟨-, hhi⟩ := hw
  simp only [pageSize] at hhi
  have hle : base ≤ alignUp base 8 := le_alignUp (by omega) (by decide)
  have hup : alignUp base 8 < base + 8 := alignUp_lt (by omega) (by decide)
  have hle' : alignUp base 8 + 61440 ≤ alignUp (alignUp base 8 + 61440) 8 :=
    le_alignUp (by omega) (by decide)
  have hstop : (base + 16 * pageSize) % 2 ^ 64 = base + 16 * pageSize :=
    Nat.mod_eq_of_lt (by simp only [pageSize]; omega)
  rw [BumpAllocator.Fits, BumpAllocator.start, hstop]
  simp only [pageSize]
  omega

/-- **The kernel grants one chunk more.** -/
theorem ChunksTaken.answer (h : ChunksTaken k s) (hi : ProgInv (bootWith 20000) 1 s) (hk : k < 64) :
    ∃ i mem, ((s.kernel.procs 1).mappings i).used = false ∧
      19993 ≤ mem.allocator.available.length + 64 * (k + 1) ∧
      memAllocPages 1 16 s.kernel = (some (s.kernel.procs 1).heapNext, s.kernel.put 1
        (((s.kernel.procs 1).heapTaken 16).setMapping i (.inUse (s.kernel.procs 1).heapNext 16)) mem
        (returned (s.kernel.procs 1).heapNext 16 false (s.kernel.regions 1))) := by
  have hp : 1 < 16384 := by decide
  have hfull : HeapFull (chunkPages 61440 8) (s.kernel.procs 1) ↔ ChunkTooLarge 1 61440 8 s :=
    hi.heapFull_iff hp h.windows
  rw [chunkPages_chunk] at hfull
  have hroom := mt hfull.mp (h.not_tooLarge hi hk.le)
  have hfree : ¬ TableFull ((s.kernel.procs 1).heapTaken 16) := fun hc => by
    have hcard := tableFull_iff.mp (show TableFull (s.kernel.procs 1) from hc)
    rw [h.entries] at hcard
    simp only [processMappingMax] at hcard
    omega
  obtain ⟨hok, hr, ha⟩ := (hi.kernel.ok hp).heapTaken hp (n := 16) (by decide) hroom
  have hpages := h.pages
  obtain ⟨i, mem, hunused, hmap, hleft⟩ := hi.kernel.mapTracked_of_room
    (p := (s.kernel.procs 1).heapTaken 16) hp h.windows.1 rfl hok hr ha hfree
    (show 4 * 16 ≤ s.kernel.sys.mem.allocator.available.length by omega)
  have hne : (s.kernel.procs 1).heapNext ≠ 0 := fun hz => hroom (.inr (.inl hz))
  refine ⟨i, mem, hunused, ?_, ?_⟩
  · simp only at hleft
    omega
  · rw [memAllocPages, memAlloc_eq (by decide)
      (ensureKernelPml4_of_ne (hi.kernel.inv.kernel_ne h.windows.1)), if_neg hroom]
    dsimp only at hmap ⊢
    rw [hmap]
    dsimp only
    rw [if_neg hne]

/-- **One chunk more.** -/
theorem ChunksTaken.step (h : ChunksTaken k s) (hi : ProgInv (bootWith 20000) 1 s) (hk : k < 64) :
    ∃ s', progStep s (.alloc 1 61440 8) = some s' ∧ ChunksTaken (k + 1) s' := by
  have hp : 1 < 16384 := by decide
  obtain ⟨i, mem, hunused, hpages, hans⟩ := h.answer hi hk
  have hin : ∀ base, (memAllocPages 1 (chunkPages 61440 8) s.kernel).1 = some base →
      InHeapWindow 1 base (chunkPages 61440 8) := fun base hb =>
    (hi.kernel.memAllocPages_eq_some hp h.windows.1 hb).2.2
  rcases hi.bump.alloc_cases hp smallRequest_chunk hin with ⟨hf, -⟩ | ⟨-, hn, -⟩ | ⟨base, -, hb, hc⟩
  · exact absurd hf h.full
  · rw [chunkPages_chunk, hans] at hn
    cases hn
  have hwin := hin base hb
  obtain ⟨t, ht⟩ := Option.ne_none_iff_exists'.mp h.windows.1
  have hstep : progStep s (.alloc 1 61440 8) = some
      { kernel := (memAllocPages 1 (chunkPages 61440 8) s.kernel).2
        bump := Function.update s.bump 1 ((s.bump 1).start base (chunkPages 61440 8) 61440 8) } := by
    rw [progStep, ht, Option.map_some, ProgSys.alloc, hc]
  rw [chunkPages_chunk] at hstep hwin
  rw [hans] at hstep
  refine ⟨_, hstep, ⟨h.windows.1, ?_⟩, ?_, ?_, ?_, hpages⟩
  · rw [ProcSys.put_procs_self]
    exact h.windows.2
  · have hunused' : (((s.kernel.procs 1).heapTaken 16).mappings i).used = false := hunused
    rw [ProcSys.put_procs_self, card_usedEntries_setMapping hunused', ← h.entries]
    rfl
  · rw [ProcSys.put_procs_self]
    calc (s.kernel.procs 1).heapNext + 16 * pageSize
        = heapBase 1 + k * (16 * pageSize) + 16 * pageSize := by rw [h.next]
      _ = heapBase 1 + (k + 1) * (16 * pageSize) := by ring
  · dsimp only
    rw [Function.update_self]
    exact not_fits_start hp hwin

theorem exec_other (s : ProgSys) (as : List ProcAct) : exec progStep s (as.map .other) =
    (exec procStep s.kernel as).map fun kernel => { s with kernel := kernel } := by
  induction as generalizing s with
  | nil => rfl
  | cons a as ih =>
    rw [List.map_cons, exec, exec, progStep]
    cases procStep s.kernel a with
    | none => rfl
    | some kernel => exact ih { s with kernel := kernel }

/-- **`k` chunks**, up to the 64 that the table has entries for. -/
theorem chunksTaken_chunkRun (hk : k ≤ 64) : ∃ s, exec progStep (progBoot 20000) (chunkRun k) = some s ∧
    Reach (ProgInit (bootWith 20000)) (GoodProg 1) progStep s ∧ ChunksTaken k s := by
  induction k with
  | zero =>
    obtain ⟨kernel, hs, hst⟩ := justStarted_startRun
    have hrun : exec progStep (progBoot 20000) (startRun.map .other) =
        some { progBoot 20000 with kernel := kernel } := by
      rw [exec_other, progBoot, hs]
      rfl
    have hgood : AllGood (GoodProg 1) progStep (progBoot 20000) (startRun.map .other) :=
      ⟨goodProc_create (by decide), fun _ _ =>
        ⟨goodProc_of_call (by decide) nofun, fun _ _ => trivial⟩⟩
    refine ⟨_, by rw [chunkRun, List.replicate_zero, List.append_nil, hrun],
      reach_of_exec (.start ⟨procInit_procBoot 20000, rfl⟩) hgood hrun, ⟨hst.space, ?_⟩, ?_, ?_, ?_, ?_⟩
    · rw [hst.heap.1]
      decide
    · rw [Finset.card_eq_zero, usedEntries, Finset.filter_eq_empty_iff]
      intro i _
      simp only [hst.unused i, Bool.false_eq_true, not_false_iff]
    · rw [hst.heap.2, Nat.zero_mul, Nat.add_zero]
    · show ¬ BumpAllocator.empty.Fits 61440 8
      decide
    · exact hst.pages.ge
  | succ k ih =>
    obtain ⟨s, hs, hr, hc⟩ := ih (by omega)
    have hi := progInv_of_reach (bootOk_bootWith (by decide)) (by decide : 1 < 16384) hr
    obtain ⟨s', hstep, hc'⟩ := hc.step hi (by omega)
    have hgood : GoodProg 1 s (.alloc 1 61440 8) := ⟨by decide, fun _ => smallRequest_chunk⟩
    refine ⟨s', ?_, hr.next hgood hstep, hc'⟩
    have hsplit : chunkRun (k + 1) = chunkRun k ++ [.alloc 1 61440 8] := by
      rw [chunkRun, chunkRun, List.replicate_succ', List.append_assoc]
    rw [hsplit, exec_append, hs, Option.bind_some, exec_cons hstep]
    rfl

/-- **The 65th chunk is refused** with 252 MiB of the window and most pages left. -/
theorem not_usesWindow_chunkRun : ∃ s, exec progStep (progBoot 20000) (chunkRun 64) = some s ∧
    Reach (ProgInit (bootWith 20000)) (GoodProg 1) progStep s ∧ HasWindows 1 s ∧
      SmallRequest 61440 8 ∧ ¬ UsesWindow 1 61440 8 s := by
  obtain ⟨s, hs, hr, hc⟩ := chunksTaken_chunkRun (le_refl 64)
  have hi := progInv_of_reach (bootOk_bootWith (by decide)) (by decide : 1 < 16384) hr
  refine ⟨s, hs, hr, hc.windows, smallRequest_chunk, ?_⟩
  rw [hi.usesWindow_iff (by decide) hc.windows smallRequest_chunk]
  rintro (hf | ht | hl | ha)
  · exact hc.full hf
  · exact ht (tableFull_iff.mpr hc.entries)
  · exact hc.not_tooLarge hi le_rfl hl
  · have hpages := hc.pages
    rw [ha, List.length_nil] at hpages
    omega

theorem wholeHeap_iff_chunkRun : ∃ s, exec progStep (progBoot 20000) (chunkRun 0) = some s ∧
    UsesWindow 1 61440 8 s := by
  obtain ⟨s, hs, hr, hc⟩ := chunksTaken_chunkRun (Nat.zero_le 64)
  refine ⟨s, hs, (wholeHeap_iff (bootOk_bootWith (by decide)) (by decide) hr hc.windows
    smallRequest_chunk).mpr (.inr (.inl fun ht => ?_))⟩
  have hcard := tableFull_iff.mp ht
  rw [hc.entries] at hcard
  cases hcard

end FullTable

end Rymos
