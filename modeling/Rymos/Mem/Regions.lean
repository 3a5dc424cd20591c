import Mathlib.Tactic
import Rymos.Mem.Mapped
import Rymos.Mem.Process

/-!
# Memory regions of processes

* `ProcSys`, `ProcAct`, `procStep`: memory with the processes' windows and mapping tables. `regions` lists
  what the calls of a process have returned.
* `ProcOk`: where the regions of a process are, and what its table says of them. **`ProcOk.track`**,
  **`ProcOk.heapTaken`**, **`ProcOk.mmapTaken`**: what keeps it.
* `ProcInv`, **`procInv_of_reach`**: the same of every process, with what is mapped.
* **`regionLaw_of_reach`**: regions are disjoint, tracked and guarded.
-/

namespace Rymos

open TableTree Transition

/-! ## The machine -/

/-- A region returned by a call, without its guard pages. -/
structure Region where
  base : ℕ
  pages : ℕ
  guarded : Bool

structure ProcSys where
  sys : MemSys
  procs : ℕ → ProcMem
  regions : ℕ → List Region

inductive ProcAct where
  /-- Any call of the kernel that is not about the heap and mmap windows. -/
  | kernel (a : MemAct)
  /-- `app_set_heap_window`. -/
  | setHeapWindow (pid : ℕ)
  | memAlloc (pid pages : ℕ)
  | memMap (pid pages flags : ℕ)
  | memUnmap (pid address pages : ℕ)
  /-- The end of `process_trampoline`. -/
  | finish (pid : ℕ)

/-- A call of a process has ended. -/
def ProcSys.put (s : ProcSys) (pid : ℕ) (p : ProcMem) (mem : Memory) (regions : List Region) :
    ProcSys where
  sys := { s.sys with mem := mem }
  procs := Function.update s.procs pid p
  regions := Function.update s.regions pid regions

/-- The regions after a call that has returned `base`. -/
def returned (base pages : ℕ) (guarded : Bool) (regions : List Region) : List Region :=
  if base = 0 then regions else { base := base, pages := pages, guarded := guarded } :: regions

/-- The memory at the end of a process: its mappings, then its tables, then its private PML4. -/
def finishMem (pid pml4 : ℕ) (p : ProcMem) (mem : Memory) : Memory :=
  destroyProcessAddressSpace pml4 (reclaimProcessWindowTables pid (processReclaimMappings p mem).2.2)

def procStep (s : ProcSys) : ProcAct → Option ProcSys
  | .kernel a => (memStep s.sys a).map fun sys => { s with sys := sys }
  | .setHeapWindow pid => (s.sys.space pid).map fun _ =>
      { s with procs := Function.update s.procs pid (appSetHeapWindow pid (s.procs pid)) }
  | .memAlloc pid pages => (s.sys.space pid).map fun _ =>
      let r := abiMemAllocPages pages (s.procs pid) s.sys.mem
      s.put pid r.2.1 r.2.2 (returned r.1 pages false (s.regions pid))
  | .memMap pid pages flags => (s.sys.space pid).map fun _ =>
      let r := abiMemMapPages pages flags (s.procs pid) s.sys.mem
      s.put pid r.2.1 r.2.2 (returned r.1 pages (flags % 2 = 1) (s.regions pid))
  | .memUnmap pid address pages => (s.sys.space pid).map fun _ =>
      let r := abiMemUnmapPages address pages (s.procs pid) s.sys.mem
      s.put pid r.2.1 r.2.2 (s.regions pid)
  | .finish pid => (s.sys.space pid).map fun pml4 =>
      { s with
        sys := { s.sys with
          mem := finishMem pid pml4 (s.procs pid) s.sys.mem
          space := Function.update s.sys.space pid none }
        procs := Function.update s.procs pid (processReclaimMappings (s.procs pid) s.sys.mem).2.1 }

def ProcAct.pid : ProcAct → ℕ
  | .kernel a => a.pid
  | .setHeapWindow pid | .memAlloc pid _ | .memMap pid _ _ | .memUnmap pid _ _ | .finish pid => pid

/-- Pids below `16384`; the kernel maps images in the image window only, and changes the heap and mmap
windows through the calls of the processes only. The arguments of these are anything. -/
def GoodProc (s : ProcSys) (a : ProcAct) : Prop :=
  a.pid < 16384 ∧ ∀ b, a = .kernel b → b.Aside ∧ OwnAct 16384 s.sys b

def ProcInit (boot : Memory) (s : ProcSys) : Prop :=
  MemInit boot s.sys ∧ s.procs = (fun _ => .empty) ∧ s.regions = fun _ => []

/-! ## Regions -/

/-- Where the reservation of a region starts and ends, with its guard pages. -/
def Region.lo (r : Region) : ℕ := if r.guarded then r.base - pageSize else r.base
def Region.hi (r : Region) : ℕ :=
  r.base + r.pages * pageSize + if r.guarded then pageSize else 0

/-- Two reservations have no page in common. -/
def Region.Apart (r r' : Region) : Prop := r.hi ≤ r'.lo ∨ r'.hi ≤ r.lo

instance : Std.Symm Region.Apart := ⟨fun _ _ => Or.symm⟩

/-- The reservation of a region is below the next page of one of the windows. -/
structure RegionFits (pid : ℕ) (p : ProcMem) (r : Region) : Prop where
  aligned : r.base % pageSize = 0
  pos : 1 ≤ r.pages
  few : r.pages ≤ userMmapMaxPagesPerCall
  room : r.guarded = true → pageSize ≤ r.base
  inside : Rymos.heapBase pid ≤ r.lo ∧ r.hi ≤ p.heapNext ∨ mmapBase pid ≤ r.lo ∧ r.hi ≤ p.mmapNext

/-- What holds of the windows and the table of a process, with the regions returned to it. -/
structure ProcOk (pid : ℕ) (p : ProcMem) (regions : List Region) : Prop where
  heapNext : p.heapNext % pageSize = 0 ∧ (p.heapNext ≠ 0 → Rymos.heapBase pid ≤ p.heapNext) ∧
    p.heapNext ≤ Rymos.heapBase pid + userHeapStride
  mmapNext : p.mmapNext % pageSize = 0 ∧ (p.mmapNext ≠ 0 → mmapBase pid ≤ p.mmapNext) ∧
    p.mmapNext ≤ mmapBase pid + userMmapSize
  heapLimit : p.heapLimit ≤ Rymos.heapBase pid + userHeapStride
  mmapLimit : p.mmapLimit ≤ mmapBase pid + userMmapSize
  fits : ∀ r ∈ regions, RegionFits pid p r
  apart : regions.Pairwise Region.Apart
  region : ∀ {i v n}, HasMapping p i v n → ∃ r ∈ regions, r.base = v ∧ r.pages = n
  once : ∀ {i j v n n'}, HasMapping p i v n → HasMapping p j v n' → i = j

section Regions

variable {pid q : ℕ} {p p' : ProcMem} {r r' : Region} {regions : List Region}
  {i : Fin processMappingMax} {v n virt flags : ℕ}

theorem heapBase_eq (hp : pid < 16384) : heapBase pid = userHeapBase + pid * userHeapStride := by
  simp only [heapBase, userHeapBase, userHeapStride]
  omega

theorem mmapBase_eq (hp : pid < 16384) : mmapBase pid = userMmapBase + pid * userMmapStride := by
  simp only [mmapBase, userMmapBase, userMmapStride]
  omega

theorem Region.le (r : Region) : r.lo ≤ r.base ∧ r.base + r.pages * pageSize ≤ r.hi := by
  unfold Region.lo Region.hi
  split_ifs <;> omega

/-- A region below a next page that has moved on. -/
theorem RegionFits.mono (h : RegionFits pid p r) (hh : p.heapNext ≤ p'.heapNext)
    (hm : p.mmapNext ≤ p'.mmapNext) : RegionFits pid p' r where
  aligned := h.aligned
  pos := h.pos
  few := h.few
  room := h.room
  inside := h.inside.imp (fun hc => ⟨hc.1, hc.2.trans hh⟩) fun hc => ⟨hc.1, hc.2.trans hm⟩

/-- **Regions whose reservations are apart** cover no address both, nor the guard pages of each other. -/
theorem Region.Apart.not_spans (ha : r.Apart r')
    (hv : r.lo ≤ virt) (hv' : virt < r.hi) : ¬ Spans r'.base r'.pages virt := by
  rintro ⟨hlo, hhi⟩
  have hle := r'.le
  rcases ha with ha | ha <;> omega

theorem Region.spans (hc : Spans r.base r.pages virt) :
    r.lo ≤ virt ∧ virt < r.hi := by
  have hle := r.le
  have hlo := hc.1
  have hhi := hc.2
  omega

/-- The addresses of a region are in the windows of its process. -/
theorem ProcOk.inUser (h : ProcOk pid p regions) (hr : RegionFits pid p r) :
    InUser pid r.base r.pages := by
  have hle := r.le
  have hh := h.heapNext.2.2
  have hm := h.mmapNext.2.2
  refine ⟨hr.aligned, ?_⟩
  rcases hr.inside with hc | hc
  · left
    omega
  · right
    simp only [userMmapSize, userMmapStride] at hm ⊢
    omega

/-- A region that is not in the list spans nothing that a table entry does. -/
theorem ProcOk.not_hasMapping (h : ProcOk pid p regions) (hr : RegionFits pid p r)
    (ha : ∀ r' ∈ regions, r.Apart r') : ¬ HasMapping p i r.base n := by
  intro hi
  obtain ⟨r', hr', hb, -⟩ := h.region hi
  have hf := h.fits r' hr'
  have hpos := hf.pos
  refine (ha r' hr').not_spans r.le.1 ?_ ⟨hb.le, ?_⟩
  · have := r.le.2
    have := hr.pos
    simp only [pageSize] at *
    omega
  · simp only [pageSize]
    omega

/-- **A region mapped and tracked.** -/
theorem ProcOk.track (h : ProcOk pid p regions) (hr : RegionFits pid p r)
    (ha : ∀ r' ∈ regions, r.Apart r') :
    ProcOk pid (p.setMapping i (.inUse r.base r.pages)) (r :: regions) where
  heapNext := h.heapNext
  mmapNext := h.mmapNext
  heapLimit := h.heapLimit
  mmapLimit := h.mmapLimit
  fits := List.forall_mem_cons.mpr ⟨hr.mono le_rfl le_rfl, fun r' hr' => (h.fits r' hr').mono le_rfl le_rfl⟩
  apart := List.pairwise_cons.mpr ⟨ha, h.apart⟩
  region := fun {j v n} hj => by
    rcases hasMapping_setMapping_inUse.mp hj with ⟨-, rfl, rfl⟩ | ⟨-, hj⟩
    · exact ⟨r, List.mem_cons_self, rfl, rfl⟩
    · obtain ⟨r', hr', he⟩ := h.region hj
      exact ⟨r', List.mem_cons_of_mem r hr', he⟩
  once := fun {j k v n n'} hj hk => by
    rcases hasMapping_setMapping_inUse.mp hj with ⟨rfl, rfl, -⟩ | ⟨-, hj'⟩ <;>
      rcases hasMapping_setMapping_inUse.mp hk with ⟨hkj, hv, -⟩ | ⟨-, hk'⟩
    · exact hkj.symm
    · exact absurd hk' (h.not_hasMapping hr ha)
    · exact absurd (hv ▸ hj') (h.not_hasMapping hr ha)
    · exact h.once hj' hk'

/-- **An entry emptied.** -/
theorem ProcOk.clear (h : ProcOk pid p regions) : ProcOk pid (p.setMapping i .empty) regions where
  heapNext := h.heapNext
  mmapNext := h.mmapNext
  heapLimit := h.heapLimit
  mmapLimit := h.mmapLimit
  fits := fun r' hr' => (h.fits r' hr').mono le_rfl le_rfl
  apart := h.apart
  region := fun hj => h.region (hasMapping_setMapping_empty.mp hj).2
  once := fun hj hk => h.once (hasMapping_setMapping_empty.mp hj).2 (hasMapping_setMapping_empty.mp hk).2

theorem windows_apart (hp : pid < 16384) :
    heapBase pid + userHeapStride ≤ mmapBase pid ∧ mmapBase pid + userMmapStride ≤ 2 ^ 64 := by
  rw [heapBase_eq hp, mmapBase_eq hp]
  simp only [userHeapBase, userHeapStride, userMmapBase, userMmapStride]
  omega

/-- **Pages reserved in the heap window**: they are apart from every region. -/
theorem ProcOk.heapTaken (hp : pid < 16384) (h : ProcOk pid p regions)
    (hn : 1 ≤ n ∧ n ≤ userMmapMaxPagesPerCall) (hr : ¬ HeapFull n p) : ProcOk pid (p.heapTaken n) regions ∧
      RegionFits pid (p.heapTaken n) { base := p.heapNext, pages := n, guarded := false } ∧
      ∀ r' ∈ regions, Region.Apart { base := p.heapNext, pages := n, guarded := false } r' := by
  simp only [HeapFull, not_or] at hr
  obtain ⟨-, hz, -, hres⟩ := hr
  obtain ⟨-, -, htop⟩ := reserve_eq_some.mp (reserve_eq_some_of_ne hres)
  have hlo := h.heapNext.2.1 hz
  have hlim := htop.trans h.heapLimit
  refine ⟨⟨⟨?_, fun _ => ?_, hlim⟩, h.mmapNext, h.heapLimit, h.mmapLimit, fun r' hr' => ?_, h.apart,
    fun hj => h.region hj, fun hj hk => h.once hj hk⟩, ⟨h.heapNext.1, hn.1, hn.2, fun hg => (by cases hg),
      .inl ⟨hlo, le_rfl⟩⟩,
    fun r' hr' => ?_⟩
  · exact (Nat.add_mul_mod_self_right _ _ _).trans h.heapNext.1
  · exact hlo.trans (Nat.le_add_right _ _)
  · exact (h.fits r' hr').mono (Nat.le_add_right _ _) le_rfl
  · rcases (h.fits r' hr').inside with hc | hc
    · exact .inr hc.2
    · exact .inl (hlim.trans ((windows_apart hp).1.trans hc.1))

/-- Where a call with some flags has its region in the mmap window. -/
def mmapRegion (p : ProcMem) (n flags : ℕ) : Region :=
  { base := regionBase flags p.mmapNext, pages := n, guarded := flags % 2 = 1 }

/-- The reservation of the region. -/
theorem mmapRegion_lo_hi (p : ProcMem) (n flags : ℕ) : (mmapRegion p n flags).lo = p.mmapNext ∧
    (mmapRegion p n flags).hi = p.mmapNext + (n + guardPages flags) * pageSize := by
  unfold mmapRegion Region.lo Region.hi regionBase guardPages
  by_cases hg : flags % 2 = 1
  · simp only [hg, decide_true, if_true]
    exact ⟨Nat.add_sub_cancel _ _, by rw [Nat.add_mul]; omega⟩
  · simp [hg]

/-- **Pages reserved in the mmap window**, with the guard pages. -/
theorem ProcOk.mmapTaken (hp : pid < 16384) (h : ProcOk pid p regions)
    (hn : 1 ≤ n ∧ n ≤ userMmapMaxPagesPerCall) (hr : ¬ MmapFull (n + guardPages flags) p) :
    ProcOk pid (p.mmapTaken (n + guardPages flags)) regions ∧
      RegionFits pid (p.mmapTaken (n + guardPages flags)) (mmapRegion p n flags) ∧
      ∀ r' ∈ regions, Region.Apart (mmapRegion p n flags) r' := by
  simp only [MmapFull, not_or] at hr
  obtain ⟨hz, -, hres⟩ := hr
  obtain ⟨-, -, htop⟩ := reserve_eq_some.mp (reserve_eq_some_of_ne hres)
  have hlo := h.mmapNext.2.1 hz
  obtain ⟨hrlo, hrhi⟩ := mmapRegion_lo_hi p n flags
  refine ⟨⟨h.heapNext, ⟨?_, fun _ => ?_, htop.trans h.mmapLimit⟩, h.heapLimit, h.mmapLimit,
    fun r' hr' => ?_, h.apart, fun hj => h.region hj, fun hj hk => h.once hj hk⟩,
    ⟨?_, hn.1, hn.2, fun hg => ?_, .inr ⟨?_, ?_⟩⟩, fun r' hr' => ?_⟩
  · exact (Nat.add_mul_mod_self_right _ _ _).trans h.mmapNext.1
  · exact hlo.trans (Nat.le_add_right _ _)
  · exact (h.fits r' hr').mono le_rfl (Nat.le_add_right _ _)
  · have hm := h.mmapNext.1
    simp only [mmapRegion, regionBase]
    split_ifs
    · rw [Nat.add_mod_right, hm]
    · exact hm
  · simp only [mmapRegion, decide_eq_true_eq] at hg ⊢
    rw [regionBase, if_pos hg]
    exact Nat.le_add_left _ _
  · rw [hrlo]
    exact hlo
  · rw [hrhi]
    exact le_rfl
  · rw [Region.Apart, hrlo, hrhi]
    rcases (h.fits r' hr').inside with hc | hc
    · exact .inr (hc.2.trans (h.heapNext.2.2.trans ((windows_apart hp).1.trans hlo)))
    · exact .inr hc.2

theorem bases_mod (hp : pid < 16384) :
    Rymos.heapBase pid % pageSize = 0 ∧ mmapBase pid % pageSize = 0 := by
  rw [heapBase_eq hp, mmapBase_eq hp]
  simp only [userHeapBase, userHeapStride, userMmapBase, userMmapStride, pageSize]
  omega

/-- **The windows set up**: the first time there is no region yet. -/
theorem ProcOk.setWindow (hp : pid < 16384) (h : ProcOk pid p regions)
    (hf : p.heapBase = 0 → p = .empty ∧ regions = []) : ProcOk pid (appSetHeapWindow pid p) regions := by
  have hbase := bases_mod hp
  have hnext : (appSetHeapWindow pid p).heapNext =
      if p.heapBase = 0 then Rymos.heapBase pid else p.heapNext := rfl
  have hnext' : (appSetHeapWindow pid p).mmapNext =
      if p.heapBase = 0 then mmapBase pid else p.mmapNext := rfl
  have hlimit : (appSetHeapWindow pid p).heapLimit =
      (Rymos.heapBase pid + userHeapStride) % 2 ^ 64 := rfl
  have hlimit' : (appSetHeapWindow pid p).mmapLimit = (mmapBase pid + userMmapSize) % 2 ^ 64 := rfl
  have hmap : ∀ {i v n}, HasMapping (appSetHeapWindow pid p) i v n → HasMapping p i v n := fun hj => by
    rwa [HasMapping, appSetHeapWindow_mappings] at hj
  refine ⟨?_, ?_, hlimit ▸ Nat.mod_le _ _, hlimit' ▸ Nat.mod_le _ _, fun r' hr' => ?_, h.apart,
    fun hj => h.region (hmap hj), fun hj hk => h.once (hmap hj) (hmap hk)⟩
  · rw [hnext]
    split_ifs
    · exact ⟨hbase.1, fun _ => le_rfl, Nat.le_add_right _ _⟩
    · exact h.heapNext
  · rw [hnext']
    split_ifs
    · exact ⟨hbase.2, fun _ => le_rfl, Nat.le_add_right _ _⟩
    · exact h.mmapNext
  · have hz : p.heapBase ≠ 0 := fun hz => by
      rw [(hf hz).2] at hr'
      cases hr'
    refine (h.fits r' hr').mono ?_ ?_
    · rw [hnext, if_neg hz]
    · rw [hnext', if_neg hz]

/-- **The table emptied.** -/
theorem ProcOk.reclaim (h : ProcOk pid p regions) (mem : Memory) :
    ProcOk pid (processReclaimMappings p mem).2.1 regions ∧
      ∀ i v n, ¬ HasMapping (processReclaimMappings p mem).2.1 i v n := by
  have hnone : ∀ i v n, ¬ HasMapping (processReclaimMappings p mem).2.1 i v n := by
    intro i v n hi
    simp only [HasMapping, processReclaimMappings] at hi
    split_ifs at hi with hu
    · cases hi
    · rw [hi] at hu
      exact hu rfl
  exact ⟨⟨h.heapNext, h.mmapNext, h.heapLimit, h.mmapLimit, fun r' hr' => (h.fits r' hr').mono le_rfl le_rfl,
    h.apart, fun hj => absurd hj (hnone _ _ _), fun hj => absurd hj (hnone _ _ _)⟩, hnone⟩

/-- An entry of the table has an address. -/
def Tracked (p : ProcMem) (virt : ℕ) : Prop := ∃ i v n, HasMapping p i v n ∧ Spans v n virt

theorem tracked_setMapping_inUse (hi : (p.mappings i).used = false) :
    Tracked (p.setMapping i (.inUse v n)) virt ↔ Tracked p virt ∨ Spans v n virt := by
  constructor
  · rintro ⟨j, v', n', hj, hc⟩
    rcases hasMapping_setMapping_inUse.mp hj with ⟨-, rfl, rfl⟩ | ⟨-, hj⟩
    · exact .inr hc
    · exact .inl ⟨j, v', n', hj, hc⟩
  · rintro (⟨j, v', n', hj, hc⟩ | hc)
    · have hne : j ≠ i := fun he => absurd (he ▸ hj) (Rymos.not_hasMapping hi)
      exact ⟨j, v', n', hasMapping_setMapping_inUse.mpr (.inr ⟨hne, hj⟩), hc⟩
    · exact ⟨i, v, n, hasMapping_setMapping_inUse.mpr (.inl ⟨rfl, rfl, rfl⟩), hc⟩

theorem tracked_setMapping_empty (hi : (p.mappings i).used = false) :
    Tracked (p.setMapping i .empty) virt ↔ Tracked p virt := by
  constructor
  · rintro ⟨j, v', n', hj, hc⟩
    exact ⟨j, v', n', (hasMapping_setMapping_empty.mp hj).2, hc⟩
  · rintro ⟨j, v', n', hj, hc⟩
    have hne : j ≠ i := fun he => absurd (he ▸ hj) (Rymos.not_hasMapping hi)
    exact ⟨j, v', n', hasMapping_setMapping_empty.mpr ⟨hne, hj⟩, hc⟩

/-- **No two entries have an address in common.** -/
theorem ProcOk.spans_unique (h : ProcOk pid p regions) {j : Fin processMappingMax} {v' n' : ℕ}
    (hi : HasMapping p i v n) (hj : HasMapping p j v' n') (hc : Spans v n virt)
    (hc' : Spans v' n' virt) : i = j := by
  obtain ⟨r, hr, rfl, rfl⟩ := h.region hi
  obtain ⟨r', hr', rfl, rfl⟩ := h.region hj
  by_cases he : r = r'
  · exact h.once hi (he ▸ hj)
  · have hcov := r.spans hc
    have hap := h.apart.forall hr hr' he
    exact absurd hc' (hap.not_spans hcov.1 hcov.2)

/-- The entry that is taken out has addresses of its own. -/
theorem ProcOk.tracked_clear (h : ProcOk pid p regions) (hi : HasMapping p i v n) :
    Tracked (p.setMapping i .empty) virt ↔ Tracked p virt ∧ ¬ Spans v n virt := by
  constructor
  · rintro ⟨j, v', n', hj, hc⟩
    obtain ⟨hne, hj⟩ := hasMapping_setMapping_empty.mp hj
    exact ⟨⟨j, v', n', hj, hc⟩, fun hc' => hne (h.spans_unique hj hi hc hc')⟩
  · rintro ⟨⟨j, v', n', hj, hc⟩, hn⟩
    refine ⟨j, v', n', hasMapping_setMapping_empty.mpr ⟨fun he => hn ?_, hj⟩, hc⟩
    subst he
    obtain ⟨rfl, rfl⟩ : v' = v ∧ n' = n := by
      simpa [HasMapping, ProcessMapping.inUse] using hj.symm.trans hi
    exact hc

theorem ProcOk.hasMapping_inUser (h : ProcOk pid p regions) (hi : HasMapping p i v n) :
    InUser pid v n := by
  obtain ⟨r, hr, rfl, rfl⟩ := h.region hi
  exact h.inUser (h.fits r hr)

end Regions

/-! ## Steps -/

/-- What holds of all processes. A process that has no windows yet has no region, and one that has ended
does not get windows again. -/
structure ProcInv (boot : Memory) (s : ProcSys) : Prop where
  inv : SysInv boot s.sys
  created : ∀ pid ∈ s.sys.created, pid < 16384
  ok : ∀ {pid}, pid < 16384 → ProcOk pid (s.procs pid) (s.regions pid)
  fresh : ∀ {pid}, s.sys.space pid ≠ none ∨ pid ∉ s.sys.created → (s.procs pid).heapBase = 0 →
    s.procs pid = .empty ∧ s.regions pid = []
  mapped : ∀ {pid virt}, pid < 16384 → InUserWindow pid virt → virt % pageSize = 0 →
    (Mapped s.sys.mem virt ↔ Tracked (s.procs pid) virt)

section Steps

variable {boot : Memory} {s s' : ProcSys} {pid pages flags address : ℕ} {p : ProcMem} {mem : Memory}
  {regions : List Region} {r : Region}

theorem memStep_map {sys : MemSys} (hs : sys.space pid ≠ none) (base pages : ℕ) :
    memStep sys (.map pid base pages) =
      some { sys with mem := (mapUserPages sys.mem.kernelPml4 base pages sys.mem).2 } := by
  obtain ⟨t, ht⟩ := Option.ne_none_iff_exists'.mp hs
  rw [memStep, ht, Option.map_some]

theorem memStep_unmap {sys : MemSys} (hs : sys.space pid ≠ none) (base pages : ℕ) :
    memStep sys (.unmap pid base pages) =
      some { sys with mem := (unmapUserPages sys.mem.kernelPml4 base pages sys.mem).2 } := by
  obtain ⟨t, ht⟩ := Option.ne_none_iff_exists'.mp hs
  rw [memStep, ht, Option.map_some]

/-- **A call of one process.** -/
theorem ProcInv.put (h : ProcInv boot s) (hi : SysInv boot { s.sys with mem := mem })
    (hok : ProcOk pid p regions) (hf : p.heapBase = 0 → p = .empty ∧ regions = [])
    (hm : ∀ {virt}, InUserWindow pid virt → virt % pageSize = 0 → (Mapped mem virt ↔ Tracked p virt))
    (ho : ∀ {q virt}, q < 16384 → q ≠ pid → InUserWindow q virt → virt % pageSize = 0 →
      (Mapped mem virt ↔ Mapped s.sys.mem virt)) : ProcInv boot (s.put pid p mem regions) where
  inv := hi
  created := h.created
  ok := fun {q} hq => by
    simp only [ProcSys.put]
    by_cases hqp : q = pid
    · subst hqp
      rwa [Function.update_self, Function.update_self]
    · rw [Function.update_of_ne hqp, Function.update_of_ne hqp]
      exact h.ok hq
  fresh := fun {q} hq => by
    simp only [ProcSys.put] at hq ⊢
    by_cases hqp : q = pid
    · subst hqp
      rwa [Function.update_self, Function.update_self]
    · rw [Function.update_of_ne hqp, Function.update_of_ne hqp]
      exact h.fresh hq
  mapped := fun {q virt} hq hv ha => by
    simp only [ProcSys.put]
    by_cases hqp : q = pid
    · subst hqp
      rw [Function.update_self]
      exact hm hv ha
    · rw [Function.update_of_ne hqp, ← h.mapped hq hv ha]
      exact ho hq hqp hv ha

theorem ProcSys.put_procs_self (s : ProcSys) (pid : ℕ) (p : ProcMem) (mem : Memory)
    (regions : List Region) : (s.put pid p mem regions).procs pid = p := Function.update_self ..

theorem ProcSys.put_self (s : ProcSys) (pid : ℕ) :
    s.put pid (s.procs pid) s.sys.mem (s.regions pid) = s := by
  simp [ProcSys.put]

/-- **Pages tracked and mapped**, for a region that has been reserved. -/
theorem ProcInv.mapTracked (h : ProcInv boot s) (hp : pid < 16384) (hs : s.sys.space pid ≠ none)
    (hb : p.heapBase ≠ 0) (hmap : p.mappings = (s.procs pid).mappings)
    (hok : ProcOk pid p (s.regions pid)) (hr : RegionFits pid p r)
    (ha : ∀ r' ∈ s.regions pid, r.Apart r') :
    ProcInv boot (s.put pid (mapTracked s.sys.mem.kernelPml4 r.base r.pages p s.sys.mem).2.1
      (mapTracked s.sys.mem.kernelPml4 r.base r.pages p s.sys.mem).2.2
      (returned (mapTracked s.sys.mem.kernelPml4 r.base r.pages p s.sys.mem).1 r.pages r.guarded
        (s.regions pid))) := by
  have hrange := hok.inUser hr
  have hold : ∀ {virt}, InUserWindow pid virt → virt % pageSize = 0 →
      (Mapped s.sys.mem virt ↔ Tracked p virt) := fun hv ha => by
    rw [h.mapped hp hv ha, Tracked, Tracked]
    simp only [HasMapping, hmap]
  have hzero : returned 0 r.pages r.guarded (s.regions pid) = s.regions pid := if_pos rfl
  have hbase : returned r.base r.pages r.guarded (s.regions pid) = r :: s.regions pid := by
    refine if_neg fun hz => ?_
    rcases hrange.2 with ⟨hlo, -⟩ | ⟨hlo, -⟩
    · rw [hz, heapBase_eq hp] at hlo
      exact absurd hlo (by simp [userHeapBase])
    · rw [hz, mmapBase_eq hp] at hlo
      exact absurd hlo (by simp [userMmapBase])
  obtain ⟨hi, hm⟩ := h.inv.mapped_map hp hrange (memStep_map hs r.base r.pages)
  rcases mapTracked_cases s.sys.mem.kernelPml4 r.base r.pages p s.sys.mem with
    ⟨-, he⟩ | ⟨i, hi', mem', ⟨hu, he⟩ | ⟨hu, he⟩⟩
  · -- the table is full
    rw [he, hzero]
    exact h.put h.inv hok (fun hz => absurd hz hb) hold fun _ _ _ _ => Iff.rfl
  · -- mapped
    rw [he, hbase]
    rw [hu] at hi hm
    obtain ⟨hc, -⟩ | ⟨-, hm⟩ := hm
    · cases hc
    refine h.put hi (hok.track hr ha) (fun hz => absurd hz hb) (fun hv ha => ?_)
      fun hq hne hv ha => ?_
    · rw [hm pid _ hp hv ha, hold hv ha, tracked_setMapping_inUse hi']
    · rw [hm _ _ hq hv ha, or_iff_left (hrange.not_spans hp hq hne hv)]
  · -- not mapped, and the entry taken back
    rw [he, hzero, untrack_track hi' fun j => hok.not_hasMapping hr ha]
    rw [hu] at hi hm
    obtain ⟨-, hm⟩ | ⟨hc, -⟩ := hm
    swap
    · cases hc
    refine h.put hi hok.clear (fun hz => absurd hz hb) (fun hv ha => ?_) fun hq hne hv _ => hm _ _ hq hv
    rw [hm pid _ hp hv, hold hv ha, tracked_setMapping_empty hi']

/-- A step of a process that has an address space. -/
theorem has_space {α : Type} {space : Option ℕ} {a b : α} (h : space.map (fun _ => a) = some b) :
    space ≠ none ∧ a = b := by
  obtain ⟨t, rfl, rfl⟩ := Option.map_eq_some_iff.mp h
  exact ⟨Option.some_ne_none t, rfl⟩

/-- **`mem_alloc_pages`.** -/
theorem ProcInv.memAlloc (h : ProcInv boot s) (hp : pid < 16384)
    (he : procStep s (.memAlloc pid pages) = some s') : ProcInv boot s' := by
  obtain ⟨hs, rfl⟩ := has_space he
  by_cases hn : pages = 0 ∨ userHeapMaxPagesPerCall < pages
  · rw [abiMemAllocPages, if_pos hn, returned, if_pos rfl, s.put_self]
    exact h
  rw [memAlloc_eq hn (ensureKernelPml4_of_ne (h.inv.kernel_ne hs))]
  by_cases hf : HeapFull pages (s.procs pid)
  · rw [if_pos hf, returned, if_pos rfl, s.put_self]
    exact h
  rw [if_neg hf]
  have hfew : 1 ≤ pages ∧ pages ≤ userMmapMaxPagesPerCall := by
    simp only [userHeapMaxPagesPerCall, userMmapMaxPagesPerCall] at hn ⊢
    omega
  obtain ⟨hok, hr, ha⟩ := (h.ok hp).heapTaken hp hfew hf
  exact h.mapTracked (p := (s.procs pid).heapTaken pages) hp hs (fun hz => hf (.inl hz)) rfl hok hr ha

/-- **`mem_map_pages`.** -/
theorem ProcInv.memMap (h : ProcInv boot s) (hp : pid < 16384)
    (he : procStep s (.memMap pid pages flags) = some s') : ProcInv boot s' := by
  obtain ⟨hs, rfl⟩ := has_space he
  by_cases hn : pages = 0 ∨ userMmapMaxPagesPerCall < pages ∨ badFlags flags
  · rw [abiMemMapPages, if_pos hn, returned, if_pos rfl, s.put_self]
    exact h
  rw [memMap_eq hn (ensureKernelPml4_of_ne (h.inv.kernel_ne hs))]
  by_cases hf : MmapFull (pages + guardPages flags) (s.procs pid)
  · rw [if_pos hf, returned, if_pos rfl, s.put_self]
    exact h
  rw [if_neg hf]
  obtain ⟨hok, hr, ha⟩ := (h.ok hp).mmapTaken hp (n := pages) (by omega) hf
  refine h.mapTracked (p := (s.procs pid).mmapTaken (pages + guardPages flags)) hp hs
    (fun hz => hf (.inl ?_)) rfl hok hr ha
  rw [(h.fresh (.inl hs) hz).1]
  rfl

/-- **`mem_unmap_pages`.** -/
theorem ProcInv.memUnmap (h : ProcInv boot s) (hp : pid < 16384)
    (he : procStep s (.memUnmap pid address pages) = some s') : ProcInv boot s' := by
  obtain ⟨hs, rfl⟩ := has_space he
  rw [abiMemUnmapPages]
  split_ifs with hn
  · rw [s.put_self]
    exact h
  rcases untrack_cases address pages (s.procs pid) with ⟨hu, -⟩ | ⟨i, hi, hu⟩
  · rw [hu, s.put_self]
    exact h
  rw [hu]
  have hok := h.ok hp
  have hrange := hok.hasMapping_inUser hi
  obtain ⟨hinv, hm⟩ := h.inv.mapped_unmap hp hrange (memStep_unmap hs address pages)
  refine h.put hinv hok.clear (fun hz => ?_) (fun hv ha => ?_) fun hq hne hv ha => ?_
  · have hempty := (h.fresh (.inl hs) hz).1
    rw [hempty] at hi
    cases hi
  · rw [hm pid _ hp hv ha, h.mapped hp hv ha, hok.tracked_clear hi]
  · rw [hm _ _ hq hv ha, and_iff_left (hrange.not_spans hp hq hne hv)]

/-- **The mappings of a process taken away** leave what other processes have. -/
theorem SysInv.reclaimMappings {sys : MemSys} {l : List ProcessMapping} (h : SysInv boot sys)
    (hp : pid < 16384) (hs : sys.space pid ≠ none)
    (hl : ∀ m ∈ l, m.used = true → InUser pid m.virt m.pages) (k : ℕ) :
    SysInv boot { sys with mem := (l.foldl reclaimMapping (k, sys.mem)).2 } ∧
      ∀ q virt, q < 16384 → q ≠ pid → InUserWindow q virt → virt % pageSize = 0 →
        (Mapped (l.foldl reclaimMapping (k, sys.mem)).2 virt ↔ Mapped sys.mem virt) := by
  induction l generalizing sys k with
  | nil => exact ⟨h, fun _ _ _ _ _ _ => Iff.rfl⟩
  | cons m l ih =>
    rw [List.foldl_cons, reclaimMapping]
    have hrest := fun m' hm' => hl m' (List.mem_cons_of_mem m hm')
    split_ifs with hu
    · have hrange := hl m List.mem_cons_self hu
      obtain ⟨hi, hm⟩ := h.mapped_unmap hp hrange (memStep_unmap hs m.virt m.pages)
      obtain ⟨hi', hm'⟩ := ih hi hs hrest _
      refine ⟨hi', fun q virt hq hne hv ha => ?_⟩
      rw [hm' q virt hq hne hv ha, hm q virt hq hv ha, and_iff_left (hrange.not_spans hp hq hne hv)]
    · exact ih h hs hrest k

/-- **The end of a process.** -/
theorem ProcInv.finish (h : ProcInv boot s) (hw : WindowsFree boot) (hp : pid < 16384)
    (he : procStep s (.finish pid) = some s') : ProcInv boot s' := by
  obtain ⟨t, ht, rfl⟩ := Option.map_eq_some_iff.mp he
  have hs : s.sys.space pid ≠ none := by
    rw [ht]
    exact Option.some_ne_none t
  have hok := h.ok hp
  -- the three parts of the end, one after the other
  obtain ⟨hi₁, hm₁⟩ := h.inv.reclaimMappings (l := (List.finRange processMappingMax).map
    (s.procs pid).mappings) hp hs (fun m hm hu => by
      obtain ⟨i, -, rfl⟩ := List.mem_map.mp hm
      exact hok.hasMapping_inUser (hasMapping_of_used hu)) 0
  obtain ⟨hi₂, hm₂⟩ := hi₁.mapped_reclaimTables hp rfl
  obtain ⟨hi₃, hm₃⟩ := hi₂.mapped_aside hw (a := .destroy pid) ⟨hp, trivial⟩ trivial
    (show memStep _ (.destroy pid) = some _ from by rw [memStep, ht, Option.map_some])
  obtain ⟨hok', hnone⟩ := hok.reclaim s.sys.mem
  refine ⟨hi₃, h.created, fun {q} hq => ?_, fun {q} hq => ?_, fun {q virt} hq hv ha => ?_⟩
  · dsimp only
    by_cases hqp : q = pid
    · subst hqp
      rwa [Function.update_self]
    · rw [Function.update_of_ne hqp]
      exact h.ok hq
  · dsimp only at hq ⊢
    by_cases hqp : q = pid
    · subst hqp
      rw [Function.update_self] at hq
      obtain ⟨F, hl⟩ := h.inv
      exact absurd (hl.created q hs) (hq.resolve_left fun hc => hc rfl)
    · rw [Function.update_of_ne hqp] at hq ⊢
      exact h.fresh hq
  · dsimp only
    refine (hm₃ q virt hq hv).trans ((hm₂ q virt hq hv).trans ?_)
    by_cases hqp : q = pid
    · subst hqp
      rw [Function.update_self]
      refine iff_of_false (fun hc => hc.2 rfl) ?_
      rintro ⟨i, v, n, hi, -⟩
      exact hnone i v n hi
    · rw [Function.update_of_ne hqp, and_iff_left hqp]
      exact (hm₁ q virt hq hqp hv ha).trans (h.mapped hq hv ha)

/-- **`app_set_heap_window`.** -/
theorem ProcInv.setHeapWindow (h : ProcInv boot s) (hp : pid < 16384)
    (he : procStep s (.setHeapWindow pid) = some s') : ProcInv boot s' := by
  obtain ⟨hs, rfl⟩ := has_space he
  have hok := (h.ok hp).setWindow hp (h.fresh (.inl hs))
  have hput := h.put h.inv hok (fun hz => ?_) (fun hv ha => ?_) fun _ _ _ _ => Iff.rfl
  · simpa [ProcSys.put] using hput
  · have hbase : heapBase pid = 0 := hz
    rw [heapBase_eq hp] at hbase
    simp [userHeapBase] at hbase
  · rw [h.mapped hp hv ha, Tracked, Tracked]
    simp only [HasMapping, appSetHeapWindow_mappings]

/-- **Any other call of the kernel.** -/
theorem ProcInv.kernel (h : ProcInv boot s) (hw : WindowsFree boot) {a : MemAct}
    (ha : OwnAct 16384 s.sys a) (hs : a.Aside) (he : procStep s (.kernel a) = some s') :
    ProcInv boot s' := by
  obtain ⟨sys, hsys, rfl⟩ := Option.map_eq_some_iff.mp he
  obtain ⟨hi, hm⟩ := h.inv.mapped_aside hw ha hs hsys
  refine ⟨hi, ?_, h.ok, fun {q} hq => ?_, fun hq hv hal => (hm _ _ hq hv).trans (h.mapped hq hv hal)⟩
  · rcases memStep_pids hsys with ⟨hc, -⟩ | ⟨t, -, hc, -⟩
    · rw [hc]
      exact h.created
    · rw [hc]
      exact List.forall_mem_cons.mpr ⟨ha.1, h.created⟩
  · refine h.fresh ?_
    rcases memStep_pids hsys with ⟨hc, hsp⟩ | ⟨t, hnew, hc, hsp⟩
    · rw [hc] at hq
      exact hq.imp_left (hsp q)
    · by_cases hqa : q = a.pid
      · exact .inr (hqa ▸ hnew)
      · rw [hsp, hc, Function.update_of_ne hqa, List.mem_cons, not_or] at hq
        exact hq.imp_right And.right

/-- **Every step keeps it.** -/
theorem ProcInv.step (h : ProcInv boot s) (hw : WindowsFree boot) {a : ProcAct} (ha : GoodProc s a)
    (he : procStep s a = some s') : ProcInv boot s' := by
  obtain ⟨hp, hk⟩ := ha
  cases a with
  | kernel b => exact h.kernel hw (hk b rfl).2 (hk b rfl).1 he
  | setHeapWindow pid => exact h.setHeapWindow hp he
  | memAlloc pid pages => exact h.memAlloc hp he
  | memMap pid pages flags => exact h.memMap hp he
  | memUnmap pid address pages => exact h.memUnmap hp he
  | finish pid => exact h.finish hw hp he

theorem procOk_empty (pid : ℕ) : ProcOk pid .empty [] where
  heapNext := ⟨rfl, nofun, Nat.zero_le _⟩
  mmapNext := ⟨rfl, nofun, Nat.zero_le _⟩
  heapLimit := Nat.zero_le _
  mmapLimit := Nat.zero_le _
  fits := nofun
  apart := List.Pairwise.nil
  region := nofun
  once := nofun

theorem ProcInit.procInv (hb : BootOk boot) (h : ProcInit boot s) : ProcInv boot s := by
  obtain ⟨hsys, hprocs, hregions⟩ := h
  have hinv := hsys.sysInv hb
  refine ⟨hinv, ?_, fun {q} _ => ?_, fun {q} _ _ => ?_, fun {q virt} hq hv _ => ?_⟩
  · rw [show s.sys = _ from hsys]
    nofun
  · rw [hprocs, hregions]
    exact procOk_empty q
  · rw [hprocs, hregions]
    exact ⟨rfl, rfl⟩
  · refine iff_of_false (fun hm => hm.1 ?_) ?_
    · rw [show s.sys = _ from hsys]
      exact hb.unset
    · rw [hprocs]
      rintro ⟨i, v, n, hi, -⟩
      cases hi

/-- **It holds in every state reached.** -/
theorem procInv_of_reach (hb : BootOk boot) (h : Reach (ProcInit boot) GoodProc procStep s) :
    ProcInv boot s :=
  Reach.inv (fun _ hi => hi.procInv hb) (fun _ _ _ hi ha he => hi.step hb.windows ha he) h

/-- A region returned once stays in the list. -/
theorem regions_step {a : ProcAct} (he : procStep s a = some s') (q : ℕ) :
    s.regions q ⊆ s'.regions q := by
  have hput : ∀ {pid p mem b n g}, s.regions q ⊆
      (s.put pid p mem (returned b n g (s.regions pid))).regions q := fun {pid p mem b n g} => by
    simp only [ProcSys.put, returned]
    by_cases hqp : q = pid
    · subst hqp
      rw [Function.update_self]
      split_ifs
      · exact List.Subset.refl _
      · exact List.subset_cons_self _ _
    · rw [Function.update_of_ne hqp]
      exact List.Subset.refl _
  cases a with
  | kernel b =>
    obtain ⟨sys, -, rfl⟩ := Option.map_eq_some_iff.mp he
    exact List.Subset.refl _
  | setHeapWindow pid =>
    obtain ⟨t, -, rfl⟩ := Option.map_eq_some_iff.mp he
    exact List.Subset.refl _
  | memAlloc pid pages =>
    obtain ⟨t, -, rfl⟩ := Option.map_eq_some_iff.mp he
    exact hput
  | memMap pid pages flags =>
    obtain ⟨t, -, rfl⟩ := Option.map_eq_some_iff.mp he
    exact hput
  | memUnmap pid address pages =>
    obtain ⟨t, -, rfl⟩ := Option.map_eq_some_iff.mp he
    exact hput (b := 0) (n := 0) (g := false)
  | finish pid =>
    obtain ⟨t, -, rfl⟩ := Option.map_eq_some_iff.mp he
    exact List.Subset.refl _

theorem regions_exec {as : List ProcAct} (he : exec procStep s as = some s') (q : ℕ) :
    s.regions q ⊆ s'.regions q := by
  induction as generalizing s with
  | nil =>
    cases he
    exact List.Subset.refl _
  | cons a as ih =>
    rw [exec] at he
    obtain ⟨t, ht, he⟩ := Option.bind_eq_some_iff.mp he
    exact List.Subset.trans (regions_step ht q) (ih he)

end Steps

/-! ## What is asked for -/

/-- The heap window of a process and the first `USER_MMAP_SIZE` bytes of its mmap window. -/
def InRegionWindow (pid virt : ℕ) : Prop :=
  InHeap pid virt ∨ userMmapBase + pid * userMmapStride ≤ virt ∧
    virt < userMmapBase + pid * userMmapStride + userMmapSize

/-- The regions returned to a process have no address in common and are in its windows. A page of these
is mapped just if it belongs to exactly one used entry of the mapping table, and the process sees them as
the kernel does. -/
structure RegionLaw (pid : ℕ) (s : ProcSys) : Prop where
  apart : (s.regions pid).Pairwise fun r r' =>
    ∀ virt, ¬ (Spans r.base r.pages virt ∧ Spans r'.base r'.pages virt)
  inside : ∀ r ∈ s.regions pid, ∀ virt, Spans r.base r.pages virt → InRegionWindow pid virt
  mapped : ∀ virt, InRegionWindow pid virt → virt % pageSize = 0 → (Mapped s.sys.mem virt ↔
    ∃! i, ((s.procs pid).mappings i).used = true ∧
      Spans ((s.procs pid).mappings i).virt ((s.procs pid).mappings i).pages virt)
  shares : ∀ t, s.sys.space pid = some t → ∀ virt, InRegionWindow pid virt → SharesWith s.sys t virt

/-- The pages just before and just after a region. -/
def Region.GuardPage (r : Region) (virt : ℕ) : Prop :=
  virt = r.base - pageSize ∨ virt = r.base + r.pages * pageSize

/-- The guard pages of the regions that a process gets up to `s'` are not mapped in `s`. -/
def Guarded (pid : ℕ) (s s' : ProcSys) : Prop :=
  ∀ r ∈ s'.regions pid, r.guarded = true → ∀ virt, r.GuardPage virt → ¬ Mapped s.sys.mem virt

section Law

variable {boot : Memory} {s s' : ProcSys} {pid : ℕ}

theorem InRegionWindow.inUserWindow {virt : ℕ} (h : InRegionWindow pid virt) :
    InUserWindow pid virt := by
  refine h.imp_right fun hc => ⟨hc.1, ?_⟩
  simp only [userMmapSize, userMmapStride] at hc ⊢
  omega

/-- A reservation is in the windows of its process. -/
theorem ProcOk.inRegionWindow {p : ProcMem} {regions : List Region} {r : Region} {virt : ℕ}
    (h : ProcOk pid p regions) (hp : pid < 16384) (hr : RegionFits pid p r) (hlo : r.lo ≤ virt)
    (hhi : virt < r.hi) : InRegionWindow pid virt := by
  have hh := h.heapNext.2.2
  have hm := h.mmapNext.2.2
  rw [heapBase_eq hp] at hh
  rw [mmapBase_eq hp] at hm
  rcases hr.inside with hi | hi
  · rw [heapBase_eq hp] at hi
    refine .inl ⟨hi.1.trans hlo, ?_⟩
    rw [Nat.add_mul, Nat.one_mul, ← Nat.add_assoc]
    exact hhi.trans_le (hi.2.trans hh)
  · rw [mmapBase_eq hp] at hi
    exact .inr ⟨hi.1.trans hlo, hhi.trans_le (hi.2.trans hm)⟩

/-- The guard pages are in the reservation, and not in the region. -/
theorem RegionFits.guardPage {p : ProcMem} {r : Region} {virt : ℕ} (h : RegionFits pid p r)
    (hg : r.guarded = true) (hv : r.GuardPage virt) :
    r.lo ≤ virt ∧ virt < r.hi ∧ ¬ Spans r.base r.pages virt ∧ virt % pageSize = 0 := by
  obtain ⟨hal, hpos, -, hroom, -⟩ := h
  have hroom := hroom hg
  rw [Region.GuardPage] at hv
  rw [Region.lo, Region.hi, if_pos hg, if_pos hg, Spans]
  simp only [pageSize] at *
  omega

theorem ProcInv.regionLaw (h : ProcInv boot s) (hp : pid < 16384) : RegionLaw pid s where
  apart := (h.ok hp).apart.imp fun {r r'} ha virt ⟨hc, hc'⟩ =>
    ha.not_spans (r.spans hc).1 (r.spans hc).2 hc'
  inside := fun r hr virt hc => (h.ok hp).inRegionWindow hp ((h.ok hp).fits r hr) (r.spans hc).1
    (r.spans hc).2
  mapped := fun virt hv ha => by
    rw [h.mapped hp hv.inUserWindow ha]
    constructor
    · rintro ⟨i, v, n, hi, hc⟩
      have he : (s.procs pid).mappings i = .inUse v n := hi
      refine ⟨i, by simp only [he]; exact ⟨rfl, hc⟩, fun j hj => ?_⟩
      exact (h.ok hp).spans_unique (hasMapping_of_used hj.1) hi hj.2 hc
    · rintro ⟨i, ⟨hu, hc⟩, -⟩
      exact ⟨i, _, _, hasMapping_of_used hu, hc⟩
  shares := fun t ht virt hv => by
    obtain ⟨F, hl⟩ := h.inv
    have hcr : pid ∈ s.sys.created := hl.created pid (by rw [ht]; exact Option.some_ne_none t)
    exact hl.sharesCreated h.created pid pid t ht hcr virt hv.inUserWindow.inWindow
      (.inl (mem_upTo_self hcr))

/-- **Guard pages are never mapped**: every region of the table is one of those returned in the end, and
these are apart with their guard pages. -/
theorem ProcInv.guarded (h : ProcInv boot s) (h' : ProcInv boot s') (hp : pid < 16384)
    (hsub : s.regions pid ⊆ s'.regions pid) : Guarded pid s s' := by
  intro r hr hg virt hv hm
  have hfit := (h'.ok hp).fits r hr
  obtain ⟨hlo, hhi, hout, ha⟩ := hfit.guardPage hg hv
  have hwin := ((h'.ok hp).inRegionWindow hp hfit hlo hhi).inUserWindow
  obtain ⟨i, v, n, hi, hc⟩ := (h.mapped hp hwin ha).mp hm
  obtain ⟨r', hr', rfl, rfl⟩ := (h.ok hp).region hi
  by_cases he : r = r'
  · exact hout (he ▸ hc)
  · exact ((h'.ok hp).apart.forall hr (hsub hr') he).not_spans hlo hhi hc

/-- **The regions of a process are disjoint, tracked and guarded**, in every state reached; the guard pages
are not mapped before the region is returned, nor after. -/
theorem regionLaw_of_reach (hb : BootOk boot) (h : Reach (ProcInit boot) GoodProc procStep s)
    (hp : pid < 16384) : RegionLaw pid s ∧ ∀ as s', AllGood GoodProc procStep s as →
      exec procStep s as = some s' → Guarded pid s s' :=
  ⟨(procInv_of_reach hb h).regionLaw hp, fun _ _ hg he =>
    (procInv_of_reach hb h).guarded (procInv_of_reach hb (reach_of_exec h hg he)) hp (regions_exec he pid)⟩

end Law

/-- A machine at boot, with so many pages to hand out. -/
def procBoot (pages : ℕ) : ProcSys :=
  { sys := { memBoot with mem := bootWith pages }, procs := fun _ => .empty, regions := fun _ => [] }

theorem procInit_procBoot (pages : ℕ) : ProcInit (bootWith pages) (procBoot pages) := ⟨rfl, rfl, rfl⟩

theorem goodProc_of_call {s : ProcSys} {a : ProcAct} (hp : a.pid < 16384) (hk : ∀ b, a ≠ .kernel b) :
    GoodProc s a := ⟨hp, fun b hb => absurd hb (hk b)⟩

theorem goodProc_create {s : ProcSys} {pid : ℕ} (hp : pid < 16384) :
    GoodProc s (.kernel (.create pid)) := by
  refine ⟨hp, fun b hb => ?_⟩
  cases hb
  exact ⟨trivial, hp, trivial⟩

/-- A process with its windows. -/
def startRun : List ProcAct := [.kernel (.create 1), .setHeapWindow 1]

/-- The process has its windows and nothing in them, and there are pages enough for some thousand more. -/
structure JustStarted (s : ProcSys) : Prop where
  space : s.sys.space 1 ≠ none
  heap : (s.procs 1).heapBase = heapBase 1 ∧ (s.procs 1).heapNext = heapBase 1
  mmap : (s.procs 1).mmapNext = mmapBase 1 ∧ ¬ MmapFull 4097 (s.procs 1)
  unused : ∀ i, ((s.procs 1).mappings i).used = false
  regions : s.regions 1 = []
  pages : s.sys.mem.allocator.available.length = 19993

theorem justStarted_startRun :
    ∃ s, exec procStep (procBoot 20000) startRun = some s ∧ JustStarted s := by
  have hrun : (exec procStep (procBoot 20000) startRun).map (fun s =>
      decide (s.sys.space 1 ≠ none ∧ ((s.procs 1).heapBase = heapBase 1 ∧
          (s.procs 1).heapNext = heapBase 1) ∧
        ((s.procs 1).mmapNext = mmapBase 1 ∧ ¬ MmapFull 4097 (s.procs 1)) ∧
        (∀ i, ((s.procs 1).mappings i).used = false) ∧ s.regions 1 = [] ∧
        s.sys.mem.allocator.freeStack = [] ∧
        s.sys.mem.allocator.ranges.map PageRange.next = [0x17000] ∧
        s.sys.mem.allocator.ranges.map PageRange.stop = [0x10000 + 20000 * pageSize])) = some true := by
    decide +kernel
  obtain ⟨s, hs, he⟩ := Option.map_eq_some_iff.mp hrun
  obtain ⟨hsp, hheap, hmmap, hfree, hreg, hstack, hnexts, hstops⟩ := of_decide_eq_true he
  refine ⟨s, hs, hsp, hheap, hmmap, hfree, hreg, ?_⟩
  obtain ⟨range, hrange, hn⟩ := List.map_eq_singleton_iff.mp hnexts
  rw [hrange] at hstops
  have hstop : range.stop = 0x10000 + 20000 * pageSize := by simpa using hstops
  rw [PhysPageAllocator.available, hstack, hrange]
  simp [PageRange.pages, hn, hstop, pageSize]

/-- A page with guard pages that is given back, and two pages of the heap. -/
def guardRun : List ProcAct :=
  [.kernel (.create 1), .setHeapWindow 1, .memMap 1 1 1, .memUnmap 1 (mmapBase 1 + pageSize) 1,
    .memAlloc 1 2]

theorem allGood_guardRun : AllGood GoodProc procStep (procBoot 256) guardRun :=
  ⟨goodProc_create (by decide), fun _ _ => ⟨goodProc_of_call (by decide) nofun, fun _ _ =>
    ⟨goodProc_of_call (by decide) nofun, fun _ _ => ⟨goodProc_of_call (by decide) nofun, fun _ _ =>
      ⟨goodProc_of_call (by decide) nofun, fun _ _ => trivial⟩⟩⟩⟩⟩

theorem regionLaw_of_reach_guardRun : ∃ s, exec procStep (procBoot 256) guardRun = some s ∧
    (s.regions 1).length = 2 ∧ RegionLaw 1 s ∧ Guarded 1 s s := by
  have hrun : (exec procStep (procBoot 256) guardRun).map (fun s => (s.regions 1).length) = some 2 := by
    decide +kernel
  obtain ⟨s, hs, hlen⟩ := Option.map_eq_some_iff.mp hrun
  obtain ⟨hlaw, hguard⟩ := regionLaw_of_reach (bootOk_bootWith (by decide : 256 < 2 ^ 39))
    (reach_of_exec (.start (procInit_procBoot 256)) allGood_guardRun hs) (by decide : 1 < 16384)
  exact ⟨s, hs, hlen, hlaw, hguard [] s trivial rfl⟩

end Rymos
