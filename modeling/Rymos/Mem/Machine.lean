import Mathlib.Tactic
import Rymos.Base.Runs
import Rymos.Mem.Creation

/-!
# Memory over runs

* `MemSys`, `MemAct`, `memStep`: memory with the private PML4 of each process, and the calls of the
  kernel that change page tables. `OwnAct`: callers map and free only what is theirs.
* `BootOk`: the memory the kernel starts with.
* `bootMemory`, `bootWith`, **`bootOk_bootWith`**: machines to run.
* **`SysInv`**, **`sysInv_of_reach`**: the layout invariant, over every run of pids below `16384`.
-/

namespace Rymos

open TableTree Transition

/-- `space` is the private PML4 of a process while it has one, `stacked` says whose stack is mapped, and
`created` lists the pids that were given a private PML4, the last one first. -/
structure MemSys where
  mem : Memory
  space : ℕ → Option ℕ
  stacked : ℕ → Bool
  created : List ℕ

inductive MemAct where
  /-- `create_process_address_space`. -/
  | create (pid : ℕ)
  /-- `map_image_pages` in the private PML4. -/
  | loadImage (pid base pages : ℕ)
  /-- `map_user_pages` in the kernel's PML4. -/
  | map (pid base pages : ℕ)
  /-- `unmap_user_pages` in the kernel's PML4. -/
  | unmap (pid base pages : ℕ)
  /-- `create_process_stack`. -/
  | createStack (pid : ℕ)
  /-- `reclaim_process_stack`. -/
  | reclaimStack (pid : ℕ)
  /-- `reclaim_process_window_tables`. -/
  | reclaimTables (pid : ℕ)
  /-- `destroy_process_address_space`. -/
  | destroy (pid : ℕ)

def memStep (s : MemSys) : MemAct → Option MemSys
  | .create pid =>
    if pid ∈ s.created then none
    else
      match createProcessAddressSpace pid s.mem with
      | (none, mem) => some { s with mem := mem }
      | (some pml4, mem) => some { s with
          mem := mem
          space := Function.update s.space pid (some pml4)
          created := pid :: s.created }
  | .loadImage pid base pages =>
    (s.space pid).map fun pml4 => { s with mem := (mapImagePages pml4 base pages s.mem).2 }
  | .map pid base pages =>
    (s.space pid).map fun _ => { s with mem := (mapUserPages s.mem.kernelPml4 base pages s.mem).2 }
  | .unmap pid base pages =>
    (s.space pid).map fun _ => { s with mem := (unmapUserPages s.mem.kernelPml4 base pages s.mem).2 }
  | .createStack pid =>
    if s.stacked pid then none
    else
      some { s with
        mem := (createProcessStack pid s.mem).2
        stacked := Function.update s.stacked pid (createProcessStack pid s.mem).1.isSome }
  | .reclaimStack pid =>
    if s.stacked pid then
      some { s with
        mem := reclaimProcessStack pid s.mem
        stacked := Function.update s.stacked pid false }
    else none
  | .reclaimTables pid => some { s with mem := reclaimProcessWindowTables pid s.mem }
  | .destroy pid =>
    (s.space pid).map fun pml4 => { s with
      mem := destroyProcessAddressSpace pml4 s.mem
      space := Function.update s.space pid none }

/-! ## Ranges -/

def MemAct.pid : MemAct → ℕ
  | .create pid | .loadImage pid _ _ | .map pid _ _ | .unmap pid _ _ | .createStack pid
  | .reclaimStack pid | .reclaimTables pid | .destroy pid => pid

/-- A range of pages in the image window. -/
def InImage (base pages : ℕ) : Prop :=
  base % pageSize = 0 ∧ appLoadMin ≤ base ∧ base + pages * pageSize ≤ appLoadMax

/-- A range of pages in the heap window or the mmap window of a pid. -/
def InUser (pid base pages : ℕ) : Prop :=
  base % pageSize = 0 ∧
    (heapBase pid ≤ base ∧ base + pages * pageSize ≤ heapBase pid + userHeapStride ∨
      mmapBase pid ≤ base ∧ base + pages * pageSize ≤ mmapBase pid + userMmapStride)

/-- Callers map and free in their own windows. -/
def OwnRange : MemAct → Prop
  | .loadImage _ base pages => InImage base pages
  | .map pid base pages => InUser pid base pages
  | .unmap pid base pages => InUser pid base pages
  | _ => True

/-- The same, for pids that are below `limit`. -/
def OwnAct (limit : ℕ) (_ : MemSys) (a : MemAct) : Prop := a.pid < limit ∧ OwnRange a

/-! ## The start -/

/-- The memory at boot: no PML4 of the kernel's own, and pages to hand out that are none of the tables
in use; nothing is mapped in the windows. -/
structure BootOk (boot : Memory) : Prop where
  unset : boot.kernelPml4 = 0
  loose : boot.allocator.available.Nodup
  page : ∀ a ∈ boot.allocator.available, IsPage a
  apart : ∀ t, Firmware boot t → t ∉ boot.allocator.available
  windows : WindowsFree boot

def MemInit (boot : Memory) (s : MemSys) : Prop :=
  s = { mem := boot, space := fun _ => none, stacked := fun _ => false, created := [] }

/-! ## The invariant -/

/-- The pids created up to and with a pid. -/
def upTo (created : List ℕ) (pid : ℕ) : List ℕ := created.dropWhile (· ≠ pid)

/-- The top-level entries of the pids of a list. -/
def slotsOfAll (pids : List ℕ) : Set ℕ := {s | ∃ pid ∈ pids, s ∈ slotsOf pid}

/-- The layout at hand: its private roots are the private PML4s, and a private PML4 has the top-level
entries of the windows of the pids created up to its own. -/
structure SysLayout (boot : Memory) (s : MemSys) (F : Layout (Option ℕ) ℕ ℕ) : Prop where
  inv : MemInv boot ∅ (fun pid => slotsOfAll (upTo s.created pid)) F [] s.mem
  space : ∀ pid, F (some pid) [] = s.space pid
  created : ∀ pid, s.space pid ≠ none → pid ∈ s.created
  slots : ∀ x ∈ slotsOfAll s.created, F none [x] ≠ none
  stacked : ∀ pid, s.stacked pid = true → F none [] ≠ none

def SysInv (boot : Memory) (s : MemSys) : Prop := ∃ F, SysLayout boot s F

/-- No page of the kernel's tree has come or gone but in stacks. -/
def KeepsUser (F F' : Layout (Option ℕ) ℕ ℕ) : Prop :=
  ∀ virt, pml4Index virt ≠ 352 → F' none (pathOf virt) = F none (pathOf virt)

section Steps

variable {boot : Memory} {s s' : MemSys} {F F' : Layout (Option ℕ) ℕ ℕ} {pid base pages : ℕ}

theorem ownedPath_window {virt : ℕ} (hp : pid < 16384) (h : InWindow pid virt) :
    OwnedPath none (pathOf virt) := by
  refine ⟨?_, fun i hi => ?_⟩
  · change 288 ≤ pml4Index virt ∧ pml4Index virt ≤ 352
    have := windowPlace_pathOf.mp (windowPlace_of_inWindow hp h)
    omega
  · obtain ⟨h₄, h₃, h₂, h₁⟩ := index_lt virt
    simp only [pathOf, List.mem_cons, List.not_mem_nil, or_false] at hi
    rcases hi with rfl | rfl | rfl | rfl
    · exact h₁
    · exact h₂
    · exact h₃
    · exact h₄

theorem ownedPath_image {virt : ℕ} (h : appLoadMin ≤ virt) (h' : virt < appLoadMax) :
    OwnedPath (some pid) (pathOf virt) := by
  simp only [appLoadMin, appLoadMax] at h h'
  have hs : startPdIndex = 1 := rfl
  have he : endPdIndex = 72 := rfl
  obtain ⟨h₄, h₃, h₂, h₁⟩ := index_lt virt
  refine ⟨⟨?_, ?_, ?_⟩, fun i hi => ?_⟩
  · rw [ImageSlot, hs, he, pdIndex]
    omega
  · rw [pdptIndex]
    omega
  · rw [pml4Index]
    omega
  · simp only [pathOf, List.mem_cons, List.not_mem_nil, or_false] at hi
    rcases hi with rfl | rfl | rfl | rfl
    · exact h₁
    · exact h₂
    · exact h₃
    · exact h₄

theorem InImage.bounds {virt : ℕ} (h : InImage base pages) (hv : virt ∈ pagesFrom base 0 pages) :
    appLoadMin ≤ virt ∧ virt < appLoadMax := by
  obtain ⟨k, -, hk, rfl⟩ := hv
  obtain ⟨-, hlo, hhi⟩ := h
  simp only [appLoadMin, appLoadMax, pageSize, pageVirt] at *
  omega

theorem InUser.inWindow {virt : ℕ} (hp : pid < 16384) (h : InUser pid base pages)
    (hv : virt ∈ pagesFrom base 0 pages) : InWindow pid virt := by
  obtain ⟨k, -, hk, rfl⟩ := hv
  obtain ⟨-, ⟨hlo, hhi⟩ | ⟨hlo, hhi⟩⟩ := h
  · left
    simp only [InHeap, heapBase, userHeapBase, userHeapStride, pageSize, pageVirt] at *
    omega
  · right; left
    simp only [InMmap, mmapBase, userMmapBase, userMmapStride, pageSize, pageVirt] at *
    omega

/-- What grows below a root that is there adds no root. -/
theorem grows_root {P : Option ℕ → List ℕ → Prop} {r : Option ℕ} {t : ℕ}
    (h : Layout.Grows P F F') (hP : ∀ r' p, P r' p → r' = r) (hr : F r [] = some t) (r' : Option ℕ) :
    F' r' [] = F r' [] := by
  by_cases hc : r' = r
  · rw [hc, h.some hr, hr]
  · exact h.eq fun hp => hc (hP _ _ hp)

/-- Short places are in no window. -/
theorem WindowPlace.length {q : List ℕ} (h : WindowPlace pid q) : 2 ≤ q.length := by
  obtain ⟨j, -, hs⟩ | hs | hs := h
  · exact le_trans (by simp [heapPd]) hs.length_le
  · exact le_trans (by simp [mmapPd]) hs.length_le
  · exact le_trans (by simp [stackTable]) hs.length_le

theorem SysLayout.kernel (h : SysLayout boot s F) (hk : F none [] ≠ none) :
    F none [] = some s.mem.kernelPml4 := by
  have := h.inv.kernel
  split_ifs at this with hz
  · exact absurd this hk
  · exact this

theorem SysLayout.root (h : SysLayout boot s F) {t : ℕ} (ht : s.space pid = some t) :
    F (some pid) [] = some t ∧ F none [] = some s.mem.kernelPml4 := by
  have hr := (h.space pid).trans ht
  exact ⟨hr, h.kernel (h.inv.born hr)⟩

/-- A step that only adds pages, below roots that are there. -/
theorem SysLayout.grow (h : SysLayout boot s F) {P : Option ℕ → List ℕ → Prop}
    {stacked : ℕ → Bool} {mem : Memory}
    (hi : MemInv boot ∅ (fun pid => slotsOfAll (upTo s.created pid)) F' [] mem)
    (hg : Layout.Grows P F F') (hroot : ∀ pid, F' (some pid) [] = F (some pid) [])
    (hst : ∀ pid, stacked pid = true → s.stacked pid = true ∨ F' none [] ≠ none) :
    SysLayout boot { s with mem := mem, stacked := stacked } F' := by
  have hkeep : ∀ {r p}, F r p ≠ none → F' r p ≠ none := fun hn => by
    obtain ⟨t, ht⟩ := Option.ne_none_iff_exists'.mp hn
    rw [hg.some ht]
    exact Option.some_ne_none t
  exact ⟨hi, fun pid => (hroot pid).trans (h.space pid), h.created, fun x hx => hkeep (h.slots x hx),
    fun pid hp => (hst pid hp).elim (fun hs => hkeep (h.stacked pid hs)) id⟩

/-- A step that only takes away pages that are deeper than the top-level tables. -/
theorem SysLayout.shrink (h : SysLayout boot s F) {P : Option ℕ → List ℕ → Prop}
    {stacked : ℕ → Bool} {mem : Memory}
    (hi : MemInv boot ∅ (fun pid => slotsOfAll (upTo s.created pid)) F' [] mem)
    (hre : Reclaims P F F' s.mem mem) (hP : ∀ r p, P r p → 2 ≤ p.length)
    (hst : ∀ pid, stacked pid = true → s.stacked pid = true) :
    SysLayout boot { s with mem := mem, stacked := stacked } F' := by
  have hsame : ∀ r p, p.length < 2 → F' r p = F r p := fun r p hp =>
    (hre.cleared r p).2 fun hc => absurd (hP r p hc) (not_le.mpr hp)
  refine ⟨hi, fun pid => ?_, h.created, fun x hx => ?_, fun pid hp => ?_⟩
  · rw [hsame _ _ (by simp)]
    exact h.space pid
  · rw [hsame _ _ (by simp)]
    exact h.slots x hx
  · rw [hsame _ _ (by simp)]
    exact h.stacked pid (hst pid hp)

/-- **What a call does to the pids**: a private PML4 comes with a pid that never had one. -/
theorem memStep_pids {a : MemAct} (he : memStep s a = some s') :
    (s'.created = s.created ∧ ∀ q, s'.space q ≠ none → s.space q ≠ none) ∨
      ∃ t, a.pid ∉ s.created ∧ s'.created = a.pid :: s.created ∧
        s'.space = Function.update s.space a.pid (some t) := by
  cases a with
  | create pid =>
    rw [memStep] at he
    split_ifs at he with hnew
    split at he
    · cases he
      exact .inl ⟨rfl, fun _ => id⟩
    · next t _ _ =>
      cases he
      exact .inr ⟨t, hnew, rfl, rfl⟩
  | loadImage pid base pages =>
    obtain ⟨t, -, rfl⟩ := Option.map_eq_some_iff.mp he
    exact .inl ⟨rfl, fun _ => id⟩
  | map pid base pages =>
    obtain ⟨t, -, rfl⟩ := Option.map_eq_some_iff.mp he
    exact .inl ⟨rfl, fun _ => id⟩
  | unmap pid base pages =>
    obtain ⟨t, -, rfl⟩ := Option.map_eq_some_iff.mp he
    exact .inl ⟨rfl, fun _ => id⟩
  | createStack pid =>
    rw [memStep] at he
    split_ifs at he
    cases he
    exact .inl ⟨rfl, fun _ => id⟩
  | reclaimStack pid =>
    rw [memStep] at he
    split_ifs at he
    cases he
    exact .inl ⟨rfl, fun _ => id⟩
  | reclaimTables pid =>
    cases he
    exact .inl ⟨rfl, fun _ => id⟩
  | destroy pid =>
    obtain ⟨t, -, rfl⟩ := Option.map_eq_some_iff.mp he
    refine .inl ⟨rfl, fun q hq => ?_⟩
    change Function.update s.space pid none q ≠ none at hq
    by_cases hqp : q = pid
    · rw [hqp, Function.update_self] at hq
      exact absurd rfl hq
    · rwa [Function.update_of_ne hqp] at hq

theorem upTo_cons_self (created : List ℕ) (pid : ℕ) : upTo (pid :: created) pid = pid :: created := by
  simp [upTo]

theorem upTo_cons_of_ne {created : List ℕ} {pid' : ℕ} (h : pid ≠ pid') :
    upTo (pid :: created) pid' = upTo created pid' := by simp [upTo, h]

theorem slotsOfAll_cons (pid : ℕ) (pids : List ℕ) :
    slotsOfAll (pid :: pids) = slotsOfAll pids ∪ slotsOf pid := by
  ext x
  simp only [slotsOfAll, List.mem_cons, exists_eq_or_imp, Set.mem_union, Set.mem_ofPred_eq]
  exact or_comm

theorem not_rootPlace_pathOf {virt : ℕ} : ¬ RootPlace pid none (pathOf virt) := by
  rintro (⟨-, hq⟩ | ⟨-, s, -, hq⟩) <;> cases hq

/-- **`create_process_address_space`.** -/
theorem SysLayout.create (h : SysLayout boot s F) (hw : WindowsFree boot) (hp : pid < 16384)
    (he : memStep s (.create pid) = some s') : ∃ F', SysLayout boot s' F' ∧ KeepsUser F F' := by
  rw [memStep] at he
  split_ifs at he with hnew
  have hnone : F (some pid) [] = none := by
    rw [h.space]
    by_contra hc
    exact hnew (h.created pid hc)
  obtain ⟨F₁, mem', hg, ⟨hc, hi⟩ | ⟨a, b, c, hc, hi, hall⟩⟩ :=
    h.inv.create hw hp hnone h.slots
  · rw [hc] at he
    cases he
    refine ⟨F₁, h.grow hi hg (fun pid' => hg.eq ?_) fun _ => .inl, fun virt _ => hg.eq ?_⟩
    · rintro (⟨hr, -⟩ | ⟨hr, -⟩) <;> cases hr
    · exact not_rootPlace_pathOf
  · rw [hc] at he
    cases he
    have hkeep : ∀ {p}, F none p ≠ none → F₁.graft (some pid) (privateRoot a b c) none p ≠ none :=
      fun {p} hn => by
        obtain ⟨t, ht⟩ := Option.ne_none_iff_exists'.mp hn
        rw [Layout.graft, Function.update_of_ne (Option.some_ne_none pid).symm, hg.some ht]
        exact Option.some_ne_none t
    refine ⟨F₁.graft (some pid) (privateRoot a b c), ⟨?_, fun pid' => ?_, fun pid' hs => ?_,
      fun x hx => ?_, fun pid' hs => hkeep (h.stacked pid' hs)⟩, fun virt _ => ?_⟩
    · convert hi using 1
      funext pid'
      by_cases hpp : pid' = pid
      · rw [hpp, Function.update_self, upTo_cons_self, slotsOfAll_cons]
      · rw [Function.update_of_ne hpp, upTo_cons_of_ne (Ne.symm hpp)]
    · change _ = Function.update s.space pid (some a) pid'
      by_cases hpp : pid' = pid
      · subst hpp
        rw [Layout.graft, Function.update_self, Function.update_self]
        rfl
      · rw [Layout.graft, Function.update_of_ne fun hc => hpp (Option.some.inj hc),
          Function.update_of_ne hpp, hg.eq, h.space]
        rintro (⟨hr, -⟩ | ⟨hr, -⟩) <;> cases hr
    · change Function.update s.space pid (some a) pid' ≠ none at hs
      by_cases hpp : pid' = pid
      · exact hpp ▸ List.mem_cons_self
      · rw [Function.update_of_ne hpp] at hs
        exact List.mem_cons_of_mem _ (h.created pid' hs)
    · rw [Layout.graft, Function.update_of_ne (Option.some_ne_none pid).symm]
      rw [slotsOfAll_cons] at hx
      exact hall x hx
    · rw [Layout.graft, Function.update_of_ne (Option.some_ne_none pid).symm]
      exact hg.eq not_rootPlace_pathOf

/-- **`map_image_pages`.** -/
theorem SysLayout.loadImage (h : SysLayout boot s F) (hb : InImage base pages)
    (he : memStep s (.loadImage pid base pages) = some s') :
    ∃ F', SysLayout boot s' F' ∧ KeepsUser F F' := by
  obtain ⟨t, ht, rfl⟩ := Option.map_eq_some_iff.mp he
  obtain ⟨hr, -⟩ := h.root ht
  obtain ⟨F', hi, hg, -, -⟩ := h.inv.mapImage hb.1 pages hr fun virt hv =>
    ownedPath_image (hb.bounds hv).1 (hb.bounds hv).2
  refine ⟨F', h.grow hi hg (fun pid' => grows_root hg (fun r p hp => ?_) hr (some pid'))
    fun _ => .inl, fun virt _ => hg.eq ?_⟩
  · exact hp.elim And.left And.left
  · rintro (⟨hc, -⟩ | ⟨hc, -⟩) <;> cases hc

/-- **`map_user_pages`**: every page of the range where none was, or no page more. -/
theorem SysLayout.map (h : SysLayout boot s F) (hp : pid < 16384) (hb : InUser pid base pages)
    (he : memStep s (.map pid base pages) = some s') : ∃ F', SysLayout boot s' F' ∧
      (((mapUserPages s.mem.kernelPml4 base pages s.mem).1 = false ∧
          Layout.Grows (OnWay none (pagesFrom base 0 pages)) F F') ∨
        ((mapUserPages s.mem.kernelPml4 base pages s.mem).1 = true ∧
          MappedSoFar none (pagesFrom base 0 pages) (pagesFrom base 0 pages) F F')) := by
  obtain ⟨t, ht, rfl⟩ := Option.map_eq_some_iff.mp he
  obtain ⟨-, hr⟩ := h.root ht
  obtain ⟨F', mem', hi, ⟨he, hg⟩ | ⟨he, hso⟩⟩ := h.inv.mapUser hb.1
    (fun virt hv => ownedPath_window hp (hb.inWindow hp hv)) hr
  · rw [he]
    exact ⟨F', h.grow hi hg (fun pid' => grows_root hg (fun r p hp => hp.1) hr (some pid'))
      fun _ => .inl, .inl ⟨rfl, hg⟩⟩
  · rw [he]
    exact ⟨F', h.grow hi hso.grows (fun pid' => grows_root hso.grows
      (fun r p hp => hp.elim And.left And.left) hr (some pid')) fun _ => .inl, .inr ⟨rfl, hso⟩⟩

/-- **`unmap_user_pages`**: exactly the pages of the range. -/
theorem SysLayout.unmap (h : SysLayout boot s F) (hp : pid < 16384) (hb : InUser pid base pages)
    (he : memStep s (.unmap pid base pages) = some s') : ∃ F', SysLayout boot s' F' ∧
      Layout.Cleared (PageOf none (pagesFrom base 0 pages)) F F' := by
  obtain ⟨t, ht, rfl⟩ := Option.map_eq_some_iff.mp he
  obtain ⟨-, hr⟩ := h.root ht
  obtain ⟨F', hi, hre⟩ := h.inv.unmapUser hb.1 pages hr fun virt hv =>
    ownedPath_window hp (hb.inWindow hp hv)
  refine ⟨F', h.shrink hi hre ?_ fun _ => id, hre.cleared⟩
  rintro r q ⟨-, virt, -, rfl⟩
  simp [pathOf]

/-- **`create_process_stack`.** -/
theorem SysLayout.createStack (h : SysLayout boot s F) (hw : WindowsFree boot) (hp : pid < 16384)
    (he : memStep s (.createStack pid) = some s') : ∃ F', SysLayout boot s' F' ∧ KeepsUser F F' := by
  rw [memStep] at he
  split_ifs at he
  cases he
  obtain ⟨F', hi, hg, hst⟩ := h.inv.createStack hw hp
  refine ⟨F', h.grow hi hg (fun pid' => hg.eq fun hc => Option.some_ne_none pid' hc.1) fun pid' hs => ?_,
    fun virt hv => hg.eq ?_⟩
  · by_cases hpp : pid' = pid
    · subst hpp
      rw [Function.update_self] at hs
      exact .inr (hst hs)
    · rw [Function.update_of_ne hpp] at hs
      exact .inl hs
  · rintro ⟨-, hq | ⟨m, hq⟩⟩
    · cases hq
    · have he := hq.eq_of_length (by simp [pathOf, stackTable])
      simp only [pathOf, stackTable, List.cons.injEq] at he
      exact hv he.2.2.2.1

theorem stackPlace_pathOf {virt : ℕ} (h : StackPlace pid (pathOf virt)) : pml4Index virt = 352 := by
  obtain ⟨l, hl⟩ := h
  have hlen := congrArg List.length hl
  obtain ⟨m, rfl⟩ : ∃ m, l = [m] := List.length_eq_one_iff.mp (by simpa [stackTable, pathOf] using hlen)
  simp only [stackTable, pathOf, List.cons_append, List.nil_append, List.cons.injEq] at hl
  exact hl.2.2.2.1.symm

/-- **`reclaim_process_stack`.** -/
theorem SysLayout.reclaimStack (h : SysLayout boot s F) (hp : pid < 16384)
    (he : memStep s (.reclaimStack pid) = some s') :
    ∃ F', SysLayout boot s' F' ∧ KeepsUser F F' := by
  rw [memStep] at he
  split_ifs at he with hs
  cases he
  obtain ⟨F', hi, hre⟩ := h.inv.reclaimStack hp (h.kernel (h.stacked pid hs)) fun _ _ _ hc => hc.elim
  refine ⟨F', h.shrink hi hre (fun r q hq => WindowPlace.length (.inr (.inr hq.2))) fun pid' hs => ?_,
    fun virt hv => (hre.cleared none (pathOf virt)).2 ?_⟩
  · by_cases hpp : pid' = pid
    · subst hpp
      rw [Function.update_self] at hs
      cases hs
    · rwa [Function.update_of_ne hpp] at hs
  · rintro ⟨-, hq⟩
    exact hv (stackPlace_pathOf hq)

/-- **`reclaim_process_window_tables`.** -/
theorem SysLayout.reclaimTables (h : SysLayout boot s F) (hp : pid < 16384)
    (he : memStep s (.reclaimTables pid) = some s') : ∃ F', SysLayout boot s' F' ∧
      Layout.Cleared (fun r q => r = none ∧ (HeapPlace pid q ∨ MmapPlace pid q)) F F' := by
  cases he
  obtain ⟨F', hi, hre⟩ := h.inv.reclaimWindowTables hp (fun _ _ _ _ _ _ _ hc => hc.elim)
    fun _ _ _ _ _ _ hc => hc.elim
  exact ⟨F', h.shrink hi hre
    (fun r q hq => WindowPlace.length (hq.2.elim .inl fun hm => .inr (.inl hm))) fun _ => id,
    hre.cleared⟩

/-- **`destroy_process_address_space`.** -/
theorem SysLayout.destroy (h : SysLayout boot s F)
    (he : memStep s (.destroy pid) = some s') : ∃ F', SysLayout boot s' F' ∧ KeepsUser F F' := by
  obtain ⟨t, ht, rfl⟩ := Option.map_eq_some_iff.mp he
  obtain ⟨hr, -⟩ := h.root ht
  have hkernel : ∀ q, F.prune (some pid) [] none q = F none q := fun q => if_neg fun hc =>
    Option.some_ne_none pid hc.1.symm
  refine ⟨_, ⟨h.inv.destroy hr, fun pid' => ?_, fun pid' hs => ?_, fun x hx => ?_, fun pid' hs => ?_⟩,
    fun virt _ => hkernel (pathOf virt)⟩
  · change _ = Function.update s.space pid none pid'
    by_cases hpp : pid' = pid
    · subst hpp
      rw [Function.update_self]
      exact if_pos ⟨rfl, List.suffix_rfl⟩
    · rw [Function.update_of_ne hpp, ← h.space]
      exact if_neg fun hc => hpp (Option.some.inj hc.1)
  · change Function.update s.space pid none pid' ≠ none at hs
    by_cases hpp : pid' = pid
    · rw [hpp, Function.update_self] at hs
      exact absurd rfl hs
    · rw [Function.update_of_ne hpp] at hs
      exact h.created pid' hs
  · rw [hkernel]
    exact h.slots x hx
  · rw [hkernel]
    exact h.stacked pid' hs

/-- **Every call keeps the layout invariant.** -/
theorem SysInv.step (h : SysInv boot s) (hw : WindowsFree boot) {a : MemAct} (ha : OwnAct 16384 s a)
    (he : memStep s a = some s') : SysInv boot s' := by
  obtain ⟨F, h⟩ := h
  obtain ⟨hp, hr⟩ := ha
  cases a with
  | create pid => exact (h.create hw hp he).imp fun _ => And.left
  | loadImage pid base pages => exact (h.loadImage hr he).imp fun _ => And.left
  | map pid base pages => exact (h.map hp hr he).imp fun _ => And.left
  | unmap pid base pages => exact (h.unmap hp hr he).imp fun _ => And.left
  | createStack pid => exact (h.createStack hw hp he).imp fun _ => And.left
  | reclaimStack pid => exact (h.reclaimStack hp he).imp fun _ => And.left
  | reclaimTables pid => exact (h.reclaimTables hp he).imp fun _ => And.left
  | destroy pid => exact (h.destroy he).imp fun _ => And.left

theorem MemInit.sysInv (hb : BootOk boot) (h : MemInit boot s) : SysInv boot s := by
  cases h
  refine ⟨fun _ _ => none, ⟨?_, fun _ => rfl, fun _ hc => absurd rfl hc, ?_, nofun⟩⟩
  · refine ⟨⟨nofun, nofun, nofun, nofun⟩, nofun, ?_, ?_, nofun, nofun, fun {t} ht => ⟨rfl, ?_, nofun⟩,
      ?_, fun _ => rfl, nofun, nofun, nofun, nofun⟩
    · rw [List.append_nil]
      exact hb.loose
    · rw [List.append_nil]
      exact hb.page
    · rw [List.append_nil]
      exact hb.apart t ht
    · rw [hb.unset]
      rfl
  · rintro x ⟨pid, hp, -⟩
    cases hp

/-- **The layout invariant holds in every state reached.** -/
theorem sysInv_of_reach (hb : BootOk boot)
    (h : Reach (MemInit boot) (OwnAct 16384) memStep s) : SysInv boot s :=
  Reach.inv (fun _ hi => hi.sysInv hb) (fun _ _ _ hi ha he => hi.step hb.windows ha he) h

end Steps

/-! ## A machine -/

/-- The tables of a boot PML4 that maps the first GiB with large pages. -/
def bootTable (t i : ℕ) : ℕ :=
  if t = 0x1000 ∧ i = 0 then pageEntry 0x2000 presentWritable
  else if t = 0x2000 ∧ i = 0 then pageEntry 0x3000 presentWritable
  else if t = 0x3000 then i * 2 ^ 21 + 0x83 else 0

/-- A machine with 256 pages to hand out. -/
def bootMemory : Memory where
  table := bootTable
  allocator := { ranges := [{ next := 0x10000, stop := 0x110000 }], freeStack := [], refused := [] }
  kernelPml4 := 0
  cr3 := 0x1000

def memBoot : MemSys :=
  { mem := bootMemory, space := fun _ => none, stacked := fun _ => false, created := [] }

theorem firmware_bootMemory {t : ℕ} (h : Firmware bootMemory t) : t < 0x10000 := by
  obtain ⟨is, -, hf⟩ := h
  have hstep : ∀ (is : List ℕ) (u : ℕ), u < 0x10000 → follow bootTable u is = some t → t < 0x10000 := by
    intro is
    induction is with
    | nil =>
      intro u hu hf
      cases hf
      exact hu
    | cons i is ih =>
      intro u hu hf
      obtain ⟨v, hv, hf⟩ := Option.bind_eq_some_iff.mp hf
      refine ih v ?_ hf
      obtain ⟨hp, hh, rfl⟩ := tableEntryAddress_eq_some.mp hv
      simp only [bootTable] at hp hh ⊢
      split_ifs at hp hh ⊢
      · decide
      · decide
      · simp only [huge] at hh
        omega
      · simp [present] at hp
  exact hstep is _ (by decide) hf

/-- The machine with another number of pages. -/
def bootWith (pages : ℕ) : Memory :=
  { bootMemory with
    allocator :=
      { ranges := [{ next := 0x10000, stop := 0x10000 + pages * pageSize }], freeStack := [],
        refused := [] } }

theorem bootOk_bootWith {pages : ℕ} (hn : pages < 2 ^ 39) : BootOk (bootWith pages) := by
  have hlist : (bootWith pages).allocator.available = List.range' 0x10000 pages 4096 := by
    have hcount : (0x10000 + pages * pageSize - 0x10000 + (pageSize - 1)) / pageSize = pages := by
      simp only [pageSize]
      omega
    simp only [PhysPageAllocator.available, bootWith, List.flatMap_cons, List.flatMap_nil,
      List.append_nil, List.nil_append, PageRange.pages, hcount]
  have hav : ∀ a ∈ (bootWith pages).allocator.available, ∃ k < pages, a = 0x10000 + 4096 * k :=
    fun a ha => List.mem_range'.mp (hlist ▸ ha)
  refine ⟨rfl, ?_, fun a ha => ?_, fun t ht ha => ?_, fun s hs => ?_⟩
  · rw [hlist]
    exact List.nodup_range' 4096
  · obtain ⟨k, hk, rfl⟩ := hav a ha
    simp only [IsPage, pageSize]
    omega
  · obtain ⟨k, -, rfl⟩ := hav t ha
    have := firmware_bootMemory (t := 0x10000 + 4096 * k) ht
    omega
  · have hz : s ≠ 0 := hs.ne_zero
    simp [bootWith, bootMemory, bootTable, hz]

theorem bootOk_bootMemory : BootOk bootMemory := bootOk_bootWith (by decide : 256 < 2 ^ 39)

end Rymos
