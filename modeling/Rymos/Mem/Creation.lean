import Mathlib.Tactic
import Rymos.Mem.Reclaim

/-!
# Address spaces made and given up

* **`MemInv.graft`**: a root added, with pages of the hand below it.
* **`MemInv.ensureKernel`**, **`MemInv.touch`**, **`MemInv.copyImage`**, **`MemInv.create`**: the
  steps of `create_process_address_space`.
* **`MemInv.destroy`**: exactly the private tables, and the pages of the image.
-/

namespace Rymos

open TableTree

section Creation

variable {boot mem mem' : Memory} {kept : Set ℕ} {seen seen' : ℕ → Set ℕ}
  {F : Layout (Option ℕ) ℕ ℕ} {hand L : List ℕ} {r : Option ℕ} {p : List ℕ} {i t a k pid : ℕ}

/-- The tables of the hand may change. -/
theorem MemInv.fill (h : MemInv boot kept seen F hand mem) {table : ℕ → ℕ → ℕ}
    (ht : ∀ t, t ∉ hand → table t = mem.table t) :
    MemInv boot kept seen F hand { mem with table := table } := by
  refine h.retable (fun {r p t} hF => ht t fun hc => (h.placed hF).2 ?_)
    fun {t} hw => ht t fun hc => (h.firmware hw).2.1 ?_
  · exact List.mem_append_right _ hc
  · exact List.mem_append_right _ hc

/-- **A root added**: the pages `L` of the hand are its tables. -/
theorem MemInv.graft (h : MemInv boot kept seen F (L ++ hand) mem) {G : List ℕ → Option ℕ}
    (hr : ∀ p, F r p = none) (hal : mem'.allocator = mem.allocator)
    (htab : ∀ t, t ∉ L → mem'.table t = mem.table t) (hL : ∀ a, a ∈ L ↔ ∃ p, G p = some a)
    (hown : ∀ {p a}, G p = some a → OwnedPath r p)
    (hparent : ∀ {i p a}, G (i :: p) = some a → ∃ b, G p = some b)
    (hchild : ∀ {i p a}, G p = some a → OwnedPath r (i :: p) →
      mem'.next a i = G (i :: p) ∧ (present (mem'.table a i) → ¬ huge (mem'.table a i)))
    (hinj : ∀ {p p' a}, G p = some a → G p' = some a → p = p')
    (hkernel : F.graft r G none [] = if mem'.kernelPml4 = 0 then none else some mem'.kernelPml4)
    (hactive : mem'.kernelPml4 = 0 → mem'.cr3 = boot.cr3)
    (htop : ∀ {k i}, F.graft r G none [] = some k → ¬ WindowSlot i →
      mem'.table k i = boot.table boot.cr3 i)
    (hclone : ∀ {pid t k i}, F.graft r G (some pid) [] = some t → F.graft r G none [] = some k →
      i ≠ 0 → mem'.table t i = mem'.table k i ∨ WindowSlot i ∧ ¬ present (mem'.table t i))
    (hvisible : ∀ {pid t s}, F.graft r G (some pid) [] = some t → s ∈ seen' pid →
      WindowSlot s ∧ present (mem'.table t s))
    (hborn : ∀ {pid t}, F.graft r G (some pid) [] = some t → F.graft r G none [] ≠ none) :
    MemInv boot kept seen' (F.graft r G) hand mem' := by
  have hself : F.graft r G r = G := Function.update_self ..
  have hother : ∀ {r'}, r' ≠ r → F.graft r G r' = F r' := fun hne => Function.update_of_ne hne ..
  have hsub : mem.allocator.available ++ hand ⊆ mem.allocator.available ++ (L ++ hand) :=
    fun b hb => by
      simp only [List.mem_append] at hb ⊢
      tauto
  have hnot : ∀ {r' q b}, F r' q = some b → b ∉ L := fun hb hc => (h.placed hb).2 <| by
    simp only [List.mem_append]
    tauto
  have hin : ∀ {q b}, G q = some b → b ∈ mem.allocator.available ++ (L ++ hand) := fun hb => by
    simp only [List.mem_append, hL]
    exact .inr (.inl ⟨_, hb⟩)
  refine ⟨h.lays.graft hr hown hparent (fun hb ho => (hchild hb ho).1) hinj
    (fun hb hc => hnot hc ((hL _).mpr ⟨_, hb⟩)) fun {r' q u j} hu _ => ?_,
    fun {r' q j u} hu ho => ?_, ?_, fun b hb => ?_, fun {r' q b} hb => ?_, fun b hb => ?_,
    fun {u} hu => ?_, hkernel, hactive, htop, hclone, hvisible, hborn⟩
  · rw [Memory.next, Memory.next, htab u (hnot hu)]
  · by_cases hrr : r' = r
    · subst hrr
      rw [hself] at hu
      exact (hchild hu ho).2
    · rw [hother hrr] at hu
      rw [htab u (hnot hu)]
      exact h.small hu ho
  · rw [hal]
    exact h.loose.sublist (List.Sublist.append_left (List.sublist_append_right L hand) _)
  · rw [hal] at hb
    exact h.page b (hsub hb)
  · rw [hal]
    by_cases hrr : r' = r
    · subst hrr
      rw [hself] at hb
      refine ⟨h.page b (hin hb), fun hc => ?_⟩
      have hbL : b ∈ L := (hL b).mpr ⟨_, hb⟩
      have hnd : (L ++ (mem.allocator.available ++ hand)).Nodup := by
        refine (List.Perm.nodup_iff ?_).mpr h.loose
        rw [← List.append_assoc, ← List.append_assoc]
        exact List.perm_append_comm.append_right hand
      exact (List.nodup_append.mp hnd).2.2 b hbL b hc rfl
    · rw [hother hrr] at hb
      exact ⟨(h.placed hb).1, fun hc => (h.placed hb).2 (hsub hc)⟩
  · rw [hal]
    rcases h.all b hb with hc | hc | ⟨r', q, hc⟩
    · simp only [List.mem_append, hL] at hc ⊢
      rcases hc with hc | ⟨q, hc⟩ | hc
      · exact .inl (.inl hc)
      · exact .inr (.inr ⟨r, q, by rw [hself, hc]⟩)
      · exact .inl (.inr hc)
    · exact .inr (.inl hc)
    · refine .inr (.inr ⟨r', q, ?_⟩)
      rw [hother, hc]
      rintro rfl
      rw [hr] at hc
      cases hc
  · obtain ⟨ht, hav, hno⟩ := h.firmware hu
    have huL : u ∉ L := fun hc => hav <| by
      simp only [List.mem_append]
      tauto
    refine ⟨(htab u huL).trans ht, ?_, fun r' q hc => ?_⟩
    · rw [hal]
      exact fun hc => hav (hsub hc)
    · by_cases hrr : r' = r
      · subst hrr
        rw [hself] at hc
        exact huL ((hL u).mpr ⟨_, hc⟩)
      · rw [hother hrr] at hc
        exact hno _ _ hc

/-! ## The kernel's PML4 -/

/-- The boot PML4 maps nothing in the windows. -/
def WindowsFree (boot : Memory) : Prop := ∀ s, WindowSlot s → ¬ present (boot.table boot.cr3 s)

/-- Before the kernel has its PML4, nothing is placed. -/
theorem MemInv.eq_none (h : MemInv boot kept seen F hand mem) (hn : F none [] = none)
    (r : Option ℕ) (p : List ℕ) : F r p = none := by
  have hr : F r [] = none := by
    cases r with
    | none => exact hn
    | some pid =>
      by_contra hc
      obtain ⟨t, ht⟩ := Option.ne_none_iff_exists'.mp hc
      exact h.born ht hn
  simpa using h.lays.eq_none_append hr p

/-- **`ensure_kernel_pml4`**: no page left, or the kernel's PML4. -/
theorem MemInv.ensureKernel (h : MemInv boot kept seen F hand mem) (hw : WindowsFree boot) :
    (ensureKernelPml4 mem = (none, mem) ∧ F none [] = none) ∨
      ∃ k F' mem', ensureKernelPml4 mem = (some k, mem') ∧ MemInv boot kept seen F' hand mem' ∧
        F' none [] = some k ∧ Layout.Grows (fun r q => r = none ∧ q = []) F F' := by
  have hk := h.kernel
  unfold ensureKernelPml4
  by_cases hz : mem.kernelPml4 = 0
  · rw [if_pos hz] at hk
    rw [if_neg (not_not.mpr hz)]
    unfold cloneActivePml4
    rcases ha : allocZeroedPage mem with ⟨_ | a, mem₁⟩
    · obtain ⟨rfl, -⟩ := allocZeroedPage_eq_none ha
      exact .inl ⟨rfl, hk⟩
    · obtain ⟨h₁, -, -⟩ := h.alloc ha
      have hpage : IsPage a := h₁.page a (by simp)
      have hk₁ : mem₁.kernelPml4 = 0 := by
        by_contra hne
        have := h₁.kernel
        rw [if_neg hne, hk] at this
        cases this
      have hcr₁ : mem₁.cr3 = boot.cr3 := h₁.active hk₁
      have hboot : mem₁.table boot.cr3 = boot.table boot.cr3 :=
        (h₁.firmware ⟨[], by simp, rfl⟩).1
      have hnone := h.eq_none hk
      have hroot : F.graft none (fun p => if p = [] then some a else none) none [] = some a := by
        simp [Layout.graft]
      have hpriv : ∀ pid q, F.graft none (fun p => if p = [] then some a else none) (some pid) q =
          none := fun pid q => by
        rw [Layout.graft, Function.update_of_ne (Option.some_ne_none pid), hnone]
      have htable : Function.update mem₁.table a (mem₁.table mem₁.cr3) a =
          boot.table boot.cr3 := by rw [Function.update_self, hcr₁, hboot]
      refine .inr ⟨a, F.graft none fun p => if p = [] then some a else none,
        { mem₁.copyTable mem₁.cr3 a with kernelPml4 := a, cr3 := a }, rfl, ?_, hroot,
        fun r q => ?_⟩
      · refine MemInv.graft (L := [a]) h₁ (hnone none) rfl (fun t ht => ?_)
          (fun b => ?_) (fun {q b} hb => ?_) (fun {j q b} hb => ?_) (fun {j q b} hb ho => ?_)
          (fun {q q' b} hb hb' => ?_) ?_ (fun hc => absurd hc hpage.2.1.ne')
          (fun {k j} hkj _ => ?_) (fun {pid t k j} ht => ?_) (fun {pid t s} ht => ?_)
          fun {pid t} ht => ?_
        · exact Function.update_of_ne (by simpa using ht) _ _
        · simp [eq_comm]
        · split_ifs at hb with hq
          exact hq ▸ ownedPath_nil none
        · simp at hb
        · split_ifs at hb with hq
          cases hb
          subst hq
          have hn : ¬ present (Function.update mem₁.table a (mem₁.table mem₁.cr3) a j) := by
            rw [htable]
            exact hw j ho.slot
          exact ⟨(next_eq_none hn).trans (if_neg (List.cons_ne_nil _ _)).symm, fun hc => absurd hc hn⟩
        · split_ifs at hb hb' with hq hq'
          rw [hq, hq']
        · rw [hroot, if_neg hpage.2.1.ne']
        · rw [hroot] at hkj
          cases hkj
          exact congrFun htable j
        · rw [hpriv] at ht
          cases ht
        · rw [hpriv] at ht
          cases ht
        · rw [hpriv] at ht
          cases ht
      · by_cases hr : r = none
        · subst hr
          by_cases hq : q = []
          · subst hq
            exact .inr ⟨hk, rfl, rfl⟩
          · left
            simp [Layout.graft, hq, hnone]
        · exact .inl (by rw [Layout.graft, Function.update_of_ne hr])
  · rw [if_neg hz] at hk
    rw [if_pos hz]
    exact .inr ⟨_, F, mem, rfl, h, hk, Layout.Grows.refl _ _⟩

/-! ## The private tables -/

/-- The pages of a private root: its PML4, PDPT and PD. -/
def privateRoot (pml4 pdpt pd : ℕ) : List ℕ → Option ℕ
  | [] => some pml4
  | [0] => some pdpt
  | [0, 0] => some pd
  | _ => none

theorem privateRoot_eq_some {pml4 pdpt pd : ℕ} : privateRoot pml4 pdpt pd p = some a ↔
    p = [] ∧ a = pml4 ∨ p = [0] ∧ a = pdpt ∨ p = [0, 0] ∧ a = pd := by
  unfold privateRoot
  split
  · simp [eq_comm (a := a)]
  · simp [eq_comm (a := a)]
  · simp [eq_comm (a := a)]
  · next h₁ h₂ h₃ =>
    refine iff_of_false nofun ?_
    rintro (⟨rfl, -⟩ | ⟨rfl, -⟩ | ⟨rfl, -⟩)
    · exact h₁ rfl
    · exact h₂ rfl
    · exact h₃ rfl

/-- The top-level entries of the windows of a pid. -/
def slotsOf (pid : ℕ) : Set ℕ := {288 + pid / 2048, 320 + pid / 512, 352}

theorem windowSlot_of_slotsOf (hp : pid < 16384) {s : ℕ} (hs : s ∈ slotsOf pid) : WindowSlot s := by
  simp only [slotsOf, Set.mem_insert_iff, Set.mem_singleton_iff] at hs
  unfold WindowSlot
  omega

/-- **One top-level entry.** -/
theorem MemInv.ensureSlot (h : MemInv boot kept seen F hand mem) (hk : F none [] = some k) {s : ℕ}
    (hs : WindowSlot s) :
    (ensureNextTable k s mem = (none, mem)) ∨
      ∃ a F' mem', ensureNextTable k s mem = (some a, mem') ∧ MemInv boot kept seen F' hand mem' ∧
        F' none [s] = some a ∧ Layout.Grows (fun r q => r = none ∧ q = [s]) F F' := by
  have ho : OwnedPath none [s] := ⟨hs, fun j hj => by
    rw [List.mem_singleton.mp hj, pageTableEntries]
    unfold WindowSlot at hs
    omega⟩
  obtain ⟨he, -, -⟩ | ⟨a, mem', he, h', hf, -⟩ := h.ensure hk ho
  · exact .inl he
  · exact .inr ⟨a, _, mem', he, h', Layout.plant_self, Layout.grows_plant hf ⟨rfl, rfl⟩⟩

/-- The places of the top-level tables of a pid. -/
def SlotPlace (pid : ℕ) (r : Option ℕ) (q : List ℕ) : Prop := r = none ∧ ∃ s ∈ slotsOf pid, q = [s]

/-- **The top-level entries of a pid**: some of them, or all. -/
theorem MemInv.touch (h : MemInv boot kept seen F hand mem) (hk : F none [] = some k)
    (hp : pid < 16384) : ∃ ok F' mem', touchWindows k pid mem = (ok, mem') ∧
      MemInv boot kept seen F' hand mem' ∧ Layout.Grows (SlotPlace pid) F F' ∧
      (ok = true → ∀ s ∈ slotsOf pid, F' none [s] ≠ none) := by
  have hmem : ∀ s, s = 288 + pid / 2048 ∨ s = 320 + pid / 512 ∨ s = 352 → s ∈ slotsOf pid :=
    fun s hs => by simpa [slotsOf] using hs
  have hplace : ∀ {s r q}, s ∈ slotsOf pid → r = none ∧ q = [s] → SlotPlace pid r q :=
    fun hs hq => ⟨hq.1, _, hs, hq.2⟩
  have h₁ := hmem _ (.inl rfl)
  have h₂ := hmem _ (.inr (.inl rfl))
  have h₃ := hmem _ (.inr (.inr rfl))
  unfold touchWindows
  rw [(heapBase_indexes hp).1, (mmapBase_indexes hp).1, (stackBase_indexes hp).1]
  obtain he | ⟨a, F₁, mem₁, he, hi₁, ha, hg₁⟩ := h.ensureSlot hk (windowSlot_of_slotsOf hp h₁)
  · rw [he]
    exact ⟨false, F, mem, rfl, h, Layout.Grows.refl _ _, nofun⟩
  rw [he]
  dsimp only
  have hg₁ := hg₁.mono fun r q hq => hplace h₁ hq
  obtain he | ⟨b, F₂, mem₂, he, hi₂, hb, hg₂⟩ :=
    hi₁.ensureSlot (hg₁.some hk) (windowSlot_of_slotsOf hp h₂)
  · rw [he]
    exact ⟨false, F₁, mem₁, rfl, hi₁, hg₁, nofun⟩
  rw [he]
  dsimp only
  have hg₂ := hg₂.mono fun r q hq => hplace h₂ hq
  obtain he | ⟨c, F₃, mem₃, he, hi₃, hc, hg₃⟩ :=
    hi₂.ensureSlot ((hg₁.trans hg₂).some hk) (windowSlot_of_slotsOf hp h₃)
  · rw [he]
    exact ⟨false, F₂, mem₂, rfl, hi₂, hg₁.trans hg₂, nofun⟩
  rw [he]
  have hg₃ := hg₃.mono fun r q hq => hplace h₃ hq
  refine ⟨true, F₃, mem₃, rfl, hi₃, (hg₁.trans hg₂).trans hg₃, fun _ s hs => ?_⟩
  simp only [slotsOf, Set.mem_insert_iff, Set.mem_singleton_iff] at hs
  rcases hs with rfl | rfl | rfl
  · rw [hg₃.some (hg₂.some ha)]
    exact Option.some_ne_none a
  · rw [hg₃.some hb]
    exact Option.some_ne_none b
  · rw [hc]
    exact Option.some_ne_none c

@[simp] theorem Memory.clearEntries_table_self (mem : Memory) (t start stop i : ℕ) :
    (mem.clearEntries t start stop).table t i =
      if start ≤ i ∧ i < stop then 0 else mem.table t i := by simp [Memory.clearEntries]

/-- **Three pages of the hand made a private root**: copies of the kernel's tables, with an empty image
window. -/
theorem MemInv.graftPrivate {b c : ℕ} (h : MemInv boot kept seen F (c :: b :: a :: hand) mem)
    (hk : F none [] = some k) (hpid : F (some pid) [] = none) {S : Set ℕ}
    (hS : ∀ s ∈ S, F none [s] ≠ none) (hal : mem'.allocator = mem.allocator)
    (hkernel : mem'.kernelPml4 = mem.kernelPml4) (hcr3 : mem'.cr3 = mem.cr3)
    (hother : ∀ t, t ∉ [c, b, a] → mem'.table t = mem.table t)
    (ha₀ : mem'.table a 0 = pageEntry b presentWritable)
    (haj : ∀ {j}, j ≠ 0 → mem'.table a j = mem.table k j)
    (hb₀ : mem'.table b 0 = pageEntry c presentWritable)
    (hcj : ∀ {j}, ImageSlot j → mem'.table c j = 0) :
    MemInv boot kept (Function.update seen pid S) (F.graft (some pid) (privateRoot a b c)) hand
      mem' := by
  have hpb := h.page b (by simp)
  have hpc := h.page c (by simp)
  have hne : c ≠ b ∧ c ≠ a ∧ b ≠ a := by
    have hnd := h.loose.sublist (List.sublist_append_right _ _)
    simp only [List.nodup_cons, List.mem_cons, not_or] at hnd
    exact ⟨hnd.1.1, hnd.1.2.1, hnd.2.1.1⟩
  have hroot : ∀ {r}, r ≠ some pid → F.graft (some pid) (privateRoot a b c) r = F r :=
    fun hr => Function.update_of_ne hr _ _
  have hnone : F.graft (some pid) (privateRoot a b c) none = F none :=
    hroot (Option.some_ne_none pid).symm
  have hnew : F.graft (some pid) (privateRoot a b c) (some pid) = privateRoot a b c :=
    Function.update_self ..
  have hplaced : ∀ {r q t}, F r q = some t → t ∉ [c, b, a] := fun ht hc => (h.placed ht).2 <| by
    simp only [List.mem_cons, List.not_mem_nil, or_false] at hc
    simp only [List.mem_append, List.mem_cons]
    tauto
  refine MemInv.graft (L := [c, b, a]) h (fun p => ?_) hal hother (fun x => ?_)
    (fun {q x} hx => ?_) (fun {j q x} hx => ?_) (fun {j q x} hx ho => ?_)
    (fun {q q' x} hx hx' => ?_) ?_ (by rw [hkernel, hcr3]; exact h.active) (fun {k' j} hk' hj => ?_)
    (fun {pid' t k' j} ht hk' hj => ?_) (fun {pid' t s} ht hs => ?_) fun {pid' t} _ => ?_
  · simpa using h.lays.eq_none_append hpid p
  · simp only [List.mem_cons, List.not_mem_nil, or_false, privateRoot_eq_some]
    constructor
    · rintro (rfl | rfl | rfl)
      · exact ⟨[0, 0], .inr (.inr ⟨rfl, rfl⟩)⟩
      · exact ⟨[0], .inr (.inl ⟨rfl, rfl⟩)⟩
      · exact ⟨[], .inl ⟨rfl, rfl⟩⟩
    · rintro ⟨q, hq⟩
      tauto
  · obtain ⟨rfl, -⟩ | ⟨rfl, -⟩ | ⟨rfl, -⟩ := privateRoot_eq_some.mp hx
    · exact ownedPath_nil _
    · exact ⟨rfl, by simp⟩
    · exact ⟨⟨rfl, rfl⟩, by simp⟩
  · obtain ⟨hq, -⟩ | ⟨hq, -⟩ | ⟨hq, -⟩ := privateRoot_eq_some.mp hx
    · cases hq
    · cases hq
      exact ⟨a, rfl⟩
    · cases hq
      exact ⟨b, rfl⟩
  · rw [Memory.next]
    obtain ⟨rfl, hxa⟩ | ⟨rfl, hxb⟩ | ⟨rfl, hxc⟩ := privateRoot_eq_some.mp hx
    · obtain rfl := ho.eq_zero
      rw [hxa, ha₀, hpb.tableEntryAddress_pageEntry]
      exact ⟨rfl, fun _ => not_huge_pageEntry b⟩
    · obtain rfl : j = 0 := ho.1.1
      rw [hxb, hb₀, hpc.tableEntryAddress_pageEntry]
      exact ⟨rfl, fun _ => not_huge_pageEntry c⟩
    · rw [hxc, hcj ho.1.1, tableEntryAddress_zero]
      refine ⟨?_, fun hc => absurd hc not_present_zero⟩
      rcases hr : privateRoot a b c [j, 0, 0] with _ | x
      · rfl
      · simp [privateRoot_eq_some] at hr
  · rw [privateRoot_eq_some] at hx hx'
    obtain ⟨rfl, rfl⟩ | ⟨rfl, rfl⟩ | ⟨rfl, rfl⟩ := hx <;>
      obtain ⟨rfl, he⟩ | ⟨rfl, he⟩ | ⟨rfl, he⟩ := hx'
    · rfl
    · exact absurd he.symm hne.2.2
    · exact absurd he.symm hne.2.1
    · exact absurd he hne.2.2
    · rfl
    · exact absurd he.symm hne.1
    · exact absurd he hne.2.1
    · exact absurd he hne.1
    · rfl
  · rw [hnone, hkernel]
    exact h.kernel
  · rw [hnone] at hk'
    rw [hother _ (hplaced hk')]
    exact h.top hk' hj
  · rw [hnone, hk] at hk'
    cases hk'
    rw [hother _ (hplaced hk)]
    by_cases hpp : pid' = pid
    · subst hpp
      rw [hnew] at ht
      cases ht
      exact .inl (haj hj)
    · rw [hroot fun hc => hpp (Option.some.inj hc)] at ht
      rw [hother _ (hplaced ht)]
      exact h.clone ht hk hj
  · by_cases hpp : pid' = pid
    · subst hpp
      rw [hnew] at ht
      cases ht
      rw [Function.update_self] at hs
      obtain ⟨u, hu⟩ := Option.ne_none_iff_exists'.mp (hS s hs)
      have ho := h.lays.owned hu
      rw [haj ho.slot.ne_zero]
      exact ⟨ho.slot, (h.entry hk ho hu).1⟩
    · rw [hroot fun hc => hpp (Option.some.inj hc)] at ht
      rw [Function.update_of_ne hpp] at hs
      rw [hother _ (hplaced ht)]
      exact h.visible ht hs
  · rw [hnone, hk]
    exact Option.some_ne_none k

/-- A table of the hand filled with a copy. -/
theorem MemInv.copyTable (h : MemInv boot kept seen F (a :: hand) mem) (source : ℕ) :
    MemInv boot kept seen F (a :: hand) (mem.copyTable source a) :=
  h.fill fun t ht => Function.update_of_ne (by rintro rfl; exact ht List.mem_cons_self) _ _

/-- **The private tables**: nothing is left of them, or they are a root. -/
theorem MemInv.copyImage (h : MemInv boot kept seen F hand mem) (hk : F none [] = some k)
    (hpid : F (some pid) [] = none) {S : Set ℕ} (hS : ∀ s ∈ S, F none [s] ≠ none) :
    ∃ mem', (copyImageTables k mem = (none, mem') ∧ MemInv boot kept seen F hand mem') ∨
      ∃ a b c, copyImageTables k mem = (some a, mem') ∧
        MemInv boot kept (Function.update seen pid S) (F.graft (some pid) (privateRoot a b c)) hand
          mem' := by
  have hi₄ : pml4Index appLoadMin = 0 := rfl
  have hi₃ : pdptIndex appLoadMin = 0 := rfl
  unfold copyImageTables
  rw [hi₄, hi₃]
  -- the PML4
  rcases ha : allocZeroedPage mem with ⟨_ | a, m₁⟩
  · obtain ⟨rfl, -⟩ := allocZeroedPage_eq_none ha
    exact ⟨m₁, .inl ⟨rfl, h⟩⟩
  obtain ⟨h₁, -, -⟩ := h.alloc ha
  have hka : k ≠ a := by
    rintro rfl
    exact (h₁.placed hk).2 (by simp)
  have h₂ := h₁.copyTable k
  have hself₂ : (m₁.copyTable k a).table a = m₁.table k := Function.update_self ..
  have hk₂ : (m₁.copyTable k a).table k = m₁.table k := Function.update_of_ne hka _ _
  dsimp only
  generalize m₁.copyTable k a = m₂ at h₂ hself₂ hk₂ ⊢
  rcases tableEntryAddress (m₂.table a 0) with _ | pdpt
  · exact ⟨_, .inl ⟨rfl, h₂.free⟩⟩
  dsimp only
  -- the PDPT
  rcases hb : allocZeroedPage m₂ with ⟨_ | b, m₃⟩
  · obtain ⟨rfl, -⟩ := allocZeroedPage_eq_none hb
    exact ⟨_, .inl ⟨rfl, h₂.free⟩⟩
  obtain ⟨h₃, -, -⟩ := h₂.alloc hb
  have hkb : k ≠ b := by
    rintro rfl
    exact (h₃.placed hk).2 (by simp)
  have h₄ := h₃.copyTable pdpt
  have hframe₄ : ∀ {t}, t ≠ b → (m₃.copyTable pdpt b).table t = m₂.table t := fun ht =>
    (Function.update_of_ne ht _ _).trans (allocZeroedPage_table hb ht)
  dsimp only
  generalize m₃.copyTable pdpt b = m₄ at h₄ hframe₄ ⊢
  rcases tableEntryAddress (m₄.table b 0) with _ | pd
  · exact ⟨_, .inl ⟨rfl, h₄.free.free⟩⟩
  dsimp only
  -- the PD
  rcases hc : allocZeroedPage m₄ with ⟨_ | c, m₅⟩
  · obtain ⟨rfl, -⟩ := allocZeroedPage_eq_none hc
    exact ⟨_, .inl ⟨rfl, h₄.free.free⟩⟩
  obtain ⟨h₅, -, -⟩ := h₄.alloc hc
  have hkc : k ≠ c := by
    rintro rfl
    exact (h₅.placed hk).2 (by simp)
  have hne : c ≠ b ∧ c ≠ a ∧ b ≠ a := by
    have hnd := h₅.loose.sublist (List.sublist_append_right _ _)
    simp only [List.nodup_cons, List.mem_cons, not_or] at hnd
    exact ⟨hnd.1.1, hnd.1.2.1, hnd.2.1.1⟩
  have hcopy : m₅.table a = m₅.table k := by
    rw [allocZeroedPage_table hc hne.2.1.symm, allocZeroedPage_table hc hkc, hframe₄ hne.2.2.symm,
      hframe₄ hkb, hself₂, hk₂]
  refine ⟨_, .inr ⟨a, b, c, rfl, h₅.graftPrivate hk hpid hS rfl rfl rfl (fun t ht => ?_) ?_
    (fun {j} hj => ?_) ?_ fun {j} hj => ?_⟩⟩
  · simp only [List.mem_cons, List.not_mem_nil, or_false, not_or] at ht
    exact (Function.update_of_ne ht.2.2 _ _).trans ((Function.update_of_ne ht.2.1 _ _).trans
      ((Function.update_of_ne ht.1 _ _).trans (Function.update_of_ne ht.1 _ _)))
  · exact Memory.write_table_self ..
  · rw [Memory.write_table_of_ne (fun hc => hj hc.2), Memory.write_table_of_ne (fun hc => hj hc.2),
      ← hcopy]
    exact congrFun ((Function.update_of_ne hne.2.1.symm _ _).trans
      (Function.update_of_ne hne.2.1.symm _ _)) _
  · rw [Memory.write_table_of_ne (fun hc => hne.2.2 hc.1), Memory.write_table_self]
  · rw [Memory.write_table_of_ne (fun hc => hne.2.1 hc.1),
      Memory.write_table_of_ne (fun hc => hne.1 hc.1), Memory.clearEntries_table_self]
    exact if_pos hj

/-- The places that the kernel's PML4 and the top-level entries of a pid are at. -/
def RootPlace (pid : ℕ) (r : Option ℕ) (q : List ℕ) : Prop := r = none ∧ q = [] ∨ SlotPlace pid r q

/-- **`create_process_address_space`**: at most some top-level tables more, or a private root. -/
theorem MemInv.create (h : MemInv boot kept seen F hand mem) (hw : WindowsFree boot)
    (hp : pid < 16384) (hpid : F (some pid) [] = none) {S : Set ℕ} (hS : ∀ s ∈ S, F none [s] ≠ none) :
    ∃ F₁ mem', Layout.Grows (RootPlace pid) F F₁ ∧
      ((createProcessAddressSpace pid mem = (none, mem') ∧ MemInv boot kept seen F₁ hand mem') ∨
        ∃ a b c, createProcessAddressSpace pid mem = (some a, mem') ∧
          MemInv boot kept (Function.update seen pid (S ∪ slotsOf pid))
            (F₁.graft (some pid) (privateRoot a b c)) hand mem' ∧
          ∀ s ∈ S ∪ slotsOf pid, F₁ none [s] ≠ none) := by
  unfold createProcessAddressSpace
  obtain ⟨he, hk⟩ | ⟨k, F₁, m₁, he, h₁, hk, hg₁⟩ := h.ensureKernel hw
  · rw [he]
    exact ⟨F, mem, Layout.Grows.refl _ _, .inl ⟨rfl, h⟩⟩
  have hg₁ : Layout.Grows (RootPlace pid) F F₁ := hg₁.mono fun _ _ => .inl
  rw [he]
  dsimp only
  obtain ⟨ok, F₂, m₂, he, h₂, hg₂, hall⟩ := h₁.touch hk hp
  have hg := hg₁.trans (hg₂.mono fun _ _ => .inr)
  rw [he]
  cases ok with
  | false => exact ⟨F₂, m₂, hg, .inl ⟨rfl, h₂⟩⟩
  | true =>
    dsimp only
    have hslots : ∀ s ∈ S ∪ slotsOf pid, F₂ none [s] ≠ none := fun s hs => by
      rcases hs with hs | hs
      · obtain ⟨t, ht⟩ := Option.ne_none_iff_exists'.mp (hS s hs)
        rw [hg.some ht]
        exact Option.some_ne_none t
      · exact hall rfl s hs
    have hpid₂ : F₂ (some pid) [] = none := by
      rw [hg.eq, hpid]
      rintro (⟨hc, -⟩ | ⟨hc, -⟩) <;> cases hc
    obtain ⟨m₃, ⟨he, h₃⟩ | ⟨a, b, c, he, h₃⟩⟩ := h₂.copyImage (hg₂.some hk) hpid₂ hslots
    · rw [he]
      exact ⟨F₂, m₃, hg, .inl ⟨rfl, h₃⟩⟩
    · rw [he]
      exact ⟨F₂, m₃, hg, .inr ⟨a, b, c, rfl, h₃, hslots⟩⟩

/-! ## Trees given up -/

/-- A table with the pages below it at given indexes, level by level, the lowest ones first. -/
def treePages (mem : Memory) : List (List ℕ) → Option ℕ → List ℕ
  | _, none => []
  | [], some t => [t]
  | l :: ls, some t => (l.flatMap fun i => treePages mem ls (mem.next t i)) ++ [t]

@[simp] theorem treePages_none (ls : List (List ℕ)) : treePages mem ls none = [] := by
  cases ls <;> rfl

/-- The lists are the indexes of the owned places below a place, level by level. -/
def Lists (r : Option ℕ) : List (List ℕ) → List ℕ → Prop
  | [], p => ∀ i, ¬ OwnedPath r (i :: p)
  | l :: ls, p => l.Nodup ∧ (∀ i, i ∈ l ↔ OwnedPath r (i :: p)) ∧ ∀ i ∈ l, Lists r ls (i :: p)

/-- **The pages of a tree** are those at and below its place. -/
theorem MemInv.treePages (h : MemInv boot kept seen F hand mem) {ls : List (List ℕ)} {p : List ℕ}
    (hl : Lists r ls p) : (treePages mem ls (F r p)).Nodup ∧
      ∀ a, a ∈ treePages mem ls (F r p) ↔ ∃ q, p <:+ q ∧ F r q = some a := by
  have hbelow : F r p = none → ∀ a, ¬ ∃ q, p <:+ q ∧ F r q = some a := by
    rintro hn a ⟨q, ⟨q', rfl⟩, hq⟩
    rw [h.lays.eq_none_append hn] at hq
    cases hq
  induction ls generalizing p with
  | nil =>
    rcases ht : F r p with _ | t
    · simpa using hbelow ht
    · refine ⟨List.nodup_singleton t, fun a => ?_⟩
      change a ∈ [t] ↔ _
      rw [List.mem_singleton]
      constructor
      · rintro rfl
        exact ⟨p, List.suffix_rfl, ht⟩
      · rintro ⟨q, ⟨q', rfl⟩, hq⟩
        rcases List.eq_nil_or_concat' q' with rfl | ⟨q', i, rfl⟩
        · rw [List.nil_append, ht] at hq
          exact (Option.some.inj hq).symm
        · have ho := (h.lays.owned hq).suffix (p := i :: p) ⟨q', by simp⟩
          exact absurd ho (hl i)
  | cons l ls ih =>
    rcases ht : F r p with _ | t
    · simpa using hbelow ht
    obtain ⟨hnd, hmem, hrest⟩ := hl
    have hnext : ∀ i ∈ l, mem.next t i = F r (i :: p) := fun i hi =>
      h.lays.child ht ((hmem i).mp hi)
    have hsub : ∀ i ∈ l, (Rymos.treePages mem ls (mem.next t i)).Nodup ∧
        ∀ a, a ∈ Rymos.treePages mem ls (mem.next t i) ↔ ∃ q, (i :: p) <:+ q ∧ F r q = some a :=
      fun i hi => by
        rw [hnext i hi]
        refine ih (hrest i hi) ?_
        rintro hn a ⟨q, ⟨q', rfl⟩, hq⟩
        rw [h.lays.eq_none_append hn] at hq
        cases hq
    have hall : ∀ a, a ∈ (l.flatMap fun i => Rymos.treePages mem ls (mem.next t i)) ↔
        ∃ i, ∃ q, (i :: p) <:+ q ∧ F r q = some a := fun a => by
      rw [List.mem_flatMap]
      constructor
      · rintro ⟨i, hi, ha⟩
        exact ⟨i, ((hsub i hi).2 a).mp ha⟩
      · rintro ⟨i, q, hs, hq⟩
        have hi := (hmem i).mpr ((h.lays.owned hq).suffix hs)
        exact ⟨i, hi, ((hsub i hi).2 a).mpr ⟨q, hs, hq⟩⟩
    change ((l.flatMap fun i => Rymos.treePages mem ls (mem.next t i)) ++ [t]).Nodup ∧
      ∀ a, a ∈ (l.flatMap fun i => Rymos.treePages mem ls (mem.next t i)) ++ [t] ↔ _
    refine ⟨List.nodup_append.mpr ⟨List.nodup_flatMap.mpr ⟨fun i hi => (hsub i hi).1,
      hnd.imp_of_mem fun {i j} hi hj hne a ha ha' => ?_⟩, List.nodup_singleton t,
      fun a ha b hb he => ?_⟩, fun a => ?_⟩
    · obtain ⟨q, hs, hq⟩ := ((hsub i hi).2 a).mp ha
      obtain ⟨q', hs', hq'⟩ := ((hsub j hj).2 a).mp ha'
      obtain ⟨-, rfl⟩ := h.lays.inj hq hq'
      have := List.suffix_of_suffix_length_le hs hs' (by simp)
      exact hne (List.cons.inj (this.eq_of_length (by simp))).1
    · obtain ⟨i, q, hs, hq⟩ := (hall a).mp ha
      rw [he, List.mem_singleton.mp hb] at hq
      obtain ⟨-, rfl⟩ := h.lays.inj hq ht
      have := hs.length_le
      simp at this
    · rw [List.mem_append, hall, List.mem_singleton]
      constructor
      · rintro (⟨i, q, hs, hq⟩ | rfl)
        · exact ⟨q, (List.suffix_cons i p).trans hs, hq⟩
        · exact ⟨p, List.suffix_rfl, ht⟩
      · rintro ⟨q, ⟨q', rfl⟩, hq⟩
        rcases List.eq_nil_or_concat' q' with rfl | ⟨q', i, rfl⟩
        · rw [List.nil_append, ht] at hq
          exact .inr (Option.some.inj hq).symm
        · exact .inl ⟨i, _, ⟨q', by simp⟩, hq⟩

theorem freeImageTables_eq (pd start stop : ℕ) (mem : Memory) :
    freeImageTables pd start stop mem = freeAll ((List.range' start (stop - start)).flatMap fun i =>
      treePages mem [List.range pageTableEntries] (mem.next pd i)) mem := by
  have hfold {step : Memory → ℕ → Memory} {pages : ℕ → List ℕ}
      (hstep : ∀ i m, m.table = mem.table → step m i = freeAll (pages i) m) (l : List ℕ) :
      ∀ m, m.table = mem.table → l.foldl step m = freeAll (l.flatMap pages) m := by
    induction l with
    | nil => exact fun _ _ => rfl
    | cons i l ih =>
      intro m hm
      rw [List.foldl_cons, List.flatMap_cons, freeAll_append, hstep i m hm]
      exact ih _ (by rw [freeAll_table, hm])
  refine hfold (fun i m hm => ?_) _ mem rfl
  rw [hm]
  rcases hn : tableEntryAddress (mem.table pd i) with _ | pt
  · rw [show mem.next pd i = none from hn]
    rfl
  · have hpages : treePages mem [List.range pageTableEntries] (some pt) =
        (List.range pageTableEntries).filterMap (mem.next pt) ++ [pt] := by
      simp only [treePages, List.filterMap_eq_flatMap_toList]
      congr 2
      funext j
      cases mem.next pt j <;> rfl
    have hnext : m.next = mem.next := by
      funext t j
      rw [Memory.next, hm, Memory.next]
    rw [show mem.next pd i = some pt from hn, hpages, freeAll_append, freeAll_singleton]
    dsimp only
    rw [freeEntries_eq, hnext]

/-- The indexes of the private tables, level by level. -/
def privateLists : List (List ℕ) :=
  [[0], [0], List.range' startPdIndex (endPdIndex - startPdIndex), List.range pageTableEntries]

theorem destroyProcessAddressSpace_eq (ht : t ≠ 0) :
    destroyProcessAddressSpace t mem = freeAll (treePages mem privateLists (some t)) mem := by
  have hi₄ : pml4Index appLoadMin = 0 := rfl
  have hi₃ : pdptIndex appLoadMin = 0 := rfl
  unfold destroyProcessAddressSpace
  rw [if_neg ht, hi₄, hi₃]
  simp only [treePages, privateLists, List.flatMap_cons, List.flatMap_nil, List.append_nil]
  rw [freeAll_append, freeAll_singleton, Memory.next]
  rcases tableEntryAddress (mem.table t 0) with _ | pdpt
  · rfl
  dsimp only
  simp only [treePages, List.flatMap_cons, List.flatMap_nil, List.append_nil]
  rw [freeAll_append, freeAll_singleton, Memory.next]
  rcases tableEntryAddress (mem.table pdpt 0) with _ | pd
  · rfl
  dsimp only
  rw [treePages, freeAll_append, freeAll_singleton, freeImageTables_eq]

theorem lists_private (pid : ℕ) : Lists (some pid) privateLists [] := by
  refine ⟨by simp, fun i => ?_, fun i hi => ?_⟩
  · rw [List.mem_singleton]
    exact ⟨fun hi => ⟨hi, by simp [hi]⟩, OwnedPath.eq_zero⟩
  obtain rfl := List.mem_singleton.mp hi
  refine ⟨by simp, fun i => ?_, fun i hi => ?_⟩
  · rw [List.mem_singleton]
    exact ⟨fun hi => ⟨⟨hi, rfl⟩, by simp [hi]⟩, fun ho => ho.1.1⟩
  obtain rfl := List.mem_singleton.mp hi
  have hslot : ∀ j, j ∈ List.range' startPdIndex (endPdIndex - startPdIndex) ↔ ImageSlot j :=
    fun _ => List.mem_range'_1
  refine ⟨List.nodup_range', fun j => ?_, fun j hj => ?_⟩
  · rw [hslot]
    refine ⟨fun hj => ⟨⟨hj, rfl, rfl⟩, ?_⟩, fun ho => ho.1.1⟩
    have h₂ : endPdIndex = 72 := rfl
    have := hj.2
    simp only [List.mem_cons, List.not_mem_nil, or_false, pageTableEntries]
    omega
  have hj := (hslot j).mp hj
  refine ⟨List.nodup_range, fun m => ?_, fun m hm i ho => ?_⟩
  · rw [List.mem_range]
    refine ⟨fun hm => ⟨⟨hj, rfl, rfl⟩, ?_⟩, fun ho => ho.2 m List.mem_cons_self⟩
    have h₂ : endPdIndex = 72 := rfl
    have := hj.2
    simp only [List.mem_cons, List.not_mem_nil, or_false, pageTableEntries] at hm ⊢
    omega
  · have := ho.length_le
    simp at this

/-- **`destroy_process_address_space`**: a private root, with everything below it. -/
theorem MemInv.destroy (h : MemInv boot kept seen F hand mem) (ht : F (some pid) [] = some t) :
    MemInv boot kept seen (F.prune (some pid) []) hand (destroyProcessAddressSpace t mem) := by
  obtain ⟨hnd, hmem⟩ := h.treePages (lists_private pid)
  rw [ht] at hnd hmem
  rw [destroyProcessAddressSpace_eq (h.placed ht).1.2.1.ne']
  refine (h.drop hnd fun a => ?_).freeAll
  rw [hmem]
  simp

/-! ## Stacks -/

/-- **`create_process_stack`**: some tables more, or the stack. -/
theorem MemInv.createStack (h : MemInv boot kept seen F hand mem) (hw : WindowsFree boot)
    (hp : pid < 16384) : ∃ F', MemInv boot kept seen F' hand (createProcessStack pid mem).2 ∧
      Layout.Grows (fun r q => r = none ∧ (q = [] ∨ ∃ m, q <:+ m :: stackTable pid)) F F' ∧
      ((createProcessStack pid mem).1.isSome = true → F' none [] ≠ none) := by
  unfold createProcessStack
  obtain ⟨he, hk⟩ | ⟨k, F₁, m₁, he, h₁, hk, hg₁⟩ := h.ensureKernel hw
  · rw [he]
    exact ⟨F, h, Layout.Grows.refl _ _, nofun⟩
  rw [he]
  dsimp only
  have hb : stackMappedBase pid % pageSize = 0 := by
    rw [stackMappedBase_eq hp]
    simp only [kernelStackBase, kernelStackStride, pageSize]
    omega
  have hpath : ∀ virt ∈ pagesFrom (stackMappedBase pid) 0 kernelStackPages,
      OwnedPath none (pathOf virt) := fun virt hv => by
    obtain ⟨m, hm, hv⟩ := stackPages_pathOf hp hv
    rw [hv]
    exact ownedPath_stack hp hm
  have hway : ∀ r q, OnWay none (pagesFrom (stackMappedBase pid) 0 kernelStackPages) r q →
      r = none ∧ (q = [] ∨ ∃ m, q <:+ m :: stackTable pid) := by
    rintro r q ⟨rfl, virt, hv, hs⟩
    obtain ⟨m, -, hp⟩ := stackPages_pathOf hp hv
    exact ⟨rfl, .inr ⟨m, hp ▸ hs.trans (List.suffix_cons _ _)⟩⟩
  have hg₁ := hg₁.mono (Q := fun r q => r = none ∧ (q = [] ∨ ∃ m, q <:+ m :: stackTable pid))
    fun r q hq => ⟨hq.1, .inl hq.2⟩
  obtain ⟨F₂, m₂, h₂, ⟨he, hg₂⟩ | ⟨he, hso⟩⟩ := h₁.mapUser hb hpath hk
  · rw [he]
    exact ⟨F₂, h₂, hg₁.trans (hg₂.mono hway), nofun⟩
  · rw [he]
    refine ⟨F₂, h₂, hg₁.trans (hso.grows.mono fun r q hq => hq.elim (hway r q) ?_), fun _ => ?_⟩
    swap
    · rw [hso.root hk]
      exact Option.some_ne_none k
    rintro ⟨rfl, virt, hv, rfl⟩
    obtain ⟨m, -, hp⟩ := stackPages_pathOf hp hv
    exact ⟨rfl, .inr ⟨m, hp ▸ List.suffix_rfl⟩⟩

end Creation

end Rymos
