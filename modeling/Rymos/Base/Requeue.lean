import Mathlib.Data.Finset.Max
import Mathlib.Logic.Function.Iterate
import Mathlib.Tactic

/-!
# Taking the least and putting the last one back

One of the elements of a linear order runs, others are ready. A tick runs the least ready one and makes
the one that ran ready again.

* `Turn`, `Turn.tick`: the state and its tick. `Turn.Served`: an element that runs within `n` ticks.
* `tick_tick_tick`: from the first tick on, every second state is the same.
* **`served_iff`**: whether all ready elements run; at most two of them ever do.
-/

namespace Requeue

variable {α : Type} [LinearOrder α]

/-- The element that runs, and those that are ready. -/
structure Turn (α : Type) where
  running : α
  ready : Finset α

namespace Turn

def tick (s : Turn α) : Turn α :=
  if h : s.ready.Nonempty then
    ⟨s.ready.min' h, insert s.running (s.ready.erase (s.ready.min' h))⟩
  else s

/-- `i` runs in one of the states up to the `n`-th tick. -/
def Served (s : Turn α) (n : ℕ) (i : α) : Prop := ∃ k ≤ n, (tick^[k] s).running = i

end Turn

open Turn

variable {s : Turn α}

theorem tick_of_nonempty (h : s.ready.Nonempty) :
    s.tick = ⟨s.ready.min' h, insert s.running (s.ready.erase (s.ready.min' h))⟩ := dif_pos h

theorem tick_of_empty (h : s.ready = ∅) : s.tick = s :=
  dif_neg (Finset.not_nonempty_iff_eq_empty.mpr h)

theorem tick_of_least {m : α} (hm : m ∈ s.ready) (hle : ∀ x ∈ s.ready, m ≤ x) :
    s.tick = ⟨m, insert s.running (s.ready.erase m)⟩ := by
  have h : s.ready.Nonempty := ⟨m, hm⟩
  have he : s.ready.min' h = m := le_antisymm (Finset.min'_le _ _ hm) (Finset.le_min' _ _ _ hle)
  rw [tick_of_nonempty h, he]

theorem nonempty_tick (h : s.ready.Nonempty) : s.tick.ready.Nonempty := by
  rw [tick_of_nonempty h]
  exact Finset.insert_nonempty ..

/-- What runs after the first tick is below what is ready then, but for what ran before it. -/
theorem lt_of_mem_tick (h : s.ready.Nonempty) {x : α} (hx : x ∈ s.tick.ready)
    (hne : x ≠ s.running) : s.tick.running < x := by
  rw [tick_of_nonempty h] at hx ⊢
  obtain ⟨hx, hmem⟩ := Finset.mem_erase.mp ((Finset.mem_insert.mp hx).resolve_left hne)
  exact lt_of_le_of_ne (Finset.min'_le _ _ hmem) hx.symm

/-- **From the first tick on, every second state is the same**: the first to run comes back. -/
theorem tick_tick_tick (h : s.ready.Nonempty) (hr : s.running ∉ s.ready) :
    s.tick.tick.tick = s.tick := by
  set m := s.ready.min' h with hm
  set t := s.tick with ht
  have hne : t.ready.Nonempty := nonempty_tick h
  set m' := t.ready.min' hne with hm'
  have htm : t.running = m := by rw [ht, tick_of_nonempty h]
  have hmem' : m' ∈ t.ready := Finset.min'_mem ..
  have hnot : m ∉ t.ready := by
    rw [ht, tick_of_nonempty h]
    simp only [Finset.mem_insert, Finset.mem_erase, ← hm, ne_eq, not_true_eq_false, false_and,
      or_false]
    exact fun he => hr (he ▸ Finset.min'_mem ..)
  have htt : t.tick = ⟨m', insert m (t.ready.erase m')⟩ := by
    rw [tick_of_nonempty hne, htm]
  -- what is left ready lies above `m`, be it that the element from before the first tick runs now
  have hlt : ∀ x ∈ t.ready.erase m', m < x := by
    intro x hx
    obtain ⟨hxm, hx⟩ := Finset.mem_erase.mp hx
    by_cases hxs : x = s.running
    · have hms : m' ≠ s.running := fun he => hxm (hxs.trans he.symm)
      have h1 : m < m' := htm ▸ lt_of_mem_tick h hmem' hms
      exact h1.trans_le (Finset.min'_le _ _ hx)
    · exact htm ▸ lt_of_mem_tick h hx hxs
  rw [htt, tick_of_least (Finset.mem_insert_self m _) fun x hx => ?_]
  · have hback : insert m' ((insert m (t.ready.erase m')).erase m) = t.ready := by
      rw [Finset.erase_insert fun hin => hnot (Finset.mem_of_mem_erase hin),
        Finset.insert_erase hmem']
    show Turn.mk m (insert m' ((insert m (t.ready.erase m')).erase m)) = t
    rw [hback, ← htm]
  · rcases Finset.mem_insert.mp hx with rfl | hx
    · exact le_rfl
    · exact (hlt x hx).le

/-- After the first tick the same two elements run in turn. -/
theorem running_iterate (h : s.ready.Nonempty) (hr : s.running ∉ s.ready) (k : ℕ) :
    (tick^[k + 1] s).running = s.tick.running ∨ (tick^[k + 1] s).running = s.tick.tick.running := by
  have hstate : tick^[k + 1] s = s.tick ∨ tick^[k + 1] s = s.tick.tick := by
    induction k with
    | zero => exact .inl rfl
    | succ k ih =>
      rw [Function.iterate_succ_apply']
      rcases ih with ih | ih
      · exact .inr (congrArg tick ih)
      · exact .inl ((congrArg tick ih).trans (tick_tick_tick h hr))
  exact hstate.imp (congrArg _) (congrArg _)

/-- **Who is served.** However long the ticks go on, it is the least ready element and the one that runs
after it. -/
theorem served_iff_running (h : s.ready.Nonempty) (hr : s.running ∉ s.ready) {n : ℕ} (hn : 2 ≤ n)
    {i : α} (hi : i ∈ s.ready) :
    s.Served n i ↔ i = s.tick.running ∨ i = s.tick.tick.running := by
  constructor
  · rintro ⟨k, -, hk⟩
    cases k with
    | zero => exact absurd (hk ▸ hi) hr
    | succ k => exact (running_iterate h hr k).imp (hk.symm.trans ·) (hk.symm.trans ·)
  · rintro (rfl | rfl)
    · exact ⟨1, by omega, rfl⟩
    · exact ⟨2, hn, rfl⟩

/-- What ran at first is ready when the second element is chosen. -/
theorem running_tick_tick_le (h : s.ready.Nonempty) : s.tick.tick.running ≤ s.running := by
  have hmem : s.running ∈ s.tick.ready := by
    rw [tick_of_nonempty h]
    exact Finset.mem_insert_self ..
  rw [tick_of_nonempty (nonempty_tick h)]
  exact Finset.min'_le _ _ hmem

/-- **All ready elements run** if there is one, or if there are two and both are below the one that runs
at first; and else not. -/
theorem served_iff (hr : s.running ∉ s.ready) :
    (∀ i ∈ s.ready, s.Served (s.ready.card + 1) i) ↔
      s.ready.card ≤ 1 ∨ s.ready.card = 2 ∧ ∀ i ∈ s.ready, i < s.running := by
  rcases s.ready.eq_empty_or_nonempty with he | h
  · simp [he]
  have hcard : 2 ≤ s.ready.card + 1 := by have := h.card_pos; omega
  have hserved : (∀ i ∈ s.ready, s.Served (s.ready.card + 1) i) ↔
      s.ready ⊆ {s.tick.running, s.tick.tick.running} := by
    constructor
    · intro hs i hi
      simpa using (served_iff_running h hr hcard hi).mp (hs i hi)
    · intro hs i hi
      exact (served_iff_running h hr hcard hi).mpr (by simpa using hs hi)
  have hm : s.tick.running ∈ s.ready := by
    rw [tick_of_nonempty h]
    exact Finset.min'_mem _ h
  have hlow : ∀ x ∈ s.ready, s.tick.running ≤ x := by
    rw [tick_of_nonempty h]
    exact fun x hx => Finset.min'_le _ _ hx
  rw [hserved]
  constructor
  · intro hs
    rcases Nat.lt_or_ge 1 s.ready.card with h1 | h1
    · have h2 : s.ready.card ≤ 2 := (Finset.card_le_card hs).trans Finset.card_le_two
      obtain ⟨x, hx, hxne⟩ := Finset.exists_mem_ne h1 s.tick.running
      have hxr : x = s.tick.tick.running := by simpa [hxne] using hs hx
      have hlt : x < s.running :=
        lt_of_le_of_ne (hxr ▸ running_tick_tick_le h) fun he => hr (he ▸ hx)
      refine .inr ⟨by omega, fun i hi => ?_⟩
      have := hs hi
      rw [Finset.mem_insert, Finset.mem_singleton] at this
      rcases this with rfl | rfl
      · exact (hlow x hx).trans_lt hlt
      · exact hxr ▸ hlt
    · exact .inl h1
  · rintro (h1 | ⟨h2, hlt⟩) i hi
    · rw [Finset.card_le_one.mp h1 i hi _ hm]
      exact Finset.mem_insert_self ..
    · by_cases hne : i = s.tick.running
      · exact hne ▸ Finset.mem_insert_self ..
      -- the other one is what the second tick takes: only it and `s.running` are ready then
      have hpair : s.ready = {s.tick.running, i} := by
        refine (Finset.eq_of_subset_of_card_le (fun x hx => ?_) ?_).symm
        · rcases Finset.mem_insert.mp hx with rfl | hx
          · exact hm
          · exact Finset.mem_singleton.mp hx ▸ hi
        · rw [h2, Finset.card_pair (Ne.symm hne)]
      have htick : s.tick = ⟨s.tick.running, insert s.running (s.ready.erase s.tick.running)⟩ :=
        tick_of_least hm hlow
      have hready : s.tick.ready = {s.running, i} := by
        rw [htick, hpair]
        show insert s.running (Finset.erase {s.tick.running, i} s.tick.running) = {s.running, i}
        rw [Finset.erase_insert (by simpa using Ne.symm hne)]
      have hsecond : s.tick.tick.running = i := by
        rw [tick_of_least (m := i) (by simp [hready]) fun x hx => ?_]
        rw [hready, Finset.mem_insert, Finset.mem_singleton] at hx
        rcases hx with rfl | rfl
        · exact (hlt i hi).le
        · exact le_rfl
      rw [← hsecond]
      simp

end Requeue
