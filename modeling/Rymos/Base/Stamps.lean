import Mathlib.Tactic

/-!
# Time stamps

Slots hold a content, the time it was created and the time it was last changed, as the slot says.

* `SlotStep`: what a step from time `start` on does to a slot; `SlotStep.trans`.
* `Log`: the times kept beside the slots. `Log.Bounds`: no slot claims to be older than its last
  change. **`Log.Bounds.note`**: steps of the slots keep it.
-/

namespace Stamps

variable {ι β : Type}

structure Stamped (β : Type) where
  content : β
  created : ℕ
  modified : ℕ

/-- A step that starts at `start` and would date a new slot `birth`. -/
inductive SlotStep (start birth : ℕ) : Option (Stamped β) → Option (Stamped β) → Prop where
  | kept (o : Option (Stamped β)) : SlotStep start birth o o
  | refreshed {c c' : β} {created m m' : ℕ} (le : start ≤ m') :
      SlotStep start birth (some ⟨c, created, m⟩) (some ⟨c', created, m'⟩)
  | made {c : β} {m : ℕ} (le : start ≤ m) : SlotStep start birth none (some ⟨c, birth, m⟩)

theorem SlotStep.trans {start birth : ℕ} {o o' o'' : Option (Stamped β)}
    (h : SlotStep start birth o o') (h' : SlotStep start birth o' o'') :
    SlotStep start birth o o'' := by
  cases h with
  | kept => exact h'
  | refreshed le =>
    cases h' with
    | kept => exact .refreshed le
    | refreshed le' => exact .refreshed le'
  | made le =>
    cases h' with
    | kept => exact .made le
    | refreshed le' => exact .made le'

/-- The last reading of the clock, and for each slot when it was created and when the last change of
its content started. -/
structure Log (ι : Type) where
  now : ℕ
  created : ι → ℕ
  changed : ι → ℕ

/-- The log after a step from `start` to `stop`. -/
def Log.note [DecidableEq β] (log : Log ι) (start birth stop : ℕ)
    (before after : ι → Option (Stamped β)) : Log ι where
  now := stop
  created i := if (before i).isNone then birth else log.created i
  changed i :=
    if (after i).map Stamped.content = (before i).map Stamped.content then log.changed i else start

/-- The slots claim no time before their last change, and the time they were created. -/
structure Log.Bounds (log : Log ι) (slots : ι → Option (Stamped β)) : Prop where
  le_now : ∀ i, log.changed i ≤ log.now
  changed : ∀ i s, slots i = some s → log.changed i ≤ s.modified
  created : ∀ i s, slots i = some s → s.created = log.created i

variable [DecidableEq β] {log : Log ι} {start birth stop : ℕ}
  {before after : ι → Option (Stamped β)}

theorem Log.note_changed_le (h : log.Bounds before) (hstart : log.now ≤ start) (i : ι) :
    (log.note start birth stop before after).changed i ≤ start := by
  rw [Log.note]
  dsimp only
  split_ifs
  · exact (h.le_now i).trans hstart
  · exact le_rfl

/-- **Steps of the slots keep the bounds**, as long as the clock does not go back. -/
theorem Log.Bounds.note (h : log.Bounds before) (hstart : log.now ≤ start) (hstop : start ≤ stop)
    (hs : ∀ i, SlotStep start birth (before i) (after i)) :
    (log.note start birth stop before after).Bounds after where
  le_now i := (Log.note_changed_le h hstart i).trans hstop
  changed i s hi := by
    have hle : (log.note start birth stop before after).changed i ≤ start :=
      Log.note_changed_le h hstart i
    have hstep := hs i
    generalize hb : before i = o at hstep
    rw [hi] at hstep
    cases hstep with
    | kept =>
      -- the content is the same, so the last change is the one there was
      rw [Log.note]
      dsimp only
      rw [hi, hb, if_pos rfl]
      exact h.changed i s hb
    | refreshed le => exact hle.trans le
    | made le => exact hle.trans le
  created i s hi := by
    have hstep := hs i
    generalize hb : before i = o at hstep
    rw [hi] at hstep
    rw [Log.note]
    dsimp only
    rw [hb]
    cases hstep with
    | kept => exact h.created i s hb
    | refreshed _ =>
      have hc := h.created i _ hb
      exact hc
    | made _ => rfl

end Stamps
