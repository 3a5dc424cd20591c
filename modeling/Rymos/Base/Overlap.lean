import Mathlib.Tactic
import Rymos.Base.Runs

/-!
# Operations that read a cell and write it back

Processes share a cell. An operation reads it in one step and writes what it made of it in a later
one; `apply op c` is what `op` writes after it has read `c`, if it writes at all.

* `Window`, `State`, `step`: the operations under way. `serial`: operations one after another.
* `Undisturbed`: a write finds in the cell what its operation read.
* **`serial_of_reach`**: under `Undisturbed` the cell is that of a serial run of the operations.
-/

namespace Overlap

open Transition

variable {π ι γ : Type}

/-- Process `process` has read `seen` for `op` and will write `next`. -/
structure Window (π ι γ : Type) where
  process : π
  op : ι
  seen : γ
  next : γ

/-- The cell and the operations under way; `issued` and `order` keep the operations begun and, in the
order of their effects, those that are over. -/
structure State (π ι γ : Type) where
  cell : γ
  windows : List (Window π ι γ)
  issued : List ι
  order : List ι

inductive Act (π ι : Type) where
  | read (process : π) (op : ι)
  | write (process : π)

variable [DecidableEq π] (apply : ι → γ → Option γ)

/-- A process does one operation at a time; one that writes nothing is over when it has read. -/
def step (s : State π ι γ) : Act π ι → Option (State π ι γ)
  | .read process op =>
    if s.windows.any (·.process = process) then none
    else
      match apply op s.cell with
      | some next => some { s with
          windows := ⟨process, op, s.cell, next⟩ :: s.windows
          issued := op :: s.issued }
      | none => some { s with issued := op :: s.issued, order := s.order ++ [op] }
  | .write process =>
    (s.windows.find? (·.process = process)).map fun w =>
      { s with
        cell := w.next
        windows := s.windows.eraseP (·.process = process)
        order := s.order ++ [w.op] }

/-- The operations one after another. -/
def serial (c : γ) (ops : List ι) : γ := ops.foldl (fun c op => (apply op c).getD c) c

theorem serial_append (c : γ) (ops : List ι) (op : ι) :
    serial apply c (ops ++ [op]) = (apply op (serial apply c ops)).getD (serial apply c ops) := by
  rw [serial, List.foldl_append]
  rfl

/-- A write finds what its operation has read. -/
def Undisturbed (s : State π ι γ) : Act π ι → Prop
  | .read _ _ => True
  | .write process => ∀ w ∈ s.windows.find? (·.process = process), w.seen = s.cell

def Init (c : γ) (s : State π ι γ) : Prop :=
  s.cell = c ∧ s.windows = [] ∧ s.issued = [] ∧ s.order = []

/-- The cell is that of a serial run, and every operation is under way or over. -/
structure Inv (c : γ) (s : State π ι γ) : Prop where
  cell : s.cell = serial apply c s.order
  next : ∀ w ∈ s.windows, apply w.op w.seen = some w.next
  all : (s.order ++ s.windows.map Window.op).Perm s.issued

omit [DecidableEq π] in
/-- Taking out the first element that a search finds. -/
theorem perm_eraseP {α : Type} {p : α → Bool} {l : List α} {a : α} (h : l.find? p = some a) :
    l.Perm (a :: l.eraseP p) := by
  induction l with
  | nil => cases h
  | cons b l ih =>
    by_cases hb : p b = true
    · rw [List.find?_cons_of_pos hb] at h
      cases h
      rw [List.eraseP_cons_of_pos hb]
    · rw [List.find?_cons_of_neg hb] at h
      rw [List.eraseP_cons_of_neg hb]
      exact ((ih h).cons b).trans (.swap a b _)

variable {apply} {c : γ} {s s' : State π ι γ}

omit [DecidableEq π] in
theorem Init.inv (h : Init c s) : Inv apply c s := by
  obtain ⟨hc, hw, hi, ho⟩ := h
  refine ⟨by rw [hc, ho]; rfl, fun w hm => ?_, by rw [hw, hi, ho]; rfl⟩
  rw [hw] at hm
  cases hm

theorem Inv.step {a : Act π ι} (h : Inv apply c s) (hg : Undisturbed s a)
    (hs : step apply s a = some s') : Inv apply c s' := by
  cases a with
  | read process op =>
    rw [Overlap.step] at hs
    split_ifs at hs
    cases ha : apply op s.cell with
    | some next =>
      rw [ha] at hs
      cases hs
      refine ⟨h.cell, fun w hw => ?_, ?_⟩
      · rcases List.mem_cons.mp hw with rfl | hw
        · exact ha
        · exact h.next w hw
      · exact List.perm_middle.trans (h.all.cons op)
    | none =>
      rw [ha] at hs
      cases hs
      refine ⟨?_, h.next, ?_⟩
      · dsimp only
        rw [serial_append, ← h.cell, ha]
        rfl
      · dsimp only
        rw [List.append_assoc]
        exact List.perm_middle.trans (h.all.cons op)
  | write process =>
    obtain ⟨w, hw, rfl⟩ := Option.map_eq_some_iff.mp hs
    have hmem := List.mem_of_find?_eq_some hw
    refine ⟨?_, fun v hv => h.next v (List.eraseP_subset hv), ?_⟩
    · dsimp only
      rw [serial_append, ← h.cell, ← hg w hw, h.next w hmem]
      rfl
    · dsimp only
      rw [List.append_assoc]
      exact (((perm_eraseP hw).map Window.op).symm.append_left s.order).trans h.all

/-- **Undisturbed operations are serial**: when all are over, the cell is what they make of it one
after another, in some order. -/
theorem serial_of_reach (h : Reach (Init c) Undisturbed (step apply) s) (hd : s.windows = []) :
    s.order.Perm s.issued ∧ s.cell = serial apply c s.order := by
  have hinv : Inv apply c s := h.inv (fun _ hi => hi.inv) fun _ _ _ hi hg hs => hi.step hg hs
  have hall := hinv.all
  rw [hd, List.map_nil, List.append_nil] at hall
  exact ⟨hall, hinv.cell⟩

end Overlap
