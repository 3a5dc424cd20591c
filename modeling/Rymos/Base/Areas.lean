import Mathlib.Tactic

/-!
# Areas of memory

* `Area`: a range of addresses. `Area.Has`, `Area.Apart`, `Area.Inside`.
* `Piece`: an area with what belongs into it. `Piece.fill` puts it into memory, `Piece.In` says that it is there.
* `Grows`: areas were given away, apart from those before, and only they were written to. **`Piece.In.grows`**:
  what was in memory stays.
-/

namespace Areas

structure Area where
  start : ℕ
  size : ℕ
deriving DecidableEq

def Area.Has (a : Area) (x : ℕ) : Prop := a.start ≤ x ∧ x < a.start + a.size

instance (a : Area) (x : ℕ) : Decidable (a.Has x) := inferInstanceAs (Decidable (_ ∧ _))

/-- No address is in both. -/
def Area.Apart (a b : Area) : Prop := ∀ x, a.Has x → ¬ b.Has x

def Area.Inside (a b : Area) : Prop := ∀ x, a.Has x → b.Has x

/-- What belongs into an area, by the distance from its start. -/
structure Piece (β : Type) where
  area : Area
  value : ℕ → β

variable {β : Type} {mem mem' mem'' : ℕ → β} {a b : Area} {given given' given'' : List Area} {p : Piece β}

def Piece.fill (p : Piece β) (mem : ℕ → β) (x : ℕ) : β :=
  if p.area.Has x then p.value (x - p.area.start) else mem x

/-- The piece is in memory. -/
def Piece.In (p : Piece β) (mem : ℕ → β) : Prop := ∀ k < p.area.size, mem (p.area.start + k) = p.value k

theorem Area.Apart.symm (h : a.Apart b) : b.Apart a := fun x hb ha => h x ha hb

theorem Area.Apart.inside (h : a.Apart b) {c : Area} (hc : c.Inside a) : c.Apart b :=
  fun x hx => h x (hc x hx)

theorem Area.Inside.refl (a : Area) : a.Inside a := fun _ => id

theorem Area.Inside.of_le {start size size' : ℕ} (h : size ≤ size') :
    Area.Inside ⟨start, size⟩ ⟨start, size'⟩ :=
  fun _ hx => ⟨hx.1, hx.2.trans_le (Nat.add_le_add_left h start)⟩

theorem Area.has_add {k : ℕ} (h : k < a.size) : a.Has (a.start + k) :=
  ⟨Nat.le_add_right _ _, Nat.add_lt_add_left h _⟩

theorem Piece.fill_of_not {x : ℕ} (h : ¬ p.area.Has x) : p.fill mem x = mem x := if_neg h

theorem Piece.fill_of_has {x : ℕ} (h : p.area.Has x) : p.fill mem x = p.value (x - p.area.start) := if_pos h

theorem Piece.fill_add {k : ℕ} (h : k < p.area.size) : p.fill mem (p.area.start + k) = p.value k := by
  rw [Piece.fill, if_pos (Area.has_add h), Nat.add_sub_cancel_left]

theorem Piece.fill_congr {q : Piece β} (harea : q.area = p.area) (hvalue : ∀ k < p.area.size, q.value k = p.value k) :
    q.fill mem = p.fill mem := by
  funext x
  unfold Piece.fill
  rw [harea]
  split_ifs with hx
  · exact hvalue _ (by unfold Area.Has at hx; omega)
  · rfl

/-- The first bytes of a piece are written over. -/
theorem Piece.fill_fill {start size size' : ℕ} (value value' : ℕ → β) (h : size' ≤ size) (mem : ℕ → β) :
    Piece.fill ⟨⟨start, size'⟩, value'⟩ (Piece.fill ⟨⟨start, size⟩, value⟩ mem) =
      Piece.fill ⟨⟨start, size⟩, fun k => if k < size' then value' k else value k⟩ mem := by
  funext x
  by_cases hx : Area.Has ⟨start, size⟩ x
  · by_cases hx' : Area.Has ⟨start, size'⟩ x
    · rw [Piece.fill_of_has hx', Piece.fill_of_has hx]
      have hlt : x - start < size' := by
        obtain ⟨hlo, hhi⟩ : start ≤ x ∧ x < start + size' := hx'
        omega
      exact (if_pos hlt).symm
    · rw [Piece.fill_of_not hx', Piece.fill_of_has hx, Piece.fill_of_has hx]
      have hge : ¬ x - start < size' := by
        obtain ⟨hlo, -⟩ : start ≤ x ∧ x < start + size := hx
        exact fun hlt => hx' ⟨hlo, show x < start + size' by omega⟩
      exact (if_neg hge).symm
  · have hx' : ¬ Area.Has ⟨start, size'⟩ x := fun hc => hx (Area.Inside.of_le h x hc)
    rw [Piece.fill_of_not hx', Piece.fill_of_not hx, Piece.fill_of_not hx]

/-- **What is put into memory is there.** -/
theorem Piece.in_fill (p : Piece β) (mem : ℕ → β) : p.In (p.fill mem) := fun _ => Piece.fill_add

theorem Piece.In.congr (h : p.In mem) (he : ∀ x, p.area.Has x → mem' x = mem x) : p.In mem' := by
  intro k hk
  rw [he _ (Area.has_add hk), h k hk]

/-- Areas were given away, apart from those before, and nothing else was written to. -/
def Grows (given : List Area) (mem : ℕ → β) (given' : List Area) (mem' : ℕ → β) : Prop :=
  ∃ fresh, given' = fresh ++ given ∧ (∀ a ∈ fresh, ∀ b ∈ given, a.Apart b) ∧
    ∀ x, (∀ a ∈ fresh, ¬ a.Has x) → mem' x = mem x

theorem Grows.refl (given : List Area) (mem : ℕ → β) : Grows given mem given mem :=
  ⟨[], rfl, by simp, fun _ _ => rfl⟩

theorem Grows.trans (h : Grows given mem given' mem') (h' : Grows given' mem' given'' mem'') :
    Grows given mem given'' mem'' := by
  obtain ⟨fresh, rfl, hapart, hmem⟩ := h
  obtain ⟨fresh', rfl, hapart', hmem'⟩ := h'
  refine ⟨fresh' ++ fresh, by rw [List.append_assoc], ?_, ?_⟩
  · intro a ha b hb
    rcases List.mem_append.mp ha with ha | ha
    · exact hapart' a ha b (List.mem_append_right _ hb)
    · exact hapart a ha b hb
  · intro x hx
    rw [hmem' x fun a ha => hx a (List.mem_append_left _ ha),
      hmem x fun a ha => hx a (List.mem_append_right _ ha)]

theorem Grows.given_mem (h : Grows given mem given' mem') (ha : a ∈ given) : a ∈ given' := by
  obtain ⟨fresh, rfl, -⟩ := h
  exact List.mem_append_right _ ha

/-- Memory that was given away before stays as it is. -/
theorem Grows.eq (h : Grows given mem given' mem') (ha : a ∈ given) {x : ℕ} (hx : a.Has x) :
    mem' x = mem x := by
  obtain ⟨fresh, -, hapart, hmem⟩ := h
  exact hmem x fun b hb hbx => hapart b hb a ha x hbx hx

/-- **What was in memory stays.** -/
theorem Piece.In.grows (hp : p.In mem) (hin : p.area.Inside a) (ha : a ∈ given)
    (h : Grows given mem given' mem') : p.In mem' :=
  hp.congr fun _ hx => h.eq ha (hin _ hx)

/-- A fresh area, partly filled. -/
theorem Grows.fill (hapart : ∀ b ∈ given, a.Apart b) (hin : p.area.Inside a) :
    Grows given mem (a :: given) (p.fill mem) := by
  refine ⟨[a], rfl, by simpa using hapart, ?_⟩
  intro x hx
  exact Piece.fill_of_not fun hp => hx a (List.mem_singleton_self a) (hin x hp)

end Areas
