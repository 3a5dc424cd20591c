import Mathlib.Tactic
import Rymos.Base.Bytes
import Rymos.Base.Extents

/-!
# Byte positions on a block device

A device is an array of blocks; a list of runs of blocks is read as one array of bytes.

* `byteAt`: the byte at a position. `Writes`: two devices differ by a write of a range of positions;
  **`writes_block`** (one block) and **`Writes.trans`** (ranges that follow each other).
* `chunkLoop`: a loop over a range that takes, in each turn, the positions left in one block.
  **`chunkLoop_inv`**, `chunkLoop_spec`: its invariant rule.
-/

namespace Blocks

open ByteBuf Extents

/-- A device with blocks of `bs` bytes. -/
abbrev Device (bs : ℕ) : Type := ℕ → Buf bs

variable {bs : ℕ} {rs : List Run}

/-- The byte at position `p` of the runs `rs`; `0` past their end. -/
def byteAt (m : Device bs) (rs : List Run) (p : ℕ) : UInt8 :=
  match nth rs (p / bs) with
  | some x => (m x).byte (p % bs)
  | none => 0

theorem byteAt_of_nth {m : Device bs} {p x : ℕ} (h : nth rs (p / bs) = some x) :
    byteAt m rs p = (m x).byte (p % bs) := by rw [byteAt, h]

/-- Equal blocks give equal bytes. -/
theorem byteAt_congr {m m' : Device bs} (h : ∀ x, Covers rs x → m' x = m x) (p : ℕ) :
    byteAt m' rs p = byteAt m rs p := by
  unfold byteAt
  cases hn : nth rs (p / bs) with
  | none => rfl
  | some x => simp only [h x (nth_covers hn)]

/-- A grown list keeps the bytes it had. -/
theorem byteAt_growth {P : ℕ → Prop} {rs' : List Run} (h : Growth P rs rs') (m : Device bs) {p : ℕ}
    (hp : p / bs < total rs) : byteAt m rs' p = byteAt m rs p := by
  unfold byteAt
  rw [h.keep _ hp]

/-- `m'` is `m` with the bytes `val p` at the positions `p` of `[lo, hi)`. -/
structure Writes (rs : List Run) (lo hi : ℕ) (val : ℕ → UInt8) (m m' : Device bs) : Prop where
  inside : ∀ p, lo ≤ p → p < hi → byteAt m' rs p = val p
  outside : ∀ p, p < lo ∨ hi ≤ p → byteAt m' rs p = byteAt m rs p
  frame : ∀ x, ¬ Covers rs x → m' x = m x

section Writes

variable {lo mid hi : ℕ} {val : ℕ → UInt8} {m m' m'' : Device bs}

theorem Writes.refl (lo : ℕ) (m : Device bs) : Writes rs lo lo val m m :=
  ⟨fun _ h h' => absurd h' (by omega), fun _ _ => rfl, fun _ _ => rfl⟩

/-- **Writes of ranges that follow each other compose.** -/
theorem Writes.trans (h : Writes rs lo mid val m m') (h' : Writes rs mid hi val m' m'')
    (hle : lo ≤ mid) (hle' : mid ≤ hi) : Writes rs lo hi val m m'' where
  inside p hp hp' := by
    rcases Nat.lt_or_ge p mid with hm | hm
    · rw [h'.outside p (Or.inl hm), h.inside p hp hm]
    · exact h'.inside p hm hp'
  outside p hp := by rw [h'.outside p (by omega), h.outside p (by omega)]
  frame x hx := by rw [h'.frame x hx, h.frame x hx]

theorem Writes.congr {val' : ℕ → UInt8} (h : Writes rs lo hi val m m')
    (hv : ∀ p, lo ≤ p → p < hi → val p = val' p) : Writes rs lo hi val' m m' :=
  ⟨fun p hp hp' => (h.inside p hp hp').trans (hv p hp hp'), h.outside, h.frame⟩

/-- **A write leaves the device as it was just if the bytes were there.** -/
theorem Writes.eq_iff (h : Writes rs lo hi val m m') (hbs : 0 < bs) :
    m' = m ↔ ∀ p, lo ≤ p → p < hi → byteAt m rs p = val p := by
  constructor
  · rintro rfl p hp hp'
    exact h.inside p hp hp'
  · intro hv
    have hbyte : ∀ p, byteAt m' rs p = byteAt m rs p := fun p => by
      by_cases hin : lo ≤ p ∧ p < hi
      · rw [h.inside p hin.1 hin.2, hv p hin.1 hin.2]
      · exact h.outside p (by omega)
    funext x
    by_cases hx : Covers rs x
    · obtain ⟨k, hk⟩ := exists_nth hx
      refine Buf.ext_byte fun j hj => ?_
      have hdiv : (bs * k + j) / bs = k := by
        rw [Nat.mul_add_div hbs, Nat.div_eq_of_lt hj, Nat.add_zero]
      have hmod : (bs * k + j) % bs = j := by rw [Nat.mul_add_mod, Nat.mod_eq_of_lt hj]
      have hp := hbyte (bs * k + j)
      rwa [byteAt_of_nth (hdiv.symm ▸ hk), byteAt_of_nth (hdiv.symm ▸ hk), hmod] at hp
    · exact h.frame x hx

/-- **One block.** The positions of a spread list lie in different blocks, so that only those of
the block written change. -/
theorem writes_block (hs : Spread rs) (hbs : 0 < bs) {a c x : ℕ} (hx : nth rs (a / bs) = some x)
    (hc : a % bs + c ≤ bs) {b : Buf bs}
    (hb : ∀ k < bs, b.byte k = if a % bs ≤ k ∧ k < a % bs + c then val (a - a % bs + k)
      else (m x).byte k) :
    Writes rs a (a + c) val m (Function.update m x b) := by
  have ha := Nat.div_add_mod a bs
  refine ⟨fun p hp hp' => ?_, fun p hp => ?_, fun y hy => ?_⟩
  · have hdiv : p / bs = a / bs :=
      Nat.div_eq_of_lt_le (by rw [Nat.mul_comm]; omega)
        (by rw [Nat.add_mul, Nat.one_mul, Nat.mul_comm]; omega)
    have hpm := Nat.div_add_mod p bs
    rw [hdiv] at hpm
    rw [byteAt_of_nth (hdiv ▸ hx), Function.update_self, hb _ (Nat.mod_lt _ hbs),
      if_pos (by omega)]
    congr 1
    omega
  · unfold byteAt
    cases hn : nth rs (p / bs) with
    | none => rfl
    | some y =>
      dsimp only
      by_cases hyx : y = x
      · subst hyx
        have hdiv := nth_inj hs hn hx
        have hpm := Nat.div_add_mod p bs
        rw [hdiv] at hpm
        rw [Function.update_self, hb _ (Nat.mod_lt _ hbs), if_neg (by omega)]
      · rw [Function.update_of_ne hyx]
  · rw [Function.update_of_ne]
    rintro rfl
    exact hy (nth_covers hx)

end Writes

/-! ## Loops over a range -/

section Loop

variable {σ : Type}

/-- From `copied` on, up to `len`: each turn hands `body` the positions left in the block of
`position copied`, and ends the loop if `body` fails. `fuel` bounds the turns. -/
def chunkLoop (bs : ℕ) (position : ℕ → ℕ) (body : ℕ → ℕ → σ → Bool × σ) (len : ℕ) :
    ℕ → ℕ → σ → Bool × σ
  | 0, copied, s => (decide (len ≤ copied), s)
  | fuel + 1, copied, s =>
    if copied < len then
      let count := min (len - copied) (bs - position copied % bs)
      match body copied count s with
      | (true, s) => chunkLoop bs position body len fuel (copied + count) s
      | (false, s) => (false, s)
    else (true, s)

/-- **The invariant rule.** `I` is kept by a turn that succeeds and gives `F` when one fails; each
turn takes a position at least, so that `len` turns are enough. -/
theorem chunkLoop_inv (hbs : 0 < bs) {position : ℕ → ℕ} {body : ℕ → ℕ → σ → Bool × σ} {len : ℕ}
    {I : ℕ → σ → Prop} {F : σ → Prop}
    (hbody : ∀ copied count s, I copied s → copied < len →
      count = min (len - copied) (bs - position copied % bs) →
        ((body copied count s).1 = true → I (copied + count) (body copied count s).2) ∧
          ((body copied count s).1 = false → F (body copied count s).2))
    {fuel copied : ℕ} {s : σ} (h : I copied s) (hle : copied ≤ len) (hfuel : len ≤ copied + fuel) :
    ((chunkLoop bs position body len fuel copied s).1 = true →
      I len (chunkLoop bs position body len fuel copied s).2) ∧
    ((chunkLoop bs position body len fuel copied s).1 = false →
      F (chunkLoop bs position body len fuel copied s).2) := by
  induction fuel generalizing copied s with
  | zero =>
    obtain rfl : copied = len := by omega
    simp only [chunkLoop, le_refl, decide_true, true_implies, Bool.true_eq_false, false_implies,
      and_true]
    exact h
  | succ fuel ih =>
    rw [chunkLoop]
    by_cases hc : copied < len
    · rw [if_pos hc]
      have hmod := Nat.mod_lt (position copied) hbs
      have hb := hbody copied _ s h hc rfl
      dsimp only
      generalize hr : body copied (min (len - copied) (bs - position copied % bs)) s = r at hb
      obtain ⟨ok, s'⟩ := r
      cases ok with
      | true => exact ih (hb.1 rfl) (by omega) (by omega)
      | false => exact ⟨nofun, fun _ => hb.2 rfl⟩
    · rw [if_neg hc]
      obtain rfl : copied = len := by omega
      exact ⟨fun _ => h, nofun⟩

/-- The whole range: from an `s` that meets `I` at the start, the loop ends in `I` or in `F`. -/
theorem chunkLoop_spec (hbs : 0 < bs) {position : ℕ → ℕ} {body : ℕ → ℕ → σ → Bool × σ} {len : ℕ}
    {I : ℕ → σ → Prop} {F : σ → Prop} {s s' : σ} {ok : Bool}
    (he : chunkLoop bs position body len len 0 s = (ok, s')) (h : I 0 s)
    (hbody : ∀ copied count s, I copied s → copied < len →
      count = min (len - copied) (bs - position copied % bs) →
        ((body copied count s).1 = true → I (copied + count) (body copied count s).2) ∧
          ((body copied count s).1 = false → F (body copied count s).2)) :
    (ok = true → I len s') ∧ (ok = false → F s') := by
  have := chunkLoop_inv hbs hbody h (Nat.zero_le len) (Nat.le_add_left len 0)
  rwa [he] at this

end Loop

end Blocks
