import Mathlib.Tactic
import Rymos.Base.Scrollback
import Rymos.Console.Frame

/-!
# The console is a terminal

* `OnScreen`, `CellsOnly`: all cells are on the screen, and an operation on cells keeps that.
* `scroll_spec`, `clear_spec`: the loops.
* `TtyOp`, `Mirrors`: the operations, and the terminal they work on; **`run_mirrors`**: a run of them.
-/

namespace Rymos

open ByteBuf Loops Scrollback

/-- All cells of the text are on the screen. -/
abbrev OnScreen (m : Console) (s₀ : Screen) (t : Tty) : Prop :=
  Displays m s₀ (fun r c => r < m.rows ∧ c < m.cols) t

/-- Cells have changed, and are on the screen. -/
structure CellsOnly (m : Console) (s₀ : Screen) (t t' : Tty) : Prop where
  shows : OnScreen m s₀ t'
  row : t'.console.row = t.console.row
  col : t'.console.col = t.console.col
  serial : t'.screen.serial = t.screen.serial

section Loops

variable {m : Console} {s₀ : Screen} {t t' : Tty} {row col : ℕ}

theorem CellsOnly.refl (h : OnScreen m s₀ t) : CellsOnly m s₀ t t := ⟨h, rfl, rfl, rfl⟩

theorem CellsOnly.trans {t'' : Tty} (h : CellsOnly m s₀ t t') (h' : CellsOnly m s₀ t' t'') : CellsOnly m s₀ t t'' :=
  ⟨h'.shows, h'.row.trans h.row, h'.col.trans h.col, h'.serial.trans h.serial⟩

/-- A write of a cell of the text. -/
theorem writeCell_steady (h : ModeOk m) (hs : OnScreen m s₀ t) (hr : row < m.rows) (hc : col < m.cols)
    (byte : UInt8) : ∃ t', t.writeCell row col byte = some t' ∧ CellsOnly m s₀ t t' ∧
      CellSet t t' row col byte := by
  obtain ⟨t', hw, hset, hshows⟩ := writeCell_shows h hs (hr.trans_le h.rows_le) (hc.trans_le h.cols_le) byte
  refine ⟨t', hw, ⟨hshows.congr fun r c => ?_, hset.row, hset.col, hset.serial⟩, hset⟩
  exact ⟨.inl, fun hd => hd.elim id fun he => by rw [he.1, he.2]; exact ⟨hr, hc⟩⟩

theorem readCell_eq (h : ModeOk m) (hr : row < m.rows) (hc : col < m.cols) :
    t.readCell row col = some (t.cell row col) := by
  have := h.rows_le
  have := h.cols_le
  exact if_pos (by simp only [textColsMax, textRowsMax] at *; omega)

/-- A row is written, from the first column on. -/
theorem writeRow_spec (h : ModeOk m) (hs : OnScreen m s₀ t) (hr : row < m.rows) {byte : ℕ → UInt8}
    {f : Tty → ℕ → Option Tty}
    (hf : ∀ c < m.cols, ∀ t', OnScreen m s₀ t' →
      (∀ r c', c' < m.cols → r ≠ row → t'.cell r c' = t.cell r c') →
      f t' c = t'.writeCell row c (byte c)) :
    ∃ t', (List.range m.cols).foldlM f t = some t' ∧ CellsOnly m s₀ t t' ∧
      ∀ r c, c < m.cols → t'.cell r c = if r = row then byte c else t.cell r c := by
  obtain ⟨t', hrun, hsteady, hcells⟩ := foldlM_range_inv (n := m.cols) (f := f) (s := t)
    (fun k t' => CellsOnly m s₀ t t' ∧
      ∀ r c, c < m.cols → t'.cell r c = if r = row ∧ c < k then byte c else t.cell r c)
    ⟨.refl hs, fun r c _ => (if_neg fun hk => Nat.not_lt_zero c hk.2).symm⟩
    fun k hk t' ht' => by
      obtain ⟨hsteady, hcells⟩ := ht'
      obtain ⟨t'', hw, hsteady', hset⟩ := writeCell_steady h hsteady.shows hr hk (byte k)
      refine ⟨t'', ?_, hsteady.trans hsteady', fun r c hc => ?_⟩
      · rw [hf k hk t' hsteady.shows fun r c' hc' hne => ?_, hw]
        rw [hcells r c' hc', if_neg fun hr => hne hr.1]
      · rw [hset.cell r c (hc.trans_le h.cols_le), hcells r c hc]
        by_cases hrc : r = row ∧ c = k
        · rw [if_pos hrc, if_pos ⟨hrc.1, by omega⟩, hrc.2]
        · rw [if_neg hrc]
          exact if_congr (by omega) rfl rfl
  refine ⟨t', hrun, hsteady, fun r c hc => ?_⟩
  rw [hcells r c hc]
  exact if_congr (by simp [hc]) rfl rfl

/-- **The text moves up**, and the last row is blank. -/
theorem scroll_spec (h : ModeOk m) (hs : OnScreen m s₀ t) :
    ∃ t', t.scroll = some t' ∧ CellsOnly m s₀ t t' ∧ ∀ r < m.rows, ∀ c < m.cols,
      t'.cell r c = if r + 1 < m.rows then t.cell (r + 1) c else space := by
  have hrows : t.console.rows = m.rows := by rw [← hs.mode]; rfl
  have hcols : t.console.cols = m.cols := by rw [← hs.mode]; rfl
  have hpos := h.rows_pos
  -- the rows above the last one
  obtain ⟨t₁, hrun, hsteady, hcells⟩ := foldlM_range_inv (n := m.rows - 1) (s := t)
    (f := fun (t' : Tty) row => (List.range t'.console.cols).foldlM (fun (t' : Tty) col =>
      (t'.readCell (row + 1) col).bind fun byte => t'.writeCell row col byte) t')
    (fun k t' => CellsOnly m s₀ t t' ∧ ∀ r < m.rows, ∀ c < m.cols,
      t'.cell r c = if r < k then t.cell (r + 1) c else t.cell r c)
    ⟨.refl hs, fun r _ c _ => (if_neg (Nat.not_lt_zero r)).symm⟩
    fun k hk t' ht' => by
      obtain ⟨hsteady, hcells⟩ := ht'
      have hcols' : t'.console.cols = m.cols := by rw [← hsteady.shows.mode]; rfl
      rw [hcols']
      obtain ⟨t'', hrun, hsteady', hrow⟩ := @writeRow_spec m s₀ t' k h hsteady.shows (by omega)
        (t'.cell (k + 1)) (fun (t' : Tty) col =>
          (t'.readCell (k + 1) col).bind fun byte => t'.writeCell k col byte)
        fun c hc u hu hcell => by
          rw [readCell_eq h (by omega) hc, Option.bind_some, hcell (k + 1) c hc (by omega)]
      refine ⟨t'', hrun, hsteady.trans hsteady', fun r hr c hc => ?_⟩
      rw [hrow r c hc]
      by_cases hrk : r = k
      · rw [if_pos hrk, if_pos (by omega), hrk, hcells (k + 1) (by omega) c hc, if_neg (by omega)]
      · rw [if_neg hrk, hcells r hr c hc]
        exact if_congr (by omega) rfl rfl
  -- the last row
  have hcols₁ : t₁.console.cols = m.cols := by rw [← hsteady.shows.mode]; rfl
  obtain ⟨t₂, hlast, hsteady₂, hrow⟩ := @writeRow_spec m s₀ t₁ (m.rows - 1) h hsteady.shows (by omega)
    (fun _ => space) (fun (t' : Tty) col => t'.writeCell (t'.console.rows - 1) col space)
    fun c hc u hu _ => by
      have : u.console.rows = m.rows := by rw [← hu.mode]; rfl
      rw [this]
  refine ⟨t₂, ?_, hsteady.trans hsteady₂, fun r hr c hc => ?_⟩
  · rw [Tty.scroll, hrows, hrun, Option.bind_some, hcols₁, hlast]
  · rw [hrow r c hc]
    by_cases hr' : r = m.rows - 1
    · rw [if_pos hr', if_neg (by omega)]
    · rw [if_neg hr', hcells r hr c hc, if_pos (by omega), if_pos (by omega)]

end Loops

/-! ## Clearing -/

section Clear

variable {m : Console} {t : Tty}

theorem clearFramebuffer_rest (c : Console) (s : Screen) :
    (c.clearFramebuffer s).vga = s.vga ∧ (c.clearFramebuffer s).serial = s.serial := by
  unfold Console.clearFramebuffer
  split_ifs
  · exact ⟨rfl, rfl⟩
  · constructor
    · refine @foldl_keeps _ _ _ Screen.vga _ (fun s k => ?_) _ s
      rfl
    · refine @foldl_keeps _ _ _ Screen.serial _ (fun s k => ?_) _ s
      rfl

/-- The framebuffer is filled. -/
theorem clearFramebuffer_shows (h : ModeOk m) (hm : t.console.mode = m) :
    Displays m t.screen (fun _ _ => False) { t with screen := t.console.clearFramebuffer t.screen } := by
  have hfill : Fills fbBackground (fun o => ∃ k ∈ List.range (m.framebufferSize / 4), o = k * 4)
      t.screen.frame ((List.range (m.framebufferSize / 4)).foldl (fun (s : Screen) k =>
        { s with frame := Function.update s.frame (k * 4) fbBackground }) t.screen).frame := by
    refine @foldl_fills _ _ _ _ Screen.frame _ _ (fun k o => o = k * 4) (fun s k o => ?_) _ t.screen
    exact ⟨fun ho => ho ▸ Function.update_self .., fun ho => Function.update_of_ne ho ..⟩
  have hclear : t.console.clearFramebuffer t.screen = if m.framebufferBase = 0 then t.screen
      else (List.range (m.framebufferSize / 4)).foldl (fun (s : Screen) k =>
        { s with frame := Function.update s.frame (k * 4) fbBackground }) t.screen := by
    rw [← hm]
    rfl
  have hvga := (clearFramebuffer_rest t.console t.screen).1
  refine ⟨hm, fun r c hd => hd.elim, fun r c hd => hd.elim, fun o _ => congrFun hvga o,
    fun x y _ _ hd => hd.elim, fun x y hv _ => ?_, fun o ho => ?_⟩
  · dsimp only
    rw [hclear, if_neg hv.base]
    refine (hfill _).1 ⟨m.offset x y / 4, List.mem_range.mpr ?_, ?_⟩
    · have := hv.size
      omega
    · rw [h.offset_eq hv.x_lt hv.y_lt]
      omega
  · dsimp only
    rw [hclear]
    split_ifs
    · rfl
    · refine (hfill o).2 ?_
      rintro ⟨k, hk, rfl⟩
      rw [List.mem_range] at hk
      omega

/-- **A clear** puts blanks on the screen, whatever was there. -/
theorem clear_spec (h : ModeOk m) (hm : t.console.mode = m) :
    ∃ t', t.clear = some t' ∧ OnScreen m t.screen t' ∧ t'.console.row = 0 ∧ t'.console.col = 0 ∧
      t'.screen.serial = t.screen.serial ∧ ∀ r < m.rows, ∀ c < m.cols, t'.cell r c = space := by
  have hrows : t.console.rows = m.rows := by rw [← hm]; rfl
  obtain ⟨t₀, ht₀⟩ : ∃ t₀ : Tty, t₀ = { t with screen := t.console.clearFramebuffer t.screen } := ⟨_, rfl⟩
  have hserial : t₀.screen.serial = t.screen.serial := by
    rw [ht₀]
    exact (clearFramebuffer_rest t.console t.screen).2
  obtain ⟨t₁, hrun, hshows, hsame, hcells⟩ := foldlM_range_inv (n := m.rows) (s := t₀)
    (f := fun (t : Tty) row => (List.range t.console.cols).foldlM
      (fun (t : Tty) col => t.writeCell row col space) t)
    (fun k t' => Displays m t.screen (fun r c => r < k ∧ c < m.cols) t' ∧
      t'.screen.serial = t.screen.serial ∧ ∀ r < k, ∀ c < m.cols, t'.cell r c = space)
    ⟨(ht₀ ▸ clearFramebuffer_shows h hm).congr fun r c => by simp, hserial,
      fun r hr => absurd hr (Nat.not_lt_zero r)⟩
    fun k hk t' ht' => by
      obtain ⟨hshows, hsame, hcells⟩ := ht'
      have hcols' : t'.console.cols = m.cols := by rw [← hshows.mode]; rfl
      rw [hcols']
      obtain ⟨t'', hrun, hshows', hsame', hcells'⟩ := foldlM_range_inv (n := m.cols) (s := t')
        (f := fun (t : Tty) col => t.writeCell k col space)
        (fun j t' => Displays m t.screen (fun r c => r < k ∧ c < m.cols ∨ r = k ∧ c < j) t' ∧
          t'.screen.serial = t.screen.serial ∧
            ∀ r c, c < m.cols → r < k ∨ r = k ∧ c < j → t'.cell r c = space)
        ⟨hshows.congr fun r c => by omega, hsame,
          fun r c hc hr => hcells r (hr.resolve_right fun he => by omega) c hc⟩
        fun j hj u hu => by
          obtain ⟨hshows, hsame, hcells⟩ := hu
          obtain ⟨u', hw, hset, hshows'⟩ := writeCell_shows h hshows (hk.trans_le h.rows_le)
            (hj.trans_le h.cols_le) space
          refine ⟨u', hw, hshows'.congr fun r c => by omega, hset.serial.trans hsame,
            fun r c hc hr => ?_⟩
          rw [hset.cell r c (hc.trans_le h.cols_le)]
          split_ifs with hrc
          · rfl
          · exact hcells r c hc (by omega)
      refine ⟨t'', hrun, hshows'.congr fun r c => by omega, hsame', fun r hr c hc => ?_⟩
      exact hcells' r c hc (by omega)
  refine ⟨t₁.setCursor 0 0, ?_, hshows.setCursor 0 0, rfl, rfl, hsame, hcells⟩
  rw [Tty.clear]
  dsimp only
  rw [← ht₀, hrows, hrun, Option.map_some]

end Clear

/-! ## Operations -/

/-- What the kernel does to its console. -/
inductive TtyOp where
  | clear
  | write (byte : UInt8)
  | newLine
  | backspace
deriving DecidableEq

def TtyOp.run (t : Tty) : TtyOp → Option Tty
  | .clear => t.clear
  | .write byte => t.writeByte byte
  | .newLine => t.newLine
  | .backspace => t.backspace

/-- What that is to a terminal. -/
def TtyOp.on (width : ℕ) (T : Terminal UInt8) : TtyOp → Terminal UInt8
  | .clear => .empty
  | .write byte => if byte = 10 then T.newLine else if byte = 13 then T else T.put width byte
  | .newLine => T.newLine
  | .backspace => T.erase

/-- What is sent over the serial line meanwhile. -/
def TtyOp.sent (width : ℕ) (T : Terminal UInt8) : TtyOp → List UInt8
  | .clear => []
  | .write byte =>
    if byte = 10 then [13, 10] else if byte = 13 then []
    else if width ≤ T.line.length then [13, 10, byte] else [byte]
  | .newLine => [13, 10]
  | .backspace => if T.line = [] then [] else [8, space, 8]

/-- The console is a screen of the terminal. -/
structure Mirrors (m : Console) (s₀ : Screen) (t : Tty) (T : Terminal UInt8) : Prop where
  shows : OnScreen m s₀ t
  row : t.console.row = T.row m.rows
  col : t.console.col = T.line.length
  fits : T.line.length ≤ m.cols
  cell : ∀ r < m.rows, ∀ c < m.cols, t.cell r c = T.cell m.rows space r c

section Ops

variable {m : Console} {s₀ : Screen} {t : Tty} {T : Terminal UInt8}

theorem send_console (t : Tty) (bytes : List UInt8) : (t.send bytes).console = t.console := rfl

theorem send_serial (t : Tty) (bytes : List UInt8) :
    (t.send bytes).screen.serial = t.screen.serial ++ bytes := by
  rw [send_screen]

theorem Mirrors.send (h : Mirrors m s₀ t T) (bytes : List UInt8) : Mirrors m s₀ (t.send bytes) T :=
  ⟨h.shows.send bytes, h.row, h.col, h.fits, h.cell⟩

theorem newLine_mirrors (hm : ModeOk m) (h : Mirrors m s₀ t T) :
    ∃ t', t.newLine = some t' ∧ Mirrors m s₀ t' T.newLine ∧
      t'.screen.serial = t.screen.serial ++ [13, 10] := by
  have hrows : t.console.rows = m.rows := by rw [← h.shows.mode]; rfl
  have hpos := hm.rows_pos
  have hrow := T.row_newLine hpos
  have hcell (r : ℕ) (hr : r < m.rows) (c : ℕ) := @Terminal.cell_newLine _ _ space T c hpos r hr
  have hcond : (t.setCursor t.console.row 0).console.row + 1 ≥
      (t.setCursor t.console.row 0).console.rows ↔ m.rows ≤ T.row m.rows + 1 := by
    rw [← h.row, ← hrows]
    rfl
  rw [Tty.newLine]
  by_cases hlast : m.rows ≤ T.row m.rows + 1
  · -- the screen scrolls
    obtain ⟨t₁, hrun, hsteady, hcells⟩ := scroll_spec hm (h.shows.setCursor t.console.row 0)
    rw [if_neg (by omega)] at hrow
    have hmirrors : Mirrors m s₀ t₁ T.newLine := by
      refine ⟨hsteady.shows, ?_, hsteady.col, Nat.zero_le _, fun r hr c hc => ?_⟩
      · rw [hsteady.row, hrow, ← h.row]
        rfl
      · rw [hcells r hr c hc, hcell r hr, if_neg (not_lt.mpr hlast)]
        by_cases hin : r + 1 < m.rows
        · rw [if_pos hin, if_pos hin]
          exact h.cell (r + 1) hin c hc
        · rw [if_neg hin, if_neg hin]
    refine ⟨t₁.send [13, 10], ?_, hmirrors.send _, ?_⟩
    · rw [if_pos (hcond.mpr hlast), hrun, Option.map_some]
    · rw [send_serial, hsteady.serial]
      rfl
  · rw [if_pos (by omega)] at hrow
    have hmirrors : Mirrors m s₀ ((t.setCursor t.console.row 0).setCursor (t.console.row + 1) 0)
        T.newLine := by
      refine ⟨(h.shows.setCursor _ _).setCursor _ _, ?_, rfl, Nat.zero_le _, fun r hr c hc => ?_⟩
      · rw [hrow, ← h.row]
        rfl
      · rw [hcell r hr, if_pos (not_le.mp hlast)]
        exact h.cell r hr c hc
    refine ⟨_, ?_, hmirrors.send [13, 10], send_serial ..⟩
    rw [if_neg (mt hcond.mp hlast)]
    rfl

/-- A byte where there is room for it. -/
theorem append_mirrors (hm : ModeOk m) (h : Mirrors m s₀ t T) (hroom : T.line.length < m.cols)
    (byte : UInt8) :
    ∃ t', t.writeCell t.console.row t.console.col byte = some t' ∧
      Mirrors m s₀ ((t'.setCursor t'.console.row (t'.console.col + 1)).send [byte]) (T.append byte) ∧
        t'.screen.serial = t.screen.serial := by
  have hrow : t.console.row < m.rows := h.row ▸ T.row_lt hm.rows_pos
  have hcol : t.console.col < m.cols := h.col ▸ hroom
  obtain ⟨t', hw, hsteady, hset⟩ := writeCell_steady hm h.shows hrow hcol byte
  refine ⟨t', hw, Mirrors.send ⟨hsteady.shows.setCursor _ _, ?_, ?_, ?_, ?_⟩ _, hsteady.serial⟩
  · exact hsteady.row.trans h.row
  · have hlen : (T.append byte).line.length = T.line.length + 1 := List.length_append
    have hcol' : (t'.setCursor t'.console.row (t'.console.col + 1)).console.col = t'.console.col + 1 := rfl
    rw [hlen, hcol', hsteady.col, h.col]
  · rw [Terminal.append, List.length_append, List.length_singleton]
    exact hroom
  · intro r hr c hc
    have hsame : (t'.setCursor t'.console.row (t'.console.col + 1)).cell r c = t'.cell r c := rfl
    rw [hsame, hset.cell r c (hc.trans_le hm.cols_le), Terminal.cell_append _ _ _ _ _ hm.rows_pos,
      h.cell r hr c hc, h.row, h.col]

theorem writeByte_mirrors (hm : ModeOk m) (h : Mirrors m s₀ t T) (byte : UInt8) :
    ∃ t', t.writeByte byte = some t' ∧ Mirrors m s₀ t' (TtyOp.on m.cols T (.write byte)) ∧
      t'.screen.serial = t.screen.serial ++ TtyOp.sent m.cols T (.write byte) := by
  rw [Tty.writeByte, TtyOp.on, TtyOp.sent]
  by_cases h10 : byte = 10
  · rw [if_pos h10, if_pos h10, if_pos h10]
    exact newLine_mirrors hm h
  by_cases h13 : byte = 13
  · rw [if_neg h10, if_neg h10, if_neg h10, if_pos h13, if_pos h13, if_pos h13]
    exact ⟨t, rfl, h, (List.append_nil _).symm⟩
  rw [if_neg h10, if_neg h10, if_neg h10, if_neg h13, if_neg h13, if_neg h13, Terminal.put]
  have hcols : t.console.cols = m.cols := by rw [← h.shows.mode]; rfl
  by_cases hfull : m.cols ≤ T.line.length
  · -- the line is full
    obtain ⟨t₁, hrun, h₁, hserial⟩ := newLine_mirrors hm h
    obtain ⟨t₂, hw, h₂, hsame⟩ := append_mirrors hm h₁ hm.cols_pos byte
    rw [if_pos hfull, if_pos hfull, if_pos (by rw [hcols, h.col]; exact hfull), hrun,
      Option.bind_some, hw]
    refine ⟨_, rfl, h₂, ?_⟩
    have hshow : ((t₂.setCursor t₂.console.row (t₂.console.col + 1)).send [byte]).screen.serial =
        t₂.screen.serial ++ [byte] := send_serial ..
    rw [hshow, hsame, hserial, List.append_assoc]
    rfl
  · obtain ⟨t₂, hw, h₂, hsame⟩ := append_mirrors hm h (not_le.mp hfull) byte
    rw [if_neg hfull, if_neg hfull, if_neg (by rw [hcols, h.col]; exact hfull), Option.bind_some, hw]
    refine ⟨_, rfl, h₂, ?_⟩
    have hshow : ((t₂.setCursor t₂.console.row (t₂.console.col + 1)).send [byte]).screen.serial =
        t₂.screen.serial ++ [byte] := send_serial ..
    rw [hshow, hsame]

theorem backspace_mirrors (hm : ModeOk m) (h : Mirrors m s₀ t T) :
    ∃ t', t.backspace = some t' ∧ Mirrors m s₀ t' T.erase ∧
      t'.screen.serial = t.screen.serial ++ TtyOp.sent m.cols T .backspace := by
  rw [Tty.backspace, TtyOp.sent]
  by_cases hne : T.line = []
  · rw [if_pos (by rw [h.col, hne]; rfl), if_pos hne, T.erase_of_nil hne]
    exact ⟨t, rfl, h, (List.append_nil _).symm⟩
  have hpos := List.length_pos_of_ne_nil hne
  rw [if_neg (by rw [h.col]; omega), if_neg hne]
  dsimp only
  have hfits := h.fits
  have hrow : t.console.row < m.rows := h.row ▸ T.row_lt hm.rows_pos
  have hcol : t.console.col - 1 < m.cols := by rw [h.col]; omega
  obtain ⟨t', hw, hsteady, hset⟩ := writeCell_steady hm
    (h.shows.setCursor t.console.row (t.console.col - 1)) hrow hcol space
  have hcall : (t.setCursor t.console.row (t.console.col - 1)).writeCell
      (t.setCursor t.console.row (t.console.col - 1)).console.row
      (t.setCursor t.console.row (t.console.col - 1)).console.col space = some t' := hw
  rw [hcall]
  refine ⟨_, rfl, Mirrors.send ⟨hsteady.shows, ?_, ?_, ?_, ?_⟩ _, ?_⟩
  · exact hsteady.row.trans h.row
  · have hlen : T.erase.line.length = T.line.length - 1 := List.length_dropLast
    rw [hsteady.col, hlen, ← h.col]
    rfl
  · exact T.length_line_erase h.fits
  · intro r hr c hc
    have hsame : (t.setCursor t.console.row (t.console.col - 1)).cell r c = t.cell r c := rfl
    rw [hset.cell r c (hc.trans_le hm.cols_le), Terminal.cell_erase _ _ _ _ hm.rows_pos hne, hsame,
      h.cell r hr c hc, h.row, h.col]
  · rw [send_serial, hsteady.serial]
    rfl

theorem clear_mirrors (hm : ModeOk m) (hmode : t.console.mode = m) :
    ∃ t', t.clear = some t' ∧ Mirrors m t.screen t' .empty ∧ t'.screen.serial = t.screen.serial := by
  obtain ⟨t', hrun, hshows, hrow, hcol, hserial, hcells⟩ := clear_spec hm hmode
  refine ⟨t', hrun, ⟨hshows, hrow.trans ?_, hcol, Nat.zero_le _, fun r hr c hc => ?_⟩, hserial⟩
  · simp [Terminal.row, Terminal.empty]
  · rw [hcells r hr c hc, Terminal.cell]
    cases Terminal.hidden m.rows Terminal.empty + r <;> rfl

/-- The memory behind the screen stays as it was at first. -/
theorem Mirrors.from {s₁ : Screen} (h : Mirrors m s₁ t T)
    (hvga : ∀ o, vgaHeight * vgaWidth * 2 ≤ o → s₁.vga o = s₀.vga o)
    (hframe : ∀ o, m.framebufferSize ≤ o → s₁.frame o = s₀.frame o) : Mirrors m s₀ t T :=
  ⟨⟨h.shows.mode, h.shows.cols, h.shows.vga, fun o ho => (h.shows.vgaRest o ho).trans (hvga o ho),
    h.shows.drawn, h.shows.empty, fun o ho => (h.shows.frameRest o ho).trans (hframe o ho)⟩,
    h.row, h.col, h.fits, h.cell⟩

/-- **An operation of the console is one of the terminal.** -/
theorem TtyOp.run_mirrors (hm : ModeOk m) (h : Mirrors m s₀ t T) (op : TtyOp) :
    ∃ t', op.run t = some t' ∧ Mirrors m s₀ t' (op.on m.cols T) ∧
      t'.screen.serial = t.screen.serial ++ op.sent m.cols T := by
  cases op with
  | clear =>
    obtain ⟨t', hrun, hmirrors, hserial⟩ := clear_mirrors hm h.shows.mode
    exact ⟨t', hrun, hmirrors.from h.shows.vgaRest h.shows.frameRest,
      hserial.trans (List.append_nil _).symm⟩
  | write byte => exact writeByte_mirrors hm h byte
  | newLine => exact newLine_mirrors hm h
  | backspace => exact backspace_mirrors hm h

/-- What a run of operations sends. -/
def sentAll (width : ℕ) : Terminal UInt8 → List TtyOp → List UInt8
  | _, [] => []
  | T, op :: ops => op.sent width T ++ sentAll width (op.on width T) ops

/-- **A run.** -/
theorem run_mirrors (hm : ModeOk m) (h : Mirrors m s₀ t T) (ops : List TtyOp) :
    ∃ t', ops.foldlM TtyOp.run t = some t' ∧ Mirrors m s₀ t' (ops.foldl (TtyOp.on m.cols) T) ∧
      t'.screen.serial = t.screen.serial ++ sentAll m.cols T ops := by
  induction ops generalizing t T with
  | nil => exact ⟨t, rfl, h, (List.append_nil _).symm⟩
  | cons op ops ih =>
    obtain ⟨t₁, hrun, h₁, hserial⟩ := TtyOp.run_mirrors hm h op
    obtain ⟨t', hrest, h', hserial'⟩ := ih h₁
    refine ⟨t', ?_, h', ?_⟩
    · rw [List.foldlM_cons, hrun]
      exact hrest
    · rw [hserial', hserial, sentAll, List.append_assoc]

end Ops

end Rymos
