import Mathlib.Tactic
import Rymos.Console.Screen

/-!
# What the console draws

* `Console.mode`, `ModeOk`: what never changes of a console.
* `glyphPixel`: the pixels of a cell; **`drawFramebufferCell_cell`**, `drawFramebufferCell_other`.
* `Displays`: cells are on the screen. **`writeCell_shows`**: a write of a cell puts it there.
-/

namespace Rymos

open ByteBuf Loops

/-- A console apart from its text. -/
def Console.mode (c : Console) : Console := { c with row := 0, col := 0, cells := blankCells }

/-- The text fits into the cells, and pixels have offsets of their own. -/
structure ModeOk (m : Console) : Prop where
  rows_pos : 0 < m.rows
  rows_le : m.rows ≤ textRowsMax
  cols_pos : 0 < m.cols
  cols_le : m.cols ≤ textColsMax
  pitch : m.framebufferWidth ≤ m.pixelsPerScanLine
  memory : m.framebufferHeight * m.pixelsPerScanLine * 4 < 2 ^ 64

/-- A pixel of the framebuffer. -/
structure Visible (m : Console) (x y : ℕ) : Prop where
  base : m.framebufferBase ≠ 0
  x_lt : x < m.framebufferWidth
  y_lt : y < m.framebufferHeight
  size : m.offset x y + 4 ≤ m.framebufferSize

/-- The console draws this cell. The last column and the last row are not drawn where they end with the
framebuffer. -/
def Console.Draws (m : Console) (row col : ℕ) : Prop :=
  m.framebufferBase ≠ 0 ∧ col * fontWidth + fontWidth < m.framebufferWidth ∧
    row * fontHeight + fontHeight < m.framebufferHeight

/-- The pixels of a cell: seven rows of five, each row twice. -/
def glyphPixel (byte : UInt8) (px py : ℕ) : UInt32 :=
  if 1 ≤ px ∧ px < 6 ∧ 2 ≤ py ∧ Console.bitSet ((glyph byte).getD ((py - 2) / 2) 0) (px - 1) = true then
    fbForeground
  else fbBackground

/-! ## Pixels -/

section Pixels

variable {m : Console} {x y x' y' : ℕ}

theorem ModeOk.offset_eq (h : ModeOk m) (hx : x < m.framebufferWidth) (hy : y < m.framebufferHeight) :
    m.offset x y = (y * m.pixelsPerScanLine + x) * 4 := by
  have hp := h.pitch
  have hm := h.memory
  have hlt : y * m.pixelsPerScanLine + x < m.framebufferHeight * m.pixelsPerScanLine := by
    calc y * m.pixelsPerScanLine + x < y * m.pixelsPerScanLine + m.pixelsPerScanLine := by omega
      _ = (y + 1) * m.pixelsPerScanLine := by ring
      _ ≤ m.framebufferHeight * m.pixelsPerScanLine := Nat.mul_le_mul_right _ hy
  have husize (k : ℕ) (hk : k < 2 ^ 64) : usize k = k := Nat.mod_eq_of_lt hk
  rw [Console.offset, husize (y * _) (by omega), husize (_ + x) (by omega), husize _ (by omega)]

/-- **Every pixel has an offset of its own.** -/
theorem ModeOk.offset_inj (h : ModeOk m) (hx : x < m.framebufferWidth) (hy : y < m.framebufferHeight)
    (hx' : x' < m.framebufferWidth) (hy' : y' < m.framebufferHeight) :
    m.offset x y = m.offset x' y' ↔ x = x' ∧ y = y' := by
  rw [h.offset_eq hx hy, h.offset_eq hx' hy']
  have hp := h.pitch
  refine ⟨fun he => ?_, fun he => by rw [he.1, he.2]⟩
  have he' : y * m.pixelsPerScanLine + x = y' * m.pixelsPerScanLine + x' := by omega
  have hy : y = y' := by
    have hdiv (k r : ℕ) (hr : r < m.pixelsPerScanLine) : (k * m.pixelsPerScanLine + r) /
        m.pixelsPerScanLine = k := by
      rw [Nat.mul_comm, Nat.mul_add_div (by omega), Nat.div_eq_of_lt hr, Nat.add_zero]
    rw [← hdiv y x (by omega), he', hdiv y' x' (by omega)]
  subst hy
  exact ⟨by omega, rfl⟩

/-- A write of pixel `(x, y)` stores at the offset `o`. -/
def StoresAt (m : Console) (x y o : ℕ) : Prop :=
  x < m.framebufferWidth ∧ y < m.framebufferHeight ∧ m.offset x y < m.framebufferSize ∧ m.offset x y = o

/-- A pixel is stored by the writes to it only. -/
theorem ModeOk.stores_iff (h : ModeOk m) (hv : Visible m x y) (x' y' : ℕ) :
    StoresAt m x' y' (m.offset x y) ↔ x' = x ∧ y' = y := by
  refine ⟨fun hs => (h.offset_inj hs.1 hs.2.1 hv.x_lt hv.y_lt).mp hs.2.2.2, fun he => ?_⟩
  have := hv.size
  rw [he.1, he.2]
  exact ⟨hv.x_lt, hv.y_lt, by omega, rfl⟩

theorem writePixel_fills (m : Console) (x y : ℕ) (color : UInt32) (s : Screen) :
    Fills color (StoresAt m x y) s.frame (m.writePixel x y color s).frame := by
  unfold Console.writePixel
  by_cases hout : x ≥ m.framebufferWidth ∨ y ≥ m.framebufferHeight
  · rw [if_pos hout]
    exact fun o => ⟨fun hs => by obtain ⟨hx, hy, -⟩ := hs; omega, fun _ => rfl⟩
  by_cases hsize : m.offset x y ≥ m.framebufferSize
  · rw [if_neg hout, if_pos hsize]
    exact fun o => ⟨fun hs => absurd hs.2.2.1 (not_lt.mpr hsize), fun _ => rfl⟩
  rw [if_neg hout, if_neg hsize]
  refine fun o => ⟨fun hs => ?_, fun hs => ?_⟩
  · rw [← hs.2.2.2]
    exact Function.update_self ..
  · exact Function.update_of_ne (fun he => hs ⟨by omega, by omega, by omega, he.symm⟩) ..

/-- Pixels are all that is written. -/
theorem writePixel_rest (m : Console) (x y : ℕ) (color : UInt32) (s : Screen) :
    (m.writePixel x y color s).vga = s.vga ∧ (m.writePixel x y color s).serial = s.serial := by
  unfold Console.writePixel
  split_ifs <;> exact ⟨rfl, rfl⟩

theorem drawBackground_fills (m : Console) (x y : ℕ) (s : Screen) :
    Fills fbBackground
      (fun o => ∃ py ∈ List.range fontHeight, ∃ px ∈ List.range fontWidth, StoresAt m (x + px) (y + py) o)
      s.frame (m.drawBackground x y s).frame :=
  foldl_fills (fun _ _ => foldl_fills (fun s _ => writePixel_fills m _ _ _ s) _ _) _ s

theorem drawGlyph_fills (m : Console) (x y : ℕ) (byte : UInt8) (s : Screen) :
    Fills fbForeground
      (fun o => ∃ gy ∈ List.range 7, ∃ gx ∈ List.range 5,
        Console.bitSet ((glyph byte).getD gy 0) gx = true ∧
          (StoresAt m (x + 1 + gx) (y + 2 + gy * 2) o ∨ StoresAt m (x + 1 + gx) (y + 2 + gy * 2 + 1) o))
      s.frame (m.drawGlyph x y byte s).frame := by
  refine foldl_fills (fun s gy => foldl_fills (fun s gx => ?_) _ s) _ s
  split_ifs with hbit
  · have hfirst := writePixel_fills m (x + 1 + gx) (y + 2 + gy * 2) fbForeground s
    exact (hfirst.trans (writePixel_fills _ _ _ _ _)).congr fun o => by rw [and_iff_right hbit]
  · exact (Fills.refl _ _).congr fun o => (iff_false_intro fun hg => hbit hg.1).symm

theorem drawBackground_rest (m : Console) (x y : ℕ) (s : Screen) :
    (m.drawBackground x y s).vga = s.vga ∧ (m.drawBackground x y s).serial = s.serial := by
  constructor
  · exact foldl_keeps (fun _ _ => foldl_keeps (fun s _ => (writePixel_rest m _ _ _ s).1) _ _) _ s
  · exact foldl_keeps (fun _ _ => foldl_keeps (fun s _ => (writePixel_rest m _ _ _ s).2) _ _) _ s

theorem drawGlyph_rest (m : Console) (x y : ℕ) (byte : UInt8) (s : Screen) :
    (m.drawGlyph x y byte s).vga = s.vga ∧ (m.drawGlyph x y byte s).serial = s.serial := by
  constructor
  · refine foldl_keeps (fun _ _ => foldl_keeps (fun s gx => ?_) _ _) _ s
    split_ifs
    · rw [(writePixel_rest ..).1, (writePixel_rest ..).1]
    · rfl
  · refine foldl_keeps (fun _ _ => foldl_keeps (fun s gx => ?_) _ _) _ s
    split_ifs
    · rw [(writePixel_rest ..).2, (writePixel_rest ..).2]
    · rfl

theorem drawFramebufferCell_rest (m : Console) (row col : ℕ) (byte : UInt8) (s : Screen) :
    (m.drawFramebufferCell row col byte s).vga = s.vga ∧
      (m.drawFramebufferCell row col byte s).serial = s.serial := by
  unfold Console.drawFramebufferCell
  split_ifs
  · exact ⟨rfl, rfl⟩
  · exact ⟨rfl, rfl⟩
  · rw [(drawGlyph_rest ..).1, (drawGlyph_rest ..).2]
    exact drawBackground_rest ..

/-- Nothing behind the framebuffer is written. -/
theorem drawFramebufferCell_outside (m : Console) (row col : ℕ) (byte : UInt8) (s : Screen) {o : ℕ}
    (ho : m.framebufferSize ≤ o) : (m.drawFramebufferCell row col byte s).frame o = s.frame o := by
  have hno (x y : ℕ) : ¬ StoresAt m x y o := fun hs => by
    have := hs.2.2.1
    rw [hs.2.2.2] at this
    omega
  unfold Console.drawFramebufferCell
  split_ifs
  · rfl
  · rfl
  · rw [(drawGlyph_fills _ _ _ _ _ o).2 (by simp [hno]),
      (drawBackground_fills _ _ _ _ o).2 (by simp [hno])]

/-- **One cell is drawn.** -/
theorem drawFramebufferCell_cell (h : ModeOk m) (hv : Visible m x y) (byte : UInt8) (s : Screen)
    (hd : m.Draws (y / fontHeight) (x / fontWidth)) :
    (m.drawFramebufferCell (y / fontHeight) (x / fontWidth) byte s).frame (m.offset x y) =
      glyphPixel byte (x % fontWidth) (y % fontHeight) := by
  obtain ⟨hbase, hx, hy⟩ := hd
  simp only [fontWidth, fontHeight] at hx hy ⊢
  unfold Console.drawFramebufferCell
  simp only [fontWidth, fontHeight]
  rw [if_neg hbase, if_neg (by omega)]
  set bits : UInt8 := (glyph byte).getD ((y % 16 - 2) / 2) 0 with hbits
  have hglyph := drawGlyph_fills m (x / 8 * 8) (y / 16 * 16) byte
    (m.drawBackground (x / 8 * 8) (y / 16 * 16) s) (m.offset x y)
  have hback := drawBackground_fills m (x / 8 * 8) (y / 16 * 16) s (m.offset x y)
  simp only [h.stores_iff hv, List.mem_range, fontWidth, fontHeight] at hglyph hback
  unfold glyphPixel
  rw [← hbits]
  split_ifs with hset
  · obtain ⟨h₁, h₂, h₃, hbit⟩ := hset
    exact hglyph.1 ⟨(y % 16 - 2) / 2, by omega, x % 8 - 1, by omega, hbit, by omega⟩
  · rw [hglyph.2, hback.1 ⟨y % 16, by omega, x % 8, by omega, by omega, by omega⟩]
    rintro ⟨gy, hgy, gx, hgx, hbit, hat⟩
    have h₁ : (y % 16 - 2) / 2 = gy := by omega
    have h₂ : x % 8 - 1 = gx := by omega
    rw [← h₁, ← h₂, ← hbits] at hbit
    exact hset ⟨by omega, by omega, by omega, hbit⟩

/-- **No pixel outside of it is.** -/
theorem drawFramebufferCell_other (h : ModeOk m) (hv : Visible m x y) (byte : UInt8) (s : Screen)
    {row col : ℕ} (hother : ¬ (m.Draws row col ∧ y / fontHeight = row ∧ x / fontWidth = col)) :
    (m.drawFramebufferCell row col byte s).frame (m.offset x y) = s.frame (m.offset x y) := by
  unfold Console.Draws at hother
  simp only [fontWidth, fontHeight] at hother
  unfold Console.drawFramebufferCell
  simp only [fontWidth, fontHeight]
  rw [if_neg hv.base]
  split_ifs with hfit
  · rfl
  have hglyph := drawGlyph_fills m (col * 8) (row * 16) byte
    (m.drawBackground (col * 8) (row * 16) s) (m.offset x y)
  have hback := drawBackground_fills m (col * 8) (row * 16) s (m.offset x y)
  simp only [h.stores_iff hv, List.mem_range, fontWidth, fontHeight] at hglyph hback
  have hcell : ¬ (y / 16 = row ∧ x / 8 = col) :=
    fun hc => hother ⟨⟨hv.base, by omega, by omega⟩, hc⟩
  rw [hglyph.2, hback.2]
  · rintro ⟨py, hpy, px, hpx, hat⟩
    exact hcell (by omega)
  · rintro ⟨gy, hgy, gx, hgx, hbit, hat⟩
    exact hcell (by omega)

end Pixels

/-! ## Cells -/

def Tty.cell (t : Tty) (r c : ℕ) : UInt8 := t.console.cells.byte (r * textColsMax + c)

/-- The cells in `done` are on the screen, the rest of the framebuffer is empty, and nothing else has
changed since `s₀`. -/
structure Displays (m : Console) (s₀ : Screen) (done : ℕ → ℕ → Prop) (t : Tty) : Prop where
  mode : t.console.mode = m
  cols : ∀ r c, done r c → c < textColsMax
  vga : ∀ r c, done r c → r < vgaHeight → c < vgaWidth →
    t.screen.vga ((r * vgaWidth + c) * 2) = t.cell r c ∧
      t.screen.vga ((r * vgaWidth + c) * 2 + 1) = vgaColor
  vgaRest : ∀ o, vgaHeight * vgaWidth * 2 ≤ o → t.screen.vga o = s₀.vga o
  drawn : ∀ x y, Visible m x y → m.Draws (y / fontHeight) (x / fontWidth) →
    done (y / fontHeight) (x / fontWidth) → t.screen.frame (m.offset x y) =
      glyphPixel (t.cell (y / fontHeight) (x / fontWidth)) (x % fontWidth) (y % fontHeight)
  empty : ∀ x y, Visible m x y →
    ¬ (m.Draws (y / fontHeight) (x / fontWidth) ∧ done (y / fontHeight) (x / fontWidth)) →
    t.screen.frame (m.offset x y) = fbBackground
  frameRest : ∀ o, m.framebufferSize ≤ o → t.screen.frame o = s₀.frame o

/-- One cell has changed. -/
structure CellSet (t t' : Tty) (row col : ℕ) (byte : UInt8) : Prop where
  cell : ∀ r c, c < textColsMax → t'.cell r c = if r = row ∧ c = col then byte else t.cell r c
  row : t'.console.row = t.console.row
  col : t'.console.col = t.console.col
  serial : t'.screen.serial = t.screen.serial

section Cells

variable {m : Console} {s₀ : Screen} {done done' : ℕ → ℕ → Prop} {t : Tty} {row col : ℕ}

theorem Displays.congr (h : Displays m s₀ done t) (he : ∀ r c, done' r c ↔ done r c) : Displays m s₀ done' t := by
  obtain rfl : done' = done := by
    funext r c
    exact propext (he r c)
  exact h

/-- Two cells of a row are apart. -/
theorem cellIndex_inj {r c : ℕ} (hc : c < textColsMax) (hcol : col < textColsMax) :
    r * textColsMax + c = row * textColsMax + col ↔ r = row ∧ c = col := by
  simp only [textColsMax] at *
  omega

theorem writeCell_set (hr : row < textRowsMax) (hc : col < textColsMax) (byte : UInt8) :
    ∃ t', t.writeCell row col byte = some t' ∧ t'.console.mode = t.console.mode ∧
      t'.screen = t.console.drawFramebufferCell row col byte (Tty.writeVga row col byte t.screen) ∧
        CellSet t t' row col byte := by
  have hin : row * textColsMax + col < textColsMax * textRowsMax := by
    simp only [textColsMax, textRowsMax] at *
    omega
  refine ⟨_, if_pos hin, rfl, rfl, fun r c hlt => ?_, rfl, rfl, ?_⟩
  · simp only [Tty.cell]
    by_cases hrc : r * textColsMax + c = row * textColsMax + col
    · rw [if_pos ((cellIndex_inj hlt hc).mp hrc), hrc, Buf.byte_put_of_mem _ le_rfl (by simp) hin,
        Nat.sub_self]
      rfl
    · rw [if_neg (mt (cellIndex_inj hlt hc).mpr hrc), Buf.byte_put_of_not]
      simp only [List.length_singleton]
      omega
  · rw [(drawFramebufferCell_rest ..).2]
    unfold Tty.writeVga
    split_ifs <;> rfl

/-- **A write of a cell** puts it on the screen, and leaves the others there. -/
theorem writeCell_shows (h : ModeOk m) (hs : Displays m s₀ done t) (hr : row < textRowsMax)
    (hc : col < textColsMax) (byte : UInt8) :
    ∃ t', t.writeCell row col byte = some t' ∧ CellSet t t' row col byte ∧
      Displays m s₀ (fun r c => done r c ∨ r = row ∧ c = col) t' := by
  obtain ⟨t', hw, hmode, hscreen, hset⟩ := @writeCell_set t row col hr hc byte
  have hdraw (s : Screen) :
      t.console.drawFramebufferCell row col byte s = m.drawFramebufferCell row col byte s := by
    rw [← hs.mode]
    rfl
  rw [hdraw] at hscreen
  have hvga : t'.screen.vga = (Tty.writeVga row col byte t.screen).vga := by
    rw [hscreen, (drawFramebufferCell_rest ..).1]
  have hframe : (Tty.writeVga row col byte t.screen).frame = t.screen.frame := by
    unfold Tty.writeVga
    split_ifs <;> rfl
  have hold {r c : ℕ} (hd : done r c) (hne : ¬ (r = row ∧ c = col)) : t'.cell r c = t.cell r c := by
    rw [hset.cell r c (hs.cols r c hd), if_neg hne]
  have hnew : t'.cell row col = byte := by rw [hset.cell row col hc, if_pos ⟨rfl, rfl⟩]
  refine ⟨t', hw, hset, hmode.trans hs.mode, fun r c hd => ?_, fun r c hd hrow hcol => ?_,
    fun o ho => ?_, fun x y hv hd hdone => ?_, fun x y hv hd => ?_, fun o ho => ?_⟩
  · rcases hd with hd | ⟨-, rfl⟩
    · exact hs.cols r c hd
    · exact hc
  · rw [hvga]
    unfold Tty.writeVga
    by_cases hrc : r = row ∧ c = col
    · obtain ⟨rfl, rfl⟩ := hrc
      rw [if_pos ⟨hrow, hcol⟩, hnew]
      refine ⟨?_, Function.update_self ..⟩
      dsimp only
      rw [Function.update_of_ne (by omega), Function.update_self]
    · obtain ⟨h₁, h₂⟩ := hs.vga r c (hd.resolve_right hrc) hrow hcol
      rw [hold (hd.resolve_right hrc) hrc]
      split_ifs with hin
      · simp only [vgaWidth, vgaHeight] at *
        refine ⟨?_, ?_⟩
        · rw [Function.update_of_ne (by omega), Function.update_of_ne (by omega), h₁]
        · rw [Function.update_of_ne (by omega), Function.update_of_ne (by omega), h₂]
      · exact ⟨h₁, h₂⟩
  · rw [hvga, ← hs.vgaRest o ho]
    unfold Tty.writeVga
    split_ifs with hin
    · simp only [vgaWidth, vgaHeight] at *
      rw [Function.update_of_ne (by omega), Function.update_of_ne (by omega)]
    · rfl
  · rw [hscreen]
    by_cases hrc : y / fontHeight = row ∧ x / fontWidth = col
    · obtain ⟨rfl, rfl⟩ := hrc
      rw [drawFramebufferCell_cell h hv byte _ hd, hnew]
    · rw [drawFramebufferCell_other h hv byte _ fun hg => hrc hg.2, hframe,
        hs.drawn x y hv hd (hdone.resolve_right hrc), hold (hdone.resolve_right hrc) hrc]
  · have hother : ¬ (m.Draws row col ∧ y / fontHeight = row ∧ x / fontWidth = col) := by
      rintro ⟨hdraws, rfl, rfl⟩
      exact hd ⟨hdraws, .inr ⟨rfl, rfl⟩⟩
    rw [hscreen, drawFramebufferCell_other h hv byte _ hother, hframe]
    exact hs.empty x y hv fun hg => hd ⟨hg.1, .inl hg.2⟩
  · rw [hscreen, drawFramebufferCell_outside m row col byte _ ho, hframe]
    exact hs.frameRest o ho

/-- The cursor and the serial line are not on the screen. -/
theorem Displays.setCursor (h : Displays m s₀ done t) (row col : ℕ) : Displays m s₀ done (t.setCursor row col) :=
  ⟨h.mode, h.cols, h.vga, h.vgaRest, h.drawn, h.empty, h.frameRest⟩

theorem send_screen (t : Tty) (bytes : List UInt8) :
    (t.send bytes).screen = { t.screen with serial := t.screen.serial ++ bytes } := by
  unfold Tty.send
  dsimp only
  generalize t.screen = s
  induction bytes generalizing s with
  | nil => rw [List.foldl_nil, List.append_nil]
  | cons byte bytes ih => rw [List.foldl_cons, ih, serialWriteByte, List.append_assoc]; rfl

theorem Displays.send (h : Displays m s₀ done t) (bytes : List UInt8) : Displays m s₀ done (t.send bytes) := by
  have hscreen := send_screen t bytes
  refine ⟨h.mode, h.cols, ?_, ?_, ?_, ?_, ?_⟩
  · rw [hscreen]; exact h.vga
  · rw [hscreen]; exact h.vgaRest
  · rw [hscreen]; exact h.drawn
  · rw [hscreen]; exact h.empty
  · rw [hscreen]; exact h.frameRest

end Cells

end Rymos
