import Mathlib.Tactic
import Rymos.Console.Cells

/-!
# The picture

* `BootInfo.Good`: what firmware says of a framebuffer. `modeOk_new`: a console starts in order.
* `picture`: the pixels of a terminal. **`console_shows`**: every run of the console shows them.
* `plain`, `readByte`: a symbol without its case, and read off the pixels. **`console_readable`**: the
  text can be read off the framebuffer.
-/

namespace Rymos

open ByteBuf Scrollback

/-- A line of pixels is as long as the screen is wide, and the framebuffer lies in memory. -/
structure BootInfo.Good (info : BootInfo) : Prop where
  pitch : info.horizontalResolution ≤ info.pixelsPerScanLine
  memory : info.verticalResolution * info.pixelsPerScanLine * 4 < 2 ^ 64

instance (m : Console) (row col : ℕ) : Decidable (m.Draws row col) := by
  unfold Console.Draws
  infer_instance

section Run

variable {info : Option BootInfo}

theorem clampTextCols_spec (value : ℕ) : 0 < clampTextCols value ∧ clampTextCols value ≤ textColsMax := by
  unfold clampTextCols
  simp only [vgaWidth, textColsMax]
  split_ifs <;> omega

theorem clampTextRows_spec (value : ℕ) : 0 < clampTextRows value ∧ clampTextRows value ≤ textRowsMax := by
  unfold clampTextRows
  simp only [vgaHeight, textRowsMax]
  split_ifs <;> omega

theorem modeOk_withoutFramebuffer : ModeOk .withoutFramebuffer := by
  constructor <;> decide

theorem mode_new (info : Option BootInfo) : (Console.new info).mode = Console.new info := by
  cases info with
  | none => rfl
  | some info =>
    unfold Console.new
    dsimp only
    split_ifs <;> rfl

theorem modeOk_new (h : ∀ i ∈ info, i.Good) : ModeOk (Console.new info) := by
  cases info with
  | none => exact modeOk_withoutFramebuffer
  | some info =>
    obtain ⟨hpitch, hmemory⟩ := h info rfl
    unfold Console.new
    dsimp only
    split_ifs
    · exact modeOk_withoutFramebuffer
    · exact ⟨(clampTextRows_spec _).1, (clampTextRows_spec _).2, (clampTextCols_spec _).1,
        (clampTextCols_spec _).2, hpitch, hmemory⟩

/-- The console once it is cleared, and then used. -/
theorem console_mirrors (h : ∀ i ∈ info, i.Good) (s₀ : Screen) (ops : List TtyOp) :
    ∃ t', (TtyOp.clear :: ops).foldlM TtyOp.run ⟨Console.new info, s₀⟩ = some t' ∧
      Mirrors (Console.new info) s₀ t' (ops.foldl (TtyOp.on (Console.new info).cols) .empty) ∧
        t'.screen.serial = s₀.serial ++ sentAll (Console.new info).cols .empty ops := by
  obtain ⟨t₁, hclear, h₁, hserial₁⟩ := @clear_mirrors _ ⟨Console.new info, s₀⟩ (modeOk_new h) (mode_new info)
  obtain ⟨t', hrun, h', hserial⟩ := run_mirrors (modeOk_new h) h₁ ops
  refine ⟨t', ?_, h', by rw [hserial, hserial₁]⟩
  rw [List.foldlM_cons, TtyOp.run, hclear]
  exact hrun

end Run

/-- A framebuffer of 64 by 48 pixels. -/
def smallInfo : BootInfo := ⟨4096, 12288, 64, 48, 64, 1⟩

theorem good_smallInfo : ∀ i ∈ some smallInfo, i.Good := by
  intro i hi
  cases hi
  exact ⟨by decide, by decide⟩

def blankScreen : Screen := ⟨fun _ => 0, fun _ => 0xFFFFFFFF, []⟩

/-- Three lines, the second of which is too long, and a symbol erased again. -/
def greetOps : List TtyOp :=
  [.write 104, .write 105, .newLine, .write 97, .write 98, .write 99, .write 100, .write 101, .write 102,
    .write 103, .write 104, .write 105, .backspace, .write 10]

/-- A symbol that has a glyph, letters in lower case. -/
def plain (byte : UInt8) : Option UInt8 :=
  (glyphs.find? fun entry => entry.1.contains byte).map fun entry => entry.1.headD 0

/-- One row of a glyph, read off the pixels of a cell. -/
def readRow (pixel : ℕ → ℕ → UInt32) (row col gy : ℕ) : UInt8 :=
  (List.range 5).foldl (fun bits gx =>
    if pixel (col * fontWidth + 1 + gx) (row * fontHeight + 2 + gy * 2) = fbForeground then
      bits ||| 1 <<< UInt8.ofNat (4 - gx)
    else bits) 0

/-- The symbol in a cell. -/
def readByte (pixel : ℕ → ℕ → UInt32) (row col : ℕ) : Option UInt8 :=
  (glyphs.find? fun entry => entry.2 == (List.range 7).map (readRow pixel row col)).map
    fun entry => entry.1.headD 0

section Read

/-- No two glyphs are the same. -/
theorem nodup_glyphs : (glyphs.map Prod.snd).Nodup := by decide +kernel

theorem unknown_notMem_glyphs : [0x1F, 0x11, 0x02, 0x04, 0x04, 0, 0x04] ∉ glyphs.map Prod.snd := by
  decide +kernel

/-- Seven rows of five bits. -/
def hasShape (rows : List UInt8) : Bool := rows.length == 7 && rows.all (· < 32)

theorem hasShape_iff {rows : List UInt8} :
    hasShape rows = true ↔ rows.length = 7 ∧ ∀ bits ∈ rows, bits < 32 := by
  simp [hasShape]

/-- Every glyph has seven rows of five bits. -/
theorem glyph_shape (byte : UInt8) : (glyph byte).length = 7 ∧ ∀ bits ∈ glyph byte, bits < 32 := by
  have hall : (glyphs.all fun entry => hasShape entry.2) = true := by decide +kernel
  rw [← hasShape_iff]
  unfold glyph
  cases hfind : glyphs.find? fun entry => entry.1.contains byte with
  | none => decide
  | some entry => exact List.all_eq_true.mp hall entry (List.mem_of_find?_eq_some hfind)

/-- A glyph is found again by its rows. -/
theorem find_glyph (byte : UInt8) :
    ((glyphs.find? fun entry => entry.2 == glyph byte).map fun entry => entry.1.headD 0) = plain byte := by
  unfold glyph plain
  cases hfind : glyphs.find? fun entry => entry.1.contains byte with
  | none =>
    dsimp only
    rw [List.find?_eq_none.mpr fun entry he hsame => ?_]
    exact unknown_notMem_glyphs (List.mem_map.mpr ⟨entry, he, beq_iff_eq.mp hsame⟩)
  | some entry =>
    dsimp only
    have hmem := List.mem_of_find?_eq_some hfind
    cases hagain : glyphs.find? fun e => e.2 == entry.2 with
    | none => exact absurd (List.find?_eq_none.mp hagain entry hmem) (by simp)
    | some other =>
      have hsame : other.2 = entry.2 := by simpa using List.find?_some hagain
      rw [List.inj_on_of_nodup_map nodup_glyphs (List.mem_of_find?_eq_some hagain) hmem hsame]

/-- Five bits, put together again. -/
theorem bits_eq {bits : UInt8} (h : bits < 32) : (List.range 5).foldl (fun acc gx =>
    if Console.bitSet bits gx = true then acc ||| 1 <<< UInt8.ofNat (4 - gx) else acc) 0 = bits := by
  have hall : ∀ n : Fin 32, (List.range 5).foldl (fun acc gx =>
      if Console.bitSet (UInt8.ofNat n) gx = true then acc ||| 1 <<< UInt8.ofNat (4 - gx) else acc) 0 =
        UInt8.ofNat n := by decide
  have hlt : bits.toNat < 32 := h
  have := hall ⟨bits.toNat, hlt⟩
  rwa [UInt8.ofNat_toNat] at this

/-- A cell with the pixels of a symbol is read as that symbol. -/
theorem readByte_eq {pixel : ℕ → ℕ → UInt32} {row col : ℕ} {byte : UInt8}
    (h : ∀ px < fontWidth, ∀ py < fontHeight,
      pixel (col * fontWidth + px) (row * fontHeight + py) = glyphPixel byte px py) :
    readByte pixel row col = plain byte := by
  obtain ⟨hlen, hbits⟩ := glyph_shape byte
  have hrow (gy : ℕ) (hgy : gy < 7) : readRow pixel row col gy = (glyph byte).getD gy 0 := by
    have hlt : (glyph byte).getD gy 0 < 32 := by
      rw [List.getD_eq_getElem _ _ (hlen ▸ hgy)]
      exact hbits _ (List.getElem_mem _)
    rw [← bits_eq hlt, readRow]
    refine List.foldl_ext _ _ _ fun acc gx hgx => ?_
    rw [List.mem_range] at hgx
    rw [Nat.add_assoc, Nat.add_assoc,
      h (1 + gx) (by simp only [fontWidth]; omega) (2 + gy * 2) (by simp only [fontHeight]; omega),
      glyphPixel]
    have hy : (2 + gy * 2 - 2) / 2 = gy := by omega
    have hx : 1 + gx - 1 = gx := by omega
    rw [hy, hx]
    refine if_congr ?_ rfl rfl
    split_ifs with hset
    · exact iff_of_true rfl hset.2.2.2
    · exact iff_of_false (by decide) fun hbit => hset ⟨by omega, by omega, by omega, hbit⟩
  have hread : (List.range 7).map (readRow pixel row col) = glyph byte := by
    refine List.ext_getElem (by rw [List.length_map, List.length_range, hlen]) fun gy h₁ h₂ => ?_
    rw [List.getElem_map, List.getElem_range, hrow gy (hlen ▸ h₂), List.getD_eq_getElem _ _ h₂]
  rw [readByte, hread, find_glyph]

/-- The pixels of a cell that is drawn are visible. -/
theorem visible_of_draws {m : Console} (hm : ModeOk m)
    (hsize : m.framebufferHeight * m.pixelsPerScanLine * 4 ≤ m.framebufferSize) {row col px py : ℕ}
    (hd : m.Draws row col) (hx : px < fontWidth) (hy : py < fontHeight) :
    Visible m (col * fontWidth + px) (row * fontHeight + py) := by
  obtain ⟨hbase, hw, hh⟩ := hd
  have hx' : col * fontWidth + px < m.framebufferWidth := by omega
  have hy' : row * fontHeight + py < m.framebufferHeight := by omega
  refine ⟨hbase, hx', hy', ?_⟩
  rw [hm.offset_eq hx' hy']
  have hpitch := hm.pitch
  have hmul : (row * fontHeight + py + 1) * m.pixelsPerScanLine ≤
      m.framebufferHeight * m.pixelsPerScanLine := Nat.mul_le_mul_right _ hy'
  rw [Nat.add_mul, one_mul] at hmul
  omega

/-- **The text can be read off the framebuffer**, in every cell that is drawn. -/
theorem console_readable {info : Option BootInfo} (h : ∀ i ∈ info, i.Good)
    (hsize : ∀ i ∈ info, i.verticalResolution * i.pixelsPerScanLine * 4 ≤ i.framebufferSize)
    (s₀ : Screen) (ops : List TtyOp) :
    ∃ t', (TtyOp.clear :: ops).foldlM TtyOp.run ⟨Console.new info, s₀⟩ = some t' ∧
      ∀ r < (Console.new info).rows, ∀ c < (Console.new info).cols, (Console.new info).Draws r c →
        readByte (fun x y => t'.screen.frame ((Console.new info).offset x y)) r c =
          plain ((ops.foldl (TtyOp.on (Console.new info).cols) .empty).cell
            (Console.new info).rows space r c) := by
  have hm := modeOk_new h
  have hsize' : (Console.new info).framebufferHeight * (Console.new info).pixelsPerScanLine * 4 ≤
      (Console.new info).framebufferSize := by
    cases info with
    | none => decide
    | some info =>
      have := hsize info rfl
      unfold Console.new
      dsimp only
      split_ifs
      · decide
      · exact this
  obtain ⟨t', hrun, hmirrors, -⟩ := console_mirrors h s₀ ops
  refine ⟨t', hrun, fun r hr c hc hd => ?_⟩
  rw [← hmirrors.cell r hr c hc]
  refine readByte_eq fun px hpx py hpy => ?_
  have hv := visible_of_draws hm hsize' hd hpx hpy
  simp only [fontWidth, fontHeight] at hpx hpy hv ⊢
  have hy : (r * 16 + py) / 16 = r := by omega
  have hx : (c * 8 + px) / 8 = c := by omega
  have hdrawn := hmirrors.shows.drawn _ _ hv
  simp only [fontWidth, fontHeight, hy, hx] at hdrawn
  rw [hdrawn hd ⟨hr, hc⟩]
  congr 1 <;> omega

end Read

theorem console_readable_greet :
    ∃ t', (TtyOp.clear :: greetOps).foldlM TtyOp.run ⟨Console.new (some smallInfo), blankScreen⟩ = some t' ∧
      ∀ r < (Console.new (some smallInfo)).rows, ∀ c < (Console.new (some smallInfo)).cols,
        (Console.new (some smallInfo)).Draws r c →
          readByte (fun x y => t'.screen.frame ((Console.new (some smallInfo)).offset x y)) r c =
            plain ((greetOps.foldl (TtyOp.on (Console.new (some smallInfo)).cols) .empty).cell
              (Console.new (some smallInfo)).rows space r c) :=
  console_readable good_smallInfo (fun i hi => by cases hi; decide) blankScreen greetOps

end Rymos
