import Mathlib.Tactic
import Rymos.Base.Loops
import Rymos.Pfs.Header

/-!
# The console

The kernel's `Console`: cells of text, copied to the VGA text buffer and drawn into the framebuffer.

* `Console`, `Screen`: the text, and the memory and the serial line it goes to.
* `drawFramebufferCell`, `writeCell`: one cell. `newLine`, `writeByte`, `backspace`, `clear`: the
  operations; a cell outside of the array is a panic.
* `writeCell_spec`: what a write of a cell changes.
-/

namespace Rymos

open ByteBuf

abbrev vgaWidth : ℕ := 80

abbrev vgaHeight : ℕ := 25

abbrev vgaColor : UInt8 := 0x0A

abbrev textColsMax : ℕ := 128

abbrev textRowsMax : ℕ := 48

abbrev fontWidth : ℕ := 8

abbrev fontHeight : ℕ := 16

abbrev fbForeground : UInt32 := 0x0000FF00

abbrev fbBackground : UInt32 := 0

/-- What the bootloader says about the framebuffer. -/
structure BootInfo where
  framebufferBase : ℕ
  framebufferSize : ℕ
  horizontalResolution : ℕ
  verticalResolution : ℕ
  pixelsPerScanLine : ℕ
  pixelFormat : ℕ

structure Console where
  row : ℕ
  col : ℕ
  rows : ℕ
  cols : ℕ
  cells : Buf (textColsMax * textRowsMax)
  framebufferBase : ℕ
  framebufferSize : ℕ
  framebufferWidth : ℕ
  framebufferHeight : ℕ
  pixelsPerScanLine : ℕ
  pixelFormat : ℕ

/-- The bytes from `VGA_BUFFER` on, the pixels by their byte offset from the base of the framebuffer,
and what has been sent over the serial line. -/
structure Screen where
  vga : ℕ → UInt8
  frame : ℕ → UInt32
  serial : List UInt8

structure Tty where
  console : Console
  screen : Screen

/-! ## Glyphs -/

/-- Rows of five pixels, for the bytes of each string. -/
def glyphs : List (List UInt8 × List UInt8) :=
  [(ascii "0", [0x0E, 0x11, 0x13, 0x15, 0x19, 0x11, 0x0E]),
    (ascii "1", [0x04, 0x0C, 0x04, 0x04, 0x04, 0x04, 0x0E]),
    (ascii "2", [0x0E, 0x11, 0x01, 0x02, 0x04, 0x08, 0x1F]),
    (ascii "3", [0x1E, 0x01, 0x01, 0x0E, 0x01, 0x01, 0x1E]),
    (ascii "4", [0x02, 0x06, 0x0A, 0x12, 0x1F, 0x02, 0x02]),
    (ascii "5", [0x1F, 0x10, 0x10, 0x1E, 0x01, 0x01, 0x1E]),
    (ascii "6", [0x06, 0x08, 0x10, 0x1E, 0x11, 0x11, 0x0E]),
    (ascii "7", [0x1F, 0x01, 0x02, 0x04, 0x08, 0x08, 0x08]),
    (ascii "8", [0x0E, 0x11, 0x11, 0x0E, 0x11, 0x11, 0x0E]),
    (ascii "9", [0x0E, 0x11, 0x11, 0x0F, 0x01, 0x02, 0x0C]),
    (ascii "aA", [0x0E, 0x11, 0x11, 0x1F, 0x11, 0x11, 0x11]),
    (ascii "bB", [0x1E, 0x11, 0x11, 0x1E, 0x11, 0x11, 0x1E]),
    (ascii "cC", [0x0E, 0x11, 0x10, 0x10, 0x10, 0x11, 0x0E]),
    (ascii "dD", [0x1E, 0x11, 0x11, 0x11, 0x11, 0x11, 0x1E]),
    (ascii "eE", [0x1F, 0x10, 0x10, 0x1E, 0x10, 0x10, 0x1F]),
    (ascii "fF", [0x1F, 0x10, 0x10, 0x1E, 0x10, 0x10, 0x10]),
    (ascii "gG", [0x0E, 0x11, 0x10, 0x17, 0x11, 0x11, 0x0F]),
    (ascii "hH", [0x11, 0x11, 0x11, 0x1F, 0x11, 0x11, 0x11]),
    (ascii "iI", [0x0E, 0x04, 0x04, 0x04, 0x04, 0x04, 0x0E]),
    (ascii "jJ", [0x07, 0x02, 0x02, 0x02, 0x12, 0x12, 0x0C]),
    (ascii "kK", [0x11, 0x12, 0x14, 0x18, 0x14, 0x12, 0x11]),
    (ascii "lL", [0x10, 0x10, 0x10, 0x10, 0x10, 0x10, 0x1F]),
    (ascii "mM", [0x11, 0x1B, 0x15, 0x15, 0x11, 0x11, 0x11]),
    (ascii "nN", [0x11, 0x19, 0x15, 0x13, 0x11, 0x11, 0x11]),
    (ascii "oO", [0x0E, 0x11, 0x11, 0x11, 0x11, 0x11, 0x0E]),
    (ascii "pP", [0x1E, 0x11, 0x11, 0x1E, 0x10, 0x10, 0x10]),
    (ascii "qQ", [0x0E, 0x11, 0x11, 0x11, 0x15, 0x12, 0x0D]),
    (ascii "rR", [0x1E, 0x11, 0x11, 0x1E, 0x14, 0x12, 0x11]),
    (ascii "sS", [0x0F, 0x10, 0x10, 0x0E, 0x01, 0x01, 0x1E]),
    (ascii "tT", [0x1F, 0x04, 0x04, 0x04, 0x04, 0x04, 0x04]),
    (ascii "uU", [0x11, 0x11, 0x11, 0x11, 0x11, 0x11, 0x0E]),
    (ascii "vV", [0x11, 0x11, 0x11, 0x11, 0x0A, 0x0A, 0x04]),
    (ascii "wW", [0x11, 0x11, 0x11, 0x15, 0x15, 0x1B, 0x11]),
    (ascii "xX", [0x11, 0x11, 0x0A, 0x04, 0x0A, 0x11, 0x11]),
    (ascii "yY", [0x11, 0x11, 0x0A, 0x04, 0x04, 0x04, 0x04]),
    (ascii "zZ", [0x1F, 0x01, 0x02, 0x04, 0x08, 0x10, 0x1F]),
    (ascii " ", [0, 0, 0, 0, 0, 0, 0]),
    (ascii ".", [0, 0, 0, 0, 0, 0x0C, 0x0C]),
    (ascii ",", [0, 0, 0, 0, 0, 0x0C, 0x08]),
    (ascii ":", [0, 0x0C, 0x0C, 0, 0x0C, 0x0C, 0]),
    (ascii ";", [0, 0x0C, 0x0C, 0, 0x0C, 0x08, 0x10]),
    (ascii "/", [0x01, 0x01, 0x02, 0x04, 0x08, 0x10, 0x10]),
    (ascii "\\", [0x10, 0x10, 0x08, 0x04, 0x02, 0x01, 0x01]),
    (ascii "-", [0, 0, 0, 0x1F, 0, 0, 0]),
    (ascii "_", [0, 0, 0, 0, 0, 0, 0x1F]),
    (ascii "=", [0, 0x1F, 0, 0x1F, 0, 0, 0]),
    (ascii "+", [0, 0x04, 0x04, 0x1F, 0x04, 0x04, 0]),
    (ascii "$", [0x04, 0x0F, 0x14, 0x0E, 0x05, 0x1E, 0x04]),
    (ascii ">", [0x10, 0x08, 0x04, 0x02, 0x04, 0x08, 0x10]),
    (ascii "<", [0x01, 0x02, 0x04, 0x08, 0x04, 0x02, 0x01]),
    (ascii "[", [0x0E, 0x08, 0x08, 0x08, 0x08, 0x08, 0x0E]),
    (ascii "]", [0x0E, 0x02, 0x02, 0x02, 0x02, 0x02, 0x0E]),
    (ascii "(", [0x02, 0x04, 0x08, 0x08, 0x08, 0x04, 0x02]),
    (ascii ")", [0x08, 0x04, 0x02, 0x02, 0x02, 0x04, 0x08]),
    (ascii "!", [0x04, 0x04, 0x04, 0x04, 0x04, 0, 0x04]),
    (ascii "?", [0x0E, 0x11, 0x01, 0x02, 0x04, 0, 0x04]),
    (ascii "'", [0x04, 0x04, 0x08, 0, 0, 0, 0]),
    (ascii "\"", [0x0A, 0x0A, 0, 0, 0, 0, 0])]

def glyph (byte : UInt8) : List UInt8 :=
  match glyphs.find? fun entry => entry.1.contains byte with
  | some entry => entry.2
  | none => [0x1F, 0x11, 0x02, 0x04, 0x04, 0, 0x04]

/-! ## The console -/

def clampTextCols (value : ℕ) : ℕ :=
  if value = 0 then vgaWidth else if value > textColsMax then textColsMax else value

def clampTextRows (value : ℕ) : ℕ :=
  if value = 0 then vgaHeight else if value > textRowsMax then textRowsMax else value

/-- `b' '`. -/
abbrev space : UInt8 := 32

def blankCells : Buf (textColsMax * textRowsMax) := ⟨fun _ => space⟩

def Console.withoutFramebuffer : Console :=
  { row := 0, col := 0, rows := vgaHeight, cols := vgaWidth, cells := blankCells,
    framebufferBase := 0, framebufferSize := 0, framebufferWidth := 0, framebufferHeight := 0,
    pixelsPerScanLine := 0, pixelFormat := 0 }

/-- `Console::new`, on a pointer that may be null. -/
def Console.new : Option BootInfo → Console
  | none => .withoutFramebuffer
  | some info =>
    if info.framebufferBase = 0 ∨ info.horizontalResolution = 0 ∨ info.verticalResolution = 0 ∨
        info.pixelsPerScanLine = 0 then .withoutFramebuffer
    else
      { row := 0, col := 0, rows := clampTextRows (info.verticalResolution / fontHeight),
        cols := clampTextCols (info.horizontalResolution / fontWidth), cells := blankCells,
        framebufferBase := info.framebufferBase, framebufferSize := info.framebufferSize,
        framebufferWidth := info.horizontalResolution, framebufferHeight := info.verticalResolution,
        pixelsPerScanLine := info.pixelsPerScanLine, pixelFormat := info.pixelFormat }

def serialWriteByte (byte : UInt8) (s : Screen) : Screen := { s with serial := s.serial ++ [byte] }

namespace Console

variable (c : Console)

/-- `4 * index`, with the index of a pixel. -/
def offset (x y : ℕ) : ℕ := usize (usize (usize (y * c.pixelsPerScanLine) + x) * 4)

def writePixel (x y : ℕ) (color : UInt32) (s : Screen) : Screen :=
  if x ≥ c.framebufferWidth ∨ y ≥ c.framebufferHeight then s
  else if c.offset x y ≥ c.framebufferSize then s
  else { s with frame := Function.update s.frame (c.offset x y) color }

/-- The bit of column `x` in a row of a glyph. -/
def bitSet (rowBits : UInt8) (x : ℕ) : Bool := rowBits &&& (1 <<< UInt8.ofNat (4 - x)) != 0

/-- The cell is painted over. -/
def drawBackground (x y : ℕ) (s : Screen) : Screen :=
  (List.range fontHeight).foldl (fun s py =>
    (List.range fontWidth).foldl (fun s px => c.writePixel (x + px) (y + py) fbBackground s) s) s

/-- The glyph is drawn into it, each of its rows twice. -/
def drawGlyph (x y : ℕ) (byte : UInt8) (s : Screen) : Screen :=
  (List.range 7).foldl (fun s glyphY =>
    (List.range 5).foldl (fun s glyphX =>
      if bitSet ((glyph byte).getD glyphY 0) glyphX then
        c.writePixel (x + 1 + glyphX) (y + 2 + glyphY * 2 + 1) fbForeground
          (c.writePixel (x + 1 + glyphX) (y + 2 + glyphY * 2) fbForeground s)
      else s) s) s

def drawFramebufferCell (row col : ℕ) (byte : UInt8) (s : Screen) : Screen :=
  if c.framebufferBase = 0 then s
  else if col * fontWidth + fontWidth ≥ c.framebufferWidth ∨
      row * fontHeight + fontHeight ≥ c.framebufferHeight then s
  else c.drawGlyph (col * fontWidth) (row * fontHeight) byte
    (c.drawBackground (col * fontWidth) (row * fontHeight) s)

def clearFramebuffer (s : Screen) : Screen :=
  if c.framebufferBase = 0 then s
  else (List.range (c.framebufferSize / 4)).foldl
    (fun s index => { s with frame := Function.update s.frame (index * 4) fbBackground }) s

end Console

namespace Tty

variable (t : Tty)

def readCell (row col : ℕ) : Option UInt8 :=
  if row * textColsMax + col < textColsMax * textRowsMax then
    some (t.console.cells.byte (row * textColsMax + col))
  else none

/-- The VGA text buffer has a byte and its colour for each cell. -/
def writeVga (row col : ℕ) (byte : UInt8) (s : Screen) : Screen :=
  if row < vgaHeight ∧ col < vgaWidth then
    let offset := (row * vgaWidth + col) * 2
    { s with vga := Function.update (Function.update s.vga offset byte) (offset + 1) vgaColor }
  else s

def writeCell (row col : ℕ) (byte : UInt8) : Option Tty :=
  if row * textColsMax + col < textColsMax * textRowsMax then
    some
      { console := { t.console with cells := t.console.cells.put (row * textColsMax + col) [byte] }
        screen := t.console.drawFramebufferCell row col byte (writeVga row col byte t.screen) }
  else none

def scroll : Option Tty :=
  ((List.range (t.console.rows - 1)).foldlM (fun (t : Tty) row =>
    (List.range t.console.cols).foldlM (fun (t : Tty) col =>
      (t.readCell (row + 1) col).bind fun byte => t.writeCell row col byte) t) t).bind fun t =>
  (List.range t.console.cols).foldlM (fun (t : Tty) col => t.writeCell (t.console.rows - 1) col space) t

def setCursor (row col : ℕ) : Tty := { t with console := { t.console with row := row, col := col } }

def send (bytes : List UInt8) : Tty :=
  { t with screen := bytes.foldl (fun s byte => serialWriteByte byte s) t.screen }

def newLine : Option Tty :=
  let t := t.setCursor t.console.row 0
  let t := if t.console.row + 1 ≥ t.console.rows then t.scroll
    else some (t.setCursor (t.console.row + 1) 0)
  t.map fun t => t.send [13, 10]

/-- `b'\r'` is `13`, and `b'\n'` is `10`. -/
def writeByte (byte : UInt8) : Option Tty :=
  if byte = 10 then t.newLine
  else if byte = 13 then some t
  else
    (if t.console.col ≥ t.console.cols then t.newLine else some t).bind fun t =>
    (t.writeCell t.console.row t.console.col byte).map fun t =>
    (t.setCursor t.console.row (t.console.col + 1)).send [byte]

def writeBytes (bytes : List UInt8) : Option Tty := bytes.foldlM writeByte t

def writeLine (bytes : List UInt8) : Option Tty := (t.writeBytes bytes).bind newLine

def backspace : Option Tty :=
  if t.console.col = 0 then some t
  else
    let t := t.setCursor t.console.row (t.console.col - 1)
    (t.writeCell t.console.row t.console.col space).map fun t => t.send [8, space, 8]

def clear : Option Tty :=
  let t := { t with screen := t.console.clearFramebuffer t.screen }
  ((List.range t.console.rows).foldlM (fun (t : Tty) row =>
    (List.range t.console.cols).foldlM (fun (t : Tty) col => t.writeCell row col space) t) t).map fun t =>
  t.setCursor 0 0

end Tty

end Rymos
