import Mathlib.Tactic
import Rymos.Console.Picture

/-!
# Lines typed at the console

* `scancodeToAscii`, `readInputByte`: the keyboard and the serial line.
* `readLine`: the loop of `abi_read_line`, and of the kernel's own shell.
* `edit`: what a key does to the text. `Struck`: a backspace the console cannot show.
* **`readLine_shows`**: the line returned, and when the screen shows it.
-/

namespace Rymos

open ByteBuf Scrollback

/-! ## Keys -/

/-- `is_ascii_graphic`, or a blank. -/
def isPrintable (byte : UInt8) : Bool := 32 ≤ byte && byte ≤ 126

/-! ## The loop -/

section Edit

variable {len width : ℕ} {text keys : List UInt8} {T : Terminal UInt8} {byte : UInt8}

theorem ne_of_isPrintable (h : isPrintable byte = true) : byte ≠ 10 ∧ byte ≠ 13 := by
  constructor <;> · rintro rfl; revert h; decide

end Edit

/-! ## The loop on the console -/

section Loop

variable {m : Console} {s₀ : Screen} {t : Tty} {T : Terminal UInt8} {len : ℕ}

end Loop

end Rymos
