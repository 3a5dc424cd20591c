import Mathlib.Tactic
import Rymos.Pfs.Header

/-!
# Paths

The names of RYMFS entries are full paths, as byte strings.

* `validPfsPath`, `findLastByte`, `startsWith`: the tests the kernel makes on a name.
* `pfsComponents`, `pfsPushComponent`, `pfsPopComponent`, `normalizePfsPath`, `pfsResolvePath`: from
  a path and the working directory to a name.
* `pfsParent`, `pfsParent_spec`: the prefix of a name before its last `/`.
* **`validPfsPath_of_resolve`**: resolution returns valid names only.
-/

namespace Rymos

/-- `b'/'`. -/
abbrev slash : UInt8 := 47

/-- `b"pfs:"`. -/
def pfsPrefix : List UInt8 := [112, 102, 115, 58]

/-- `is_ascii_alphanumeric` or one of `.`, `_`, `-`. -/
def validPfsByte (byte : UInt8) : Bool :=
  (48 ≤ byte && byte ≤ 57) || (65 ≤ byte && byte ≤ 90) || (97 ≤ byte && byte ≤ 122) ||
    byte == 46 || byte == 95 || byte == 45

/-- The loop of `valid_pfs_path`. -/
def validPfsLoop (lastWasSlash : Bool) : List UInt8 → Bool
  | [] => !lastWasSlash
  | byte :: bytes =>
    if byte == slash then
      if lastWasSlash then false else validPfsLoop true bytes
    else if validPfsByte byte then validPfsLoop false bytes
    else false

def validPfsPath (name : List UInt8) : Bool :=
  if name.isEmpty || name.length > pfsNameMax then false else validPfsLoop false name

def findLastLoop (bytes : List UInt8) (needle : UInt8) : ℕ → Option ℕ
  | 0 => none
  | index + 1 =>
    if bytes.getD index 0 == needle then some index else findLastLoop bytes needle index

def findLastByte (bytes : List UInt8) (needle : UInt8) : Option ℕ :=
  findLastLoop bytes needle bytes.length

def startsWith (bytes pre : List UInt8) : Bool := pre.isPrefixOf bytes

def validPfsComponent (component : List UInt8) : Bool :=
  if component.isEmpty then false else component.all validPfsByte

/-- `PfsComponents::next`, on the bytes not yet consumed. -/
def pfsNext (bytes : List UInt8) : Option (List UInt8 × List UInt8) :=
  let bytes := bytes.dropWhile (· == slash)
  if bytes.isEmpty then none
  else some (bytes.takeWhile (· != slash), bytes.dropWhile (· != slash))

/-- The components an iterator over `bytes` yields; each consumes a byte at least. -/
def componentsLoop : ℕ → List UInt8 → List (List UInt8)
  | 0, _ => []
  | fuel + 1, bytes =>
    match pfsNext bytes with
    | none => []
    | some (component, rest) => component :: componentsLoop fuel rest

def pfsComponents (bytes : List UInt8) : List (List UInt8) := componentsLoop bytes.length bytes

def pfsPushComponent (output component : List UInt8) : Option (List UInt8) :=
  if component.isEmpty || !validPfsComponent component then none
  else if output.length ≠ 0 && output.length ≥ pfsNameMax then none
  else
    let output := if output.length ≠ 0 then output ++ [slash] else output
    if output.length + component.length > pfsNameMax then none else some (output ++ component)

def pfsPopComponent (output : List UInt8) : List UInt8 :=
  match findLastByte output slash with
  | some index => output.take index
  | none => []

/-- One turn of the second loop of `normalize_pfs_path`. -/
def normalizeStep (output component : List UInt8) : Option (List UInt8) :=
  if component == [46] then some output
  else if component == [46, 46] then some (pfsPopComponent output)
  else pfsPushComponent output component

def normalizePfsPath (base path : List UInt8) : Option (List UInt8) :=
  let absolute := startsWith path [slash]
  (if absolute then some [] else (pfsComponents base).foldlM pfsPushComponent []).bind fun output =>
  let relative := if absolute then path.drop 1 else path
  ((pfsComponents relative).foldlM normalizeStep output).bind fun output =>
  if output.length == 0 || !validPfsPath output then none else some output

def appCwdIsPfs (cwd : List UInt8) : Bool := cwd.length ≥ 4 && cwd.take 4 == pfsPrefix

def appCwdPfsName (cwd : List UInt8) : List UInt8 :=
  if cwd.length ≤ 4 then [] else (cwd.drop 4).take (min (cwd.length - 4) pfsNameMax)

/-- `cwd` is the working directory of the calling process. -/
def pfsResolvePath (cwd path : List UInt8) : Option (List UInt8) :=
  if startsWith path pfsPrefix then normalizePfsPath [] (path.drop 4)
  else if appCwdIsPfs cwd then normalizePfsPath (appCwdPfsName cwd) path
  else none

/-! ## Valid names -/

theorem validPfsPath_of_normalize {base path name : List UInt8}
    (h : normalizePfsPath base path = some name) : validPfsPath name = true := by
  simp only [normalizePfsPath] at h
  obtain ⟨output, -, h⟩ := Option.bind_eq_some_iff.mp h
  obtain ⟨output', -, h⟩ := Option.bind_eq_some_iff.mp h
  split_ifs at h with hc
  cases h
  rw [Bool.or_eq_true, not_or, Bool.not_eq_true, Bool.not_eq_true, Bool.not_eq_false'] at hc
  exact hc.2

/-- **A resolved path is a valid name.** -/
theorem validPfsPath_of_resolve {cwd path name : List UInt8}
    (h : pfsResolvePath cwd path = some name) : validPfsPath name = true := by
  simp only [pfsResolvePath] at h
  split_ifs at h
  · exact validPfsPath_of_normalize h
  · exact validPfsPath_of_normalize h

theorem length_of_validPfsPath {name : List UInt8} (h : validPfsPath name = true) :
    1 ≤ name.length ∧ name.length ≤ 96 := by
  simp only [validPfsPath] at h
  split_ifs at h with hc
  simp only [Bool.or_eq_true, List.isEmpty_iff, decide_eq_true_eq, not_or, not_lt] at hc
  exact ⟨List.length_pos_of_ne_nil hc.1, hc.2⟩

/-! ## The parent of a name -/

theorem findLastLoop_eq_some {bytes : List UInt8} {needle : UInt8} {n k : ℕ}
    (h : findLastLoop bytes needle n = some k) : k < n ∧ bytes.getD k 0 = needle := by
  induction n with
  | zero => simp [findLastLoop] at h
  | succ n ih =>
    simp only [findLastLoop] at h
    split_ifs at h with hc
    · cases h
      exact ⟨by omega, beq_iff_eq.mp hc⟩
    · exact ⟨by have := (ih h).1; omega, (ih h).2⟩

/-- The prefix of a name before its last `/`, if it has one. -/
def pfsParent (name : List UInt8) : Option (List UInt8) :=
  (findLastByte name slash).map fun k => name.take k

/-- **A name lies below its parent.** -/
theorem pfsParent_spec {name dir : List UInt8} (h : pfsParent name = some dir) :
    dir.length < name.length ∧ startsWith name dir = true ∧ name.getD dir.length 0 = slash := by
  obtain ⟨k, hk, rfl⟩ := Option.map_eq_some_iff.mp h
  obtain ⟨hlt, hs⟩ := findLastLoop_eq_some hk
  have hlen : (name.take k).length = k := by rw [List.length_take]; omega
  rw [hlen]
  refine ⟨hlt, ?_, hs⟩
  rw [startsWith, List.isPrefixOf_iff_prefix]
  exact List.take_prefix k name

end Rymos
