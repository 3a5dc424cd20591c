import Mathlib.Tactic
import Rymos.Path.Calls
import Rymos.Stdish.Open

/-!
# `stdish::fs`

The library's calls on whole files, as a program makes them.

* `Caller.openMode`, `Caller.fileWrite`: `File::open_mode` and `File::write`.
* `readToEnd`, `writeAll`: the loops; `fsRead`, `fsWrite`, `fsAppend`, `removeFile`, `fsRename`,
  `createDir`, `fsMetadata`, `setCurrentDir`: the calls.
* `FsOp`, **`FsOp.run`**: a call and what it returns.
* **`FsOp.meaning`**: what it is for, on the map of names and the working directory.
-/

namespace Rymos

open ByteBuf FileTree

/-! ## The library -/

/-- A value, if the call returned one. -/
def Reply.toOption {α : Type} : Reply α → Option α
  | .done value => some value
  | _ => none

namespace Caller

/-- `File::open_mode`: the descriptor of the file. -/
def openMode (path : List UInt8) (flags : UInt32) (t : ℕ → ℕ) (c : Caller) : Caller × Option ℤ :=
  let r := abiOpen c.io.sys c.cwd path flags t
  let (c, reply) := (c.setSys r.1).answer r.2
  (c, reply.bind fun fd => if fd < 0 then none else some fd)

/-- `File::write`. -/
def fileWrite (process : ℕ) (fd : ℤ) (bytes : List UInt8) (t : ℕ → ℕ) (c : Caller) :
    Option (Caller × Option ℕ) :=
  (writeFd c.io process fd bytes t).map fun r => ({ c with io := r.1 }, r.2.toOption)

end Caller

section Calls

variable (process : ℕ)

/-- `read_to_end`, for at most `fuel` turns. -/
def readToEnd (fd : ℤ) : ℕ → List UInt8 → Caller → Option (Caller × Except ℕ (List UInt8))
  | 0, _, _ => none
  | fuel + 1, data, c =>
    match c.fdRead process fd 256 with
    | (c, none) => some (c, .error c.lastError)
    | (c, some chunk) =>
      if chunk.isEmpty then some (c, .ok data) else readToEnd fd fuel (data ++ chunk) c

/-- `write_all`; `t` gives the readings of the clock for each write, by the bytes left. -/
def writeAll (fd : ℤ) (t : ℕ → ℕ → ℕ) (data : List UInt8) (c : Caller) :
    Option (Caller × Except ℕ Unit) :=
  if _hd : data = [] then some (c, .ok ())
  else
    (c.fileWrite process fd data (t data.length)).bind fun r =>
    match r.2 with
    | none => some (r.1, .error r.1.lastError)
    | some written =>
      if _hw : written = 0 ∨ written > data.length then some (r.1, .error errIo)
      else writeAll fd t (data.drop written) r.1
termination_by data.length
decreasing_by
  have := List.length_pos_of_ne_nil _hd
  rw [List.length_drop]
  omega

/-- Turns enough to come to the end of the file: each of them but the last reads a byte. -/
def readTurns (fd : ℤ) (c : Caller) : ℕ := (c.io.sys.fds (fd - appFdBase).toNat).len + 1

/-- `fs::read`; the file is closed when it is dropped. -/
def fsRead (path : List UInt8) (t : ℕ → ℕ) (c : Caller) :
    Option (Caller × Except ℕ (List UInt8)) :=
  match c.openMode path fdRead t with
  | (c, none) => some (c, .error c.lastError)
  | (c, some fd) =>
    (readToEnd process fd (readTurns fd c) [] c).map fun r => (r.1.closeFd process fd, r.2)

/-- `fs::write` and `fs::append`, which open the file in different modes. -/
def fsStore (flags : UInt32) (path data : List UInt8) (t : ℕ → ℕ → ℕ) (c : Caller) :
    Option (Caller × Except ℕ Unit) :=
  match c.openMode path flags (t 0) with
  | (c, none) => some (c, .error c.lastError)
  | (c, some fd) => (writeAll process fd t data c).map fun r => (r.1.closeFd process fd, r.2)

def createFlags : UInt32 := fdRead ||| fdWrite ||| fdCreate ||| fdTruncate

def appendFlags : UInt32 := fdWrite ||| fdCreate ||| fdAppend

def fsWrite (path data : List UInt8) (t : ℕ → ℕ → ℕ) (c : Caller) :
    Option (Caller × Except ℕ Unit) :=
  fsStore process createFlags path data t c

def fsAppend (path data : List UInt8) (t : ℕ → ℕ → ℕ) (c : Caller) :
    Option (Caller × Except ℕ Unit) :=
  fsStore process appendFlags path data t c

end Calls

/-- `Ok(())`, or `Error::last()`. -/
def orLast (r : Caller × Option ℕ) : Caller × Except ℕ Unit :=
  (r.1, if r.2 = some 0 then .ok () else .error r.1.lastError)

def removeFile (path : List UInt8) (c : Caller) : Caller × Except ℕ Unit :=
  let r := abiUnlink c.io.sys c.cwd path
  orLast ((c.setSys r.1).answer r.2)

def fsRename (source target : List UInt8) (t : ℕ → ℕ) (c : Caller) : Caller × Except ℕ Unit :=
  let r := abiRename c.io.sys c.cwd source target t
  orLast ((c.setSys r.1).answer r.2)

def createDir (path : List UInt8) (t : ℕ → ℕ) (c : Caller) : Caller × Except ℕ Unit :=
  let r := abiMkdir c.io.sys c.cwd path t
  orLast ((c.setSys r.1).answer r.2)

/-- `none` is a fault. -/
def fsMetadata (fs : BootFs) (path : List UInt8) (c : Caller) :
    Option (Caller × Except ℕ RymosStat) :=
  (abiStat fs c.io.sys.disk c.cwd path).map fun reply =>
    let (c, stat) := c.answer reply
    (c, match stat with
      | some stat => .ok stat
      | none => .error c.lastError)

/-- `none` is a panic. -/
def setCurrentDir (path : List UInt8) (c : Caller) : Option (Caller × Except ℕ Unit) :=
  (c.chdir path none).map fun r =>
    (r.1, match r.2 with
      | some () => .ok ()
      | none => .error r.1.lastError)

/-! ## A call -/

/-- What a call returns; of a directory `stat` says no more. -/
inductive FsValue where
  | unit
  | bytes (bytes : List UInt8)
  | dir
  | file (len : ℕ)
deriving DecidableEq

def RymosStat.value (stat : RymosStat) : FsValue :=
  if stat.kind = statKindDir then .dir else .file stat.size

/-- A call; `t` gives the readings of the clock it makes. -/
inductive FsOp where
  | read (path : List UInt8) (t : ℕ → ℕ)
  | write (path data : List UInt8) (t : ℕ → ℕ → ℕ)
  | append (path data : List UInt8) (t : ℕ → ℕ → ℕ)
  | removeFile (path : List UInt8)
  | rename (source target : List UInt8) (t : ℕ → ℕ)
  | createDir (path : List UInt8) (t : ℕ → ℕ)
  | metadata (path : List UInt8)
  | setCurrentDir (path : List UInt8)

/-- The same for every call. -/
def told {α : Type} (value : α → FsValue) (r : Caller × Except ℕ α) : Caller × Except ℕ FsValue :=
  (r.1, r.2.map value)

/-- The call of a process; `none` is a panic or a fault. -/
def FsOp.run (fs : BootFs) (process : ℕ) (c : Caller) : FsOp → Option (Caller × Except ℕ FsValue)
  | .read path t => (fsRead process path t c).map (told .bytes)
  | .write path data t => (fsWrite process path data t c).map (told fun _ => .unit)
  | .append path data t => (fsAppend process path data t c).map (told fun _ => .unit)
  | .removeFile path => some (told (fun _ => .unit) (Rymos.removeFile path c))
  | .rename source target t => some (told (fun _ => .unit) (fsRename source target t c))
  | .createDir path t => some (told (fun _ => .unit) (Rymos.createDir path t c))
  | .metadata path => (fsMetadata fs path c).map (told RymosStat.value)
  | .setCurrentDir path => (Rymos.setCurrentDir path c).map (told fun _ => .unit)

/-! ## What a call is for -/

/-- Names with what they stand for, and where the program is. -/
structure FsTree where
  map : NameMap
  cwd : List UInt8

/-- The map an operation makes, or its error. -/
def FsTree.put (T : FsTree) : Except ℕ NameMap → FsTree × Except ℕ FsValue
  | .error code => (T, .error code)
  | .ok M => ({ T with map := M }, .ok .unit)

/-- A file outside of RYMFS. -/
def bootRead (boot : List UInt8 → Option (List UInt8)) (path : List UInt8) : Except ℕ FsValue :=
  if path.length = 0 ∨ path.length > inputMax ∨ startsWith path pfsPrefix = true then .error errInval
  else
    match boot path with
    | none => .error errNoent
    | some data => .ok (.bytes data)

/-- `none` is a fault. -/
def bootStat (fs : BootFs) (path : List UInt8) : Option (Except ℕ FsValue) :=
  if path.length = 0 ∨ path.length > inputMax then some (.error errInval)
  else (fs.findEntry path).map fun entry =>
    match entry with
    | none => .error errNoent
    | some entry => .ok (BootFs.statOf entry).value

/-- The bytes of a file. -/
def contentOf (M : NameMap) (name : List UInt8) : List UInt8 :=
  match M name with
  | some (.file content) => content
  | _ => []

/-- A file is opened, and its bytes read. -/
noncomputable def FsTree.read (T : FsTree) (name : List UInt8) : Except ℕ FsValue :=
  (openFile T.map name fdRead).map fun M => .bytes (contentOf M name)

open Classical in
/-- A file is opened, and the data stored behind its bytes if there is room. -/
noncomputable def FsTree.store (T : FsTree) (flags : UInt32) (name data : List UInt8) (room : Prop) :
    FsTree × Except ℕ FsValue :=
  match openFile T.map name flags with
  | .error code => (T, .error code)
  | .ok M =>
    if data = [] ∨ room then
      ({ T with map := Function.update M name (some (.file (contentOf M name ++ data))) }, .ok .unit)
    else ({ T with map := M }, .error 0)

def FsTree.stat (T : FsTree) (name : List UInt8) : Except ℕ FsValue :=
  match T.map name with
  | none => .error errNoent
  | some .dir => .ok .dir
  | some (.file content) => .ok (.file content.length)

/-- `none` is a panic. -/
def FsTree.chdir (T : FsTree) (path : List UInt8) : Option (FsTree × Except ℕ FsValue) :=
  if path.length = 0 ∨ path.length > inputMax then some (T, .error errInval)
  else if path = [slash] then some ({ T with cwd := [slash] }, .ok .unit)
  else if path = pfsPrefix ∨ path = pfsPrefix ++ [slash] then
    some ({ T with cwd := pfsPrefix }, .ok .unit)
  else
    match pfsResolvePath T.cwd path with
    | none => some (T, .error errInval)
    | some name =>
      match T.map name with
      | none => some (T, .error errNoent)
      | some (.file _) => some (T, .error errNotdir)
      | some .dir =>
        if 4 + name.length > appCwdMax then none
        else some ({ T with cwd := pfsPrefix ++ name }, .ok .unit)

/-- **What a call is for.** A path that has no name in RYMFS is one of the boot archive, which can be
read only. -/
noncomputable def FsOp.meaning (fs : BootFs) (boot : List UInt8 → Option (List UInt8)) (T : FsTree)
    (room : Prop) : FsOp → Option (FsTree × Except ℕ FsValue)
  | .read path _ =>
    match nameFor T.cwd path with
    | none => some (T, bootRead boot path)
    | some name => some (T, T.read name)
  | .write path data _ =>
    match nameFor T.cwd path with
    | none => some (T, .error errInval)
    | some name => some (T.store createFlags name data room)
  | .append path data _ =>
    match nameFor T.cwd path with
    | none => some (T, .error errInval)
    | some name => some (T.store appendFlags name data room)
  | .removeFile path =>
    match nameFor T.cwd path with
    | none => some (T, .error errInval)
    | some name => some (T.put (FileTree.unlink T.map name))
  | .rename source target _ =>
    match nameFor T.cwd source, nameFor T.cwd target with
    | some name, some newName => some (T.put (FileTree.rename T.map name newName))
    | _, _ => some (T, .error errInval)
  | .createDir path _ =>
    match nameFor T.cwd path with
    | none => some (T, .error errInval)
    | some name => some (T.put (FileTree.mkdir T.map name))
  | .metadata path =>
    match nameFor T.cwd path with
    | none => (bootStat fs path).map fun a => (T, a)
    | some name => some (T, T.stat name)
  | .setCurrentDir path => T.chdir path

end Rymos
