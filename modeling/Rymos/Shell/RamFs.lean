import Mathlib.Data.List.DropRight
import Rymos.Base.Slots
import Rymos.Pfs.Path

/-!
# The RAM filesystem of the shell

Twelve entries in the kernel's memory, changed by eight commands of the console shell.

* `FileEntry`, `RamFs`: the entries. The first `name_len` bytes of a name and the first `data_len`
  bytes of a file are lists with the bounds of their buffers, so no slice of them is out of range.
* `touchRaw`, `writeRaw`, `RamFs.touch`, …, `RamFs.moveEntry`: the functions, with the line printed.
* `trim`, `splitWord`, `parse`, `runCommand`: from the words after a command to the call.
* `RamFs.slots`, `RamFs.map`: the used entries as a table of slots, and the map it stands for.
-/

namespace Rymos

open ByteBuf

abbrev fileCount : ℕ := 12

abbrev fileNameMax : ℕ := 16

abbrev fileDataMax : ℕ := 192

structure FileEntry where
  used : Bool
  isDir : Bool
  name : List UInt8
  data : List UInt8
  name_le : name.length ≤ fileNameMax
  data_le : data.length ≤ fileDataMax
  deriving DecidableEq

def FileEntry.empty : FileEntry := ⟨false, false, [], [], Nat.zero_le _, Nat.zero_le _⟩

structure RamFs where
  entries : Fin fileCount → FileEntry

def RamFs.new : RamFs := ⟨fun _ => .empty⟩

namespace RamFs

/-- `self.entries[index] = entry`. -/
def set (fs : RamFs) (index : Fin fileCount) (entry : FileEntry) : RamFs :=
  ⟨Function.update fs.entries index entry⟩

def find (fs : RamFs) (name : List UInt8) : Option (Fin fileCount) :=
  (List.finRange fileCount).find? fun index =>
    (fs.entries index).used && (fs.entries index).name == name

def freeSlot (fs : RamFs) : Option (Fin fileCount) :=
  (List.finRange fileCount).find? fun index => !(fs.entries index).used

/-- The filesystem after the call, and the value returned. -/
def touchRaw (fs : RamFs) (name : List UInt8) (h : name.length ≤ fileNameMax) (isDir : Bool) :
    RamFs × Bool :=
  match fs.find name with
  | some index => (fs.set index { fs.entries index with isDir := isDir }, true)
  | none =>
    match fs.freeSlot with
    | none => (fs, false)
    | some index =>
      (fs.set index { fs.entries index with
        used := true, isDir := isDir, name := name, name_le := h }, true)

def writeRaw (fs : RamFs) (name : List UInt8) (h : name.length ≤ fileNameMax) (text : List UInt8)
    (ht : text.length ≤ fileDataMax) : RamFs :=
  let (fs, ok) := fs.touchRaw name h false
  if !ok then fs
  else
    let index := (fs.find name).getD 0
    fs.set index { fs.entries index with isDir := false, data := text, data_le := ht }

end RamFs

def validName (name : List UInt8) : Bool :=
  if name.isEmpty || name.length > fileNameMax then false else name.all validPfsByte

theorem length_of_validName {name : List UInt8} (h : validName name = true) :
    name.length ≤ fileNameMax := by
  unfold validName at h
  split_ifs at h with hc
  simp only [Bool.or_eq_true, decide_eq_true_eq, not_or, not_lt] at hc
  exact hc.2

namespace RamFs

def touch (fs : RamFs) (name : List UInt8) (isDir : Bool) : RamFs × String :=
  if h : validName name = true then
    let (fs, ok) := fs.touchRaw name (length_of_validName h) isDir
    if ok then (fs, "ok") else (fs, "ramfs full")
  else (fs, "invalid name")

def write (fs : RamFs) (name text : List UInt8) : RamFs × String :=
  if h : validName name = true then
    if ht : text.length ≤ fileDataMax then
      (fs.writeRaw name (length_of_validName h) text ht, "ok")
    else (fs, "write: text too large")
  else (fs, "invalid name")

def remove (fs : RamFs) (name : List UInt8) (dir : Bool) : RamFs × String :=
  match fs.find name with
  | some index =>
    if (fs.entries index).isDir == dir then (fs.set index .empty, "ok")
    else if dir then (fs, "rmdir: not a directory")
    else (fs, "rm: is a directory")
  | none => (fs, "not found")

def append (fs : RamFs) (name text : List UInt8) : RamFs × String :=
  if validName name then
    match fs.find name with
    | none => fs.write name text
    | some index =>
      let entry := fs.entries index
      if entry.isDir then (fs, "append: is a directory")
      else if h : (entry.data ++ text).length ≤ fileDataMax then
        (fs.set index { entry with data := entry.data ++ text, data_le := h }, "ok")
      else (fs, "append: text too large")
  else (fs, "invalid name")

def copy (fs : RamFs) (src dst : List UInt8) : RamFs × String :=
  if h : validName dst = true then
    match fs.find src with
    | none => (fs, "copy: source not found")
    | some index =>
      let entry := fs.entries index
      if entry.isDir then (fs, "copy: directories not supported yet")
      else (fs.writeRaw dst (length_of_validName h) entry.data entry.data_le, "ok")
  else (fs, "invalid destination")

def moveEntry (fs : RamFs) (src dst : List UInt8) : RamFs × String :=
  if validName dst then
    match fs.find src with
    | none => (fs, "move: source not found")
    | some index =>
      if h : dst.length ≤ fileNameMax then
        (fs.set index { fs.entries index with name := dst, name_le := h }, "ok")
      else (fs, "move: destination too long")
  else (fs, "invalid destination")

/-- What the boot leaves. -/
def seed (fs : RamFs) : RamFs :=
  let fs := fs.writeRaw (ascii "readme") (by decide) (ascii "Welcome to RYMOS RAMFS.") (by decide)
  let fs := fs.writeRaw (ascii "notes") (by decide)
    (ascii "Disk FAT32 loading works in the bootloader. Kernel FAT32 comes later.") (by decide)
  (fs.touchRaw (ascii "tmp") (by decide) true).1

end RamFs

/-! ## Commands -/

def blank (byte : UInt8) : Bool := byte == 32 || byte == 9

def trim (bytes : List UInt8) : List UInt8 := (bytes.dropWhile blank).rdropWhile blank

def splitWord (bytes : List UInt8) : List UInt8 × List UInt8 :=
  let bytes := trim bytes
  match bytes.dropWhile (!blank ·) with
  | [] => (bytes, [])
  | _ :: rest => (bytes.takeWhile (!blank ·), trim rest)

/-- The commands on the RAM filesystem, `copy`, `move` and `rm` under both their names. -/
inductive RamWord
  | touch | write | append | copy | move | rm | mkdir | rmdir
  deriving DecidableEq

/-- A command with its arguments. -/
inductive RamCall
  | touch (name : List UInt8)
  | write (name text : List UInt8)
  | append (name text : List UInt8)
  | copy (src dst : List UInt8)
  | move (src dst : List UInt8)
  | rm (name : List UInt8)
  | mkdir (name : List UInt8)
  | rmdir (name : List UInt8)
  deriving DecidableEq

/-- A branch of `run_command` that takes one name. -/
def parseName (usage : String) (call : List UInt8 → RamCall) (rest : List UInt8) :
    Except String RamCall :=
  let name := (splitWord rest).1
  if name.isEmpty then .error usage else .ok (call name)

/-- A branch of `run_command` that takes a name and a text. -/
def parseText (usage : String) (call : List UInt8 → List UInt8 → RamCall) (rest : List UInt8) :
    Except String RamCall :=
  let (name, text) := splitWord rest
  if name.isEmpty || text.isEmpty then .error usage else .ok (call name text)

/-- A branch of `run_command` that takes two names. -/
def parsePair (usage : String) (call : List UInt8 → List UInt8 → RamCall) (rest : List UInt8) :
    Except String RamCall :=
  let (src, rest) := splitWord rest
  let dst := (splitWord rest).1
  if src.isEmpty || dst.isEmpty then .error usage else .ok (call src dst)

/-- The branches of `run_command`; `rest` is the line after the command word. -/
def parse : RamWord → List UInt8 → Except String RamCall
  | .touch => parseName "usage: touch <file>" .touch
  | .write => parseText "usage: write <file> <text>" .write
  | .append => parseText "usage: append <file> <text>" .append
  | .copy => parsePair "usage: copy <src> <dst>" .copy
  | .move => parsePair "usage: move <src> <dst>" .move
  | .rm => parseName "usage: delete <file>" .rm
  | .mkdir => parseName "usage: mkdir <name>" .mkdir
  | .rmdir => parseName "usage: rmdir <name>" .rmdir

def RamFs.call (fs : RamFs) : RamCall → RamFs × String
  | .touch name => fs.touch name false
  | .write name text => fs.write name text
  | .append name text => fs.append name text
  | .copy src dst => fs.copy src dst
  | .move src dst => fs.moveEntry src dst
  | .rm name => fs.remove name false
  | .mkdir name => fs.touch name true
  | .rmdir name => fs.remove name true

/-- The filesystem after the command, and the line printed. -/
def runCommand (fs : RamFs) (word : RamWord) (rest : List UInt8) : RamFs × String :=
  match parse word rest with
  | .error usage => (fs, usage)
  | .ok call => fs.call call

end Rymos
