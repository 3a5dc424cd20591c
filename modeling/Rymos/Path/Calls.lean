import Mathlib.Tactic
import Rymos.Boot.Listing
import Rymos.Command.Caller
import Rymos.Pfs.Normalize
import Rymos.Pfs.Reach

/-!
# Paths and the working directory

* `CwdField`: the working directory as a process stores it. `pfsResolvePathIn`, **`abiChdirIn`**: the
  calls on its bytes, with every slice they take; `abiCwd`.
* `pfsListMatch`, `pfsNamespace`, `abiList`, `statPath`, `abiStat`: what a program sees of a directory.
* `ReadDir`, `ReadDir.collect`, `joinPath`: the runtime's iterator over a directory.
* `PathSys`, `PathAct`, `pathStep`: the file system and the working directories of all processes.
-/

namespace Rymos

open ByteBuf Transition

/-! ## The working directory -/

structure CwdField where
  bytes : Buf appCwdMax
  len : ℕ

namespace CwdField

/-- The bytes in use. -/
def read (cwd : CwdField) : List UInt8 := cwd.bytes.slice 0 cwd.len

/-- `/` -/
def root : CwdField := ⟨(Buf.zero _).put 0 [slash], 1⟩

/-- `pfs:` -/
def pfsRoot : CwdField := ⟨(Buf.zero _).put 0 pfsPrefix, 4⟩

/-- `pfs:` and a name; a name that does not fit is a panic. -/
def pfsDir (name : List UInt8) : Option CwdField :=
  if 4 + name.length ≤ appCwdMax then
    some ⟨((Buf.zero _).put 0 pfsPrefix).put 4 name, 4 + name.length⟩
  else none

end CwdField

def appCwdIsPfsIn (cwd : CwdField) : Bool := cwd.len ≥ 4 && cwd.bytes.slice 0 4 == pfsPrefix

/-- The buffer after the call, and the length of the slice returned; `none` is a panic. -/
def appCwdPfsNameIn (cwd : CwdField) (buffer : Buf pfsNameMax) : Option (Buf pfsNameMax × ℕ) :=
  if cwd.len ≤ 4 then some (buffer, 0)
  else
    let len := min (cwd.len - 4) pfsNameMax
    if 4 + len ≤ appCwdMax then (storeIn buffer 0 (cwd.bytes.slice 4 len)).map (·, len) else none

def pfsResolvePathIn (cwd : CwdField) (path : List UInt8) (output : Buf pfsNameMax) :
    Option (Buf pfsNameMax × Option ℕ) :=
  let output := output.fill 0 pfsNameMax
  if startsWith path pfsPrefix then normalizePfsPathIn [] (path.drop 4) output
  else if appCwdIsPfsIn cwd then
    (appCwdPfsNameIn cwd (Buf.zero _)).bind fun (cwdName, len) =>
    normalizePfsPathIn (cwdName.slice 0 len) path output
  else some (output, none)

/-- `none` is a panic. -/
def abiChdirIn (disk : Disk) (cwd : CwdField) (path : List UInt8) :
    Option (CwdField × Reply Unit) :=
  match checkedAppSlice path with
  | none => some (cwd, .error errInval)
  | some path =>
    if path == [slash] then some (.root, .done ())
    else if path == pfsPrefix || path == pfsPrefix ++ [slash] then some (.pfsRoot, .done ())
    else
      (pfsResolvePathIn cwd path (Buf.zero _)).bind fun (resolved, nameLen) =>
      match nameLen with
      | none => some (cwd, .error errInval)
      | some nameLen =>
        if nameLen > pfsNameMax then none
        else
          match readHeaderSilent disk with
          | none => some (cwd, .error errIo)
          | some header =>
            match pfsFindEntry header (resolved.slice 0 nameLen) with
            | none => some (cwd, .error errNoent)
            | some index =>
              if !pfsEntryIsDir header index then some (cwd, .error errNotdir)
              else (CwdField.pfsDir (resolved.slice 0 nameLen)).map (·, .done ())

/-- The number returned and the bytes copied; `room` is the length of the caller's buffer, `none` a null
pointer. -/
def abiCwd (cwd : CwdField) : Option ℕ → ℕ × List UInt8
  | none | some 0 => (cwd.len, [])
  | some room => (min room cwd.len, cwd.bytes.slice 0 (min room cwd.len))

/-! ## Directories -/

abbrev statFsPfs : ℕ := 2

/-- The part of `name` below the directory, if it is right below it. -/
def pfsListMatch (ns name : List UInt8) : Option (List UInt8) :=
  if ns.isEmpty || ns == pfsPrefix then
    if name.contains slash then none else some name
  else
    let pre := if startsWith ns pfsPrefix then ns.drop 4 else ns
    if pre.isEmpty then none
    else if !startsWith name pre || name.length ≤ pre.length || name.getD pre.length 0 != slash then none
    else
      let child := name.drop (pre.length + 1)
      if child.isEmpty || child.contains slash then none else some child

/-- What `stat` and `list` report of an entry. -/
def pfsStat (header : Header) (index : ℕ) : RymosStat where
  kind := if pfsEntryIsDir header index then statKindDir else statKindFile
  fs := statFsPfs
  size := pfsEntrySize header index
  createdTicks := pfsEntryCreated header index
  modifiedTicks := pfsEntryModified header index
  mode := (pfsEntryMode header index).toNat

/-- The directory `abi_list` lists, or `none` for the boot filesystem. -/
def pfsNamespace (cwd ns : List UInt8) : Option (List UInt8) :=
  if ns.isEmpty && appCwdIsPfs cwd then some (appCwdPfsName cwd)
  else if ns == pfsPrefix || ns == pfsPrefix ++ [slash] then some []
  else pfsResolvePath cwd ns

/-- The loop of `abi_list` over the entries left, of which `seen` have matched so far. -/
def listLoop (header : Header) (ns : List UInt8) (wanted : ℕ) :
    List ℕ → ℕ → Option (List UInt8 × RymosStat)
  | [], _ => none
  | index :: rest, seen =>
    if pfsEntryUsed header index then
      match pfsListMatch ns (pfsEntryName header index) with
      | none => listLoop header ns wanted rest seen
      | some name =>
        if seen = wanted then some (name, pfsStat header index)
        else listLoop header ns wanted rest (seen + 1)
    else listLoop header ns wanted rest seen

/-- `abi_list` in a directory of RYMFS, with a name buffer of `room` bytes. -/
def abiListPfs (disk : Disk) (ns : List UInt8) (index room : ℕ) :
    Reply (List UInt8 × RymosStat) :=
  match readHeaderSilent disk with
  | none => .error errIo
  | some header =>
    match listLoop header ns index (List.range pfsEntryCount) 0 with
    | none => .error errNoent
    | some (name, stat) => .done (name.take room, stat)

/-- `none` is a fault. -/
def abiList (fs : BootFs) (disk : Disk) (cwd ns : List UInt8) (index room : ℕ) :
    Option (Reply (List UInt8 × RymosStat)) :=
  if room = 0 then some (.error errInval)
  else
    match if ns.length = 0 then some [] else checkedAppSlice ns with
    | none => some (.error errInval)
    | some ns =>
      match pfsNamespace cwd ns with
      | some dir => some (abiListPfs disk dir index room)
      | none => fs.abiListBootfs index room

def statPath (fs : BootFs) (disk : Disk) (cwd path : List UInt8) : Option (Option RymosStat) :=
  match pfsResolvePath cwd path with
  | some name => some ((readHeaderSilent disk).bind fun header =>
      (pfsFindEntry header name).map (pfsStat header))
  | none => (fs.findEntry path).map fun e => e.map BootFs.statOf

/-- `none` is a fault. -/
def abiStat (fs : BootFs) (disk : Disk) (cwd path : List UInt8) : Option (Reply RymosStat) :=
  match checkedAppSlice path with
  | none => some (.error errInval)
  | some path =>
    (statPath fs disk cwd path).map fun stat =>
    match stat with
    | none => .error errNoent
    | some stat => .done stat

/-! ## The runtime -/

structure DirEntry where
  name : List UInt8
  metadata : RymosStat
deriving DecidableEq

/-- `rymos_user::list`, with a buffer of `room` bytes. -/
def rymosList (fs : BootFs) (disk : Disk) (cwd ns : List UInt8) (index room : ℕ) :
    Option (Option (List UInt8 × RymosStat)) :=
  (abiList fs disk cwd ns index room).map fun reply =>
  match reply with
  | .done found => some found
  | _ => none

structure ReadDir where
  path : List UInt8
  index : ℕ

namespace ReadDir

variable (fs : BootFs) (disk : Disk) (cwd : List UInt8)

def next (dir : ReadDir) : Option (Option (DirEntry × ReadDir)) :=
  (rymosList fs disk cwd dir.path dir.index 64).map fun found =>
  found.map fun (name, metadata) => (⟨name, metadata⟩, { dir with index := dir.index + 1 })

end ReadDir

def endsWithByte (bytes : List UInt8) (byte : UInt8) : Bool := bytes.getLast? == some byte

structure PathSys where
  sys : Sys
  cwds : ℕ → CwdField

inductive PathAct where
  | fs (act : FsAct)
  | chdir (process : ℕ) (path : List UInt8)
  /-- `spawn_prepared` copies the directory of the parent. -/
  | spawn (parent child : ℕ)
  /-- `run_program` starts at `/`. -/
  | run (process : ℕ)

/-- `none` if the kernel panics. -/
def pathStep (s : PathSys) : PathAct → Option PathSys
  | .fs act => (sysStep s.sys act).map fun sys => { s with sys := sys }
  | .chdir process path => (abiChdirIn s.sys.disk (s.cwds process) path).map fun r =>
    { s with cwds := Function.update s.cwds process r.1 }
  | .spawn parent child => some { s with cwds := Function.update s.cwds child (s.cwds parent) }
  | .run process => some { s with cwds := Function.update s.cwds process .root }

/-- A freshly formatted disk; every process starts at `/`. -/
structure PathInit (s : PathSys) : Prop where
  sys : FsInit s.sys
  cwds : ∀ process, s.cwds process = .root

/-- The states of all runs. -/
def PathReach (s : PathSys) : Prop := Reach PathInit (fun _ _ => True) pathStep s

end Rymos
