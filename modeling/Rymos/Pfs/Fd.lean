import Mathlib.Tactic
import Rymos.Pfs.WriteLaw

/-!
# Descriptors and the file calls

* `AppFd`, `AppPipe`, `Sys`: the descriptor table, the pipes, the disk.
* `abiOpen`, `abiRead`, `abiWriteFd`, `abiSeek`, `abiClose`, `abiStat`, `abiMkdir`, `abiUnlink`,
  `abiRename`: the calls a program makes. A descriptor is the one `app_resolve_fd` returns.
* `persistentWrite`, `persistentMkdir`, `persistentDelete`: the commands of the console.

A call takes the working directory of its process and, in `t`, the readings of `ns_since_boot` it
makes.
-/

namespace Rymos

open ByteBuf

abbrev appFdCount : ℕ := 32
abbrev appFdBase : ℤ := 3
abbrev appPipeBufferSize : ℕ := 8192
abbrev inputMax : ℕ := 128

inductive AppFdKind where
  | empty
  | bootFs
  | pfs
  | pipeRead
  | pipeWrite
deriving DecidableEq, Repr

/-- A descriptor; `data` is the file a `BootFs` descriptor points to. -/
structure AppFd where
  isOpen : Bool
  kind : AppFdKind
  flags : UInt32
  data : List UInt8
  len : ℕ
  offset : ℕ
  pfsIndex : ℕ
deriving DecidableEq

def AppFd.empty : AppFd :=
  { isOpen := false, kind := .empty, flags := 0, data := [], len := 0, offset := 0, pfsIndex := 0 }

structure AppPipe where
  used : Bool
  readOpen : Bool
  writeOpen : Bool
  buffer : Buf appPipeBufferSize
  readOffset : ℕ
  len : ℕ

def AppPipe.empty : AppPipe :=
  { used := false, readOpen := false, writeOpen := false, buffer := Buf.zero _, readOffset := 0,
    len := 0 }

/-- The state the file calls share; `bootfs` finds a file of the boot archive. -/
structure Sys where
  disk : Disk
  fds : ℕ → AppFd
  pipes : ℕ → AppPipe
  bootfs : List UInt8 → Option (List UInt8)

/-- The result of a call: a value, `-1` with `last_error` set, or a bare `-1`. -/
inductive Reply (α : Type) where
  | done (value : α)
  | error (code : ℕ)
  | refused
deriving DecidableEq

/-- The call has returned a value. -/
def Reply.isDone {α : Type} : Reply α → Bool
  | .done _ => true
  | _ => false

def Sys.setFd (sys : Sys) (index : ℕ) (fd : AppFd) : Sys :=
  { sys with fds := Function.update sys.fds index fd }

def Sys.setPipe (sys : Sys) (index : ℕ) (pipe : AppPipe) : Sys :=
  { sys with pipes := Function.update sys.pipes index pipe }

def Sys.setDisk (sys : Sys) (disk : Disk) : Sys := { sys with disk := disk }

def appFdIndex (fd : ℤ) : Option ℕ :=
  if fd < appFdBase then none
  else
    let index := (fd - appFdBase).toNat
    if index < appFdCount then some index else none

/-- A path from a program: not empty and not too long. -/
def checkedAppSlice (path : List UInt8) : Option (List UInt8) :=
  if path.length = 0 || path.length > inputMax then none else some path

theorem checkedAppSlice_eq {path path' : List UInt8} (h : checkedAppSlice path = some path') :
    path' = path := by
  unfold checkedAppSlice at h
  split_ifs at h
  exact (Option.some.inj h).symm

/-- The first free slot of the descriptor table. -/
def freeFd (sys : Sys) : Option ℕ := (List.range appFdCount).find? fun index => !(sys.fds index).isOpen

/-! ## Opening -/

/-- The end of `abi_open_pfs`: a descriptor on entry `index` of `header`. -/
def openPfsFd (sys : Sys) (header : Header) (index : ℕ) (flags : UInt32) : Sys × Reply ℤ :=
  let len := pfsEntrySize header index
  match freeFd sys with
  | some fd =>
    let handle : AppFd :=
      { isOpen := true, kind := .pfs, flags := flags, data := [], len := len,
        offset := if hasFlag flags fdAppend then len else 0, pfsIndex := index }
    (sys.setFd fd handle, .done (fd + appFdBase))
  | none => (sys, .error errNospc)

/-- The truncation of `abi_open_pfs` and what follows it. -/
def openPfsTruncate (sys : Sys) (header : Header) (index : ℕ) (name : List UInt8) (flags : UInt32)
    (t : ℕ → ℕ) : Sys × Reply ℤ :=
  if hasFlag flags fdTruncate then
    let header := truncateHeader header index name (t 2)
    match writeHeader sys.disk header with
    | (false, disk) => (sys.setDisk disk, .error errIo)
    | (true, disk) => openPfsFd (sys.setDisk disk) header index flags
  else openPfsFd sys header index flags

def abiOpenPfs (sys : Sys) (name : List UInt8) (flags : UInt32) (t : ℕ → ℕ) : Sys × Reply ℤ :=
  if !validPfsPath name then (sys, .error errInval)
  else if hasFlag flags fdCreateNew && !hasFlag flags fdCreate then (sys, .error errInval)
  else if hasFlag flags fdTruncate && !hasFlag flags fdWrite then (sys, .error errInval)
  else if hasFlag flags fdAppend && !hasFlag flags fdWrite then (sys, .error errInval)
  else
    match readHeaderSilent sys.disk with
    | none => (sys, .error errIo)
    | some header =>
      if !pfsParentExists header name then (sys, .error errNoent)
      else
        match openEntry header name flags t with
        | .error code => (sys, .error code)
        | .ok (index, none) => openPfsTruncate sys header index name flags t
        | .ok (index, some header) =>
          match writeHeader sys.disk header with
          | (false, disk) => (sys.setDisk disk, .error errIo)
          | (true, disk) => openPfsTruncate (sys.setDisk disk) header index name flags t

def abiOpen (sys : Sys) (cwd path : List UInt8) (flags : UInt32) (t : ℕ → ℕ) : Sys × Reply ℤ :=
  match checkedAppSlice path with
  | none => (sys, .error errInval)
  | some path =>
    match pfsResolvePath cwd path with
    | some name => abiOpenPfs sys name flags t
    | none =>
      if startsWith path pfsPrefix then (sys, .error errInval)
      else if hasFlag flags fdWrite then (sys, .error errInval)
      else
        match sys.bootfs path with
        | none => (sys, .error errNoent)
        | some data =>
          match freeFd sys with
          | some fd =>
            let handle : AppFd :=
              { isOpen := true, kind := .bootFs, flags := fdRead, data := data, len := data.length,
                offset := 0, pfsIndex := 0 }
            (sys.setFd fd handle, .done (fd + appFdBase))
          | none => (sys, .error errNospc)

/-! ## Reading and writing -/

def readPipe (sys : Sys) (handle : AppFd) (bufferLen : ℕ) : Sys × Reply (List UInt8) :=
  let pipe := sys.pipes handle.pfsIndex
  if !pipe.used || !pipe.readOpen then (sys, .refused)
  else
    let available := pipe.len - pipe.readOffset
    let pipeCopy := min bufferLen available
    if pipeCopy = 0 then (sys, .done [])
    else
      let bytes := pipe.buffer.slice pipe.readOffset pipeCopy
      let readOffset := pipe.readOffset + pipeCopy
      if readOffset = pipe.len then
        (sys.setPipe handle.pfsIndex { pipe with readOffset := 0, len := 0 }, .done bytes)
      else (sys.setPipe handle.pfsIndex { pipe with readOffset := readOffset }, .done bytes)

def abiRead (sys : Sys) (fd : ℤ) (bufferLen : ℕ) : Sys × Reply (List UInt8) :=
  match appFdIndex fd with
  | none => (sys, .refused)
  | some index =>
    let handle := sys.fds index
    if !handle.isOpen then (sys, .refused)
    else if !hasFlag handle.flags fdRead then (sys, .refused)
    else if handle.kind = .pipeRead then readPipe sys handle bufferLen
    else
      let remaining := handle.len - handle.offset
      let copyLen := min bufferLen remaining
      if copyLen = 0 then (sys, .done [])
      else
        match handle.kind with
        | .bootFs =>
          (sys.setFd index { handle with offset := usize (handle.offset + copyLen) },
            .done ((handle.data.drop handle.offset).take copyLen))
        | .pfs =>
          match pfsReadAt sys.disk handle.pfsIndex handle.offset copyLen with
          | none => (sys, .refused)
          | some bytes =>
            (sys.setFd index { handle with offset := usize (handle.offset + copyLen) }, .done bytes)
        | _ => (sys, .refused)

def writePipe (sys : Sys) (handle : AppFd) (data : List UInt8) : Sys × Reply ℕ :=
  let pipe := sys.pipes handle.pfsIndex
  if !pipe.used || !pipe.writeOpen || !pipe.readOpen then (sys, .refused)
  else
    let available := appPipeBufferSize - pipe.len
    let writeLen := min data.length available
    if writeLen = 0 && data.length != 0 then (sys, .refused)
    else
      let buffer := pipe.buffer.put pipe.len (data.take writeLen)
      (sys.setPipe handle.pfsIndex { pipe with buffer := buffer, len := pipe.len + writeLen },
        .done writeLen)

/-- The file branch of `abi_write_fd` once the offset is set. -/
def writeFile (sys : Sys) (index : ℕ) (handle : AppFd) (data : List UInt8) (t : ℕ → ℕ) :
    Option (Sys × Reply ℕ) :=
  if usize (handle.offset + data.length) > pfsFileMax then some (sys, .refused)
  else
    match pfsWriteAt sys.disk handle.pfsIndex handle.offset data (t 0) with
    | none => none
    | some (false, disk) => some (sys.setDisk disk, .refused)
    | some (true, disk) =>
      let handle := { handle with offset := usize (handle.offset + data.length) }
      if handle.offset > handle.len then
        let handle := { handle with len := handle.offset }
        let sys := (sys.setDisk disk).setFd index handle
        match pfsUpdateSize sys.disk handle.pfsIndex handle.len (t 1) with
        | (false, disk) => some (sys.setDisk disk, .refused)
        | (true, disk) => some (sys.setDisk disk, .done data.length)
      else some ((sys.setDisk disk).setFd index handle, .done data.length)

def abiWriteFd (sys : Sys) (fd : ℤ) (data : List UInt8) (t : ℕ → ℕ) : Option (Sys × Reply ℕ) :=
  match appFdIndex fd with
  | none => some (sys, .refused)
  | some index =>
    let handle := sys.fds index
    if !handle.isOpen || !hasFlag handle.flags fdWrite then some (sys, .refused)
    else if handle.kind = .pipeWrite then some (writePipe sys handle data)
    else if handle.kind ≠ .pfs then some (sys, .refused)
    else
      let handle :=
        if hasFlag handle.flags fdAppend then { handle with offset := handle.len } else handle
      writeFile (sys.setFd index handle) index handle data t

def abiSeek (sys : Sys) (fd : ℤ) (offset : UInt64) : Sys × Reply ℕ :=
  match appFdIndex fd with
  | none => (sys, .refused)
  | some index =>
    let handle := sys.fds index
    if !handle.isOpen then (sys, .refused)
    else if handle.kind = .bootFs ∧ offset.toNat > handle.len then (sys, .refused)
    else (sys.setFd index { handle with offset := offset.toNat }, .done offset.toNat)

/-- What closing a descriptor does to the pipe it refers to. -/
def closePipe (sys : Sys) (handle : AppFd) : Sys :=
  match handle.kind with
  | .pipeRead =>
    let pipe := { sys.pipes handle.pfsIndex with readOpen := false }
    sys.setPipe handle.pfsIndex (if !pipe.writeOpen then .empty else pipe)
  | .pipeWrite =>
    let pipe := { sys.pipes handle.pfsIndex with writeOpen := false }
    sys.setPipe handle.pfsIndex (if !pipe.readOpen then .empty else pipe)
  | _ => sys

@[simp] theorem closePipe_fds (sys : Sys) (handle : AppFd) :
    (closePipe sys handle).fds = sys.fds := by
  unfold closePipe
  split <;> rfl

/-- For the three standard descriptors the call changes the redirections of its process only. -/
def abiClose (sys : Sys) (fd : ℤ) : Sys × Reply ℕ :=
  if fd < 0 then (sys, .refused)
  else if fd < appFdBase then (sys, .done 0)
  else
    match appFdIndex fd with
    | none => (sys, .refused)
    | some index =>
      let handle := sys.fds index
      if !handle.isOpen then (sys, .refused)
      else ((closePipe sys handle).setFd index .empty, .done 0)

/-! ## Calls by name -/

/-- The fields of `RymosStat` that come from an entry. -/
structure PfsStat where
  isDir : Bool
  size : ℕ
  createdTicks : ℕ
  modifiedTicks : ℕ
  mode : UInt8
deriving DecidableEq

/-- The RYMFS branch of `stat_path`, for the name the path resolves to. -/
def statName (disk : Disk) (name : List UInt8) : Option PfsStat :=
  (readHeaderSilent disk).bind fun header =>
  (pfsFindEntry header name).map fun index =>
    { isDir := pfsEntryIsDir header index, size := pfsEntrySize header index,
      createdTicks := pfsEntryCreated header index, modifiedTicks := pfsEntryModified header index,
      mode := pfsEntryMode header index }

/-- The end of a call that writes the header `pfs_…_header` returned. -/
def replyHeader (sys : Sys) (header : Header) : Sys × Reply ℕ :=
  match writeHeader sys.disk header with
  | (true, disk) => (sys.setDisk disk, .done 0)
  | (false, disk) => (sys.setDisk disk, .error errIo)

def abiMkdir (sys : Sys) (cwd path : List UInt8) (t : ℕ → ℕ) : Sys × Reply ℕ :=
  match (checkedAppSlice path).bind (pfsResolvePath cwd) with
  | none => (sys, .error errInval)
  | some name =>
    match readHeaderSilent sys.disk with
    | none => (sys, .error errIo)
    | some header =>
      match mkdirHeader header name t with
      | .error code => (sys, .error code)
      | .ok header => replyHeader sys header

def abiUnlink (sys : Sys) (cwd path : List UInt8) : Sys × Reply ℕ :=
  match (checkedAppSlice path).bind (pfsResolvePath cwd) with
  | none => (sys, .error errInval)
  | some name =>
    match readHeaderSilent sys.disk with
    | none => (sys, .error errIo)
    | some header =>
      match pfsUnlinkHeader header name with
      | .error code => (sys, .error (if code = -2 then errInval else errNoent))
      | .ok header => replyHeader sys header

def abiRename (sys : Sys) (cwd oldPath newPath : List UInt8) (t : ℕ → ℕ) : Sys × Reply ℕ :=
  match (checkedAppSlice oldPath).bind (pfsResolvePath cwd),
      (checkedAppSlice newPath).bind (pfsResolvePath cwd) with
  | some oldName, some newName =>
    match readHeaderSilent sys.disk with
    | none => (sys, .error errIo)
    | some header =>
      match pfsRenameHeader header oldName newName (t 0) with
      | .error code =>
        (sys, .error (if code = -2 then errNoent else if code = -3 then errExist
          else if code = -4 then errNoent else errInval))
      | .ok header => replyHeader sys header
  | _, _ => (sys, .error errInval)

/-! ## Console commands

The line a command prints. Without a header, `read_header` has printed why. -/

def noHeader (disk : Disk) : String :=
  if disk.present then "pfs: unformatted; run fsformat" else "pfs: ATA data disk not found"

/-- `PersistentFs::write` once the entry exists. -/
def persistentFill (disk : Disk) (index : ℕ) (data : List UInt8) (t : ℕ → ℕ) :
    Option (Disk × String) :=
  match pfsWriteAt disk index 0 data (t 2) with
  | none => none
  | some (false, disk) => some (disk, "pwrite: disk full")
  | some (true, disk) =>
    match pfsUpdateSize disk index data.length (t 3) with
    | (true, disk) => some (disk, "ok")
    | (false, disk) => some (disk, "pwrite: header write failed")

def persistentWrite (disk : Disk) (name data : List UInt8) (t : ℕ → ℕ) : Option (Disk × String) :=
  if !validPfsPath name then some (disk, "pwrite: invalid name")
  else if data.length > pfsFileMax then some (disk, "pwrite: file too large")
  else
    match readHeader disk with
    | none => some (disk, noHeader disk)
    | some header =>
      if !pfsParentExists header name then some (disk, "pwrite: parent directory missing")
      else
        match pfsFindEntry header name with
        | some index =>
          if pfsEntryIsDir header index then some (disk, "pwrite: is a directory")
          else persistentFill disk index data t
        | none =>
          match pfsFreeEntry header with
          | none => some (disk, "pwrite: filesystem full")
          | some index =>
            let header :=
              pfsSetEntry header index name 0 pfsKindFile [] (t 0) pfsModeDefaultFile (t 1)
            match writeHeader disk header with
            | (false, disk) => some (disk, "pwrite: header write failed")
            | (true, disk) => persistentFill disk index data t

def persistentMkdir (disk : Disk) (name : List UInt8) (t : ℕ → ℕ) : Disk × String :=
  match readHeader disk with
  | none => (disk, noHeader disk)
  | some header =>
    if !validPfsPath name then (disk, "pmkdir: invalid directory")
    else
      match mkdirHeader header name t with
      | .error code =>
        (disk, if code = errNoent then "pmkdir: parent directory missing"
          else if code = errExist then "pmkdir: exists" else "pmkdir: filesystem full")
      | .ok header =>
        match writeHeader disk header with
        | (true, disk) => (disk, "ok")
        | (false, disk) => (disk, "pmkdir: header write failed")

def persistentDelete (disk : Disk) (name : List UInt8) : Disk × String :=
  match readHeader disk with
  | none => (disk, noHeader disk)
  | some header =>
    match pfsUnlinkHeader header name with
    | .ok header =>
      match writeHeader disk header with
      | (true, disk) => (disk, "ok")
      | (false, disk) => (disk, "pdelete: header write failed")
    | .error code =>
      (disk, if code = -2 then "pdelete: directory not empty" else "pdelete: not found")

end Rymos
