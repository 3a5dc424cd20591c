import Mathlib.Tactic
import Rymos.Mem.Paging

/-!
# The address space of a process

* `userHeapBase` and its like, `heapBase`, `mmapBase`, `stackBase`: the windows of a pid.
* `ensureKernelPml4`, `createProcessAddressSpace`, `destroyProcessAddressSpace`: the private tables.
* `createProcessStack`, `reclaimProcessStack`, `reclaimProcessWindowTables`: the windows' tables.
-/

namespace Rymos

abbrev userHeapBase : ℕ := 0xFFFF900000000000
abbrev userHeapStride : ℕ := 256 * 1024 * 1024
abbrev userMmapBase : ℕ := 0xFFFFA00000000000
abbrev userMmapStride : ℕ := 1024 * 1024 * 1024
abbrev userMmapSize : ℕ := 768 * 1024 * 1024
abbrev kernelStackBase : ℕ := 0xFFFFB00000000000
abbrev kernelStackStride : ℕ := 2 * 1024 * 1024
abbrev kernelStackPages : ℕ := 32

def heapBase (pid : ℕ) : ℕ := (userHeapBase + pid * userHeapStride) % 2 ^ 64
def mmapBase (pid : ℕ) : ℕ := (userMmapBase + pid * userMmapStride) % 2 ^ 64
def stackBase (pid : ℕ) : ℕ := (kernelStackBase + pid * kernelStackStride) % 2 ^ 64

/-! ## Private tables -/

def cloneActivePml4 (mem : Memory) : Option ℕ × Memory :=
  match allocZeroedPage mem with
  | (none, mem) => (none, mem)
  | (some newPml4, mem) => (some newPml4, mem.copyTable mem.cr3 newPml4)

def ensureKernelPml4 (mem : Memory) : Option ℕ × Memory :=
  if mem.kernelPml4 ≠ 0 then (some mem.kernelPml4, mem)
  else
    match cloneActivePml4 mem with
    | (none, mem) => (none, mem)
    | (some newPml4, mem) => (some newPml4, { mem with kernelPml4 := newPml4, cr3 := newPml4 })

/-- The top-level entries of the three windows of a pid, made before the kernel's PML4 is copied. -/
def touchWindows (kernelPml4 pid : ℕ) (mem : Memory) : Bool × Memory :=
  match ensureNextTable kernelPml4 (pml4Index (heapBase pid)) mem with
  | (none, mem) => (false, mem)
  | (some _, mem) =>
    match ensureNextTable kernelPml4 (pml4Index (mmapBase pid)) mem with
    | (none, mem) => (false, mem)
    | (some _, mem) =>
      match ensureNextTable kernelPml4 (pml4Index (stackBase pid)) mem with
      | (none, mem) => (false, mem)
      | (some _, mem) => (true, mem)

abbrev startPdIndex : ℕ := pdIndex appLoadMin
abbrev endPdIndex : ℕ := pdIndex (appLoadMax - pageSize) + 1

/-- The copies of the kernel's PML4, PDPT and PD for the image window. -/
def copyImageTables (kernelPml4 : ℕ) (mem : Memory) : Option ℕ × Memory :=
  match allocZeroedPage mem with
  | (none, mem) => (none, mem)
  | (some newPml4, mem) =>
    let mem := mem.copyTable kernelPml4 newPml4
    match tableEntryAddress (mem.table newPml4 (pml4Index appLoadMin)) with
    | none => (none, freed newPml4 mem)
    | some sharedPdpt =>
      match allocZeroedPage mem with
      | (none, mem) => (none, freed newPml4 mem)
      | (some newPdpt, mem) =>
        let mem := mem.copyTable sharedPdpt newPdpt
        match tableEntryAddress (mem.table newPdpt (pdptIndex appLoadMin)) with
        | none => (none, freed newPml4 (freed newPdpt mem))
        | some sharedPd =>
          match allocZeroedPage mem with
          | (none, mem) => (none, freed newPml4 (freed newPdpt mem))
          | (some newPd, mem) =>
            let mem := (mem.copyTable sharedPd newPd).clearEntries newPd startPdIndex endPdIndex
            let mem := mem.write newPdpt (pdptIndex appLoadMin) (pageEntry newPd presentWritable)
            (some newPml4,
              mem.write newPml4 (pml4Index appLoadMin) (pageEntry newPdpt presentWritable))

def createProcessAddressSpace (pid : ℕ) (mem : Memory) : Option ℕ × Memory :=
  match ensureKernelPml4 mem with
  | (none, mem) => (none, mem)
  | (some kernelPml4, mem) =>
    match touchWindows kernelPml4 pid mem with
    | (false, mem) => (none, mem)
    | (true, mem) => copyImageTables kernelPml4 mem

/-- Frees what the given entries of a table refer to. -/
def freeEntries (table : ℕ) (indexes : List ℕ) (mem : Memory) : Memory :=
  indexes.foldl (fun mem index =>
    match tableEntryAddress (mem.table table index) with
    | none => mem
    | some phys => freed phys mem) mem

/-- Frees the page tables of the entries `start` to `stop` of a PD, and what they map. -/
def freeImageTables (pd start stop : ℕ) (mem : Memory) : Memory :=
  (List.range' start (stop - start)).foldl (fun mem pdIdx =>
    match tableEntryAddress (mem.table pd pdIdx) with
    | none => mem
    | some pt => freed pt (freeEntries pt (List.range pageTableEntries) mem)) mem

def destroyProcessAddressSpace (pml4 : ℕ) (mem : Memory) : Memory :=
  if pml4 = 0 then mem
  else
    freed pml4 <|
      match tableEntryAddress (mem.table pml4 (pml4Index appLoadMin)) with
      | none => mem
      | some pdpt =>
        freed pdpt <|
          match tableEntryAddress (mem.table pdpt (pdptIndex appLoadMin)) with
          | none => mem
          | some pd => freed pd (freeImageTables pd startPdIndex endPdIndex mem)

/-! ## Windows -/

/-- The lowest page of the mapped part of a stack: the top of its slice. -/
def stackMappedBase (pid : ℕ) : ℕ :=
  (stackBase pid + kernelStackStride - kernelStackPages * pageSize) % 2 ^ 64

def createProcessStack (pid : ℕ) (mem : Memory) : Option ℕ × Memory :=
  match ensureKernelPml4 mem with
  | (none, mem) => (none, mem)
  | (some kernelPml4, mem) =>
    match mapUserPages kernelPml4 (stackMappedBase pid) kernelStackPages mem with
    | (false, mem) => (none, mem)
    | (true, mem) => (some ((stackBase pid + kernelStackStride) % 2 ^ 64), mem)

/-- The page table at an entry of a PD freed, and the entry cleared. -/
def freeTableAt (pd pdIdx : ℕ) (mem : Memory) : Memory :=
  match tableEntryAddress (mem.table pd pdIdx) with
  | none => mem
  | some pt => (freed pt mem).write pd pdIdx 0

/-- The PD that an address is looked up in. -/
def pdOf (pml4 virt : ℕ) (mem : Memory) : Option ℕ :=
  follow mem.table pml4 [pml4Index virt, pdptIndex virt]

def reclaimProcessStack (pid : ℕ) (mem : Memory) : Memory :=
  match ensureKernelPml4 mem with
  | (none, mem) => mem
  | (some kernelPml4, mem) =>
    let mem := (unmapUserPages kernelPml4 (stackMappedBase pid) kernelStackPages mem).2
    match pdOf kernelPml4 (stackBase pid) mem with
    | none => mem
    | some pd => freeTableAt pd (pdIndex (stackBase pid)) mem

/-- The page tables of a heap window: a quarter of a PD, whose other entries belong to other pids. -/
def reclaimHeapTables (kernelPml4 pid : ℕ) (mem : Memory) : Memory :=
  match pdOf kernelPml4 (heapBase pid) mem with
  | none => mem
  | some pd =>
    (List.range' (pdIndex (heapBase pid)) (userHeapStride / (2 * 1024 * 1024))).foldl
      (fun mem pdIdx => freeTableAt pd pdIdx mem) mem

/-- The tables of an mmap window: a whole PD. -/
def reclaimMmapTables (kernelPml4 pid : ℕ) (mem : Memory) : Memory :=
  match tableEntryAddress (mem.table kernelPml4 (pml4Index (mmapBase pid))) with
  | none => mem
  | some pdpt =>
    match tableEntryAddress (mem.table pdpt (pdptIndex (mmapBase pid))) with
    | none => mem
    | some pd => (freed pd (freeEntries pd (List.range pageTableEntries) mem)).write pdpt
        (pdptIndex (mmapBase pid)) 0

def reclaimProcessWindowTables (pid : ℕ) (mem : Memory) : Memory :=
  if mem.kernelPml4 = 0 then mem
  else reclaimMmapTables mem.kernelPml4 pid (reclaimHeapTables mem.kernelPml4 pid mem)

end Rymos
