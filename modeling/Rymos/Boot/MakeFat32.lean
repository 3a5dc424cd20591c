import Mathlib.Tactic
import Rymos.Boot.Initrd

/-!
# The boot image

`make_fat32.py` lays three payloads out on a FAT32 volume.

* `calculateLayoutLoop`, `calculateLayout`: the sectors of a table. **`calculateLayout_terminates`**,
  `calculateLayout_ok`.
* `shortEntry`, `writeCluster`, `bootSector`, `fatEntries`, `fatLoop`, `writeChunks`, `buildImage`:
  the script. An exception is a `PyError`; a true division is exact (floats are, below `2 ^ 53`).
* `imageWrites`, **`writeImage_eq`**, **`writeImage_isOk_iff`**: what it writes, and when it does.
-/

namespace Rymos

open ByteBuf

abbrev bytesPerSector : ℕ := 512

abbrev sectorsPerCluster : ℕ := 1

abbrev reservedSectors : ℕ := 32

abbrev fatCount : ℕ := 2

abbrev rootCluster : ℕ := 2

abbrev mediaDescriptor : ℕ := 0xF8

abbrev endOfChain : ℕ := 0x0FFFFFFF

/-- The exceptions of the script; `badName` is the `ValueError` of `short_entry`, whose text is
`FAT short name must be 11 bytes:` and the name. -/
inductive PyError
  | valueError (message : String)
  | badName (name : List UInt8)
  | overflowError
  | indexError
deriving DecidableEq

def ofLe (bytes : Option (List UInt8)) : Except PyError (List UInt8) :=
  bytes.elim (.error .overflowError) .ok

/-- `clusters[0]`. -/
def firstOf (clusters : List ℕ) : Except PyError ℕ := clusters.head?.elim (.error .indexError) .ok

/-- The writes to an entry, with its encoded numbers. -/
def entryWrites (name : List UInt8) (attr : UInt8) (high low size : List UInt8) :
    List (ℕ × List UInt8) :=
  [(0, name), (11, [attr]), (20, high), (26, low), (28, size)]

def shortEntry (name : List UInt8) (attr : UInt8) (firstCluster size : ℕ) :
    Except PyError (List UInt8) :=
  if name.length ≠ 11 then .error (.badName name)
  else do
    let high ← ofLe (le16 (firstCluster >>> 16 &&& 0xFFFF))
    let low ← ofLe (le16 (firstCluster &&& 0xFFFF))
    let bytes ← ofLe (le32 size)
    .ok (putAll (List.replicate 32 0) (entryWrites name attr high low bytes))

def clusterOffset (firstDataSector cluster : ℕ) : ℕ :=
  (firstDataSector + (cluster - 2) * sectorsPerCluster) * bytesPerSector

/-- `payload.ljust(length, b"\0")[:length]`. -/
def padded (payload : List UInt8) : List UInt8 :=
  (payload ++ List.replicate (bytesPerSector * sectorsPerCluster - payload.length) 0).take
    (bytesPerSector * sectorsPerCluster)

def writeCluster (image : List UInt8) (firstDataSector cluster : ℕ) (payload : List UInt8) :
    List UInt8 :=
  putAt image (clusterOffset firstDataSector cluster) (padded payload)

/-! ## The layout -/

/-- `math.ceil((cluster_count + 2) * 4 / BYTES_PER_SECTOR)`. -/
def requiredFatSectors (clusterCount : ℤ) : ℤ :=
  ⌈(((clusterCount + 2) * 4 : ℤ) : ℚ) / bytesPerSector⌉

/-- `math.ceil(size / (BYTES_PER_SECTOR * SECTORS_PER_CLUSTER))`. -/
def clustersOf (size : ℕ) : ℕ := ⌈(size : ℚ) / (bytesPerSector * sectorsPerCluster : ℕ)⌉₊

/-- The turn that leaves the loop: the sectors of a table, of the data area, and the clusters. -/
def checkLayout (totalSectors : ℤ) (fileSizes : List ℕ) (fatSectors : ℤ) :
    Except PyError (ℤ × ℤ × ℤ) :=
  let dataSectors := totalSectors - reservedSectors - fatCount * fatSectors
  let clusterCount := dataSectors / sectorsPerCluster
  let fileClusters : ℕ := (fileSizes.map clustersOf).sum
  if clusterCount < 65525 then .error (.valueError "image is too small for FAT32")
  else if clusterCount < 3 + fileClusters then
    .error (.valueError "image is too small for BOOTX64.EFI")
  else .ok (fatSectors, dataSectors, clusterCount)

/-- The `while` loop, for at most `fuel` turns; `none` while it still runs. -/
def calculateLayoutLoop (totalSectors : ℤ) (fileSizes : List ℕ) :
    ℕ → ℤ → Option (Except PyError (ℤ × ℤ × ℤ))
  | 0, _ => none
  | fuel + 1, fatSectors =>
    let dataSectors := totalSectors - reservedSectors - fatCount * fatSectors
    let clusterCount := dataSectors / sectorsPerCluster
    let required := requiredFatSectors clusterCount
    if required ≤ fatSectors then some (checkLayout totalSectors fileSizes fatSectors)
    else calculateLayoutLoop totalSectors fileSizes fuel required

def calculateLayout (fuel : ℕ) (totalSectors : ℤ) (fileSizes : List ℕ) :
    Option (Except PyError (ℤ × ℤ × ℤ)) :=
  calculateLayoutLoop totalSectors fileSizes fuel 1

/-! ## The image -/

/-- The writes to the boot sector, with the encoded numbers of sectors. -/
def bootWrites (totalSectors fatSectors : List UInt8) : List (ℕ × List UInt8) :=
  [(0, [0xEB, 0x58, 0x90]), (3, ascii "RYMOS1  "), (11, leBytes 2 bytesPerSector),
    (13, [UInt8.ofNat sectorsPerCluster]), (14, leBytes 2 reservedSectors),
    (16, [UInt8.ofNat fatCount]), (17, leBytes 2 0), (19, leBytes 2 0),
    (21, [UInt8.ofNat mediaDescriptor]), (22, leBytes 2 0), (24, leBytes 2 63), (26, leBytes 2 255),
    (28, leBytes 4 0), (32, totalSectors), (36, fatSectors), (40, leBytes 2 0), (42, leBytes 2 0),
    (44, leBytes 4 rootCluster), (48, leBytes 2 1), (50, leBytes 2 6), (64, [0x80]), (66, [0x29]),
    (67, leBytes 4 0x20260713), (71, ascii "RYMOS      "), (82, ascii "FAT32   "),
    (510, [0x55, 0xAA])]

def bootSector (totalSectors fatSectors : ℕ) : Except PyError (List UInt8) := do
  let total ← ofLe (le32 totalSectors)
  let fat ← ofLe (le32 fatSectors)
  .ok (putAll (List.replicate bytesPerSector 0) (bootWrites total fat))

def fsinfo : List UInt8 :=
  putAll (List.replicate bytesPerSector 0) [(0, leBytes 4 0x41615252), (484, leBytes 4 0x61417272),
    (488, leBytes 4 0xFFFFFFFF), (492, leBytes 4 5), (508, [0x00, 0x00, 0x55, 0xAA])]

/-- The loop over the clusters of a file: each is linked to the next, the last is marked. -/
def linkChain : List ℕ → List ℕ → List ℕ
  | entries, [] => entries
  | entries, cluster :: clusters =>
    linkChain (entries.set cluster (clusters.headD endOfChain)) clusters

def fatEntries (clusterCount : ℕ) (files : List (List ℕ)) : List ℕ :=
  let entries := List.replicate (clusterCount + 2) 0
  let entries := entries.set 0 (0x0FFFFF00 ||| mediaDescriptor)
  let entries := entries.set 1 endOfChain
  let entries := entries.set rootCluster endOfChain
  let entries := entries.set 3 endOfChain
  let entries := entries.set 4 endOfChain
  files.foldl linkChain entries

/-- The loop that encodes the table. -/
def fatLoop : List UInt8 → ℕ → List ℕ → Except PyError (List UInt8)
  | fat, _, [] => .ok fat
  | fat, index, value :: values => do
    let bytes ← ofLe (le32 value)
    fatLoop (putAt fat (index * 4) bytes) (index + 1) values

/-- The loop over the clusters of a payload. -/
def writeChunks (firstDataSector : ℕ) (payload : List UInt8) :
    List UInt8 → ℕ → List ℕ → List UInt8
  | image, _, [] => image
  | image, index, cluster :: clusters =>
    let clusterSize := bytesPerSector * sectorsPerCluster
    let chunk := field payload (index * clusterSize) clusterSize
    writeChunks firstDataSector payload (writeCluster image firstDataSector cluster chunk)
      (index + 1) clusters

def rootDir (kernelClusters initrdClusters : List ℕ) (kernel initrd : List UInt8) :
    Except PyError (List UInt8) := do
  let efi ← shortEntry (ascii "EFI        ") 0x10 3 0
  let kernelCluster ← firstOf kernelClusters
  let kernelEntry ← shortEntry (ascii "KERNEL  ELF") 0x20 kernelCluster kernel.length
  let initrdCluster ← firstOf initrdClusters
  let initrdEntry ← shortEntry (ascii "INITRD  RFS") 0x20 initrdCluster initrd.length
  .ok (efi ++ kernelEntry ++ initrdEntry)

def efiDir : Except PyError (List UInt8) := do
  let this ← shortEntry (ascii ".          ") 0x10 3 0
  let parent ← shortEntry (ascii "..         ") 0x10 rootCluster 0
  let boot ← shortEntry (ascii "BOOT       ") 0x10 4 0
  .ok (this ++ parent ++ boot)

def bootDir (bootClusters : List ℕ) (boot : List UInt8) : Except PyError (List UInt8) := do
  let this ← shortEntry (ascii ".          ") 0x10 4 0
  let parent ← shortEntry (ascii "..         ") 0x10 3 0
  let bootCluster ← firstOf bootClusters
  let bootEntry ← shortEntry (ascii "BOOTX64 EFI") 0x20 bootCluster boot.length
  .ok (this ++ parent ++ bootEntry)

/-- `build_image` from the allocation of the image on. -/
def writeImage (boot kernel initrd : List UInt8) (totalSectors fatSectors clusterCount : ℕ) :
    Except PyError (List UInt8) := do
  let firstDataSector := reservedSectors + fatCount * fatSectors
  let sector ← bootSector totalSectors fatSectors
  let image := putAll (List.replicate (totalSectors * bytesPerSector) 0)
    [(0, sector), (6 * bytesPerSector, sector), (bytesPerSector, fsinfo), (7 * bytesPerSector, fsinfo)]
  let bootClusters := List.range' 5 (clustersOf boot.length)
  let kernelClusters := List.range' (5 + clustersOf boot.length) (clustersOf kernel.length)
  let initrdClusters := List.range' (5 + clustersOf boot.length + clustersOf kernel.length)
    (clustersOf initrd.length)
  let fat ← fatLoop (List.replicate (fatSectors * bytesPerSector) 0) 0
    (fatEntries clusterCount [bootClusters, kernelClusters, initrdClusters])
  let firstFat := reservedSectors * bytesPerSector
  let secondFat := firstFat + fatSectors * bytesPerSector
  let image := putAll image [(firstFat, fat), (secondFat, fat)]
  let root ← rootDir kernelClusters initrdClusters kernel initrd
  let efi ← efiDir
  let bootd ← bootDir bootClusters boot
  let image := writeCluster image firstDataSector rootCluster root
  let image := writeCluster image firstDataSector 3 efi
  let image := writeCluster image firstDataSector 4 bootd
  let image := writeChunks firstDataSector boot image 0 bootClusters
  let image := writeChunks firstDataSector kernel image 0 kernelClusters
  .ok (writeChunks firstDataSector initrd image 0 initrdClusters)

/-- The sectors of an image of `size_mib`. -/
def imageSectors (sizeMib : ℤ) : ℤ := sizeMib * 1024 * 1024 / bytesPerSector

def buildImage (fuel : ℕ) (boot kernel initrd : List UInt8) (sizeMib : ℤ) :
    Option (Except PyError (List UInt8)) :=
  (calculateLayout fuel (imageSectors sizeMib) [boot.length, kernel.length, initrd.length]).map
    fun layout => do
      let (fatSectors, _, clusterCount) ← layout
      writeImage boot kernel initrd (imageSectors sizeMib).toNat fatSectors.toNat clusterCount.toNat

/-! ## The layout holds the files -/

theorem requiredFatSectors_mono {c c' : ℤ} (h : c ≤ c') :
    requiredFatSectors c ≤ requiredFatSectors c' := by
  refine Int.ceil_mono ?_
  have : (((c + 2) * 4 : ℤ) : ℚ) ≤ ((c' + 2) * 4 : ℤ) := by exact_mod_cast by omega
  gcongr

theorem table_of_requiredFatSectors {c fatSectors : ℤ} (h : requiredFatSectors c ≤ fatSectors) :
    (c + 2) * 4 ≤ fatSectors * bytesPerSector := by
  have h' := Int.ceil_le.mp h
  rw [div_le_iff₀ (by norm_num)] at h'
  exact_mod_cast h'

theorem le_clustersOf (size : ℕ) : size ≤ clustersOf size * bytesPerSector := by
  have h := Nat.le_ceil ((size : ℚ) / (bytesPerSector * sectorsPerCluster : ℕ))
  rw [div_le_iff₀ (by norm_num)] at h
  exact_mod_cast h

theorem clustersOf_le {size n : ℕ} (h : size ≤ n * bytesPerSector) : clustersOf size ≤ n := by
  refine Nat.ceil_le.mpr ?_
  rw [div_le_iff₀ (by norm_num)]
  exact_mod_cast h

theorem clustersOf_pos {size : ℕ} (h : 0 < size) : 0 < clustersOf size := by
  have := le_clustersOf size
  by_contra h0
  rw [Nat.eq_zero_of_not_pos h0] at this
  omega

theorem calculateLayoutLoop_succ (totalSectors : ℤ) (fileSizes : List ℕ) (fuel : ℕ)
    (fatSectors : ℤ) : calculateLayoutLoop totalSectors fileSizes (fuel + 1) fatSectors =
      if requiredFatSectors (totalSectors - 32 - 2 * fatSectors) ≤ fatSectors then
        some (checkLayout totalSectors fileSizes fatSectors)
      else calculateLayoutLoop totalSectors fileSizes fuel
        (requiredFatSectors (totalSectors - 32 - 2 * fatSectors)) := by
  simp [calculateLayoutLoop]

/-- **The loop stops in its second turn**: a larger table leaves fewer clusters. -/
theorem calculateLayout_terminates (totalSectors : ℤ) (fileSizes : List ℕ) :
    ∃ result, ∀ fuel, 2 ≤ fuel → calculateLayout fuel totalSectors fileSizes = some result := by
  by_cases h₁ : requiredFatSectors (totalSectors - 32 - 2 * 1) ≤ 1
  · refine ⟨checkLayout totalSectors fileSizes 1, fun fuel hfuel => ?_⟩
    obtain ⟨fuel, rfl⟩ : ∃ f, fuel = f + 1 := ⟨fuel - 1, by omega⟩
    rw [calculateLayout, calculateLayoutLoop_succ, if_pos h₁]
  · set next := requiredFatSectors (totalSectors - 32 - 2 * 1) with hnext
    have h₂ : requiredFatSectors (totalSectors - 32 - 2 * next) ≤ next :=
      requiredFatSectors_mono (by omega)
    refine ⟨checkLayout totalSectors fileSizes next, fun fuel hfuel => ?_⟩
    obtain ⟨fuel, rfl⟩ : ∃ f, fuel = f + 2 := ⟨fuel - 2, by omega⟩
    rw [calculateLayout, calculateLayoutLoop_succ, ← hnext, if_neg h₁, calculateLayoutLoop_succ,
      if_pos h₂]

/-- The payloads on a volume of so many sectors. -/
structure ImageLayout (boot kernel initrd : List UInt8)
    (totalSectors fatSectors clusterCount : ℕ) : Prop where
  total : totalSectors = reservedSectors + fatCount * fatSectors + clusterCount
  table : (clusterCount + 2) * 4 ≤ fatSectors * bytesPerSector
  fat32 : 65525 ≤ clusterCount
  room : 3 + (clustersOf boot.length + clustersOf kernel.length + clustersOf initrd.length) ≤
    clusterCount

theorem checkLayout_ok {totalSectors fatSectors fatSectors' dataSectors clusterCount : ℤ}
    {fileSizes : List ℕ} (h : checkLayout totalSectors fileSizes fatSectors =
      .ok (fatSectors', dataSectors, clusterCount)) :
    fatSectors' = fatSectors ∧ clusterCount = totalSectors - 32 - 2 * fatSectors ∧
      65525 ≤ clusterCount ∧ 3 + ((fileSizes.map clustersOf).sum : ℕ) ≤ clusterCount := by
  simp only [checkLayout, sectorsPerCluster, reservedSectors, fatCount, Nat.cast_one, Int.ediv_one,
    Nat.cast_ofNat] at h
  split at h
  · cases h
  split at h
  · cases h
  cases h
  exact ⟨rfl, rfl, by omega, by omega⟩

theorem calculateLayoutLoop_ok {totalSectors fatSectors fatSectors' dataSectors clusterCount : ℤ}
    {fileSizes : List ℕ} {fuel : ℕ}
    (h : calculateLayoutLoop totalSectors fileSizes fuel fatSectors =
      some (.ok (fatSectors', dataSectors, clusterCount))) :
    clusterCount = totalSectors - 32 - 2 * fatSectors' ∧ (clusterCount + 2) * 4 ≤ fatSectors' * 512 ∧
      65525 ≤ clusterCount ∧ 3 + ((fileSizes.map clustersOf).sum : ℕ) ≤ clusterCount := by
  induction fuel generalizing fatSectors with
  | zero => cases h
  | succ fuel ih =>
    rw [calculateLayoutLoop_succ] at h
    split at h
    case isTrue hfit =>
      obtain ⟨rfl, hcount, hfat, hroom⟩ := checkLayout_ok (Option.some.inj h)
      rw [← hcount] at hfit
      exact ⟨hcount, table_of_requiredFatSectors hfit, hfat, hroom⟩
    case isFalse => exact ih h

/-- **A layout that is found holds the payloads.** -/
theorem calculateLayout_ok {totalSectors fatSectors dataSectors clusterCount : ℤ} {fuel : ℕ}
    {boot kernel initrd : List UInt8}
    (h : calculateLayout fuel totalSectors [boot.length, kernel.length, initrd.length] =
      some (.ok (fatSectors, dataSectors, clusterCount))) :
    ImageLayout boot kernel initrd totalSectors.toNat fatSectors.toNat clusterCount.toNat := by
  obtain ⟨hcount, htable, hfat, hroom⟩ := calculateLayoutLoop_ok h
  simp only [List.map_cons, List.map_nil, List.sum_cons, List.sum_nil] at hroom
  refine ⟨?_, ?_, by omega, by omega⟩
  · simp only [reservedSectors, fatCount]
    omega
  · simp only [bytesPerSector]
    omega

/-! ## What is written -/

/-- The boot sector. -/
def bootBytes (totalSectors fatSectors : ℕ) : List UInt8 :=
  putAll (List.replicate bytesPerSector 0)
    (bootWrites (leBytes 4 totalSectors) (leBytes 4 fatSectors))

/-- The entry of a file or directory. -/
def entryBytes (name : List UInt8) (attr : UInt8) (firstCluster size : ℕ) : List UInt8 :=
  putAll (List.replicate 32 0) (entryWrites name attr (leBytes 2 (firstCluster >>> 16 &&& 0xFFFF))
    (leBytes 2 (firstCluster &&& 0xFFFF)) (leBytes 4 size))

theorem Except.bind_ok {ε α β : Type} {x : Except ε α} {f : α → Except ε β} {b : β}
    (h : (x >>= f) = .ok b) : ∃ a, x = .ok a ∧ f a = .ok b := by
  cases x with
  | error e => cases h
  | ok a => exact ⟨a, rfl, h⟩

theorem Except.ok_bind {ε α β : Type} (a : α) (f : α → Except ε β) : (Except.ok a >>= f) = f a := rfl

theorem ofLe_le32 {value : ℕ} (h : value < 2 ^ 32) : ofLe (le32 value) = .ok (leBytes 4 value) := by
  rw [le32, if_pos h]
  rfl

theorem ofLe_le16 {value : ℕ} (h : value < 2 ^ 16) : ofLe (le16 value) = .ok (leBytes 2 value) := by
  rw [le16, if_pos h]
  rfl

theorem lt_of_ofLe_le32 {value : ℕ} {bytes : List UInt8} (h : ofLe (le32 value) = .ok bytes) :
    value < 2 ^ 32 := by
  by_contra hlt
  rw [le32, if_neg hlt] at h
  cases h

theorem shortEntry_eq {name : List UInt8} (hname : name.length = 11) (attr : UInt8)
    (firstCluster : ℕ) {size : ℕ} (hsize : size < 2 ^ 32) :
    shortEntry name attr firstCluster size = .ok (entryBytes name attr firstCluster size) := by
  have hhigh : firstCluster >>> 16 &&& 0xFFFF < 2 ^ 16 := Nat.and_lt_two_pow _ (by norm_num)
  have hlow : firstCluster &&& 0xFFFF < 2 ^ 16 := Nat.and_lt_two_pow _ (by norm_num)
  rw [shortEntry, if_neg (by omega), ofLe_le16 hhigh, ofLe_le16 hlow, ofLe_le32 hsize]
  rfl

theorem size_lt_of_shortEntry {name bytes : List UInt8} {attr : UInt8} {firstCluster size : ℕ}
    (h : shortEntry name attr firstCluster size = .ok bytes) : size < 2 ^ 32 := by
  rw [shortEntry] at h
  split at h
  · cases h
  obtain ⟨_, -, h⟩ := Except.bind_ok h
  obtain ⟨_, -, h⟩ := Except.bind_ok h
  obtain ⟨_, hsize, -⟩ := Except.bind_ok h
  exact lt_of_ofLe_le32 hsize

theorem bootSector_eq {totalSectors fatSectors : ℕ} (ht : totalSectors < 2 ^ 32)
    (hf : fatSectors < 2 ^ 32) :
    bootSector totalSectors fatSectors = .ok (bootBytes totalSectors fatSectors) := by
  rw [bootSector, ofLe_le32 ht, ofLe_le32 hf]
  rfl

theorem firstOf_range' {first n : ℕ} (h : 0 < n) : firstOf (List.range' first n) = .ok first := by
  obtain ⟨n, rfl⟩ : ∃ k, n = k + 1 := ⟨n - 1, by omega⟩
  rfl

/-! ### The table -/

@[simp] theorem length_linkChain (entries clusters : List ℕ) :
    (linkChain entries clusters).length = entries.length := by
  induction clusters generalizing entries with
  | nil => rfl
  | cons cluster clusters ih => rw [linkChain, ih, List.length_set]

theorem getElem?_linkChain_of_not_mem {entries clusters : List ℕ} {c : ℕ} (h : c ∉ clusters) :
    (linkChain entries clusters)[c]? = entries[c]? := by
  induction clusters generalizing entries with
  | nil => rfl
  | cons cluster clusters ih =>
    rw [List.mem_cons, not_or] at h
    rw [linkChain, ih h.2, List.getElem?_set_ne (Ne.symm h.1)]

/-- The link of a cluster in a run of clusters. -/
theorem getElem?_linkChain_range' {entries : List ℕ} {first n c : ℕ} (hc : first ≤ c)
    (hc' : c < first + n) (hlen : first + n ≤ entries.length) :
    (linkChain entries (List.range' first n))[c]? =
      some (if c + 1 < first + n then c + 1 else endOfChain) := by
  induction n generalizing entries first with
  | zero => omega
  | succ n ih =>
    rw [List.range'_succ, linkChain]
    rcases eq_or_lt_of_le hc with rfl | hlt
    · rw [getElem?_linkChain_of_not_mem (by simp [List.mem_range']; omega),
        List.getElem?_set_self (by omega)]
      cases n with
      | zero => simp
      | succ n => simp [List.range'_succ]
    · rw [ih hlt (by omega) (by rw [List.length_set]; omega)]
      simp only [show first + 1 + n = first + (n + 1) by omega]

theorem forall_mem_linkChain {entries clusters : List ℕ} {bound : ℕ} (he : ∀ v ∈ entries, v < bound)
    (hc : ∀ v ∈ clusters, v < bound) (hb : endOfChain < bound) :
    ∀ v ∈ linkChain entries clusters, v < bound := by
  induction clusters generalizing entries with
  | nil => exact he
  | cons cluster clusters ih =>
    refine ih (fun v hv => ?_) fun v hv => hc v (List.mem_cons_of_mem _ hv)
    rcases List.mem_or_eq_of_mem_set hv with hv | rfl
    · exact he v hv
    · cases clusters with
      | nil => exact hb
      | cons next clusters => exact hc next (by simp)

theorem fatLoop_eq {values : List ℕ} (h : ∀ v ∈ values, v < 2 ^ 32) (fat : List UInt8)
    (index : ℕ) : fatLoop fat index values =
      .ok (putAll fat (blockWrites 4 (index * 4) (values.map (leBytes 4)))) := by
  induction values generalizing fat index with
  | nil => rfl
  | cons value values ih =>
    rw [fatLoop, ofLe_le32 (h value (by simp))]
    change fatLoop _ _ _ = _
    rw [ih (fun v hv => h v (List.mem_cons_of_mem _ hv)), Nat.succ_mul]
    rfl

/-! ### The clusters -/

theorem length_padded (payload : List UInt8) : (padded payload).length = bytesPerSector := by
  simp only [padded, List.length_take, List.length_append, List.length_replicate, Nat.mul_one]
  omega

theorem padded_eq {payload : List UInt8} (h : payload.length ≤ bytesPerSector) :
    padded payload = payload ++ List.replicate (bytesPerSector - payload.length) 0 := by
  rw [padded, Nat.mul_one, List.take_of_length_le]
  rw [List.length_append, List.length_replicate]
  omega

/-- The clusters of a payload, from number `index` on. -/
def chunks (payload : List UInt8) (index n : ℕ) : List (List UInt8) :=
  (List.range' index n).map fun i => padded (field payload (i * bytesPerSector) bytesPerSector)

theorem chunks_succ (payload : List UInt8) (index n : ℕ) : chunks payload index (n + 1) =
    padded (field payload (index * bytesPerSector) bytesPerSector) :: chunks payload (index + 1) n := by
  rw [chunks, List.range'_succ, List.map_cons, chunks]

theorem writeChunks_eq {firstDataSector : ℕ} {payload : List UInt8} {first n : ℕ} (h : 2 ≤ first)
    (image : List UInt8) (index : ℕ) :
    writeChunks firstDataSector payload image index (List.range' first n) =
      putAll image (blockWrites bytesPerSector ((firstDataSector + (first - 2)) * bytesPerSector)
        (chunks payload index n)) := by
  induction n generalizing image first index with
  | zero => rfl
  | succ n ih =>
    have hnext : (firstDataSector + (first + 1 - 2)) * bytesPerSector =
        (firstDataSector + (first - 2)) * bytesPerSector + bytesPerSector := by
      rw [show first + 1 - 2 = first - 2 + 1 by omega]
      ring
    rw [List.range'_succ, writeChunks, ih (by omega), chunks_succ, blockWrites, putAll_cons, hnext,
      writeCluster, clusterOffset]
    simp only [sectorsPerCluster, Nat.mul_one]

/-! ### The whole image -/

section Image

variable (boot kernel initrd : List UInt8) (totalSectors fatSectors clusterCount : ℕ)

abbrev kernelFirst : ℕ := 5 + clustersOf boot.length

abbrev initrdFirst : ℕ := kernelFirst boot + clustersOf kernel.length

/-- The links of all clusters. -/
def imageEntries : List ℕ :=
  fatEntries clusterCount [List.range' 5 (clustersOf boot.length),
    List.range' (kernelFirst boot) (clustersOf kernel.length),
    List.range' (initrdFirst boot kernel) (clustersOf initrd.length)]

/-- A copy of the table. -/
def tableBytes : List UInt8 :=
  putAll (List.replicate (fatSectors * bytesPerSector) 0)
    (blockWrites 4 0 ((imageEntries boot kernel initrd clusterCount).map (leBytes 4)))

def rootBytes : List UInt8 :=
  entryBytes (ascii "EFI        ") 0x10 3 0 ++
    entryBytes (ascii "KERNEL  ELF") 0x20 (kernelFirst boot) kernel.length ++
    entryBytes (ascii "INITRD  RFS") 0x20 (initrdFirst boot kernel) initrd.length

def efiBytes : List UInt8 :=
  entryBytes (ascii ".          ") 0x10 3 0 ++ entryBytes (ascii "..         ") 0x10 rootCluster 0 ++
    entryBytes (ascii "BOOT       ") 0x10 4 0

def bootDirBytes : List UInt8 :=
  entryBytes (ascii ".          ") 0x10 4 0 ++ entryBytes (ascii "..         ") 0x10 3 0 ++
    entryBytes (ascii "BOOTX64 EFI") 0x20 5 boot.length

/-- The clusters that are written, from the root directory on. -/
def imageBlocks : List (List UInt8) :=
  [padded (rootBytes boot kernel initrd), padded efiBytes, padded (bootDirBytes boot)] ++
    (chunks boot 0 (clustersOf boot.length) ++ (chunks kernel 0 (clustersOf kernel.length) ++
      chunks initrd 0 (clustersOf initrd.length)))

/-- The writes before the data area. -/
def headWrites : List (ℕ × List UInt8) :=
  let sector := bootBytes totalSectors fatSectors
  let table := tableBytes boot kernel initrd fatSectors clusterCount
  [(0, sector), (6 * bytesPerSector, sector), (bytesPerSector, fsinfo), (7 * bytesPerSector, fsinfo),
    (reservedSectors * bytesPerSector, table),
    (reservedSectors * bytesPerSector + fatSectors * bytesPerSector, table)]

def imageBytes : List UInt8 :=
  putAll (putAll (List.replicate (totalSectors * bytesPerSector) 0)
      (headWrites boot kernel initrd totalSectors fatSectors clusterCount))
    (blockWrites bytesPerSector ((reservedSectors + fatCount * fatSectors) * bytesPerSector)
      (imageBlocks boot kernel initrd))

end Image

/-- The numbers of the image fit their fields. -/
structure Encodable (boot kernel initrd : List UInt8) (totalSectors : ℕ) : Prop where
  boot : boot.length < 2 ^ 32
  kernel : kernel.length < 2 ^ 32
  initrd : initrd.length < 2 ^ 32
  total : totalSectors < 2 ^ 32

section Eq

variable {boot kernel initrd : List UInt8} {totalSectors fatSectors clusterCount : ℕ}

theorem clustersOf_lt {size : ℕ} (h : size < 2 ^ 32) : clustersOf size ≤ 2 ^ 23 :=
  clustersOf_le (by simp only [bytesPerSector]; omega)

theorem forall_mem_set {entries : List ℕ} {bound index value : ℕ} (he : ∀ v ∈ entries, v < bound)
    (hv : value < bound) : ∀ v ∈ entries.set index value, v < bound := by
  intro v hmem
  rcases List.mem_or_eq_of_mem_set hmem with hmem | rfl
  · exact he v hmem
  · exact hv

theorem mem_imageEntries_lt (h : Encodable boot kernel initrd totalSectors) :
    ∀ v ∈ imageEntries boot kernel initrd clusterCount, v < 2 ^ 28 := by
  have hb := clustersOf_lt h.boot
  have hk := clustersOf_lt h.kernel
  have hi := clustersOf_lt h.initrd
  have hrange {first n : ℕ} (hr : first + n ≤ 2 ^ 28) : ∀ v ∈ List.range' first n, v < 2 ^ 28 :=
    fun v hv => (List.mem_range'_1.mp hv).2.trans_le hr
  have hzero : ∀ v ∈ List.replicate (clusterCount + 2) 0, v < 2 ^ 28 := fun v hv => by
    rw [List.eq_of_mem_replicate hv]
    norm_num
  have hend : endOfChain < 2 ^ 28 := by norm_num
  simp only [imageEntries, fatEntries, List.foldl_cons, List.foldl_nil, initrdFirst, kernelFirst]
  refine forall_mem_linkChain (forall_mem_linkChain (forall_mem_linkChain ?_ (hrange (by omega)) hend)
    (hrange (by omega)) hend) (hrange (by omega)) hend
  exact forall_mem_set (forall_mem_set (forall_mem_set (forall_mem_set (forall_mem_set hzero
    (by decide)) hend) hend) hend) hend

theorem rootDir_eq (h : Encodable boot kernel initrd totalSectors) (hk : kernel ≠ [])
    (hi : initrd ≠ []) : rootDir (List.range' (kernelFirst boot) (clustersOf kernel.length))
      (List.range' (initrdFirst boot kernel) (clustersOf initrd.length)) kernel initrd =
        .ok (rootBytes boot kernel initrd) := by
  have hpos {payload : List UInt8} (hp : payload ≠ []) : 0 < clustersOf payload.length :=
    clustersOf_pos (List.length_pos_iff.mpr hp)
  rw [rootDir, shortEntry_eq (by decide) _ _ (by norm_num), firstOf_range' (hpos hk),
    firstOf_range' (hpos hi)]
  simp only [Except.ok_bind]
  rw [shortEntry_eq (by decide) _ _ h.kernel, shortEntry_eq (by decide) _ _ h.initrd]
  rfl

theorem efiDir_eq : efiDir = .ok efiBytes := by
  rw [efiDir, shortEntry_eq (by decide) _ _ (by norm_num), shortEntry_eq (by decide) _ _ (by norm_num),
    shortEntry_eq (by decide) _ _ (by norm_num)]
  rfl

theorem bootDir_eq (h : boot.length < 2 ^ 32) (hb : boot ≠ []) :
    bootDir (List.range' 5 (clustersOf boot.length)) boot = .ok (bootDirBytes boot) := by
  rw [bootDir, firstOf_range' (clustersOf_pos (List.length_pos_iff.mpr hb)),
    shortEntry_eq (by decide) _ _ (by norm_num), shortEntry_eq (by decide) _ _ (by norm_num)]
  simp only [Except.ok_bind]
  rw [shortEntry_eq (by decide) _ _ h]
  rfl

/-- The clusters one after the other. -/
theorem writeClusters_eq (image : List UInt8) (first : ℕ) :
    writeChunks first initrd (writeChunks first kernel (writeChunks first boot (writeCluster
      (writeCluster (writeCluster image first rootCluster (rootBytes boot kernel initrd)) first 3
        efiBytes) first 4 (bootDirBytes boot)) 0 (List.range' 5 (clustersOf boot.length))) 0
      (List.range' (kernelFirst boot) (clustersOf kernel.length))) 0
      (List.range' (initrdFirst boot kernel) (clustersOf initrd.length)) =
    putAll image (blockWrites bytesPerSector (first * bytesPerSector) (imageBlocks boot kernel
      initrd)) := by
  have hlen (payload : List UInt8) (n : ℕ) : (chunks payload 0 n).length = n := by simp [chunks]
  rw [writeChunks_eq (by simp only [initrdFirst, kernelFirst]; omega),
    writeChunks_eq (by simp only [kernelFirst]; omega), writeChunks_eq (by omega), imageBlocks,
    blockWrites_append, putAll_append, blockWrites_append, putAll_append, blockWrites_append,
    putAll_append, hlen, hlen]
  have hb : first * bytesPerSector + bytesPerSector * (0 + 1 + 1 + 1) =
      (first + (5 - 2)) * bytesPerSector := by ring
  have hk : (first + (5 - 2)) * bytesPerSector + bytesPerSector * clustersOf boot.length =
      (first + (kernelFirst boot - 2)) * bytesPerSector := by
    rw [show kernelFirst boot - 2 = 5 - 2 + clustersOf boot.length by
      simp only [kernelFirst]; omega]
    ring
  have hi : (first + (kernelFirst boot - 2)) * bytesPerSector +
      bytesPerSector * clustersOf kernel.length =
        (first + (initrdFirst boot kernel - 2)) * bytesPerSector := by
    rw [show initrdFirst boot kernel - 2 = kernelFirst boot - 2 + clustersOf kernel.length by
      simp only [initrdFirst, kernelFirst]; omega]
    ring
  simp only [List.length_cons, List.length_nil]
  rw [hb, hk, hi]
  simp only [blockWrites, putAll_cons, putAll_nil, writeCluster, clusterOffset, sectorsPerCluster,
    Nat.mul_one]
  rw [show (first + (rootCluster - 2)) * bytesPerSector = first * bytesPerSector by simp,
    show (first + (3 - 2)) * bytesPerSector = first * bytesPerSector + bytesPerSector by ring,
    show (first + (4 - 2)) * bytesPerSector =
      first * bytesPerSector + bytesPerSector + bytesPerSector by ring]

/-- **What the script writes.** -/
theorem writeImage_eq (h : Encodable boot kernel initrd totalSectors)
    (hlay : ImageLayout boot kernel initrd totalSectors fatSectors clusterCount)
    (hb : boot ≠ []) (hk : kernel ≠ []) (hi : initrd ≠ []) :
    writeImage boot kernel initrd totalSectors fatSectors clusterCount =
      .ok (imageBytes boot kernel initrd totalSectors fatSectors clusterCount) := by
  have hfat : fatSectors < 2 ^ 32 := by
    have := hlay.total
    have := h.total
    simp only [reservedSectors, fatCount] at *
    omega
  have htable : fatLoop (List.replicate (fatSectors * bytesPerSector) 0) 0
      (imageEntries boot kernel initrd clusterCount) =
        .ok (tableBytes boot kernel initrd fatSectors clusterCount) :=
    fatLoop_eq (fun v hv => (mem_imageEntries_lt h v hv).trans (by norm_num)) _ 0
  rw [imageEntries] at htable
  rw [writeImage]
  dsimp only
  rw [bootSector_eq h.total hfat, htable, rootDir_eq h hk hi, efiDir_eq,
    bootDir_eq h.boot hb]
  simp only [Except.ok_bind]
  rw [writeClusters_eq, imageBytes, headWrites]
  simp only [putAll_cons, putAll_nil]

/-- An image is written only if the numbers fit. -/
theorem encodable_of_writeImage {image : List UInt8}
    (h : writeImage boot kernel initrd totalSectors fatSectors clusterCount = .ok image) :
    Encodable boot kernel initrd totalSectors := by
  rw [writeImage] at h
  dsimp only at h
  obtain ⟨_, hsector, h⟩ := Except.bind_ok h
  obtain ⟨_, -, h⟩ := Except.bind_ok h
  obtain ⟨_, hroot, h⟩ := Except.bind_ok h
  obtain ⟨_, -, h⟩ := Except.bind_ok h
  obtain ⟨_, hboot, -⟩ := Except.bind_ok h
  obtain ⟨_, -, hroot⟩ := Except.bind_ok hroot
  obtain ⟨_, -, hroot⟩ := Except.bind_ok hroot
  obtain ⟨_, hkernel, hroot⟩ := Except.bind_ok hroot
  obtain ⟨_, -, hroot⟩ := Except.bind_ok hroot
  obtain ⟨_, hinitrd, -⟩ := Except.bind_ok hroot
  obtain ⟨_, -, hboot⟩ := Except.bind_ok hboot
  obtain ⟨_, -, hboot⟩ := Except.bind_ok hboot
  obtain ⟨_, -, hboot⟩ := Except.bind_ok hboot
  obtain ⟨_, hfile, -⟩ := Except.bind_ok hboot
  obtain ⟨_, htotal, -⟩ := Except.bind_ok hsector
  exact ⟨size_lt_of_shortEntry hfile, size_lt_of_shortEntry hkernel, size_lt_of_shortEntry hinitrd,
    lt_of_ofLe_le32 htotal⟩

/-- **An image is written if and only if its numbers fit.** -/
theorem writeImage_isOk_iff
    (hlay : ImageLayout boot kernel initrd totalSectors fatSectors clusterCount)
    (hb : boot ≠ []) (hk : kernel ≠ []) (hi : initrd ≠ []) :
    (∃ image, writeImage boot kernel initrd totalSectors fatSectors clusterCount = .ok image) ↔
      Encodable boot kernel initrd totalSectors :=
  ⟨fun ⟨_, h⟩ => encodable_of_writeImage h, fun h => ⟨_, writeImage_eq h hlay hb hk hi⟩⟩

end Eq

end Rymos
