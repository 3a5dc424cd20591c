import Mathlib.Tactic
import Rymos.Base.Fields

/-!
# Reading a FAT32 volume

* `Geometry`, `geometry`: the volume as its boot sector describes it; `IsFat32`.
* `fatEntry`, `chain`, `chainBytes`: the links of the first table, and the bytes of the clusters they
  lead through. **`chain_eq`**: clusters linked one after the other.
* `DirEntry`, `dirEntries`, `lookup`: directories, and a path from the root.
* `IsFile`, `IsDir`: what is found at a path. **`take_chunks`**: a file cut into clusters.
-/

namespace Fat32

open ByteBuf

/-! ## The volume -/

/-- The sizes in the boot sector. -/
structure Geometry where
  bytesPerSector : ℕ
  sectorsPerCluster : ℕ
  reservedSectors : ℕ
  fatCount : ℕ
  totalSectors : ℕ
  fatSectors : ℕ
  rootCluster : ℕ
deriving DecidableEq

def geometry (image : List UInt8) : Geometry where
  bytesPerSector := numberAt image 11 2
  sectorsPerCluster := numberAt image 13 1
  reservedSectors := numberAt image 14 2
  fatCount := numberAt image 16 1
  totalSectors := numberAt image 32 4
  fatSectors := numberAt image 36 4
  rootCluster := numberAt image 44 4

/-- The first sector of the data area. -/
def Geometry.dataStart (g : Geometry) : ℕ := g.reservedSectors + g.fatCount * g.fatSectors

/-- The number of clusters of the data area; the first one is cluster `2`. -/
def Geometry.clusterCount (g : Geometry) : ℕ := (g.totalSectors - g.dataStart) / g.sectorsPerCluster

def Geometry.clusterSize (g : Geometry) : ℕ := g.sectorsPerCluster * g.bytesPerSector

/-- Where the bytes of a cluster start. -/
def Geometry.clusterStart (g : Geometry) (cluster : ℕ) : ℕ :=
  (g.dataStart + (cluster - 2) * g.sectorsPerCluster) * g.bytesPerSector

/-- Where the link of a cluster stands in a copy of the table. -/
def Geometry.linkStart (g : Geometry) (copy cluster : ℕ) : ℕ :=
  (g.reservedSectors + copy * g.fatSectors) * g.bytesPerSector + 4 * cluster

/-- A cluster of the data area. -/
def Geometry.HasCluster (g : Geometry) (cluster : ℕ) : Prop :=
  2 ≤ cluster ∧ cluster < g.clusterCount + 2

instance (g : Geometry) (cluster : ℕ) : Decidable (g.HasCluster cluster) := by
  unfold Geometry.HasCluster
  infer_instance

/-- The fields that older versions use are zero, the sector is signed, there are clusters enough for
the version, the table has a link for each of them, and the data area ends with the image. -/
structure IsFat32 (image : List UInt8) : Prop where
  signature : field image 510 2 = [0x55, 0xAA]
  rootEntries : numberAt image 17 2 = 0
  totalSectors16 : numberAt image 19 2 = 0
  fatSectors16 : numberAt image 22 2 = 0
  version : numberAt image 42 2 = 0
  clusters : 65525 ≤ (geometry image).clusterCount
  table : ((geometry image).clusterCount + 2) * 4 ≤
    (geometry image).fatSectors * (geometry image).bytesPerSector
  length : image.length = (geometry image).totalSectors * (geometry image).bytesPerSector

/-! ## Chains -/

/-- The least mark of an end of a chain. -/
abbrev endMark : ℕ := 0x0FFFFFF8

/-- The link of a cluster; the high four bits do not count. -/
def fatEntry (image : List UInt8) (cluster : ℕ) : ℕ :=
  numberAt image ((geometry image).linkStart 0 cluster) 4 % 2 ^ 28

/-- The clusters from one on to the mark of the end; `none` if a link leads out of the data area or
there are more than `fuel` of them. -/
def chainFrom (image : List UInt8) : ℕ → ℕ → Option (List ℕ)
  | 0, _ => none
  | fuel + 1, cluster =>
    if (geometry image).HasCluster cluster then
      if endMark ≤ fatEntry image cluster then some [cluster]
      else (chainFrom image fuel (fatEntry image cluster)).map (cluster :: ·)
    else none

/-- A chain is not longer than the volume has clusters. -/
def chain (image : List UInt8) (cluster : ℕ) : Option (List ℕ) :=
  chainFrom image (geometry image).clusterCount cluster

def clusterBytes (image : List UInt8) (cluster : ℕ) : List UInt8 :=
  field image ((geometry image).clusterStart cluster) (geometry image).clusterSize

def chainBytes (image : List UInt8) (clusters : List ℕ) : List UInt8 :=
  clusters.flatMap (clusterBytes image)

/-- Both copies of the table hold the same bytes. -/
def CopiesEqual (image : List UInt8) : Prop :=
  let g := geometry image
  field image (g.linkStart 1 0) (g.fatSectors * g.bytesPerSector) =
    field image (g.linkStart 0 0) (g.fatSectors * g.bytesPerSector)

/-! ## Directories -/

structure DirEntry where
  name : List UInt8
  attr : UInt8
  cluster : ℕ
  size : ℕ
deriving DecidableEq

/-- The entry in the first 32 bytes. -/
def dirEntry (bytes : List UInt8) : DirEntry where
  name := field bytes 0 11
  attr := (field bytes 11 1).headD 0
  cluster := numberAt bytes 20 2 * 2 ^ 16 + numberAt bytes 26 2
  size := numberAt bytes 28 4

/-- The entries up to the first that starts with zero, `fuel` at most. -/
def dirEntries : ℕ → List UInt8 → List DirEntry
  | 0, _ => []
  | fuel + 1, bytes =>
    if bytes.headD 0 = 0 then [] else dirEntry bytes :: dirEntries fuel (bytes.drop 32)

/-- The entry marks a directory. -/
def DirEntry.isDir (entry : DirEntry) : Bool := entry.attr &&& 0x10 != 0

/-- A name of eight and an extension of three bytes. -/
def shortName (base ext : List UInt8) : List UInt8 :=
  base ++ List.replicate (8 - base.length) 32 ++ (ext ++ List.replicate (3 - ext.length) 32)

/-- The entry of a name in the directory that starts at a cluster. -/
def findIn (image : List UInt8) (cluster : ℕ) (name : List UInt8) : Option DirEntry :=
  (chain image cluster).bind fun clusters =>
    let bytes := chainBytes image clusters
    (dirEntries (bytes.length / 32) bytes).find? fun entry => entry.name == name

/-- The entry a path leads to, from the directory at a cluster. -/
def lookupFrom (image : List UInt8) : ℕ → List (List UInt8) → Option DirEntry
  | _, [] => none
  | cluster, [name] => findIn image cluster name
  | cluster, name :: path =>
    (findIn image cluster name).bind fun entry =>
      if entry.isDir then lookupFrom image entry.cluster path else none

theorem lookupFrom_cons (image : List UInt8) (cluster : ℕ) (name next : List UInt8)
    (path : List (List UInt8)) : lookupFrom image cluster (name :: next :: path) =
      (findIn image cluster name).bind fun entry =>
        if entry.isDir then lookupFrom image entry.cluster (next :: path) else none := rfl

def lookup (image : List UInt8) (path : List (List UInt8)) : Option DirEntry :=
  lookupFrom image (geometry image).rootCluster path

/-- At the path there is a file with these clusters and these bytes. -/
structure IsFile (image : List UInt8) (path : List (List UInt8)) (clusters : List ℕ)
    (payload : List UInt8) : Prop where
  entry : ∃ entry, lookup image path = some entry ∧ entry.isDir = false ∧
    entry.size = payload.length ∧ chain image entry.cluster = some clusters
  bytes : (chainBytes image clusters).take payload.length = payload

/-- At the path there is a directory with these clusters. -/
def IsDir (image : List UInt8) (path : List (List UInt8)) (clusters : List ℕ) : Prop :=
  ∃ entry, lookup image path = some entry ∧ entry.isDir = true ∧
    chain image entry.cluster = some clusters

/-- A path leads to one file. -/
theorem IsFile.eq {image : List UInt8} {path : List (List UInt8)} {clusters clusters' : List ℕ}
    {payload payload' : List UInt8} (h : IsFile image path clusters payload)
    (h' : IsFile image path clusters' payload') : payload = payload' := by
  obtain ⟨entry, hentry, -, hsize, hchain⟩ := h.entry
  obtain ⟨entry', hentry', -, hsize', hchain'⟩ := h'.entry
  obtain rfl := Option.some.inj (hentry.symm.trans hentry')
  obtain rfl := Option.some.inj (hchain.symm.trans hchain')
  rw [← h.bytes, ← h'.bytes, ← hsize, ← hsize']

/-! ## Entries one after the other -/

section Entries

variable {entry rest : List UInt8}

theorem dirEntry_append (h : entry.length = 32) : dirEntry (entry ++ rest) = dirEntry entry := by
  simp only [dirEntry, numberAt]
  rw [field_append_left (by omega), field_append_left (by omega), field_append_left (by omega),
    field_append_left (by omega), field_append_left (by omega)]

theorem dirEntries_append (h : entry.length = 32) (h0 : entry.headD 0 ≠ 0) (fuel : ℕ) :
    dirEntries (fuel + 1) (entry ++ rest) = dirEntry entry :: dirEntries fuel rest := by
  have hne : entry ≠ [] := fun hnil => by simp [hnil] at h
  have hhead : (entry ++ rest).headD 0 = entry.headD 0 := by
    cases entry with
    | nil => exact absurd rfl hne
    | cons byte entry => rfl
  rw [dirEntries, hhead, if_neg h0, dirEntry_append h, ← h, List.drop_left]

theorem dirEntries_zeros (fuel n : ℕ) : dirEntries fuel (List.replicate n 0) = [] := by
  cases fuel with
  | zero => rfl
  | succ fuel =>
    rw [dirEntries, if_pos]
    cases n <;> rfl

end Entries

/-! ## Clusters one after the other -/

section Chain

variable {image : List UInt8} {first n fuel : ℕ}

theorem chainFrom_eq (hn : 0 < n) (hfuel : n ≤ fuel)
    (hin : ∀ c, first ≤ c → c < first + n → (geometry image).HasCluster c)
    (hlink : ∀ c, first ≤ c → c + 1 < first + n → fatEntry image c = c + 1)
    (hend : endMark ≤ fatEntry image (first + n - 1)) (hsmall : first + n ≤ endMark) :
    chainFrom image fuel first = some (List.range' first n) := by
  induction n generalizing first fuel with
  | zero => omega
  | succ n ih =>
    obtain ⟨fuel, rfl⟩ : ∃ f, fuel = f + 1 := ⟨fuel - 1, by omega⟩
    rw [chainFrom, if_pos (hin first le_rfl (by omega))]
    by_cases hlast : n = 0
    · subst hlast
      rw [if_pos (by simpa using hend)]
      rfl
    · have hnext := hlink first le_rfl (by omega)
      rw [if_neg (by omega), hnext, ih (by omega) (by omega) (fun c hc hc' => hin c (by omega) (by omega))
        (fun c hc hc' => hlink c (by omega) (by omega)) (by
          rw [show first + 1 + n - 1 = first + (n + 1) - 1 by omega]
          exact hend) (by omega)]
      rfl

/-- **Clusters linked one after the other are a chain.** -/
theorem chain_eq (hn : 0 < n) (hfit : n ≤ (geometry image).clusterCount)
    (hin : ∀ c, first ≤ c → c < first + n → (geometry image).HasCluster c)
    (hlink : ∀ c, first ≤ c → c + 1 < first + n → fatEntry image c = c + 1)
    (hend : endMark ≤ fatEntry image (first + n - 1)) (hsmall : first + n ≤ endMark) :
    chain image first = some (List.range' first n) :=
  chainFrom_eq hn hfit hin hlink hend hsmall

/-- **A string cut into pieces of `w` bytes, each filled up with zeros.** -/
theorem take_chunks {w : ℕ} {payload : List UInt8} {start : ℕ}
    (hlen : payload.length ≤ n * w) {bytes : ℕ → List UInt8}
    (hb : ∀ i < n, bytes (start + i) = (payload.drop (i * w)).take w ++
      List.replicate (w - ((payload.drop (i * w)).take w).length) 0) :
    ((List.range' start n).flatMap bytes).take payload.length = payload := by
  induction n generalizing payload start with
  | zero =>
    obtain rfl := List.length_eq_zero_iff.mp (show payload.length = 0 by omega)
    rfl
  | succ n ih =>
    have h₀ := hb 0 (by omega)
    simp only [Nat.zero_mul, List.drop_zero, Nat.add_zero] at h₀
    rw [List.range'_succ, List.flatMap_cons, h₀]
    by_cases hle : payload.length ≤ w
    · rw [List.take_of_length_le hle, List.append_assoc, List.take_left]
    · have hfull : (payload.take w).length = w := by rw [List.length_take]; omega
      have hrest : (payload.drop w).length = payload.length - w := List.length_drop
      rw [hfull, Nat.sub_self, List.replicate_zero, List.append_nil, List.take_append, hfull,
        List.take_of_length_le (by omega), ← hrest, ih (by rw [hrest, Nat.succ_mul] at *; omega)
          fun i hi => ?_, List.take_append_drop]
      rw [show start + 1 + i = start + (i + 1) by omega, hb (i + 1) (by omega), List.drop_drop,
        show (i + 1) * w = w + i * w by ring]

end Chain

end Fat32
