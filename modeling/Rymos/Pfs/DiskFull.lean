import Mathlib.Tactic
import Rymos.Pfs.Reach
import Rymos.Pfs.Space

/-!
# Disk full

* **`persistentFill_cases`**, `persistentWrite_new`: on a drive that never fails `pwrite` needs room,
  and no more.
* `Choice`, `HasChoice`: free runs for a file to grow into, wherever they are.
* **`noSpuriousDiskFull_iff`**: if some choice of runs is enough, growth succeeds just when the first
  runs are.
* `Lined`, `lined`: a disk with files of one sector side by side. **`not_noSpuriousDiskFull_holes`**.
-/

namespace Rymos

open ByteBuf Extents Transition

/-! ## `pwrite` on a drive that never fails -/

section Console

variable {disk : Disk} {header : Header} {index : ℕ} {name data : List UInt8} {t : ℕ → ℕ}

/-- **An entry is filled just when the first runs suffice**, and else nothing is written. -/
theorem persistentFill_cases (hr : Reliable disk) (hh : readHeaderSilent disk = some header)
    (h : AllocInv header) (hn : NamesFit header) (hi : index < pfsEntryCount)
    (hf : pfsEntryIsFile header index = true) (hmax : data.length ≤ pfsFileMax) :
    (FirstRunsSuffice header index data.length ∧ ∃ mid disk',
      pfsEnsureFileCapacity disk index data.length (t 2) = some (true, mid) ∧
        persistentFill disk index data t = some (disk', "ok") ∧ OnlySectors disk disk' ∧
        diskHeader disk' = pfsStoreSize (diskHeader mid) index data.length (t 3)) ∨
    (¬ FirstRunsSuffice header index data.length ∧
      persistentFill disk index data t = some (disk, "pwrite: disk full")) := by
  have hmagic := readHeaderSilent_eq_some hh
  rw [persistentFill]
  rcases @pfsWriteAt_reliable _ _ _ 0 (t 2) data hr hh h hn hi hf (by omega)
    with ⟨hs, mid, d, hcap, hw, hd, ho⟩ | ⟨hs, hw⟩
  swap
  · rw [Nat.zero_add] at hs
    rw [hw]
    exact Or.inr ⟨hs, rfl⟩
  rw [Nat.zero_add] at hs hcap
  obtain ⟨rfl, hmagic⟩ := hmagic
  rcases pfsEnsureFileCapacity_spec hr.headerWritable h hi hcap with ⟨hc, -⟩ | ⟨-, hroom, -, -⟩
  · cases hc
  have hread : readHeaderSilent d = some (diskHeader mid) := by
    rw [readHeaderSilent_of_reliable (ho.reliable hr), hd]
    rw [hd]
    exact hroom.onlyEntry.slice_magic.trans hmagic
  rw [hw]
  dsimp only
  rw [pfsUpdateSize, hread]
  dsimp only
  rw [(pfsEntryIsFile_iff.mp (hroom.file' hi)).1, if_neg (by simp),
    writeHeader_spec (ho.reliable hr).headerWritable]
  exact Or.inl ⟨hs, mid, _, hcap, rfl, ho.trans rfl, diskHeader_withHeader⟩

/-- The header after `pwrite` has made a new entry. -/
def newFileHeader (header : Header) (index : ℕ) (name : List UInt8) (t : ℕ → ℕ) : Header :=
  pfsSetEntry header index name 0 pfsKindFile [] (t 0) pfsModeDefaultFile (t 1)

/-- `pwrite` of a new name makes the entry and fills it. -/
theorem persistentWrite_new (hr : Reliable disk) (hh : readHeaderSilent disk = some header)
    (hv : validPfsPath name = true) (hmax : data.length ≤ pfsFileMax)
    (hp : pfsParentExists header name = true) (hnone : pfsFindEntry header name = none)
    (hfree : pfsFreeEntry header = some index) :
    persistentWrite disk name data t =
      persistentFill (withHeader disk (newFileHeader header index name t)) index data t := by
  rw [persistentWrite, hv, if_neg (by simp), if_neg (not_lt.mpr hmax), readHeader, if_pos hr.1, hh]
  dsimp only
  rw [hp, if_neg (by simp), hnone]
  dsimp only
  rw [hfree]
  dsimp only
  rw [writeHeader_spec hr.headerWritable]
  rfl

end Console

/-! ## Choices of runs -/

/-- `k` sectors right after the last extent and the runs `runs`, wherever they are: free sectors, no
two of these runs with a common one, `n` of them in all, and an extent left for each of `runs`. -/
structure Choice (header : Header) (extents : List PfsExtent) (n k : ℕ)
    (runs : List PfsExtent) : Prop where
  slots : runs.length + extents.length ≤ pfsMaxExtents
  continues : extents = [] → k = 0
  free : ∀ r ∈ ⟨searchStart extents, k⟩ :: runs, ∀ x, r.Mem x → FreeSector header x
  apart : (⟨searchStart extents, k⟩ :: runs).Pairwise fun a b => ∀ x, a.Mem x → ¬ b.Mem x
  enough : n ≤ k + total runs

/-- File `i` can be given the sectors for `size` bytes by some choice of runs. -/
def HasChoice (header : Header) (i size : ℕ) : Prop :=
  ∃ k runs, Choice header (pfsEntryExtents header i)
    (sectorsForLen size - pfsEntryTotalSectors header i) k runs

/-! ## A disk with holes -/

/-- The live entries have one sector each, side by side from the start of the data area; the other
used entries have none. -/
structure Row (header : Header) (live : ℕ → Prop) : Prop where
  has : ∀ j, live j → j < pfsEntryCount ∧ pfsEntryUsed header j = true ∧
    pfsEntryExtents header j = [⟨pfsDataStart + j, 1⟩]
  rest : ∀ j < pfsEntryCount, pfsEntryUsed header j = true → ¬ live j →
    pfsEntryExtents header j = []

theorem Row.freeSector_iff {header : Header} {live : ℕ → Prop} (h : Row header live) (x : ℕ) :
    FreeSector header x ↔
      pfsDataStart ≤ x ∧ x < pfsDiskSectors ∧ ¬ live (x - pfsDataStart) := by
  refine and_congr_right fun hlo => and_congr_right fun _ => ⟨fun hf hl => ?_, fun hl j hj hu => ?_⟩
  · obtain ⟨hj, hu, he⟩ := h.has _ hl
    refine hf _ hj hu ?_
    rw [he]
    exact ⟨_, List.mem_singleton_self _, by simp only; omega, by simp only [Run.fin]; omega⟩
  · rintro ⟨e, he, hm⟩
    by_cases hlive : live j
    · rw [(h.has j hlive).2.2, List.mem_singleton] at he
      subst he
      simp only [Run.Mem, Run.fin] at hm
      exact hl ((show x - pfsDataStart = j by omega) ▸ hlive)
    · rw [h.rest j hj hu hlive] at he
      cases he

/-- The name of file `j`. -/
def lineName (j : ℕ) : List UInt8 := [97 + UInt8.ofNat j]

theorem lineName_facts : ∀ j < 20, validPfsPath (lineName j) = true ∧
    findLastByte (lineName j) slash = none ∧ ∀ i < 20, lineName i = lineName j → i = j := by
  decide

/-- The live entries are files of one sector in a row, and no other entry is used. -/
structure Lined (sys : Sys) (live : ℕ → Prop) : Prop where
  reach : Reach FsInit (fun _ _ => True) sysStep sys
  reliable : Reliable sys.disk
  readable : readHeaderSilent sys.disk = some (diskHeader sys.disk)
  row : Row (diskHeader sys.disk) live
  file : ∀ j, live j → j < 20 ∧ pfsEntryIsFile (diskHeader sys.disk) j = true ∧
    pfsEntryName (diskHeader sys.disk) j = lineName j
  used : ∀ j < pfsEntryCount, pfsEntryUsed (diskHeader sys.disk) j = true → live j

theorem lined_blankSys : Lined blankSys fun j => j < 0 := by
  have hh : diskHeader blankSys.disk = emptyHeader := diskHeader_withHeader
  have hu : ∀ j, pfsEntryUsed (diskHeader blankSys.disk) j ≠ true := fun j => by
    rw [hh, pfsEntryUsed_emptyHeader]
    exact nofun
  refine ⟨.start fsInit_blankSys, reliable_blankDisk _, ?_, ⟨fun j hj => by omega, fun j _ h _ =>
    absurd h (hu j)⟩, fun j hj => by omega, fun j _ h => absurd h (hu j)⟩
  rw [hh]
  exact readHeaderSilent_blankDisk magic_emptyHeader

section Lined

variable {sys : Sys} {live : ℕ → Prop} {k : ℕ}

/-- Growth of an empty file behind `k` files in a row. -/
theorem pfsGrowExtents_row {header : Header} (hrow : Row header (· < k)) (h : AllocInv header)
    (hk : k < 20) (hf : pfsEntryIsFile header k = true) (he : pfsEntryExtents header k = []) :
    pfsGrowExtents header [] 1 (some k) = some [⟨pfsDataStart + k, 1⟩] := by
  have hi : k < pfsEntryCount := by rw [pfsEntryCount_eq]; omega
  have hopen : ∀ x, pfsDataStart ≤ x → (OpenFor header (some k) x ↔
      x < pfsDiskSectors ∧ ¬ x - pfsDataStart < k) := fun x hx => by
    rw [openFor_iff_freeSector h hi hf (by rw [he]; exact hx), hrow.freeSector_iff]
    tauto
  have hfree : OpenFor header (some k) (pfsDataStart + k) :=
    (hopen _ (by omega)).mpr ⟨by rw [pfsDataStart_eq, pfsDiskSectors_eq]; omega, by omega⟩
  have hfind := @pfsFindFreeRun_firstFree _ pfsDataStart 1 (some k)
    (fun e he => otherExtents_pos h he) Nat.one_pos
  rw [pfsGrowExtents, List.getLast?_nil]
  dsimp only
  rw [growLoop, if_neg one_ne_zero]
  cases hr : pfsFindFreeRun header pfsDataStart 1 (some k) with
  | none =>
    rw [hr] at hfind
    exact absurd hfree (hfind _ (by omega))
  | some run =>
    obtain ⟨s, n⟩ := run
    rw [hr] at hfind
    have hfirst : FirstFree _ _ _ s n := hfind
    have hpos := hfirst.pos
    have hfits := hfirst.fits
    have hle := hfirst.le
    obtain rfl : n = 1 := by omega
    have hs : s = pfsDataStart + k := by
      rcases Nat.lt_trichotomy s (pfsDataStart + k) with hlt | heq | hlt
      · exact absurd ((hopen s hle).mp (hfirst.mem s le_rfl (by omega))).2 (by omega)
      · exact heq
      · exact absurd hfree (hfirst.skip _ (by omega) hlt)
    rw [hs]
    rfl

/-- One more file. -/
theorem Lined.add (h : Lined sys (· < k)) (hk : k < 20) : ∃ sys', Lined sys' (· < k + 1) := by
  have hi : k < pfsEntryCount := by rw [pfsEntryCount_eq]; omega
  obtain ⟨hv, hslash, hinj⟩ := lineName_facts k hk
  have hname : ∀ j < pfsEntryCount, pfsEntryUsed (diskHeader sys.disk) j = true →
      pfsEntryName (diskHeader sys.disk) j ≠ lineName k := fun j hj hu he => by
    obtain ⟨hlt, -, hn⟩ := h.file j (h.used j hj hu)
    have := hinj j hlt (hn.symm.trans he)
    have := h.used j hj hu
    omega
  have hfree : pfsFreeEntry (diskHeader sys.disk) = some k := by
    rw [pfsFreeEntry, List.find?_range_eq_some]
    refine ⟨?_, List.mem_range.mpr hi, fun j hj => ?_⟩
    · rw [Bool.not_eq_true', Bool.eq_false_iff]
      exact fun hu => absurd (h.used k hi hu) (lt_irrefl k)
    · rw [(h.row.has j hj).2.1]
      rfl
  have hparent : pfsParentExists (diskHeader sys.disk) (lineName k) = true := by
    rw [pfsParentExists, hslash]
  have hnone : pfsFindEntry (diskHeader sys.disk) (lineName k) = none := pfsFindEntry_eq_none.mpr hname
  -- the entry is made
  have hlen := (length_of_validPfsPath hv).2
  have hem : Emptied (diskHeader sys.disk) (newFileHeader (diskHeader sys.disk) k (lineName k)
      fun _ => 0) k (lineName k) := emptied_pfsSetEntry hi hlen
  have halloc := @AllocInv.setEmpty _ _ (allocInv_of_reach h.reach) (lineName k) pfsKindFile 0
    pfsModeDefaultFile 0 hi hlen
  have hnames : NamesFit (newFileHeader (diskHeader sys.disk) k (lineName k) fun _ => 0) := by
    refine (namesInv_of_reach h.reach).fit.onlyEntry hem.only fun _ => ?_
    rwa [hem.name_eq]
  have hpw := @persistentWrite_new _ _ _ _ [1] (fun _ => 0) h.reliable h.readable hv (by decide)
    hparent hnone hfree
  change AllocInv (newFileHeader (diskHeader sys.disk) k (lineName k) fun _ => 0) at halloc
  generalize newFileHeader (diskHeader sys.disk) k (lineName k) (fun _ => 0) = h₁
    at hem halloc hnames hpw
  have hr₁ : Reliable (withHeader sys.disk h₁) := h.reliable
  have hh₁ : readHeaderSilent (withHeader sys.disk h₁) = some h₁ := by
    have hmagic := (readHeaderSilent_eq_some h.readable).2
    rw [readHeaderSilent_of_reliable hr₁, diskHeader_withHeader]
    rw [diskHeader_withHeader]
    exact hem.only.slice_magic.trans hmagic
  have hrow : Row h₁ (· < k) := by
    refine ⟨fun j hj => ?_, fun j hj hu hn => ?_⟩
    · have hb := hem.only.other (j := j) (by omega)
      rw [hb.used, hb.extents]
      exact h.row.has j hj
    · by_cases hjk : j = k
      · rw [hjk, hem.extents]
      · have hb := hem.only.other hjk
        rw [hb.used] at hu
        exact absurd (h.used j hj hu) hn
  -- the entry is filled
  have hg : pfsGrowExtents h₁ (pfsEntryExtents h₁ k) (sectorsForLen [(1 : UInt8)].length -
      pfsEntryTotalSectors h₁ k) (some k) = some [⟨pfsDataStart + k, 1⟩] := by
    have ht : pfsEntryTotalSectors h₁ k = 0 := by rw [pfsEntryTotalSectors, hem.extents]; rfl
    rw [hem.extents, ht]
    exact pfsGrowExtents_row hrow halloc hk hem.file hem.extents
  have hsuff : FirstRunsSuffice h₁ k [(1 : UInt8)].length :=
    (pfsGrowExtents_isSome_iff_suffice halloc hi hem.file _).mp (by rw [hg]; rfl)
  rcases @persistentFill_cases _ _ _ [1] (fun _ => 0) hr₁ hh₁ halloc hnames hi hem.file
    (by decide) with ⟨-, mid, disk', hcap, hfill, honly, hd⟩ | ⟨hno, -⟩
  swap
  · exact absurd hsuff hno
  rw [pfsEnsureFileCapacity_grow hr₁.headerWritable hh₁ hnames hi hem.file
    (by rw [pfsEntryTotalSectors, hem.extents]; decide) hg] at hcap
  simp only [Option.some.injEq, Prod.mk.injEq, true_and] at hcap
  subst hcap
  rw [diskHeader_withHeader] at hd
  have hn₁ : (pfsEntryName h₁ k).length ≤ 96 := by rw [hem.name_eq]; exact hlen
  have honly₂ : OnlyEntry (diskHeader sys.disk) (diskHeader disk') k := by
    rw [hd]
    exact hem.only.trans ((onlyEntry_pfsSetEntry h₁ hn₁).trans (onlyEntry_pfsStoreSize _ _ _))
  have hentry := pfsEntry_pfsStoreSize (pfsSetEntry h₁ k (pfsEntryName h₁ k) (pfsEntrySize h₁ k)
    (pfsEntryKind h₁ k) [⟨pfsDataStart + k, 1⟩] (pfsEntryCreated h₁ k) (pfsEntryMode h₁ k) 0) hi
    [(1 : UInt8)].length 0
  rw [← hd, pfsEntry_pfsSetEntry h₁ _ _ _ _ _ _ _ hi hn₁ (by simp) fun e he => by
    rw [List.mem_singleton.mp he]
    exact ⟨by simp only [pfsDataStart_eq]; omega, by simp⟩] at hentry
  have hkind : pfsEntryKind (diskHeader disk') k = pfsEntryKind h₁ k :=
    congrArg PfsEntry.kind hentry
  have hkname : pfsEntryName (diskHeader disk') k = lineName k :=
    (congrArg PfsEntry.name hentry).trans hem.name_eq
  have hkext : pfsEntryExtents (diskHeader disk') k = [⟨pfsDataStart + k, 1⟩] :=
    congrArg PfsEntry.extents hentry
  have hkfile : pfsEntryIsFile (diskHeader disk') k = true :=
    (entry_of_kind hkind).2.trans hem.file
  have hreach : Reach FsInit (fun _ _ => True) sysStep (sys.setDisk disk') :=
    .next (a := .pwrite (lineName k) [1] fun _ => 0) h.reach trivial (by
      rw [sysStep, hpw, hfill]
      rfl)
  have hrel : Reliable disk' := honly.reliable hr₁
  refine ⟨sys.setDisk disk', hreach, hrel, ?_, ⟨fun j hj => ?_, fun j hj hu hn => ?_⟩, fun j hj => ?_,
    fun j hj hu => ?_⟩
  · rw [setDisk_disk]
    exact readHeaderSilent_of_reliable hrel
      (honly₂.slice_magic.trans (readHeaderSilent_eq_some h.readable).2)
  · rw [setDisk_disk]
    rcases Nat.lt_succ_iff_lt_or_eq.mp hj with hlt | rfl
    · have hb := honly₂.other (j := j) (by omega)
      rw [hb.used, hb.extents]
      exact h.row.has j hlt
    · exact ⟨hi, (pfsEntryIsFile_iff.mp hkfile).1, hkext⟩
  · have hb := honly₂.other (j := j) (by omega)
    rw [setDisk_disk, hb.used] at hu
    exact absurd (h.used j hj hu) (by omega)
  · rw [setDisk_disk]
    rcases Nat.lt_succ_iff_lt_or_eq.mp hj with hlt | rfl
    · have hb := honly₂.other (j := j) (by omega)
      obtain ⟨h20, hf, hn⟩ := h.file j hlt
      rw [isFile_of_onlyEntry honly₂ (by omega), hb.name ((namesInv_of_reach h.reach).fit j
        (h.row.has j hlt).1 (h.row.has j hlt).2.1)]
      exact ⟨h20, hf, hn⟩
    · exact ⟨hk, hkfile, hkname⟩
  · by_cases hjk : j = k
    · omega
    · have hb := honly₂.other hjk
      rw [setDisk_disk, hb.used] at hu
      have := h.used j hj hu
      omega

/-- One file fewer. -/
theorem Lined.remove (h : Lined sys live) (hk : live k) :
    ∃ sys', Lined sys' fun j => live j ∧ j ≠ k := by
  obtain ⟨h20, hf, hn⟩ := h.file k hk
  obtain ⟨hi, hu, -⟩ := h.row.has k hk
  have hfind : pfsFindEntry (diskHeader sys.disk) (lineName k) = some k := by
    refine pfsFindEntry_eq_some.mpr ⟨hi, hu, hn, fun j hj hju he => ?_⟩
    obtain ⟨hj20, -, hjn⟩ := h.file j (h.used j (by omega) hju)
    have := (lineName_facts k h20).2.2 j hj20 (hjn.symm.trans he)
    omega
  have hun : pfsUnlinkHeader (diskHeader sys.disk) (lineName k) =
      .ok (pfsClearEntry (diskHeader sys.disk) k) := by
    rw [pfsUnlinkHeader, hfind]
    dsimp only
    rw [(pfsEntryIsFile_iff.mp hf).2]
    rfl
  have hdel : (persistentDelete sys.disk (lineName k)).1 =
      withHeader sys.disk (pfsClearEntry (diskHeader sys.disk) k) := by
    rw [persistentDelete, readHeader, if_pos h.reliable.1, h.readable]
    dsimp only
    rw [hun]
    dsimp only
    rw [writeHeader_spec h.reliable.headerWritable]
  have honly : OnlyEntry (diskHeader sys.disk) (pfsClearEntry (diskHeader sys.disk) k) k :=
    onlyEntry_pfsClearEntry _
  have hcleared := @pfsEntryUsed_pfsClearEntry (diskHeader sys.disk) k
  generalize pfsClearEntry (diskHeader sys.disk) k = h₁ at hdel honly hcleared
  have hreach : Reach FsInit (fun _ _ => True) sysStep (sys.setDisk (withHeader sys.disk h₁)) :=
    .next (a := .pdelete (lineName k)) h.reach trivial (by rw [sysStep, hdel])
  have huse : ∀ j, pfsEntryUsed h₁ j = true → j ≠ k := fun j hju hjk => by
    rw [hjk, hcleared] at hju
    cases hju
  refine ⟨_, hreach, h.reliable, ?_, ⟨fun j hj => ?_, fun j hj hju hno => ?_⟩, fun j hj => ?_,
    fun j hj hju => ?_⟩
  all_goals rw [setDisk_disk] at *
  · have hmagic := (readHeaderSilent_eq_some h.readable).2
    refine readHeaderSilent_of_reliable h.reliable ?_
    rw [diskHeader_withHeader]
    exact honly.slice_magic.trans hmagic
  all_goals rw [diskHeader_withHeader] at *
  · have hb := honly.other hj.2
    rw [hb.used, hb.extents]
    exact h.row.has j hj.1
  · have hjk := huse j hju
    rw [(honly.other hjk).used] at hju
    exact absurd ⟨h.used j hj hju, hjk⟩ hno
  · obtain ⟨hj20, hjf, hjn⟩ := h.file j hj.1
    obtain ⟨hlt, hju, -⟩ := h.row.has j hj.1
    have hb := honly.other hj.2
    rw [isFile_of_onlyEntry honly hj.2, hb.name ((namesInv_of_reach h.reach).fit j hlt hju)]
    exact ⟨hj20, hjf, hjn⟩
  · have hjk := huse j hju
    rw [(honly.other hjk).used] at hju
    exact ⟨h.used j hj hju, hjk⟩

end Lined

/-- `k` files in a row. -/
theorem lined_add : ∀ k ≤ 20, ∃ sys, Lined sys (· < k)
  | 0, _ => ⟨blankSys, lined_blankSys⟩
  | k + 1, h => by
    obtain ⟨sys, hs⟩ := lined_add k (by omega)
    exact hs.add (by omega)

/-- Eight files in a row without the third, the fifth and the seventh. -/
def holes (j : ℕ) : Prop := ((j < 8 ∧ j ≠ 2) ∧ j ≠ 4) ∧ j ≠ 6

theorem exists_lined_holes : ∃ sys, Lined sys holes := by
  obtain ⟨s₀, h₀⟩ := lined_add 8 (by omega)
  obtain ⟨s₁, h₁⟩ := h₀.remove (k := 2) (by omega)
  obtain ⟨s₂, h₂⟩ := h₁.remove (k := 4) (by omega)
  obtain ⟨s₃, h₃⟩ := h₂.remove (k := 6) (by omega)
  exact ⟨s₃, h₃⟩

section Holes

variable {sys : Sys}

theorem Lined.first (h : Lined sys holes) :
    pfsEntryIsFile (diskHeader sys.disk) 0 = true ∧
      pfsEntryExtents (diskHeader sys.disk) 0 = [⟨pfsDataStart, 1⟩] ∧
      sectorsForLen 2560 - pfsEntryTotalSectors (diskHeader sys.disk) 0 = 4 := by
  have hl : holes 0 := by unfold holes; omega
  have he : pfsEntryExtents (diskHeader sys.disk) 0 = [⟨pfsDataStart, 1⟩] := (h.row.has 0 hl).2.2
  refine ⟨(h.file 0 hl).2.1, he, ?_⟩
  rw [pfsEntryTotalSectors, he]
  decide

/-- The four sectors behind the last file would do for the first one. -/
theorem Lined.hasChoice (h : Lined sys holes) : HasChoice (diskHeader sys.disk) 0 2560 := by
  obtain ⟨-, he, hn⟩ := h.first
  refine ⟨0, [⟨pfsDataStart + 8, 4⟩], ?_⟩
  rw [he, hn]
  refine ⟨by decide, nofun, fun r hr x hx => ?_, ?_, by simp⟩
  · simp only [List.mem_cons, List.not_mem_nil, or_false] at hr
    rw [h.row.freeSector_iff]
    rcases hr with rfl | rfl
    · simp only [Run.Mem, Run.fin] at hx
      omega
    · simp only [Run.Mem, Run.fin, pfsDataStart_eq] at hx
      rw [pfsDataStart_eq, pfsDiskSectors_eq, holes]
      omega
  · refine List.pairwise_pair.mpr fun x hx => ?_
    simp only [Run.Mem, Run.fin] at hx
    omega

/-- But the first three runs behind the first file have a sector each. -/
theorem Lined.not_firstRunsSuffice (h : Lined sys holes) :
    ¬ FirstRunsSuffice (diskHeader sys.disk) 0 2560 := by
  obtain ⟨-, he, hn⟩ := h.first
  have hfree : ∀ j < 10, FreeSector (diskHeader sys.disk) (77 + j) ↔ ¬ holes j := fun j hj => by
    rw [h.row.freeSector_iff, pfsDataStart_eq, pfsDiskSectors_eq, Nat.add_sub_cancel_left]
    exact ⟨fun hf => hf.2.2, fun hf => ⟨by omega, by omega, hf⟩⟩
  have hstart : searchStart [⟨pfsDataStart, 1⟩] = 78 := rfl
  have hbudget : runBudget (FreeSector (diskHeader sys.disk)) [⟨pfsDataStart, 1⟩] = 3 := by
    refine (runBudget_of_not_free ?_).trans rfl
    rw [hstart, hfree 1 (by omega), holes]
    omega
  -- one hole: a file before it and one after it
  have hole : ∀ j < 6, holes (j + 1) → ¬ holes (j + 2) → holes (j + 3) → ∀ n, 1 < n →
      FirstFree (FreeSector (diskHeader sys.disk)) (77 + (j + 1)) n (77 + (j + 2)) 1 := by
    intro j hj h₁ h₂ h₃ n hn
    refine ⟨by omega, fun x hx hlt => ?_, le_rfl, fun x hx hlt => ?_, hn.le, fun _ => ?_⟩
    · rw [show x = 77 + (j + 1) by omega, hfree _ (by omega)]
      exact not_not.mpr h₁
    · rw [show x = 77 + (j + 2) by omega, hfree _ (by omega)]
      exact h₂
    · rw [show 77 + (j + 2) + 1 = 77 + (j + 3) from rfl, hfree _ (by omega)]
      exact not_not.mpr h₃
  have hfin : ∀ x, FreeSector (diskHeader sys.disk) x → x < pfsDiskSectors := fun x hx => hx.2.1
  rw [FirstRunsSuffice, he, hn, hstart, hbudget]
  rw [(hole 0 (by omega) (by unfold holes; omega) (by unfold holes; omega) (by unfold holes; omega) 4
    (by omega)).takes_iff hfin]
  rw [(hole 2 (by omega) (by unfold holes; omega) (by unfold holes; omega) (by unfold holes; omega) 3
    (by omega)).takes_iff hfin]
  rw [(hole 4 (by omega) (by unfold holes; omega) (by unfold holes; omega) (by unfold holes; omega) 2
    (by omega)).takes_iff hfin]
  exact not_takes_no_runs (by omega)

end Holes

/-! ## The law of room -/

/-- **If some choice of runs is enough, growth succeeds just when the first runs are.** -/
theorem noSpuriousDiskFull_iff {sys : Sys} {header : Header} {i : ℕ} (size now : ℕ)
    (h : Reach FsInit (fun _ _ => True) sysStep sys)
    (hh : readHeaderSilent sys.disk = some header) (hi : i < pfsEntryCount)
    (hf : pfsEntryIsFile header i = true) :
    (HasChoice header i size →
        ∃ disk', pfsEnsureFileCapacity sys.disk i size now = some (true, disk')) ↔
      (HasChoice header i size → FirstRunsSuffice header i size) := by
  obtain ⟨rfl, -⟩ := readHeaderSilent_eq_some hh
  rw [pfsEnsureFileCapacity_iff (fsInv_of_reach h).writable hh (allocInv_of_reach h)
    (namesInv_of_reach h).fit hi hf]

theorem noSpuriousDiskFull_iff_holes : ∃ (sys : Sys) (header : Header), HasChoice header 0 2560 ∧
    ((HasChoice header 0 2560 →
        ∃ disk', pfsEnsureFileCapacity sys.disk 0 2560 0 = some (true, disk')) ↔
      (HasChoice header 0 2560 → FirstRunsSuffice header 0 2560)) := by
  obtain ⟨sys, h⟩ := exists_lined_holes
  exact ⟨sys, _, h.hasChoice,
    noSpuriousDiskFull_iff 2560 0 h.reach h.readable (by decide) h.first.1⟩

/-- **Three holes of one sector use up the extents of a file that would fit behind them.** -/
theorem not_noSpuriousDiskFull_holes :
    ¬ ∀ (sys : Sys) (header : Header) (i size now : ℕ), Reach FsInit (fun _ _ => True) sysStep sys →
      readHeaderSilent sys.disk = some header → i < pfsEntryCount →
      pfsEntryIsFile header i = true → HasChoice header i size →
        ∃ disk', pfsEnsureFileCapacity sys.disk i size now = some (true, disk') := by
  intro hall
  obtain ⟨sys, h⟩ := exists_lined_holes
  have hroom := hall sys _ 0 2560 0 h.reach h.readable (by decide) h.first.1 h.hasChoice
  rw [pfsEnsureFileCapacity_iff h.reliable.headerWritable h.readable (allocInv_of_reach h.reach)
    (namesInv_of_reach h.reach).fit (by decide) h.first.1] at hroom
  exact h.not_firstRunsSuffice hroom

end Rymos
