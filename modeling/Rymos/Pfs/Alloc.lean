import Mathlib.Tactic
import Rymos.Base.Extents
import Rymos.Pfs.Dir

/-!
# Sector allocation

There is no free map: free space is what the extents of the other entries leave.

* `otherExtents`, `scanExtents`, `pfsFindFreeRun`: the search for a free run;
  **`pfsFindFreeRun_spec`**.
* `pfsGrowExtents`, `capacityHeader`: growth of a file; **`pfsGrowExtents_spec`**.
-/

namespace Rymos

open ByteBuf Extents

/-! ## The search for a free run -/

/-- The extents the two loops of `pfs_find_free_run` visit: those of the used files but `skip`. -/
def otherExtents (header : Header) (skip : Option ℕ) : List PfsExtent :=
  (List.range pfsEntryCount).flatMap fun index =>
    if some index == skip || !pfsEntryUsed header index || pfsEntryIsDir header index then []
    else (pfsEntryExtents header index).filter fun extent => extent.sectors != 0

/-- One turn over all extents: an extent holds the candidate, or the first one after it. -/
inductive Scan where
  | blocked (candidate : ℕ)
  | clear (nextObstacle : Option ℕ)
deriving DecidableEq

def scanExtents (candidate : ℕ) (nextObstacle : Option ℕ) : List PfsExtent → Scan
  | [] => .clear nextObstacle
  | extent :: extents =>
    let usedEnd := u32 (extent.start + extent.sectors)
    if extent.start ≤ candidate && candidate < usedEnd then .blocked usedEnd
    else if extent.start > candidate && nextObstacle.all (extent.start < ·) then
      scanExtents candidate (some extent.start) extents
    else scanExtents candidate nextObstacle extents

/-- The loop of `pfs_find_free_run`. A blocked turn raises the candidate, so that as many turns as
the disk has sectors are enough (`findFreeLoop_succ`). -/
def findFreeLoop (extents : List PfsExtent) (maxLen : ℕ) : ℕ → ℕ → Option (ℕ × ℕ)
  | 0, _ => none
  | fuel + 1, candidate =>
    if candidate ≥ pfsDiskSectors then none
    else
      match scanExtents candidate none extents with
      | .blocked candidate => findFreeLoop extents maxLen fuel candidate
      | .clear nextObstacle =>
        let endBound := min (nextObstacle.getD pfsDiskSectors) pfsDiskSectors
        if endBound ≤ candidate then none
        else
          let take := min (endBound - candidate) maxLen
          if take = 0 then none else some (candidate, take)

def pfsFindFreeRun (header : Header) (startFrom maxLen : ℕ) (skip : Option ℕ) : Option (ℕ × ℕ) :=
  findFreeLoop (otherExtents header skip) maxLen pfsDiskSectors startFrom

/-! ## Growth -/

/-- The body of the loop of `pfs_grow_extents`: take the run into the list. -/
def growStep (extents : List PfsExtent) (runStart runLen : ℕ) : Option (List PfsExtent) :=
  match extents.getLast? with
  | some last =>
    if runStart = u32 (last.start + last.sectors) then
      some (extents.dropLast ++ [{ last with sectors := u32 (last.sectors + runLen) }])
    else if extents.length ≥ pfsMaxExtents then none
    else some (extents ++ [{ start := runStart, sectors := runLen }])
  | none => some [{ start := runStart, sectors := runLen }]

/-- The loop of `pfs_grow_extents`; each turn takes at least one sector. -/
def growLoop (header : Header) (skip : Option ℕ) :
    ℕ → List PfsExtent → ℕ → ℕ → Option (List PfsExtent)
  | 0, extents, remaining, _ => if remaining = 0 then some extents else none
  | fuel + 1, extents, remaining, searchFrom =>
    if remaining = 0 then some extents
    else
      match pfsFindFreeRun header searchFrom remaining skip with
      | none => none
      | some (runStart, runLen) =>
        match growStep extents runStart runLen with
        | none => none
        | some extents =>
          growLoop header skip fuel extents (remaining - runLen) (u32 (runStart + runLen))

def pfsGrowExtents (header : Header) (extents : List PfsExtent) (additionalSectors : ℕ)
    (skip : Option ℕ) : Option (List PfsExtent) :=
  let searchFrom :=
    match extents.getLast? with
    | some last => u32 (last.start + last.sectors)
    | none => pfsDataStart
  growLoop header skip additionalSectors extents additionalSectors searchFrom

def sectorsForLen (len : ℕ) : ℕ := if len = 0 then 0 else u32 (usize (len + 511) / 512)

/-- What `pfs_ensure_file_capacity` does with the header it has read. -/
inductive Capacity where
  /-- It returns `false`. -/
  | refused
  /-- It returns `true` and writes nothing. -/
  | enough
  /-- It writes this header. -/
  | grown (header : Header)
  /-- The copy of a name longer than its buffer panics. -/
  | panic

def capacityHeader (header : Header) (index size now : ℕ) : Capacity :=
  if !pfsEntryUsed header index || pfsEntryIsDir header index then .refused
  else
    let oldSize := pfsEntrySize header index
    let oldSectors := pfsEntryTotalSectors header index
    let newSectors := sectorsForLen size
    if newSectors ≤ oldSectors then .enough
    else
      match pfsGrowExtents header (pfsEntryExtents header index) (newSectors - oldSectors)
          (some index) with
      | none => .refused
      | some extents =>
        let name := pfsEntryName header index
        if name.length > pfsNameMax then .panic
        else
          .grown (pfsSetEntry header index name oldSize (pfsEntryKind header index) extents
            (pfsEntryCreated header index) (pfsEntryMode header index) now)

/-! ## A free run is free -/

section FreeRun

variable {extents : List PfsExtent} {candidate maxLen fuel : ℕ}

theorem lt_of_scan_blocked {next : Option ℕ} {c : ℕ}
    (h : scanExtents candidate next extents = .blocked c) : candidate < c := by
  induction extents generalizing next with
  | nil => cases h
  | cons e es ih =>
    simp only [scanExtents, Bool.and_eq_true, decide_eq_true_eq] at h
    split_ifs at h with h₁ h₂
    · cases h
      exact h₁.2
    · exact ih h
    · exact ih h

/-- A turn that is not blocked: no extent holds the candidate, and the obstacle is before every
extent after it. -/
theorem scan_clear {next next' : Option ℕ} (h : scanExtents candidate next extents = .clear next') :
    (∀ e ∈ extents, e.start ≤ candidate → u32 (e.start + e.sectors) ≤ candidate) ∧
    (∀ e ∈ extents, candidate < e.start → ∃ m, next' = some m ∧ m ≤ e.start) ∧
    ∀ m, next = some m → ∃ m', next' = some m' ∧ m' ≤ m := by
  induction extents generalizing next with
  | nil =>
    cases h
    exact ⟨by simp, by simp, fun m hm => ⟨m, hm, le_rfl⟩⟩
  | cons e es ih =>
    simp only [scanExtents, Bool.and_eq_true, decide_eq_true_eq] at h
    split_ifs at h with h₁ h₂
    · obtain ⟨ha, hb, hc⟩ := ih h
      refine ⟨fun s hs => ?_, fun s hs => ?_, fun m hm => ?_⟩
      · rcases List.mem_cons.mp hs with rfl | hs
        · intro hle; omega
        · exact ha s hs
      · rcases List.mem_cons.mp hs with rfl | hs
        · exact fun _ => hc _ rfl
        · exact hb s hs
      · obtain ⟨m', hm', hle⟩ := hc _ rfl
        have : e.start < m := by simpa [hm] using h₂.2
        exact ⟨m', hm', by omega⟩
    · obtain ⟨ha, hb, hc⟩ := ih h
      refine ⟨fun s hs => ?_, fun s hs => ?_, hc⟩
      · rcases List.mem_cons.mp hs with rfl | hs
        · intro hle; omega
        · exact ha s hs
      · rcases List.mem_cons.mp hs with rfl | hs
        · intro hlt
          cases next with
          | none => simp [hlt] at h₂
          | some m =>
            obtain ⟨m', hm', hle⟩ := hc m rfl
            refine ⟨m', hm', ?_⟩
            simp only [Option.all_some, decide_eq_true_eq, not_and, not_lt] at h₂
            have := h₂ hlt
            omega
        · exact hb s hs

/-- One more turn changes nothing once the turns reach the end of the disk. -/
theorem findFreeLoop_succ (h : pfsDiskSectors ≤ candidate + fuel) :
    findFreeLoop extents maxLen (fuel + 1) candidate =
      findFreeLoop extents maxLen fuel candidate := by
  induction fuel generalizing candidate with
  | zero =>
    simp only [findFreeLoop]
    rw [if_pos (by omega)]
  | succ fuel ih =>
    rw [findFreeLoop, findFreeLoop]
    split_ifs with hc
    · rfl
    · cases hs : scanExtents candidate none extents with
      | blocked c =>
        have := lt_of_scan_blocked hs
        exact ih (by omega)
      | clear next => rfl

theorem findFreeLoop_spec (hfit : ∀ e ∈ extents, e.fin < 2 ^ 32) {s n : ℕ}
    (h : findFreeLoop extents maxLen fuel candidate = some (s, n)) :
    candidate ≤ s ∧ 1 ≤ n ∧ n ≤ maxLen ∧ s + n ≤ pfsDiskSectors ∧
      ∀ x, s ≤ x → x < s + n → ¬ Covers extents x := by
  induction fuel generalizing candidate with
  | zero => cases h
  | succ fuel ih =>
    rw [findFreeLoop] at h
    split_ifs at h with hc
    cases hs : scanExtents candidate none extents with
    | blocked c =>
      rw [hs] at h
      have := lt_of_scan_blocked hs
      obtain ⟨h₁, h₂⟩ := ih h
      exact ⟨by omega, h₂⟩
    | clear next =>
      rw [hs] at h
      simp only at h
      split_ifs at h with hb ht
      cases h
      obtain ⟨ha, hn, -⟩ := scan_clear hs
      refine ⟨le_rfl, by omega, by omega, by omega, fun x hx hx' => ?_⟩
      rintro ⟨e, he, hm⟩
      have hfin := hfit e he
      simp only [Run.Mem, Run.fin] at hm hfin
      rcases Nat.lt_or_ge s e.start with hlt | hle
      · obtain ⟨m, rfl, hmle⟩ := hn e he hlt
        rw [Option.getD_some] at hx'
        omega
      · have := ha e he hle
        rw [u32_of_lt hfin] at this
        omega

end FreeRun

/-- **The run found lies at or after the start, inside the disk, and meets no other extent.** -/
theorem pfsFindFreeRun_spec {header : Header} {startFrom maxLen s n : ℕ} {skip : Option ℕ}
    (hfit : ∀ e ∈ otherExtents header skip, e.fin < 2 ^ 32)
    (h : pfsFindFreeRun header startFrom maxLen skip = some (s, n)) :
    startFrom ≤ s ∧ 1 ≤ n ∧ n ≤ maxLen ∧ s + n ≤ pfsDiskSectors ∧
      ∀ x, s ≤ x → x < s + n → ¬ Covers (otherExtents header skip) x :=
  findFreeLoop_spec hfit h

/-! ## Growth takes free sectors only -/

section Grow

variable {header : Header} {skip : Option ℕ}

/-- A data sector outside the extents of the other entries. -/
def FreeFor (header : Header) (skip : Option ℕ) (x : ℕ) : Prop :=
  pfsDataStart ≤ x ∧ x < pfsDiskSectors ∧ ¬ Covers (otherExtents header skip) x

/-- One turn: the run is free, at or after the end of the list. -/
theorem growStep_spec {extents extents' : List PfsExtent} {searchFrom s n : ℕ}
    (hs : Spread extents) (hend : ∀ e ∈ extents, e.fin ≤ searchFrom) (hlen : extents.length ≤ 4)
    (hle : searchFrom ≤ s) (hn : 1 ≤ n) (hdisk : s + n ≤ pfsDiskSectors)
    (hfree : ∀ x, s ≤ x → x < s + n → FreeFor header skip x)
    (h : growStep extents s n = some extents') :
    Growth (FreeFor header skip) extents extents' ∧ Spread extents' ∧
      (∀ e ∈ extents', e.fin ≤ s + n) ∧ extents'.length ≤ 4 ∧
      total extents' = total extents + n := by
  rw [pfsDiskSectors_eq] at hdisk
  rcases List.eq_nil_or_concat' extents with rfl | ⟨init, last, rfl⟩
  · simp only [growStep, List.getLast?_nil, Option.some.injEq] at h
    subst h
    refine ⟨growth_append fun x hx => hfree x hx.1 hx.2, ⟨by simpa using hn, by simp⟩, ?_, by simp,
      by simp⟩
    simp [Run.fin]
  · have hlast := hend last (by simp)
    have hw : u32 (last.start + last.sectors) = last.fin :=
      u32_of_lt (by simp only [Run.fin] at hlast; omega)
    simp only [growStep, List.getLast?_concat, List.dropLast_concat, hw] at h
    split_ifs at h with hc hl
    · cases h
      have hsec : u32 (last.sectors + n) = last.sectors + n :=
        u32_of_lt (by simp only [Run.fin] at hlast; omega)
      rw [hsec]
      refine ⟨growth_last fun x hx hx' => hfree x (by omega) (by omega), hs.grow_last n, ?_, ?_, ?_⟩
      · intro e he
        rcases List.mem_append.mp he with he | he
        · have := hend e (by simp [he])
          omega
        · rw [List.mem_singleton.mp he]
          simp only [Run.fin] at hc ⊢
          omega
      · simpa using hlen
      · simp only [total_append, total_cons, total_nil]
        omega
    · cases h
      refine ⟨growth_append fun x hx => hfree x hx.1 hx.2, spread_append hs hn fun e he => ?_, ?_,
        ?_, by simp [Nat.add_assoc]⟩
      · have := hs.fin_le_last e he
        simp only at hc ⊢
        omega
      · intro e he
        rcases List.mem_append.mp he with he | he
        · have := hend e he
          omega
        · rw [List.mem_singleton.mp he]
          exact le_rfl
      · simp only [List.length_append, List.length_singleton, pfsMaxExtents] at hl hlen ⊢
        omega

theorem growLoop_spec (hfit : ∀ e ∈ otherExtents header skip, e.fin < 2 ^ 32)
    {fuel remaining searchFrom : ℕ} {extents extents' : List PfsExtent} (hs : Spread extents)
    (hend : ∀ e ∈ extents, e.fin ≤ searchFrom) (hlen : extents.length ≤ 4)
    (hlo : pfsDataStart ≤ searchFrom) (hhi : searchFrom ≤ pfsDiskSectors)
    (h : growLoop header skip fuel extents remaining searchFrom = some extents') :
    Growth (FreeFor header skip) extents extents' ∧ Spread extents' ∧
      (∀ e ∈ extents', e.fin ≤ pfsDiskSectors) ∧ extents'.length ≤ 4 ∧
      total extents' = total extents + remaining := by
  induction fuel generalizing extents remaining searchFrom with
  | zero =>
    simp only [growLoop] at h
    split_ifs at h with hr
    cases h
    exact ⟨.refl _, hs, fun e he => (hend e he).trans hhi, hlen, by omega⟩
  | succ fuel ih =>
    simp only [growLoop] at h
    split_ifs at h with hr
    · cases h
      exact ⟨.refl _, hs, fun e he => (hend e he).trans hhi, hlen, by omega⟩
    · cases hf : pfsFindFreeRun header searchFrom remaining skip with
      | none => rw [hf] at h; cases h
      | some run =>
        obtain ⟨s, n⟩ := run
        rw [hf] at h
        simp only at h
        cases hg : growStep extents s n with
        | none => rw [hg] at h; cases h
        | some mid =>
          rw [hg] at h
          obtain ⟨h₁, h₂, h₃, h₄, h₅⟩ := pfsFindFreeRun_spec hfit hf
          obtain ⟨g₁, g₂, g₃, g₄, g₅⟩ := growStep_spec hs hend hlen
            h₁ h₂ h₄ (fun x hx hx' => ⟨by omega, by omega, h₅ x hx hx'⟩) hg
          have hw : u32 (s + n) = s + n := u32_of_lt (by rw [pfsDiskSectors_eq] at h₄; omega)
          simp only [hw] at h
          obtain ⟨k₁, k₂, k₃, k₄, k₅⟩ := ih g₂ g₃ g₄ (by omega) h₄ h
          exact ⟨g₁.trans k₁, k₂, k₃, k₄, by omega⟩

/-- **Growth moves no sector, takes free sectors only and adds as many as asked for.** -/
theorem pfsGrowExtents_spec (hfit : ∀ e ∈ otherExtents header skip, e.fin < 2 ^ 32)
    {additional : ℕ} {extents extents' : List PfsExtent} (hs : Spread extents)
    (hin : ∀ x, Covers extents x → pfsDataStart ≤ x ∧ x < pfsDiskSectors)
    (hlen : extents.length ≤ 4)
    (h : pfsGrowExtents header extents additional skip = some extents') :
    Growth (FreeFor header skip) extents extents' ∧ Spread extents' ∧
      (∀ e ∈ extents', e.fin ≤ pfsDiskSectors) ∧ extents'.length ≤ 4 ∧
      total extents' = total extents + additional := by
  rcases List.eq_nil_or_concat' extents with rfl | ⟨init, last, rfl⟩
  · exact growLoop_spec hfit hs (by simp) (by simp) le_rfl
      (by rw [pfsDataStart_eq, pfsDiskSectors_eq]; omega) h
  · have hb := Run.bounds (r := last) (by simp) (hs.pos last (by simp)) hin
    have hpos := hs.pos last (by simp)
    have hw : u32 (last.start + last.sectors) = last.fin :=
      u32_of_lt (by have := hb.2; rw [pfsDiskSectors_eq] at this; simp only [Run.fin] at this; omega)
    simp only [pfsGrowExtents, List.getLast?_concat, hw] at h
    exact growLoop_spec hfit hs hs.fin_le_last hlen
      (hb.1.trans (by simp only [Run.fin]; omega)) hb.2 h

end Grow

end Rymos
