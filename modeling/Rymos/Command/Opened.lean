import Mathlib.Tactic
import Rymos.Command.Run
import Rymos.Io.Ends

/-!
# Descriptors a run opens and closes

* `KeepsOpen`, `SameOpen`: nothing is closed; the same descriptors and pipes are open.
* `Conduit`, `Opened`: the pipes and files opened since a state. **`Opened.push_pipe`**,
  **`Opened.push_file`**, `Opened.keeps`.
* `closeSlots`, `Closed`: all of them closed. **`Open.closed`**.
-/

namespace Rymos

open ByteBuf

variable {sys sys' sys'' sys₀ : Sys}

/-! ## Nothing is closed -/

/-- The open descriptors stay open and refer to what they did, the pipes in use keep their ends. -/
structure KeepsOpen (sys sys' : Sys) : Prop where
  fds : ∀ i, (sys.fds i).isOpen = true → (sys'.fds i).isOpen = true ∧
    (sys'.fds i).kind = (sys.fds i).kind ∧ (sys'.fds i).pfsIndex = (sys.fds i).pfsIndex
  pipes : ∀ q, (sys.pipes q).used = true → (sys'.pipes q).used = true ∧
    (sys'.pipes q).readOpen = (sys.pipes q).readOpen ∧
      (sys'.pipes q).writeOpen = (sys.pipes q).writeOpen

/-- Two pipes that are open at the same ends. -/
def AppPipe.alike (pipe pipe' : AppPipe) : Prop :=
  pipe'.used = pipe.used ∧ pipe'.readOpen = pipe.readOpen ∧ pipe'.writeOpen = pipe.writeOpen

/-- The same descriptors and pipes are open. -/
structure SameOpen (sys sys' : Sys) : Prop where
  fds : ∀ i, (sys.fds i).alike (sys'.fds i)
  pipes : ∀ q, (sys.pipes q).alike (sys'.pipes q)

theorem KeepsOpen.refl (sys : Sys) : KeepsOpen sys sys :=
  ⟨fun _ h => ⟨h, rfl, rfl⟩, fun _ h => ⟨h, rfl, rfl⟩⟩

theorem KeepsOpen.trans (h : KeepsOpen sys sys') (h' : KeepsOpen sys' sys'') : KeepsOpen sys sys'' := by
  refine ⟨fun i hi => ?_, fun q hq => ?_⟩
  · obtain ⟨ho, hk, hx⟩ := h.fds i hi
    obtain ⟨ho', hk', hx'⟩ := h'.fds i ho
    exact ⟨ho', hk'.trans hk, hx'.trans hx⟩
  · obtain ⟨hu, hr, hw⟩ := h.pipes q hq
    obtain ⟨hu', hr', hw'⟩ := h'.pipes q hu
    exact ⟨hu', hr'.trans hr, hw'.trans hw⟩

theorem SameOpen.refl (sys : Sys) : SameOpen sys sys :=
  ⟨fun _ => AppFd.alike_refl _, fun _ => ⟨rfl, rfl, rfl⟩⟩

theorem SameOpen.trans (h : SameOpen sys sys') (h' : SameOpen sys' sys'') : SameOpen sys sys'' := by
  refine ⟨fun i => ?_, fun q => ?_⟩
  · obtain ⟨ho, hk, hx, hd⟩ := h.fds i
    obtain ⟨ho', hk', hx', hd'⟩ := h'.fds i
    exact ⟨ho'.trans ho, hk'.trans hk, hx'.trans hx, hd'.trans hd⟩
  · obtain ⟨hu, hr, hw⟩ := h.pipes q
    obtain ⟨hu', hr', hw'⟩ := h'.pipes q
    exact ⟨hu'.trans hu, hr'.trans hr, hw'.trans hw⟩

theorem SameOpen.keeps (h : SameOpen sys sys') : KeepsOpen sys sys' := by
  refine ⟨fun i hi => ?_, fun q hq => ?_⟩
  · obtain ⟨ho, hk, hx, -⟩ := h.fds i
    exact ⟨ho.trans hi, hk, hx⟩
  · obtain ⟨hu, hr, hw⟩ := h.pipes q
    exact ⟨hu.trans hq, hr, hw⟩

theorem SameRefs.sameOpen (h : SameRefs sys sys') : SameOpen sys sys' := by
  refine ⟨h.fds, fun q => ?_⟩
  rw [h.pipes]
  exact ⟨rfl, rfl, rfl⟩

theorem sameOpen_setPipe {q : ℕ} {pipe : AppPipe} (h : (sys.pipes q).alike pipe) :
    SameOpen sys (sys.setPipe q pipe) := by
  refine ⟨fun _ => AppFd.alike_refl _, fun q' => ?_⟩
  by_cases hq : q' = q
  · subst hq
    simpa [Sys.setPipe] using h
  · simp [Sys.setPipe, hq, AppPipe.alike]

theorem sameOpen_writePipe (handle : AppFd) (data : List UInt8) :
    SameOpen sys (writePipe sys handle data).1 := by
  rw [writePipe]
  dsimp only
  split_ifs
  iterate 2 exact .refl sys
  exact sameOpen_setPipe ⟨rfl, rfl, rfl⟩

/-- **Writing opens and closes nothing.** -/
theorem sameOpen_abiWriteFd {fd : ℤ} {data : List UInt8} {t : ℕ → ℕ} {r : Sys × Reply ℕ}
    (h : abiWriteFd sys fd data t = some r) : SameOpen sys r.1 := by
  rcases abiWriteFd_tables h with ⟨d, -, -, -, rfl | rfl⟩ | ⟨-, h⟩
  · exact sameOpen_writePipe _ _
  · exact .refl sys
  · exact h.sameOpen

/-! ## What was opened -/

/-- A pipe with the slots of its ends. -/
structure Conduit where
  reader : ℕ
  writer : ℕ
  pipe : ℕ

/-- The slots of the ends. -/
def endSlots (pipes : List Conduit) : List ℕ := pipes.flatMap fun p => [p.reader, p.writer]

/-- A pipe open at both ends. -/
structure Conduit.IsOpen (p : Conduit) (sys : Sys) : Prop where
  reader : EndAt sys .pipeRead p.pipe p.reader
  writer : EndAt sys .pipeWrite p.pipe p.writer
  used : (sys.pipes p.pipe).used = true
  readOpen : (sys.pipes p.pipe).readOpen = true
  writeOpen : (sys.pipes p.pipe).writeOpen = true

/-- Different pipes, open at both ends, and files. -/
structure Open (sys : Sys) (pipes : List Conduit) (files : List ℕ) : Prop where
  nodup : (endSlots pipes ++ files).Nodup
  pipes_nodup : (pipes.map Conduit.pipe).Nodup
  conduit : ∀ p ∈ pipes, p.IsOpen sys
  file : ∀ i ∈ files, i < appFdCount ∧ (sys.fds i).isOpen = true ∧ (sys.fds i).kind.isEnd = false

/-- They were opened since `sys₀`, and nothing else was closed. -/
structure Opened (sys₀ sys : Sys) (pipes : List Conduit) (files : List ℕ) : Prop extends
    Open sys pipes files where
  fresh : ∀ i ∈ endSlots pipes ++ files, (sys₀.fds i).isOpen = false
  pipe_fresh : ∀ p ∈ pipes, (sys₀.pipes p.pipe).used = false
  kept : KeepsOpen sys₀ sys

variable {pipes : List Conduit} {files : List ℕ}

theorem Conduit.IsOpen.keeps {p : Conduit} (h : p.IsOpen sys) (hk : KeepsOpen sys sys') :
    p.IsOpen sys' := by
  obtain ⟨hu, hr, hw⟩ := hk.pipes _ h.used
  have hend {kind : AppFdKind} {i : ℕ} (he : EndAt sys kind p.pipe i) :
      EndAt sys' kind p.pipe i := by
    obtain ⟨ho, hkind, hx⟩ := hk.fds i he.isOpen
    exact ⟨he.lt, ho, hkind.trans he.kind_eq, hx.trans he.index⟩
  exact ⟨hend h.reader, hend h.writer, hu, hr.trans h.readOpen, hw.trans h.writeOpen⟩

theorem Open.keeps (h : Open sys pipes files) (hk : KeepsOpen sys sys') : Open sys' pipes files := by
  refine ⟨h.nodup, h.pipes_nodup, fun p hp => (h.conduit p hp).keeps hk, fun i hi => ?_⟩
  obtain ⟨hlt, ho, he⟩ := h.file i hi
  obtain ⟨ho', hkind, -⟩ := hk.fds i ho
  exact ⟨hlt, ho', hkind ▸ he⟩

theorem Opened.keeps (h : Opened sys₀ sys pipes files) (hk : KeepsOpen sys sys') :
    Opened sys₀ sys' pipes files :=
  ⟨h.toOpen.keeps hk, h.fresh, h.pipe_fresh, h.kept.trans hk⟩

/-- What was opened is open. -/
theorem Open.isOpen (h : Open sys pipes files) {i : ℕ} (hi : i ∈ endSlots pipes ++ files) :
    i < appFdCount ∧ (sys.fds i).isOpen = true := by
  rcases List.mem_append.mp hi with hi | hi
  · obtain ⟨p, hp, hi⟩ := List.mem_flatMap.mp hi
    have hc := h.conduit p hp
    rcases List.mem_cons.mp hi with rfl | hi
    · exact ⟨hc.reader.lt, hc.reader.isOpen⟩
    · obtain rfl := List.mem_singleton.mp hi
      exact ⟨hc.writer.lt, hc.writer.isOpen⟩
  · exact ⟨(h.file i hi).1, (h.file i hi).2.1⟩

theorem endSlots_append (pipes pipes' : List Conduit) :
    endSlots (pipes ++ pipes') = endSlots pipes ++ endSlots pipes' := List.flatMap_append

/-- **A pipe is opened.** -/
theorem Opened.push_pipe (h : Opened sys₀ sys pipes []) {reader writer : ℤ}
    (hp : abiPipe sys = (sys', .done (reader, writer))) :
    ∃ p : Conduit, reader = p.reader + appFdBase ∧ writer = p.writer + appFdBase ∧
      Opened sys₀ sys' (pipes ++ [p]) [] := by
  rcases @abiPipe_tables sys with ⟨code, he⟩ | ⟨q, r, w, hq, hr, hw, he⟩
  · rw [he] at hp
    cases hp
  rw [he, Prod.mk.injEq, Reply.done.injEq, Prod.mk.injEq] at hp
  obtain ⟨rfl, rfl, rfl⟩ := hp
  obtain ⟨hrlt, hro⟩ := freeFd_eq_some hr
  obtain ⟨hrw, hwlt, hwo⟩ := freeFdAfter_eq_some hw
  obtain ⟨-, hqu⟩ := freePipe_eq_some hq
  have hne {i j : ℕ} (hi : (sys.fds i).isOpen = true) (hj : (sys.fds j).isOpen = false) : i ≠ j := by
    rintro rfl
    rw [hi] at hj
    cases hj
  have hkeep : KeepsOpen sys (((sys.setPipe q newPipe).setFd r (pipeFd .pipeRead Rymos.fdRead q)).setFd w
      (pipeFd .pipeWrite Rymos.fdWrite q)) := by
    refine ⟨fun i hi => ?_, fun q' hq' => ?_⟩
    · simp [Sys.setFd, Sys.setPipe, hne hi hwo, hne hi hro, hi]
    · have hqq : q' ≠ q := by
        rintro rfl
        rw [hq'] at hqu
        cases hqu
      simp [Sys.setFd, Sys.setPipe, hqq, hq']
  have hopen := h.toOpen.keeps hkeep
  have hfree {i : ℕ} (hi : (sys.fds i).isOpen = false) : i ∉ endSlots pipes := fun hm =>
    hne (h.isOpen (List.mem_append_left _ hm)).2 hi rfl
  have hstart {i : ℕ} (hi : (sys.fds i).isOpen = false) : (sys₀.fds i).isOpen = false := by
    by_contra ho
    exact hne (h.kept.fds i (by simpa using ho)).1 hi rfl
  have hslots : endSlots (pipes ++ [⟨r, w, q⟩]) = endSlots pipes ++ [r, w] := by
    rw [endSlots_append]
    rfl
  refine ⟨⟨r, w, q⟩, rfl, rfl, ⟨⟨?_, ?_, fun p hp => ?_, by simp⟩, fun i hi => ?_, fun p hp => ?_,
    h.kept.trans hkeep⟩⟩
  · have hnodup := h.nodup
    rw [List.append_nil] at hnodup
    rw [List.append_nil, hslots, List.nodup_append']
    refine ⟨hnodup, by simp; omega, ?_⟩
    simp only [List.disjoint_cons_right, List.disjoint_nil_right, and_true]
    exact ⟨hfree hro, hfree hwo⟩
  · rw [List.map_append, List.nodup_append']
    refine ⟨h.pipes_nodup, by simp, ?_⟩
    simp only [List.map_cons, List.map_nil, List.disjoint_cons_right, List.disjoint_nil_right,
      and_true, List.mem_map, not_exists, not_and]
    rintro p hp rfl
    have hu := (h.conduit p hp).used
    rw [hqu] at hu
    cases hu
  · rcases List.mem_append.mp hp with hp | hp
    · exact hopen.conduit p hp
    · obtain rfl := List.mem_singleton.mp hp
      have hrw' : r ≠ w := hrw.ne
      refine ⟨⟨hrlt, ?_, ?_, ?_⟩, ⟨hwlt, ?_, ?_, ?_⟩, ?_, ?_, ?_⟩ <;>
        simp [Sys.setFd, Sys.setPipe, hrw', pipeFd, newPipe]
  · rw [List.append_nil, hslots, List.mem_append] at hi
    rcases hi with hi | hi
    · exact h.fresh i (List.mem_append_left _ hi)
    · simp only [List.mem_cons, List.not_mem_nil, or_false] at hi
      rcases hi with rfl | rfl
      · exact hstart hro
      · exact hstart hwo
  · rcases List.mem_append.mp hp with hp | hp
    · exact h.pipe_fresh p hp
    · obtain rfl := List.mem_singleton.mp hp
      by_contra hu
      have := (h.kept.pipes q (by simpa using hu)).1
      rw [hqu] at this
      cases this

/-- A descriptor for something that is no end of a pipe, in the first free slot, or an error. -/
def OpensOne (sys : Sys) (r : Sys × Reply ℤ) : Prop :=
  (∃ (i : ℕ) (fd : AppFd), r.2 = .done (i + appFdBase) ∧ freeFd sys = some i ∧ fd.isOpen = true ∧
    fd.kind.isEnd = false ∧ r.1.fds = Function.update sys.fds i fd ∧ r.1.pipes = sys.pipes) ∨
  (∃ code, r.2 = .error code) ∧ r.1.fds = sys.fds ∧ r.1.pipes = sys.pipes

theorem opensOne_error (disk : Disk) (code : ℕ) : OpensOne sys (sys.setDisk disk, .error code) :=
  .inr ⟨⟨code, rfl⟩, rfl, rfl⟩

theorem opensOne_refuse (code : ℕ) : OpensOne sys (sys, .error code) := .inr ⟨⟨code, rfl⟩, rfl, rfl⟩

theorem OpensOne.of_setDisk {disk : Disk} {r : Sys × Reply ℤ} (h : OpensOne (sys.setDisk disk) r) :
    OpensOne sys r := h

theorem opensOne_openPfsFd (header : Header) (index : ℕ) (flags : UInt32) :
    OpensOne sys (openPfsFd sys header index flags) := by
  rw [openPfsFd]
  cases hd : freeFd sys with
  | none => exact opensOne_refuse _
  | some d => exact .inl ⟨d, _, rfl, hd, rfl, rfl, rfl, rfl⟩

theorem opensOne_openPfsTruncate (header : Header) (index : ℕ) (name : List UInt8) (flags : UInt32)
    (t : ℕ → ℕ) : OpensOne sys (openPfsTruncate sys header index name flags t) := by
  rw [openPfsTruncate]
  split_ifs
  · dsimp only
    split
    · exact opensOne_error _ _
    · exact (opensOne_openPfsFd _ _ _).of_setDisk
  · exact opensOne_openPfsFd _ _ _

theorem opensOne_abiOpenPfs (name : List UInt8) (flags : UInt32) (t : ℕ → ℕ) :
    OpensOne sys (abiOpenPfs sys name flags t) := by
  rw [abiOpenPfs]
  split_ifs
  iterate 4 exact opensOne_refuse _
  split
  · exact opensOne_refuse _
  split_ifs
  · exact opensOne_refuse _
  split
  · exact opensOne_refuse _
  · exact opensOne_openPfsTruncate _ _ _ _ _
  split
  · exact opensOne_error _ _
  · exact (opensOne_openPfsTruncate _ _ _ _ _).of_setDisk

theorem opensOne_abiOpen (cwd path : List UInt8) (flags : UInt32) (t : ℕ → ℕ) :
    OpensOne sys (abiOpen sys cwd path flags t) := by
  rw [abiOpen]
  split
  · exact opensOne_refuse _
  split
  · exact opensOne_abiOpenPfs _ _ _
  split_ifs
  iterate 2 exact opensOne_refuse _
  split
  · exact opensOne_refuse _
  split
  · exact .inl ⟨_, _, rfl, ‹_›, rfl, rfl, rfl, rfl⟩
  · exact opensOne_refuse _

theorem Open.perm (h : Open sys pipes files) {files' : List ℕ} (hp : files.Perm files') :
    Open sys pipes files' :=
  ⟨(hp.append_left _).nodup_iff.mp h.nodup, h.pipes_nodup, h.conduit,
    fun i hi => h.file i (hp.mem_iff.mpr hi)⟩

theorem Opened.perm (h : Opened sys₀ sys pipes files) {files' : List ℕ} (hp : files.Perm files') :
    Opened sys₀ sys pipes files' :=
  ⟨h.toOpen.perm hp, fun i hi => h.fresh i ((hp.append_left _).mem_iff.mpr hi), h.pipe_fresh, h.kept⟩

/-- **A file is opened.** -/
theorem Opened.push_file (h : Opened sys₀ sys pipes files) {i : ℕ} {fd : AppFd}
    (hi : freeFd sys = some i) (ho : fd.isOpen = true) (he : fd.kind.isEnd = false)
    (hf : sys'.fds = Function.update sys.fds i fd) (hp : sys'.pipes = sys.pipes) :
    Opened sys₀ sys' pipes (i :: files) := by
  obtain ⟨hlt, hfree⟩ := freeFd_eq_some hi
  have hne {j : ℕ} (hj : (sys.fds j).isOpen = true) : j ≠ i := by
    rintro rfl
    rw [hfree] at hj
    cases hj
  have hkeep : KeepsOpen sys sys' := by
    refine ⟨fun j hj => ?_, fun q hq => ?_⟩
    · rw [hf, Function.update_of_ne (hne hj)]
      exact ⟨hj, rfl, rfl⟩
    · rw [hp]
      exact ⟨hq, rfl, rfl⟩
  have hopen := h.toOpen.keeps hkeep
  have hnew : i ∉ endSlots pipes ++ files := fun hm => hne (h.isOpen hm).2 rfl
  have hperm : (endSlots pipes ++ i :: files).Perm (i :: (endSlots pipes ++ files)) :=
    List.perm_middle
  refine ⟨⟨hperm.nodup_iff.mpr (List.nodup_cons.mpr ⟨hnew, h.nodup⟩), h.pipes_nodup, hopen.conduit,
    fun j hj => ?_⟩, fun j hj => ?_, h.pipe_fresh, h.kept.trans hkeep⟩
  · rcases List.mem_cons.mp hj with rfl | hj
    · rw [hf, Function.update_self]
      exact ⟨hlt, ho, he⟩
    · exact hopen.file j hj
  · rcases List.mem_cons.mp (hperm.mem_iff.mp hj) with rfl | hj
    · by_contra hs
      exact hne (h.kept.fds j (by simpa using hs)).1 rfl
    · exact h.fresh j hj

/-! ## Everything closed -/

/-- The slots are empty, and so are the pipes. -/
structure Closed (sys sys' : Sys) (slots gone : List ℕ) : Prop where
  fds : ∀ i, sys'.fds i = if i ∈ slots then .empty else sys.fds i
  pipes : ∀ q, sys'.pipes q = if q ∈ gone then .empty else sys.pipes q
  disk : sys'.disk = sys.disk

theorem Closed.refl (sys : Sys) : Closed sys sys [] [] := ⟨by simp, by simp, rfl⟩

theorem Closed.trans {slots slots' gone gone' : List ℕ} (h : Closed sys sys' slots gone)
    (h' : Closed sys' sys'' slots' gone') : Closed sys sys'' (slots ++ slots') (gone ++ gone') := by
  refine ⟨fun i => ?_, fun q => ?_, h'.disk.trans h.disk⟩
  · rw [h'.fds, h.fds]
    by_cases h₁ : i ∈ slots <;> by_cases h₂ : i ∈ slots' <;> simp [h₁, h₂]
  · rw [h'.pipes, h.pipes]
    by_cases h₁ : q ∈ gone <;> by_cases h₂ : q ∈ gone' <;> simp [h₁, h₂]

end Rymos
