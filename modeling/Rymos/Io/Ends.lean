import Mathlib.Tactic
import Rymos.Base.History
import Rymos.Io.Std

/-!
# What the calls do to the two tables

* `SameRefs`: every descriptor refers to what it referred to, and the pipes are as they were.
* `PipeLedger`, `PipeLedger.note`: the bytes each pipe in use has accepted and delivered, as the
  replies of the calls tell.
* `TableEffect`: a call opens, closes or moves bytes. **`ioStep_effect`**.
-/

namespace Rymos

open ByteBuf Transition

variable {io io' : Io} {sys sys' : Sys}

/-! ## What a descriptor refers to -/

/-- The kinds of the two ends of a pipe. -/
def AppFdKind.isEnd : AppFdKind → Bool
  | .pipeRead | .pipeWrite => true
  | _ => false

/-- Two descriptors that refer to the same thing. -/
def AppFd.alike (fd fd' : AppFd) : Prop :=
  fd'.isOpen = fd.isOpen ∧ fd'.kind = fd.kind ∧ fd'.pfsIndex = fd.pfsIndex ∧ fd'.data = fd.data

theorem AppFd.alike_refl (fd : AppFd) : fd.alike fd := ⟨rfl, rfl, rfl, rfl⟩

structure SameRefs (sys sys' : Sys) : Prop where
  fds : ∀ d, (sys.fds d).alike (sys'.fds d)
  pipes : sys'.pipes = sys.pipes

theorem SameRefs.refl (sys : Sys) : SameRefs sys sys := ⟨fun _ => AppFd.alike_refl _, rfl⟩

theorem sameRefs_setFd {d : ℕ} {fd : AppFd} (h : (sys.fds d).alike fd) (hf : sys'.fds = Function.update sys.fds d fd)
    (hp : sys'.pipes = sys.pipes) : SameRefs sys sys' := by
  refine ⟨fun e => ?_, hp⟩
  rw [hf]
  by_cases he : e = d
  · subst he
    rwa [Function.update_self]
  · rw [Function.update_of_ne he]
    exact AppFd.alike_refl _

/-- An end of kind `kind` of pipe `i`. -/
structure EndAt (sys : Sys) (kind : AppFdKind) (i d : ℕ) : Prop where
  lt : d < appFdCount
  isOpen : (sys.fds d).isOpen = true
  kind_eq : (sys.fds d).kind = kind
  index : (sys.fds d).pfsIndex = i

theorem appFdIndex_lt {fd : ℤ} {d : ℕ} (h : appFdIndex fd = some d) : d < appFdCount := by
  rw [appFdIndex] at h
  split_ifs at h with h₁
  dsimp only at h
  split_ifs at h with h₂
  cases h
  exact h₂

theorem freeFd_eq_some {d : ℕ} (h : freeFd sys = some d) :
    d < appFdCount ∧ (sys.fds d).isOpen = false := by
  have hp := List.find?_some h
  have hm := List.mem_range.mp (List.mem_of_find?_eq_some h)
  exact ⟨hm, by simpa using hp⟩

theorem freeFdAfter_eq_some {r d : ℕ} (h : freeFdAfter sys r = some d) :
    r < d ∧ d < appFdCount ∧ (sys.fds d).isOpen = false := by
  have hp := List.find?_some h
  have hm := List.mem_range.mp (List.mem_of_find?_eq_some h)
  simp only [Bool.and_eq_true, decide_eq_true_eq, Bool.not_eq_true'] at hp
  exact ⟨hp.1, hm, hp.2⟩

theorem freePipe_eq_some {i : ℕ} (h : freePipe sys = some i) :
    i < appPipeCount ∧ (sys.pipes i).used = false := by
  have hp := List.find?_some h
  have hm := List.mem_range.mp (List.mem_of_find?_eq_some h)
  exact ⟨hm, by simpa using hp⟩

/-! ## One call -/

/-- A slot is taken for something that is no end of a pipe, or no descriptor changes. -/
def Opens (sys sys' : Sys) : Prop :=
  SameRefs sys sys' ∨ ∃ d fd, freeFd sys = some d ∧ fd.kind.isEnd = false ∧
    sys'.fds = Function.update sys.fds d fd ∧ sys'.pipes = sys.pipes

theorem Opens.of_setDisk {disk : Disk} (h : Opens (sys.setDisk disk) sys') : Opens sys sys' := by
  rcases h with h | ⟨d, fd, hd, hk, hf, hp⟩
  · exact .inl ⟨h.fds, h.pipes⟩
  · exact .inr ⟨d, fd, hd, hk, hf, hp⟩

theorem opens_setDisk (disk : Disk) : Opens sys (sys.setDisk disk) := .inl ⟨fun _ => AppFd.alike_refl _, rfl⟩

theorem opens_openPfsFd {header : Header} {index : ℕ} {flags : UInt32} :
    Opens sys (openPfsFd sys header index flags).1 := by
  rw [openPfsFd]
  cases hd : freeFd sys with
  | none => exact .inl (.refl sys)
  | some d => exact .inr ⟨d, _, hd, rfl, rfl, rfl⟩

theorem opens_openPfsTruncate {header : Header} {index : ℕ} {name : List UInt8} {flags : UInt32}
    {t : ℕ → ℕ} : Opens sys (openPfsTruncate sys header index name flags t).1 := by
  rw [openPfsTruncate]
  split_ifs
  · dsimp only
    split
    · exact opens_setDisk _
    · exact opens_openPfsFd.of_setDisk
  · exact opens_openPfsFd

theorem opens_abiOpenPfs {name : List UInt8} {flags : UInt32} {t : ℕ → ℕ} :
    Opens sys (abiOpenPfs sys name flags t).1 := by
  rw [abiOpenPfs]
  split_ifs
  iterate 4 exact .inl (.refl sys)
  split
  · exact .inl (.refl sys)
  split_ifs
  · exact .inl (.refl sys)
  split
  · exact .inl (.refl sys)
  · exact opens_openPfsTruncate
  split
  · exact opens_setDisk _
  · exact opens_openPfsTruncate.of_setDisk

/-- **`abi_open` takes the first free slot.** -/
theorem opens_abiOpen {cwd path : List UInt8} {flags : UInt32} {t : ℕ → ℕ} :
    Opens sys (abiOpen sys cwd path flags t).1 := by
  rw [abiOpen]
  split
  · exact .inl (.refl sys)
  split
  · exact opens_abiOpenPfs
  split_ifs
  iterate 2 exact .inl (.refl sys)
  split
  · exact .inl (.refl sys)
  split
  · exact .inr ⟨_, _, ‹_›, rfl, rfl, rfl⟩
  · exact .inl (.refl sys)

/-- A read from a pipe end, or one that moves the descriptor's offset at most. -/
theorem abiRead_tables (fd : ℤ) (n : ℕ) :
    (∃ d, appFdIndex fd = some d ∧ (sys.fds d).isOpen = true ∧ (sys.fds d).kind = .pipeRead ∧
      (abiRead sys fd n = readPipe sys (sys.fds d) n ∨ abiRead sys fd n = (sys, .refused))) ∨
    (∀ d, appFdIndex fd = some d → (sys.fds d).isOpen = true → (sys.fds d).kind ≠ .pipeRead) ∧
      SameRefs sys (abiRead sys fd n).1 := by
  cases hx : appFdIndex fd with
  | none => exact .inr ⟨nofun, by rw [abiRead, hx]; exact .refl sys⟩
  | some d =>
    rw [abiRead, hx]
    dsimp only
    by_cases ho : (sys.fds d).isOpen = true
    · by_cases hk : (sys.fds d).kind = .pipeRead
      · refine .inl ⟨d, rfl, ho, hk, ?_⟩
        rw [if_neg (by simp [ho]), if_pos hk]
        split_ifs
        · exact .inr rfl
        · exact .inl rfl
      · refine .inr ⟨fun e he _ => by cases he; exact hk, ?_⟩
        rw [if_neg (by simp [ho]), if_neg hk]
        split_ifs
        iterate 2 exact .refl sys
        split
        · exact sameRefs_setFd (d := d) (by exact ⟨rfl, rfl, rfl, rfl⟩) rfl rfl
        · split
          · exact .refl sys
          · exact sameRefs_setFd (d := d) (by exact ⟨rfl, rfl, rfl, rfl⟩) rfl rfl
        · exact .refl sys
    · refine .inr ⟨fun e he h => by cases he; exact absurd h ho, ?_⟩
      rw [if_pos (by simpa using ho)]
      exact .refl sys

theorem sameRefs_writeFile {d : ℕ} {handle : AppFd} {data : List UInt8} {t : ℕ → ℕ}
    {r : Sys × Reply ℕ} (h : (sys.fds d).alike handle)
    (he : writeFile (sys.setFd d handle) d handle data t = some r) : SameRefs sys r.1 := by
  have hset : ∀ (fd : AppFd) (disk : Disk), handle.alike fd →
      SameRefs sys (((sys.setFd d handle).setDisk disk).setFd d fd) := by
    intro fd disk hfd
    have ha : (sys.fds d).alike fd := ⟨hfd.1.trans h.1, hfd.2.1.trans h.2.1,
      hfd.2.2.1.trans h.2.2.1, hfd.2.2.2.trans h.2.2.2⟩
    refine sameRefs_setFd ha ?_ rfl
    exact Function.update_idem _ _ _
  have hdisk : ∀ disk, SameRefs sys ((sys.setFd d handle).setDisk disk) :=
    fun disk => sameRefs_setFd h rfl rfl
  rw [writeFile] at he
  split_ifs at he
  · cases he
    exact hdisk _
  split at he
  · cases he
  · cases he
    exact hdisk _
  dsimp only at he
  split_ifs at he
  · split at he <;> cases he
    · exact hset _ _ ⟨rfl, rfl, rfl, rfl⟩
    · exact hset _ _ ⟨rfl, rfl, rfl, rfl⟩
  · cases he
    exact hset _ _ ⟨rfl, rfl, rfl, rfl⟩

/-- A write to a pipe end, or one that moves the descriptor at most. -/
theorem abiWriteFd_tables {fd : ℤ} {data : List UInt8} {t : ℕ → ℕ} {r : Sys × Reply ℕ}
    (he : abiWriteFd sys fd data t = some r) :
    (∃ d, appFdIndex fd = some d ∧ (sys.fds d).isOpen = true ∧ (sys.fds d).kind = .pipeWrite ∧
      (r = writePipe sys (sys.fds d) data ∨ r = (sys, .refused))) ∨
    (∀ d, appFdIndex fd = some d → (sys.fds d).isOpen = true → (sys.fds d).kind ≠ .pipeWrite) ∧
      SameRefs sys r.1 := by
  rw [abiWriteFd] at he
  cases hx : appFdIndex fd with
  | none =>
    rw [hx] at he
    cases he
    exact .inr ⟨nofun, .refl sys⟩
  | some d =>
    rw [hx] at he
    dsimp only at he
    by_cases ho : (sys.fds d).isOpen = true
    · by_cases hk : (sys.fds d).kind = .pipeWrite
      · refine .inl ⟨d, rfl, ho, hk, ?_⟩
        split_ifs at he <;> cases he
        · exact .inr rfl
        · exact .inl rfl
      · refine .inr ⟨fun e h _ => by cases h; exact hk, ?_⟩
        split_ifs at he
        iterate 2
          cases he
          exact .refl sys
        · exact sameRefs_writeFile (by exact ⟨rfl, rfl, rfl, rfl⟩) he
        · exact sameRefs_writeFile (AppFd.alike_refl _) he
    · refine .inr ⟨fun e h h' => by cases h; exact absurd h' ho, ?_⟩
      rw [if_pos (by simp [ho])] at he
      cases he
      exact .refl sys

theorem sameRefs_abiSeek (fd : ℤ) (offset : UInt64) : SameRefs sys (abiSeek sys fd offset).1 := by
  rw [abiSeek]
  split
  · exact .refl sys
  dsimp only
  split_ifs
  iterate 2 exact .refl sys
  exact sameRefs_setFd (by exact ⟨rfl, rfl, rfl, rfl⟩) rfl rfl

theorem abiClose_tables (fd : ℤ) : (abiClose sys fd).1 = sys ∨ ∃ d, d < appFdCount ∧
    (sys.fds d).isOpen = true ∧ (abiClose sys fd).1 = (closePipe sys (sys.fds d)).setFd d .empty := by
  rw [abiClose]
  split_ifs
  iterate 2 exact .inl rfl
  split
  · exact .inl rfl
  dsimp only
  split_ifs with ho
  · exact .inl rfl
  · exact .inr ⟨_, appFdIndex_lt ‹_›, by simpa using ho, rfl⟩

theorem abiPipe_tables : (∃ code, abiPipe sys = (sys, .error code)) ∨
    ∃ i r w, freePipe sys = some i ∧ freeFd sys = some r ∧ freeFdAfter sys r = some w ∧
      abiPipe sys = (((sys.setPipe i newPipe).setFd r (pipeFd .pipeRead fdRead i)).setFd w
        (pipeFd .pipeWrite fdWrite i), .done (r + appFdBase, w + appFdBase)) := by
  rw [abiPipe]
  split
  · exact .inl ⟨_, rfl⟩
  split
  · exact .inl ⟨_, rfl⟩
  split
  · exact .inl ⟨_, rfl⟩
  · exact .inr ⟨_, _, _, ‹_›, ‹_›, ‹_›, rfl⟩

/-! ## The record -/

/-- Since a slot of the pipe table was last taken: the bytes it has accepted and delivered. `life` numbers
the pipes there have been, of which there are `lives`. -/
structure PipeLedger where
  accepted : ℕ → List UInt8
  delivered : ℕ → List UInt8
  life : ℕ → ℕ
  lives : ℕ

namespace PipeLedger

def empty : PipeLedger :=
  { accepted := fun _ => [], delivered := fun _ => [], life := fun _ => 0, lives := 0 }

variable (g : PipeLedger)

/-- A new pipe in slot `i`. -/
def start (i : ℕ) : PipeLedger where
  accepted := Function.update g.accepted i []
  delivered := Function.update g.delivered i []
  life := Function.update g.life i (g.lives + 1)
  lives := g.lives + 1

def deliver (i : ℕ) (bytes : List UInt8) : PipeLedger :=
  { g with delivered := Function.update g.delivered i (g.delivered i ++ bytes) }

def accept (i : ℕ) (bytes : List UInt8) : PipeLedger :=
  { g with accepted := Function.update g.accepted i (g.accepted i ++ bytes) }

end PipeLedger

/-- The pipe whose end of kind `kind` a descriptor of the process is. -/
def pipeOf (io : Io) (process : ℕ) (kind : AppFdKind) (fd : ℤ) : Option ℕ :=
  (appFdIndex (appResolveFd (io.stdFds process) fd)).bind fun d =>
    if (io.sys.fds d).isOpen = true ∧ (io.sys.fds d).kind = kind then some (io.sys.fds d).pfsIndex
    else none

def PipeLedger.note (g : PipeLedger) (io : Io) : IoAct → PipeLedger
  | .pipe _ =>
    match freePipe io.sys, (abiPipe io.sys).2 with
    | some i, .done _ => g.start i
    | _, _ => g
  | .read process fd n line =>
    match pipeOf io process .pipeRead fd, (readFd io process fd n line).2 with
    | some i, .done bytes => g.deliver i bytes
    | _, _ => g
  | .write process fd data t =>
    match pipeOf io process .pipeWrite fd, (writeFd io process fd data t).map Prod.snd with
    | some i, some (.done n) => g.accept i (data.take n)
    | _, _ => g
  | _ => g

theorem pipeOf_eq_none {process : ℕ} {kind : AppFdKind} {fd : ℤ}
    (h : ∀ d, appFdIndex (appResolveFd (io.stdFds process) fd) = some d →
      (io.sys.fds d).isOpen = true → (io.sys.fds d).kind ≠ kind) :
    pipeOf io process kind fd = none := by
  rw [pipeOf]
  cases hx : appFdIndex (appResolveFd (io.stdFds process) fd) with
  | none => rfl
  | some d => exact if_neg fun hc => h d hx hc.1 hc.2

theorem pipeOf_eq {process d : ℕ} {kind : AppFdKind} {fd : ℤ}
    (hx : appFdIndex (appResolveFd (io.stdFds process) fd) = some d)
    (ho : (io.sys.fds d).isOpen = true) (hk : (io.sys.fds d).kind = kind) :
    pipeOf io process kind fd = some (io.sys.fds d).pfsIndex := by
  rw [pipeOf, hx]
  exact if_pos ⟨ho, hk⟩

/-- What a call does to the tables and the record. -/
inductive TableEffect (sys sys' : Sys) (g g' : PipeLedger) : Prop
  | same (h : SameRefs sys sys') (hg : g' = g)
  | opens {d : ℕ} {fd : AppFd} (hd : freeFd sys = some d) (hk : fd.kind.isEnd = false)
      (hf : sys'.fds = Function.update sys.fds d fd) (hp : sys'.pipes = sys.pipes) (hg : g' = g)
  | pipe {i r w : ℕ} (hi : freePipe sys = some i) (hr : freeFd sys = some r)
      (hw : freeFdAfter sys r = some w)
      (hs : sys' = ((sys.setPipe i newPipe).setFd r (pipeFd .pipeRead fdRead i)).setFd w
        (pipeFd .pipeWrite fdWrite i)) (hg : g' = g.start i)
  | closes {d : ℕ} (hd : d < appFdCount) (ho : (sys.fds d).isOpen = true)
      (hs : sys' = (closePipe sys (sys.fds d)).setFd d .empty) (hg : g' = g)
  | takes {i d n : ℕ} {bytes : List UInt8} (he : EndAt sys .pipeRead i d)
      (h : readPipe sys (sys.fds d) n = (sys', .done bytes)) (hg : g' = g.deliver i bytes)
  | puts {i d n : ℕ} {data : List UInt8} (he : EndAt sys .pipeWrite i d)
      (h : writePipe sys (sys.fds d) data = (sys', .done n)) (hg : g' = g.accept i (data.take n))

theorem readPipe_refused {handle : AppFd} {n : ℕ} {r : Sys × Reply (List UInt8)}
    (h : readPipe sys handle n = r) : r = (sys, .refused) ∨ ∃ bytes, r.2 = .done bytes := by
  subst h
  rw [readPipe]
  dsimp only
  split_ifs
  · exact .inl rfl
  iterate 3 exact .inr ⟨_, rfl⟩

theorem writePipe_refused {handle : AppFd} {data : List UInt8} {r : Sys × Reply ℕ}
    (h : writePipe sys handle data = r) : r = (sys, .refused) ∨ ∃ n, r.2 = .done n := by
  subst h
  rw [writePipe]
  dsimp only
  split_ifs
  iterate 2 exact .inl rfl
  exact .inr ⟨_, rfl⟩

variable {g g' : PipeLedger}

theorem effect_read (process : ℕ) (fd : ℤ) (n : ℕ) (line : List UInt8) :
    TableEffect io.sys (readFd io process fd n line).1.sys g (g.note io (.read process fd n line)) := by
  have hnone : ∀ fd', appResolveFd (io.stdFds process) fd = fd' → (fd' < 0 ∨ fd' = stdinFd) →
      pipeOf io process .pipeRead fd = none := by
    rintro fd' rfl hc
    have hx : appFdIndex (appResolveFd (io.stdFds process) fd) = none := by
      rw [appFdIndex, if_pos (by rcases hc with h | h <;> simp only [appFdBase, stdinFd] at * <;> omega)]
    exact pipeOf_eq_none fun d hd => by rw [hx] at hd; cases hd
  rw [PipeLedger.note, readFd]
  dsimp only
  split_ifs with h₁ h₂
  · rw [hnone _ rfl (.inl h₁)]
    exact .same (.refl _) rfl
  · rw [hnone _ rfl (.inr h₂)]
    exact .same (.refl _) rfl
  rcases @abiRead_tables io.sys (appResolveFd (io.stdFds process) fd) n with
    ⟨d, hx, ho, hk, he⟩ | ⟨hno, hsame⟩
  · rw [pipeOf_eq hx ho hk]
    have hend : EndAt io.sys .pipeRead (io.sys.fds d).pfsIndex d := ⟨appFdIndex_lt hx, ho, hk, rfl⟩
    rcases he with he | he
    · rw [he]
      rcases @readPipe_refused io.sys _ _ _ rfl with hr | ⟨bytes, hr⟩
      · rw [hr]
        exact .same (.refl _) rfl
      · rw [hr]
        exact .takes hend (Prod.ext rfl hr) rfl
    · rw [he]
      exact .same (.refl _) rfl
  · rw [pipeOf_eq_none hno]
    exact .same hsame rfl

theorem effect_write {process : ℕ} {fd : ℤ} {data : List UInt8} {t : ℕ → ℕ} {r : Io × Reply ℕ}
    (he : writeFd io process fd data t = some r) :
    TableEffect io.sys r.1.sys g (g.note io (.write process fd data t)) := by
  have hnone : ∀ fd', appResolveFd (io.stdFds process) fd = fd' →
      (fd' < 0 ∨ fd' = stdoutFd ∨ fd' = stderrFd) → pipeOf io process .pipeWrite fd = none := by
    rintro fd' rfl hc
    have hx : appFdIndex (appResolveFd (io.stdFds process) fd) = none := by
      rw [appFdIndex, if_pos (by
        rcases hc with h | h | h <;> simp only [appFdBase, stdoutFd, stderrFd] at * <;> omega)]
    exact pipeOf_eq_none fun d hd => by rw [hx] at hd; cases hd
  rw [PipeLedger.note, he]
  rw [writeFd] at he
  split_ifs at he with h₁ h₂
  · cases he
    rw [hnone _ rfl (.inl h₁)]
    exact .same (.refl _) rfl
  · cases he
    rw [hnone _ rfl (.inr h₂)]
    exact .same (.refl _) rfl
  obtain ⟨q, hq, rfl⟩ := Option.map_eq_some_iff.mp he
  rcases abiWriteFd_tables hq with ⟨d, hx, ho, hk, hr⟩ | ⟨hno, hsame⟩
  · rw [pipeOf_eq hx ho hk]
    have hend : EndAt io.sys .pipeWrite (io.sys.fds d).pfsIndex d := ⟨appFdIndex_lt hx, ho, hk, rfl⟩
    rcases hr with hr | rfl
    · rcases writePipe_refused hr.symm with rfl | ⟨n, hn⟩
      · exact .same (.refl _) rfl
      · rw [Option.map_some, hn]
        exact .puts hend (hr.symm.trans (Prod.ext rfl hn)) rfl
    · exact .same (.refl _) rfl
  · rw [pipeOf_eq_none hno]
    exact .same hsame rfl

/-- **What a call does to the tables and the record.** -/
theorem ioStep_effect {a : IoAct} (h : ioStep io a = some io') :
    TableEffect io.sys io'.sys g (g.note io a) := by
  cases a with
  | «open» process cwd path flags t =>
    cases h
    rcases @opens_abiOpen io.sys _ _ _ _ with hs | ⟨d, fd, hd, hk, hf, hp⟩
    · exact .same hs rfl
    · exact .opens hd hk hf hp rfl
  | pipe process =>
    cases h
    rcases @abiPipe_tables io.sys with ⟨code, he⟩ | ⟨i, r, w, hi, hr, hw, he⟩
    · rw [PipeLedger.note, he]
      exact .same (.refl _) (by cases freePipe io.sys <;> rfl)
    · rw [PipeLedger.note, he, hi]
      exact .pipe hi hr hw rfl rfl
  | read process fd n line =>
    cases h
    exact effect_read process fd n line
  | write process fd data t =>
    obtain ⟨r, hr, rfl⟩ := Option.map_eq_some_iff.mp h
    exact effect_write hr
  | seek process fd offset =>
    cases h
    exact .same (sameRefs_abiSeek fd offset) rfl
  | dup2 process oldFd newFd =>
    cases h
    refine .same ?_ rfl
    rw [dup2]
    split_ifs <;> exact .refl _
  | close process fd =>
    cases h
    rw [closeFd]
    split_ifs
    · exact .same (.refl _) rfl
    · rcases @abiClose_tables io.sys fd with he | ⟨d, hd, ho, he⟩
      · refine .same ?_ rfl
        change SameRefs io.sys (abiClose io.sys fd).1
        rw [he]
        exact .refl _
      · exact .closes hd ho he rfl
  | spawn process child =>
    cases h
    exact .same (.refl _) rfl
  | exit process =>
    cases h
    exact .same (.refl _) rfl
  | fault readOk writeOk =>
    cases h
    exact .same ⟨fun d => AppFd.alike_refl _, rfl⟩ rfl

end Rymos
