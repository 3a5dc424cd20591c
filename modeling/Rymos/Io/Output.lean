import Mathlib.Tactic
import Rymos.Io.Pipes
import Rymos.Pfs.Taken

/-!
# The output of a program

* **`rtWrite`**: `write` of the runtime. `printed`: what `abi_write_fd` prints itself.
* `Outlet`, `Took`: where the output goes, and what has come there.
* `OutCall`, `OutCall.Delivered`: a call whose bytes have come to the target or to the console.
* `OutFits`: the target takes all of a call or nothing. **`rtWrite_delivered`**, `rtWrite_pipe_iff`.
* `OutAct`, `OutLog`, **`outStep`**: the calls of all processes, with a record of the output.
* **`outLaw_of_reach`**: no output is lost in any run whose calls fit. `not_outLaw_straddleRun`.
-/

namespace Rymos

open ByteBuf Transition

/-! ## The call -/

/-- What `abi_write_fd` prints on the console. -/
def printed (io : Io) (process : ℕ) (fd : ℤ) (data : List UInt8) : List UInt8 :=
  let fd := appResolveFd (io.stdFds process) fd
  if fd = stdoutFd ∨ fd = stderrFd then data else []

/-- `write` of the runtime, and what is printed on the console. -/
def rtWrite (io : Io) (process : ℕ) (bytes : List UInt8) (t : ℕ → ℕ) : Option (Io × List UInt8) :=
  (writeFd io process stdoutFd bytes t).map fun r =>
    (r.1, if r.2.isDone then printed io process stdoutFd bytes else bytes)

/-! ## Where the output goes -/

/-- The console, a pipe, or the file of a descriptor. -/
inductive Outlet where
  | console
  | pipe (i : ℕ)
  | file (handle : AppFd)

/-- What stdout of the process refers to; the console if it cannot be written to. -/
def stdoutTarget (io : Io) (process : ℕ) : Outlet :=
  match appFdIndex (appResolveFd (io.stdFds process) stdoutFd) with
  | none => .console
  | some d =>
    let handle := io.sys.fds d
    if !handle.allows fdWrite then .console
    else if handle.kind = .pipeWrite then .pipe handle.pfsIndex
    else if handle.kind = .pfs then .file handle
    else .console

/-- Pipe `i` has `taken` behind the bytes that wait in it; nothing else changes. -/
structure PipeTook (sys sys' : Sys) (i : ℕ) (taken : List UInt8) : Prop where
  queue : (sys'.pipes i).queue = (sys.pipes i).queue ++ taken
  others : ∀ j ≠ i, sys'.pipes j = sys.pipes j
  disk : sys'.disk = sys.disk

/-- What has come to the target. -/
def Took (io io' : Io) : Outlet → List UInt8 → Prop
  | .console, taken => taken = [] ∧ io' = io
  | .pipe i, taken => PipeTook io.sys io'.sys i taken
  | .file handle, taken => io'.sys.pipes = io.sys.pipes ∧
    FileTook io.sys.disk io'.sys.disk handle.pfsIndex (writeOffset handle) taken

/-- A call of `write`: the state before and after it, and what it has printed. -/
structure OutCall where
  before : Io
  after : Io
  process : ℕ
  bytes : List UInt8
  out : List UInt8

/-- Each byte of the call has come to the target or to the console, once and in order. -/
def OutCall.Delivered (c : OutCall) : Prop :=
  ∃ taken, taken ++ c.out = c.bytes ∧ Took c.before c.after (stdoutTarget c.before c.process) taken

/-! ## Calls that fit -/

/-- A pipe that can be read from has room for all of the bytes, or for none. -/
def PipeFits (pipe : AppPipe) (len : ℕ) : Prop :=
  pipe.readOpen = true → len ≤ appPipeBufferSize - pipe.len ∨ appPipeBufferSize - pipe.len = 0

/-- The target takes all of the call or nothing. -/
def OutFits (io : Io) (process : ℕ) (bytes : List UInt8) (t : ℕ → ℕ) : Prop :=
  match stdoutTarget io process with
  | .console => True
  | .pipe i => PipeFits (io.sys.pipes i) bytes.length
  | .file handle => FileFits io.sys.disk handle bytes (t 0)

section Call

variable {io io' : Io} {process i d : ℕ} {bytes out : List UInt8} {t : ℕ → ℕ} {handle : AppFd}

/-- A descriptor that has a slot is not one of the console. -/
theorem not_std_of_slot {fd : ℤ} (h : appFdIndex fd = some d) :
    ¬ fd < 0 ∧ ¬ (fd = stdoutFd ∨ fd = stderrFd) := by
  unfold appFdIndex at h
  split_ifs at h with hlt
  simp only [appFdBase, stdoutFd, stderrFd] at *
  omega

/-- The call through a slot of the descriptor table. -/
theorem rtWrite_slot (h : appFdIndex (appResolveFd (io.stdFds process) stdoutFd) = some d) :
    rtWrite io process bytes t =
      (abiWriteFd io.sys (appResolveFd (io.stdFds process) stdoutFd) bytes t).map fun r =>
        (io.setSys r.1, if r.2.isDone then [] else bytes) := by
  obtain ⟨hneg, hstd⟩ := not_std_of_slot h
  rw [rtWrite, writeFd, printed, if_neg hneg, if_neg hstd, if_neg hstd, Option.map_map]
  rfl

/-- Without another target the call prints its bytes. -/
theorem rtWrite_console (h : stdoutTarget io process = .console) :
    rtWrite io process bytes t = some (io, bytes) := by
  unfold stdoutTarget at h
  cases hd : appFdIndex (appResolveFd (io.stdFds process) stdoutFd) with
  | none =>
    rw [rtWrite, writeFd, printed, abiWriteFd, hd]
    dsimp only
    split_ifs <;> rfl
  | some d =>
    rw [hd] at h
    rw [rtWrite_slot hd, abiWriteFd, hd]
    dsimp only at h ⊢
    split_ifs at h with ha hp hf
    · rw [if_pos (by simpa [AppFd.allows] using ha)]
      rfl
    · rw [if_neg (by simpa [AppFd.allows] using ha), if_neg hp, if_pos hf]
      rfl

/-- A slot that leads to a pipe. -/
theorem slot_of_pipe (h : stdoutTarget io process = .pipe i) :
    ∃ d, appFdIndex (appResolveFd (io.stdFds process) stdoutFd) = some d ∧
      (io.sys.fds d).allows fdWrite = true ∧ (io.sys.fds d).kind = .pipeWrite ∧
      (io.sys.fds d).pfsIndex = i := by
  unfold stdoutTarget at h
  cases hd : appFdIndex (appResolveFd (io.stdFds process) stdoutFd) with
  | none =>
    rw [hd] at h
    cases h
  | some d =>
    rw [hd] at h
    dsimp only at h
    split_ifs at h with ha hp hf
    cases h
    exact ⟨d, rfl, by simpa using ha, hp, rfl⟩

theorem slot_of_file (h : stdoutTarget io process = .file handle) :
    ∃ d, appFdIndex (appResolveFd (io.stdFds process) stdoutFd) = some d ∧
      (io.sys.fds d).allows fdWrite = true ∧ (io.sys.fds d).kind = .pfs ∧ io.sys.fds d = handle := by
  unfold stdoutTarget at h
  cases hd : appFdIndex (appResolveFd (io.stdFds process) stdoutFd) with
  | none =>
    rw [hd] at h
    cases h
  | some d =>
    rw [hd] at h
    dsimp only at h
    split_ifs at h with ha hp hf
    cases h
    exact ⟨d, rfl, by simpa using ha, hf, rfl⟩

/-- The call on a pipe. -/
theorem rtWrite_pipe (hd : appFdIndex (appResolveFd (io.stdFds process) stdoutFd) = some d)
    (ha : (io.sys.fds d).allows fdWrite = true) (hk : (io.sys.fds d).kind = .pipeWrite) :
    rtWrite io process bytes t = some (io.setSys (writePipe io.sys (io.sys.fds d) bytes).1,
      if (writePipe io.sys (io.sys.fds d) bytes).2.isDone then [] else bytes) := by
  have hopen : ¬ (!(io.sys.fds d).isOpen || !hasFlag (io.sys.fds d).flags fdWrite) = true := by
    simpa [AppFd.allows] using ha
  rw [rtWrite_slot hd, abiWriteFd, hd]
  dsimp only
  rw [if_neg hopen, if_pos hk]
  rfl

/-- What a pipe does with the call: it refuses it, or it takes a part. -/
theorem writePipe_took (hlen : (io.sys.pipes handle.pfsIndex).readOffset ≤
      (io.sys.pipes handle.pfsIndex).len ∧ (io.sys.pipes handle.pfsIndex).len ≤ appPipeBufferSize) :
    (writePipe io.sys handle bytes = (io.sys, .refused)) ∨
      ∃ sys', writePipe io.sys handle bytes = (sys', .done (min bytes.length
          (appPipeBufferSize - (io.sys.pipes handle.pfsIndex).len))) ∧
        PipeTook io.sys sys' handle.pfsIndex
          (bytes.take (min bytes.length (appPipeBufferSize - (io.sys.pipes handle.pfsIndex).len))) ∧
        (io.sys.pipes handle.pfsIndex).readOpen = true ∧
        (min bytes.length (appPipeBufferSize - (io.sys.pipes handle.pfsIndex).len) = 0 → bytes = []) := by
  cases hw : writePipe io.sys handle bytes with
  | mk sys' r =>
    have hr := hw
    rw [writePipe] at hr
    dsimp only at hr
    split_ifs at hr with hclosed hfull
    · cases hr
      exact .inl rfl
    · cases hr
      exact .inl rfl
    · obtain ⟨rfl, rfl⟩ := Prod.mk.inj hr
      obtain ⟨-, pipe, hp, -, -, -, hq⟩ := writePipe_done hw
      obtain ⟨-, -, hqueue⟩ := hq hlen.1 hlen.2
      have hopen : ((io.sys.pipes handle.pfsIndex).used = true ∧
          (io.sys.pipes handle.pfsIndex).writeOpen = true) ∧
          (io.sys.pipes handle.pfsIndex).readOpen = true := by simpa using hclosed
      refine .inr ⟨_, rfl, ⟨?_, fun j hj => ?_, rfl⟩, hopen.2, fun h0 => ?_⟩
      · rw [hp, Function.update_self, hqueue]
      · rw [hp, Function.update_of_ne hj]
      · simpa [h0] using hfull

/-- **A call on a pipe is delivered** just if the pipe has room for all of it or for none. -/
theorem rtWrite_pipe_iff (hq : (io.sys.pipes i).readOffset ≤ (io.sys.pipes i).len ∧
      (io.sys.pipes i).len ≤ appPipeBufferSize)
    (hends : (io.sys.pipes i).readOpen = true →
      (io.sys.pipes i).used = true ∧ (io.sys.pipes i).writeOpen = true)
    (h : stdoutTarget io process = .pipe i) :
    ∃ io' out, rtWrite io process bytes t = some (io', out) ∧
      ((⟨io, io', process, bytes, out⟩ : OutCall).Delivered ↔ PipeFits (io.sys.pipes i) bytes.length) := by
  obtain ⟨d, hd, ha, hk, rfl⟩ := slot_of_pipe h
  have hrt : rtWrite io process bytes t = _ := rtWrite_pipe hd ha hk
  have htaken : writePipe io.sys (io.sys.fds d) bytes = _ ∨ _ := writePipe_took hq
  rcases htaken with hr | ⟨sys', hw, htook, hopen, hzero⟩
  · rw [hr] at hrt
    refine ⟨_, _, hrt, iff_of_true ⟨[], rfl, ?_⟩ fun hro => ?_⟩
    · dsimp only
      rw [h]
      exact ⟨(List.append_nil _).symm, fun _ _ => rfl, rfl⟩
    · obtain ⟨hused, hwo⟩ := hends hro
      rw [writePipe] at hr
      dsimp only at hr
      rw [if_neg (by simp [hused, hwo, hro])] at hr
      split_ifs at hr with hfull
      · simp only [Bool.and_eq_true, decide_eq_true_eq, bne_iff_ne, ne_eq] at hfull
        omega
      · cases congrArg Prod.snd hr
  · rw [hw] at hrt
    refine ⟨io.setSys sys', [], hrt, ?_⟩
    have hdel : (⟨io, io.setSys sys', process, bytes, []⟩ : OutCall).Delivered ↔
        bytes.length ≤ appPipeBufferSize - (io.sys.pipes (io.sys.fds d).pfsIndex).len := by
      constructor
      · rintro ⟨taken, heq, htook'⟩
        dsimp only at heq htook'
        rw [h] at htook'
        rw [List.append_nil] at heq
        subst heq
        have hlen := congrArg List.length (htook'.queue.symm.trans htook.queue)
        simp only [List.length_append, List.length_take] at hlen
        omega
      · intro hle
        refine ⟨bytes, List.append_nil _, ?_⟩
        dsimp only
        rw [h]
        rwa [min_eq_left hle, List.take_length] at htook
    rw [hdel, PipeFits]
    constructor
    · exact fun hle _ => .inl hle
    · intro hfits
      rcases hfits hopen with hle | h0
      · exact hle
      · rw [h0, Nat.min_zero] at hzero
        rw [hzero rfl]
        exact Nat.zero_le _

/-- **A call on a file that fits is delivered.** -/
theorem rtWrite_file (hw : HeaderWritable io.sys.disk) (ha : AllocInv (diskHeader io.sys.disk))
    (hn : NamesInv (diskHeader io.sys.disk)) (hi : handle.pfsIndex < pfsEntryCount)
    (h : stdoutTarget io process = .file handle) (hfits : FileFits io.sys.disk handle bytes (t 0)) :
    ∃ io' out, rtWrite io process bytes t = some (io', out) ∧
      (⟨io, io', process, bytes, out⟩ : OutCall).Delivered := by
  obtain ⟨d, hd, hwrite, hk, rfl⟩ := slot_of_file h
  obtain ⟨sys', r, he, hpipes, htook⟩ := writeFile_took (d := d) hw ha hn hi hfits
  have hrt : rtWrite io process bytes t = _ := rtWrite_slot hd
  rw [abiWriteFd_pfs hd hk hwrite, he, Option.map_some] at hrt
  rcases htook with ⟨rfl, htook⟩ | ⟨rfl, htook⟩
  · refine ⟨_, _, hrt, bytes, List.append_nil _, ?_⟩
    dsimp only
    rw [h]
    exact ⟨hpipes, htook⟩
  · refine ⟨_, _, hrt, [], rfl, ?_⟩
    dsimp only
    rw [h]
    exact ⟨hpipes, htook⟩

end Call

/-! ## Runs -/

/-- The calls that name what they change, and another answer of the drive. -/
def FsAct.byName : FsAct → Bool
  | .open .. | .read .. | .write .. | .seek .. | .close .. => false
  | _ => true

def IoAct.isFault : IoAct → Bool
  | .fault .. => true
  | _ => false

/-- A call of `write` of the runtime, or any other call. -/
inductive OutAct where
  | print (process : ℕ) (bytes : List UInt8) (t : ℕ → ℕ)
  | io (act : IoAct) (call : act.isFault = false)
  | fs (act : FsAct) (named : act.byName = true)

/-- One call; `none` if the kernel panics. -/
def outIoStep (io : Io) : OutAct → Option Io
  | .print process bytes t => (rtWrite io process bytes t).map Prod.fst
  | .io act _ => ioStep io act
  | .fs act _ => (sysStep io.sys act).map io.setSys

/-- What the pipes have taken and given, and the calls of `write`, the last one first. -/
structure OutLog where
  pipes : PipeLedger
  calls : List OutCall

def OutLog.note (g : OutLog) (io : Io) : OutAct → OutLog
  | .print process bytes t =>
    { pipes := g.pipes.note io (.write process stdoutFd bytes t)
      calls := ((rtWrite io process bytes t).map fun r =>
        (⟨io, r.1, process, bytes, r.2⟩ : OutCall)).toList ++ g.calls }
  | .io act _ => { g with pipes := g.pipes.note io act }
  | .fs _ _ => g

/-- The calls, with the record of the output. -/
def outStep : Io × OutLog → OutAct → Option (Io × OutLog) :=
  Transition.record OutLog.note outIoStep

/-- A freshly formatted disk; no descriptor is open and no pipe in use. -/
def OutBoot (x : Io × OutLog) : Prop := IoBoot x.1 ∧ FsInit x.1.sys ∧ x.2 = ⟨.empty, []⟩

/-- The target takes all of a call of `write` or nothing. -/
def OutGood (x : Io × OutLog) : OutAct → Prop
  | .print process bytes t => OutFits x.1 process bytes t
  | _ => True

/-- Every call of `write` has been delivered, and the pipes hand on what they take, in order. -/
structure OutLaw (x : Io × OutLog) : Prop where
  calls : ∀ c ∈ x.2.calls, c.Delivered
  flow : ∀ i < appPipeCount, (x.1.sys.pipes i).used = true →
    x.2.pipes.delivered i ++ (x.1.sys.pipes i).queue = x.2.pipes.accepted i

/-- The tables agree, and the disk is in order. -/
structure OutInv (x : Io × OutLog) : Prop where
  ends : EndsOk x.1.sys
  queue : QueueOk x.1.sys x.2.pipes
  fs : FsInv x.1.sys
  names : NamesInv (diskHeader x.1.sys.disk)

section Run

variable {io io' : Io} {x y : Io × OutLog} {sys sys' : Sys} {process : ℕ} {bytes : List UInt8}
  {t : ℕ → ℕ}

/-- A call of `write` does to the tables what `write_fd` does. -/
theorem outIoStep_print : outIoStep io (.print process bytes t) =
    ioStep io (.write process stdoutFd bytes t) := by
  rw [outIoStep, rtWrite, ioStep, Option.map_map]
  rfl

/-- The calls by name change the disk only. -/
theorem sysStep_byName {act : FsAct} (hn : act.byName = true) (h : sysStep sys act = some sys') :
    ∃ disk, sys' = sys.setDisk disk := by
  have hreply (header : Header) : ∃ disk, (replyHeader sys header).1 = sys.setDisk disk := by
    unfold replyHeader
    split <;> exact ⟨_, rfl⟩
  cases act with
  | «open» | read | write | seek | close => cases hn
  | mkdir cwd path t =>
    cases h
    unfold abiMkdir
    repeat' split
    all_goals first | exact ⟨sys.disk, rfl⟩ | exact hreply _
  | unlink cwd path =>
    cases h
    unfold abiUnlink
    repeat' split
    all_goals first | exact ⟨sys.disk, rfl⟩ | exact hreply _
  | rename cwd oldPath newPath t =>
    cases h
    unfold abiRename
    repeat' split
    all_goals first | exact ⟨sys.disk, rfl⟩ | exact hreply _
  | pwrite name data t =>
    obtain ⟨r, -, rfl⟩ := Option.map_eq_some_iff.mp h
    exact ⟨_, rfl⟩
  | pmkdir name t =>
    cases h
    exact ⟨_, rfl⟩
  | pdelete name =>
    cases h
    exact ⟨_, rfl⟩
  | fault readOk writeOk =>
    rw [sysStep] at h
    split_ifs at h
    cases h
    exact ⟨_, rfl⟩

/-- A call of a process is a file call, makes a pipe, or changes redirections only. -/
theorem ioStep_sys {act : IoAct} (hc : act.isFault = false) (h : ioStep io act = some io') :
    io'.sys = io.sys ∨ io'.sys = (abiPipe io.sys).1 ∨ ∃ a, sysStep io.sys a = some io'.sys := by
  cases act with
  | fault => cases hc
  | «open» process cwd path flags t =>
    cases h
    exact .inr (.inr ⟨.open cwd path flags t, rfl⟩)
  | pipe process =>
    cases h
    exact .inr (.inl rfl)
  | read process fd n line =>
    cases h
    rw [readFd]
    dsimp only
    split_ifs
    · exact .inl rfl
    · exact .inl rfl
    · exact .inr (.inr ⟨.read _ n, rfl⟩)
  | write process fd data t =>
    rw [ioStep, writeFd] at h
    split_ifs at h
    · cases h
      exact .inl rfl
    · cases h
      exact .inl rfl
    · rw [Option.map_map] at h
      obtain ⟨r, hr, rfl⟩ := Option.map_eq_some_iff.mp h
      refine .inr (.inr ⟨.write (appResolveFd (io.stdFds process) fd) data t, ?_⟩)
      rw [sysStep, hr]
      rfl
  | seek process fd offset =>
    cases h
    exact .inr (.inr ⟨.seek fd offset, rfl⟩)
  | dup2 process oldFd newFd =>
    cases h
    rw [dup2]
    split_ifs <;> exact .inl rfl
  | close process fd =>
    cases h
    rw [closeFd]
    split_ifs
    · exact .inl rfl
    · exact .inr (.inr ⟨.close fd, rfl⟩)
  | spawn process child =>
    cases h
    exact .inl rfl
  | exit process =>
    cases h
    exact .inl rfl

/-- A new pipe does not touch the disk. -/
theorem FsInv.pipe (h : FsInv sys) : FsInv (abiPipe sys).1 ∧ (abiPipe sys).1.disk = sys.disk := by
  rcases @abiPipe_tables sys with ⟨code, he⟩ | ⟨i, r, w, -, -, -, he⟩
  · rw [he]
    exact ⟨h, rfl⟩
  · rw [he]
    refine ⟨⟨h.writable, ?_, h.alloc⟩, rfl⟩
    have hpipe : FdsOk (sys.setPipe i newPipe) := h.fds
    exact (hpipe.setFd fun hk => by cases hk).setFd fun hk => by cases hk

/-- The disk is in order after every call. -/
theorem OutInv.disk (h : OutInv x) {act : OutAct} (hs : outIoStep x.1 act = some io') :
    FsInv io'.sys ∧ NamesInv (diskHeader io'.sys.disk) := by
  have hio {act : IoAct} (hc : act.isFault = false) (hs : ioStep x.1 act = some io') :
      FsInv io'.sys ∧ NamesInv (diskHeader io'.sys.disk) := by
    rcases ioStep_sys hc hs with he | he | ⟨a, ha⟩
    · rw [he]
      exact ⟨h.fs, h.names⟩
    · obtain ⟨hfs, hdisk⟩ := h.fs.pipe
      rw [he, hdisk]
      exact ⟨hfs, h.names⟩
    · exact ⟨h.fs.step ha, h.names.step h.fs ha⟩
  cases act with
  | print process bytes t => exact hio rfl (outIoStep_print ▸ hs)
  | io act hc => exact hio hc hs
  | fs act hn =>
    obtain ⟨sys', ha, rfl⟩ := Option.map_eq_some_iff.mp hs
    exact ⟨h.fs.step ha, h.names.step h.fs ha⟩

/-- What a call does to the tables and the record of the pipes. -/
theorem outIoStep_effect {g : OutLog} {act : OutAct} (hs : outIoStep io act = some io') :
    TableEffect io.sys io'.sys g.pipes (g.note io act).pipes := by
  cases act with
  | print process bytes t => exact ioStep_effect (outIoStep_print ▸ hs)
  | io act hc => exact ioStep_effect hs
  | fs act hn =>
    obtain ⟨sys', ha, rfl⟩ := Option.map_eq_some_iff.mp hs
    obtain ⟨disk, rfl⟩ := sysStep_byName hn ha
    exact .same ⟨fun _ => AppFd.alike_refl _, rfl⟩ rfl

theorem OutInv.step (h : OutInv x) {act : OutAct} (hs : outStep x act = some y) : OutInv y := by
  obtain ⟨hs, hg⟩ := Transition.record_eq_some.mp hs
  obtain ⟨hfs, hn⟩ := h.disk hs
  have he := outIoStep_effect (g := x.2) hs
  rw [← hg] at he
  exact ⟨h.ends.step he, h.queue.step he, hfs, hn⟩

theorem outInv_boot (h : OutBoot x) : OutInv x := by
  obtain ⟨hio, hfs, hlog⟩ := h
  refine ⟨endsOk_boot hio, ?_, hfs.inv, ?_⟩
  · rw [hlog]
    exact queueOk_boot hio
  · rw [hfs.formatted]
    exact namesInv_emptyHeader

theorem outInv_of_reach {good : Io × OutLog → OutAct → Prop} (h : Reach OutBoot good outStep x) :
    OutInv x :=
  h.inv (fun _ hb => outInv_boot hb) fun _ _ _ hi _ hs => hi.step hs

/-- The flags of a pipe that is the target. -/
theorem OutInv.pipe (h : OutInv x) {i : ℕ} (ht : stdoutTarget x.1 process = .pipe i)
    (hr : (x.1.sys.pipes i).readOpen = true) :
    (x.1.sys.pipes i).used = true ∧ (x.1.sys.pipes i).writeOpen = true := by
  obtain ⟨d, hd, ha, hk, hi⟩ := slot_of_pipe ht
  have ho : (x.1.sys.fds d).isOpen = true := ((Bool.and_eq_true _ _).mp ha).1
  have hend : EndAt x.1.sys .pipeWrite i d := ⟨appFdIndex_lt hd, ho, hk, hi⟩
  have hlt := h.ends.index rfl hend
  exact ⟨(h.ends.used hlt).mpr (.inl hr), (h.ends.opened rfl hlt).mpr ⟨d, hend⟩⟩

/-- **A call that fits is delivered.** -/
theorem OutInv.delivered (h : OutInv x) (hfits : OutFits x.1 process bytes t) :
    ∃ io' out, rtWrite x.1 process bytes t = some (io', out) ∧
      (⟨x.1, io', process, bytes, out⟩ : OutCall).Delivered := by
  unfold OutFits at hfits
  cases ht : stdoutTarget x.1 process with
  | console =>
    refine ⟨_, _, rtWrite_console ht, [], rfl, ?_⟩
    dsimp only
    rw [ht]
    exact ⟨rfl, rfl⟩
  | pipe i =>
    rw [ht] at hfits
    obtain ⟨io', out, (he : rtWrite x.1 process bytes t = _), hiff⟩ :=
      rtWrite_pipe_iff (h.queue.offsets i) (h.pipe ht) ht
    exact ⟨io', out, he, hiff.mpr hfits⟩
  | file handle =>
    rw [ht] at hfits
    obtain ⟨d, -, -, hk, rfl⟩ := slot_of_file ht
    exact rtWrite_file h.fs.writable h.fs.alloc h.names (h.fs.fds d hk) ht hfits

/-- **No output is lost** in a run in which the target takes all of each call or nothing; and in every
run a call on a pipe is delivered just if it does. -/
theorem outLaw_of_reach (x : Io × OutLog) :
    (Reach OutBoot OutGood outStep x → OutLaw x) ∧
    (Reach OutBoot (fun _ _ => True) outStep x → ∀ process i bytes t,
      stdoutTarget x.1 process = .pipe i → ∃ io' out, rtWrite x.1 process bytes t = some (io', out) ∧
        ((⟨x.1, io', process, bytes, out⟩ : OutCall).Delivered ↔
          PipeFits (x.1.sys.pipes i) bytes.length)) := by
  constructor
  · intro h
    refine ⟨?_, fun i _ hu => (outInv_of_reach h).queue.flow i hu⟩
    induction h with
    | start hb =>
      obtain ⟨-, -, hlog⟩ := hb
      rw [hlog]
      intro c hc
      cases hc
    | @next x y act hx hg hs ih =>
      obtain ⟨-, hy⟩ := Transition.record_eq_some.mp hs
      rw [hy]
      cases act with
      | io act hc => exact ih
      | fs act hn => exact ih
      | print process bytes t =>
        obtain ⟨io', out, he, hdel⟩ := (outInv_of_reach hx).delivered hg
        intro c hc
        rw [OutLog.note, he] at hc
        rcases List.mem_cons.mp hc with rfl | hc
        · exact hdel
        · exact ih c hc
  · intro h process i bytes t ht
    have hinv := outInv_of_reach h
    exact rtWrite_pipe_iff (hinv.queue.offsets i) (hinv.pipe ht) ht

end Run

/-- A freshly formatted disk at boot. -/
def bootOut : Io × OutLog := (⟨blankSys, fun _ => emptyStdFds⟩, ⟨.empty, []⟩)

theorem outBoot_bootOut : OutBoot bootOut :=
  ⟨⟨fun _ => rfl, fun _ => rfl, fun _ => rfl⟩, fsInit_blankSys, rfl⟩

/-- A process makes a pipe and redirects its output to it. -/
def redirectRun : List OutAct := [.io (.pipe 0) rfl, .io (.dup2 0 4 1) rfl]

/-- It prints three bytes. -/
def threeRun : List OutAct := redirectRun ++ [.print 0 [1, 2, 3] fun _ => 0]

theorem outLaw_of_reach_threeRun : ∃ x, exec outStep bootOut threeRun = some x ∧
    x.2.calls.length = 1 ∧ OutLaw x ∧ ∃ io' out, rtWrite x.1 0 [4] (fun _ => 0) = some (io', out) ∧
      ((⟨x.1, io', 0, [4], out⟩ : OutCall).Delivered ↔ PipeFits (x.1.sys.pipes 0) 1) := by
  have hrun : ((exec outStep bootOut threeRun).map fun x => x.2.calls.length) = some 1 := by
    decide +kernel
  obtain ⟨x, hs, hlen⟩ := Option.map_eq_some_iff.mp hrun
  have hgood : AllGood OutGood outStep bootOut threeRun := by
    refine ⟨trivial, fun y hy => ⟨trivial, fun z hz => ⟨?_, fun _ _ => trivial⟩⟩⟩
    cases hy
    cases hz
    exact fun _ => .inl (by decide)
  refine ⟨x, hs, hlen, (outLaw_of_reach x).1 (reach_of_exec (.start outBoot_bootOut) hgood hs),
    (outLaw_of_reach x).2 (reach_of_exec (.start outBoot_bootOut) (allGood_true _ _) hs) 0 0 [4] _ ?_⟩
  cases hs
  rfl

/-- The pipe has room for two of the three bytes. -/
def straddleRun : List OutAct :=
  redirectRun ++ [.io (.write 0 4 (List.replicate 8190 0) fun _ => 0) rfl, .print 0 [1, 2, 3] fun _ => 0]

/-- **The third byte is lost.** -/
theorem not_outLaw_straddleRun :
    ¬ ∀ x, Reach OutBoot (fun _ _ => True) outStep x → OutLaw x := by
  intro hall
  have hrun : ((exec outStep bootOut straddleRun).bind fun x => x.2.calls.head?).map (fun c =>
      ([c.bytes.length, c.out.length, (c.before.sys.pipes 0).len - (c.before.sys.pipes 0).readOffset,
        (c.after.sys.pipes 0).len - (c.after.sys.pipes 0).readOffset, (c.before.sys.fds 1).pfsIndex],
        appFdIndex (appResolveFd (c.before.stdFds c.process) stdoutFd),
        (c.before.sys.fds 1).allows fdWrite && decide ((c.before.sys.fds 1).kind = .pipeWrite))) =
      some ([3, 0, 8190, 8192, 0], some 1, true) := by decide +kernel
  obtain ⟨c, hc, he⟩ := Option.map_eq_some_iff.mp hrun
  obtain ⟨x, hs, hhead⟩ := Option.bind_eq_some_iff.mp hc
  obtain ⟨hnumbers, he⟩ := Prod.mk.inj he
  obtain ⟨hslot, hpipe⟩ := Prod.mk.inj he
  obtain ⟨hallows, hkind⟩ := (Bool.and_eq_true _ _).mp hpipe
  simp only [List.cons.injEq, and_true] at hnumbers
  obtain ⟨hlen, hout, hbefore, hafter, hindex⟩ := hnumbers
  have htarget : stdoutTarget c.before c.process = .pipe 0 := by
    rw [stdoutTarget, hslot]
    dsimp only
    rw [hallows, if_neg (by simp), if_pos (of_decide_eq_true hkind), hindex]
  have hlaw := hall x (reach_of_exec (.start outBoot_bootOut) (allGood_true _ _) hs)
  obtain ⟨taken, heq, htook⟩ := hlaw.calls c (List.mem_of_head? hhead)
  rw [htarget] at htook
  rw [List.length_eq_zero_iff.mp hout, List.append_nil] at heq
  have hqueue := congrArg List.length htook.queue
  rw [List.length_append, AppPipe.queue, AppPipe.queue, Buf.length_window, Buf.length_window, hbefore,
    hafter, heq, hlen] at hqueue
  cases hqueue

end Rymos
