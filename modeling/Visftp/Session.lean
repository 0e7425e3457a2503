import Visftp.Client

/-!
# Sessions

What the order of events in the client depends on, without what does not matter for it: the
answers of the system, the texts of messages, the descriptors' numbers, sizes and counts. A
`Session` is the part of a `World` that is left, and `Session.Step` says once what can happen to
it, one event at a time. `Visftp.Refinement` proves that every call into the client is a sequence
of these steps, and the invariants of the client are proved about them.

An operation that waits for a data connection is begun in one step and resumed in another. In
between, the steps of the control connection go on, and may begin other operations. `stack` reads
off the history which operations have been begun and have not returned.

## Main definitions

* `Session`, `World.view` — the abstract state
* `stack` — the operations under way
* `Session.Queue`, `Session.Exec`, `Session.Reply`, `Session.Step` — what can happen
-/

namespace Visftp

open CString

/-- The state of a session. -/
structure Session where
  /-- The control connection is open. -/
  ctl : Bool
  /-- The data connection is open. -/
  data : Bool
  /-- Passive mode. -/
  passive : Bool
  busy : Int
  queue : List Op
  cproc : Option CProc
  dproc : Option DProc
  /-- The line buffer of the control connection. -/
  crecv : Bytes
  /-- The transfers, by address. -/
  jobs : ℕ → Job
  /-- The next address of a transfer. -/
  njob : ℕ
  /-- What was written to each local file. -/
  files : ℕ → Bytes
  /-- What was received into each receive buffer. -/
  bufs : ℕ → Bytes
  /-- The next address of a receive buffer. -/
  nbuf : ℕ
  dirent : List Dirent
  /-- The history, newest event first. -/
  log : List Event

/-- The session of a client. -/
def World.view {α : Type} (w : World α) : Session where
  ctl := w.ftp.ctl.isSome
  data := w.ftp.data.isSome
  passive := w.ftp.passive
  busy := w.ftp.busy
  queue := w.ftp.queue.toList
  cproc := w.ftp.cproc
  dproc := w.ftp.dproc
  crecv := w.ftp.crecv
  jobs t := (w.xfers t).toJob
  njob := w.nxfer
  files := w.files
  bufs r := (w.rbufs r).buf
  nbuf := w.nrbuf
  dirent := w.ftp.dirent
  log := w.log

/-- The operations that have been begun and have not returned, innermost first. -/
def stack : List Event → List Op
  | [] => []
  | .exec op _ _ :: h => op :: stack h
  | .ret :: h => (stack h).tail
  | _ :: h => stack h

/-- The operations that need a data connection. -/
def Op.needsData : Op → Bool
  | .list | .xfer _ => true
  | _ => false

namespace Session

/-! ### Actions -/

/-- Record an event. -/
def emit (e : Event) (s : Session) : Session := { s with log := e :: s.log }

/-- `exec_op` is called. -/
def enter (op : Op) (s : Session) : Session := s.emit (.exec op s.data s.passive)

/-- `sendcmd` -/
def send (c : Cmd) (s : Session) : Session :=
  { s with
    busy := if s.ctl then s.busy + 1 else s.busy
    log := if s.ctl then .sent c :: s.log else s.log }

/-- Install a reply handler. -/
def hook (p : CProc) (s : Session) : Session :=
  { s with cproc := some p, log := .hook p :: s.log }

/-- `ftp_close` -/
def close (s : Session) : Session :=
  { s with
    ctl := false
    data := false
    crecv := if s.ctl then [] else s.crecv
    log := if s.ctl then .hangup :: s.log else s.log }

/-- One reply or data transfer less is outstanding. -/
def finish (s : Session) : Session := { s with busy := s.busy - 1 }

/-- `ftp_active`, which may fail before it has an address to send. -/
def active : Option (ℕ × ℕ) → Session → Session
  | none, s => { s with data := false }
  | some (a, p), s => (({ s with data := false }).send (.port a p)).hook .active

/-- `ftp_passive` -/
def askPasv (s : Session) : Session := (({ s with data := false }).send .pasv).hook .pasv

/-- Append an operation to the queue. -/
def enqueue (op : Op) (s : Session) : Session :=
  { s with queue := s.queue ++ [op] }.emit (.accept op)

/-- A new transfer, with a new file. -/
def addJob (j : Job) (s : Session) : Session :=
  { s with
    jobs := Function.update s.jobs s.njob (j.fresh s.njob)
    files := Function.update s.files s.njob []
    njob := s.njob + 1
    log := .made s.njob (j.fresh s.njob) :: s.log }

/-- Write to a transfer. -/
def setJob (t : ℕ) (j : Job) (s : Session) : Session :=
  { s with jobs := Function.update s.jobs t j }

/-- `fclose(xfer->fp), xfer->fp = 0` -/
def closeFile (t : ℕ) (s : Session) : Session := s.setJob t { s.jobs t with fp := none }

/-- Write to a local file. -/
def storeFile (f : ℕ) (b : Bytes) (s : Session) : Session :=
  { s with files := Function.update s.files f (s.files f ++ b) }

/-- Append to the memory buffer of a transfer. -/
def storeMem (t : ℕ) (b : Bytes) (s : Session) : Session :=
  s.setJob t { s.jobs t with mem := (s.jobs t).mem.map (· ++ b) }

/-- Append to a receive buffer. -/
def storeBuf (r : ℕ) (b : Bytes) (s : Session) : Session :=
  { s with bufs := Function.update s.bufs r (s.bufs r ++ b) }

/-- A reply has been received. -/
def got (code : Int) (buf : Bytes) (s : Session) : Session :=
  s.emit (.reply code s.cproc s.busy buf)

/-- The operations that need no data connection. -/
def simple : Op → Session → Session
  | .type arg, s =>
    if toupper (byteAt arg 0) ≠ 73 ∧ toupper (byteAt arg 0) ≠ 65 then s
    else s.send (.type (toupper (byteAt arg 0)))
  | .pwd, s => (s.send .pwd).hook .pwd
  | .chdir d, s => (s.send (if d = ascii ".." then .cdup else .cwd d)).hook .cwd
  | .cdup, s => (s.send .cdup).hook .cwd
  | _, s => s

/-- A whole operation that needs no data connection. -/
def execSimple (op : Op) (s : Session) : Session := ((s.enter op).simple op).emit .ret

/-- `ftp_list` once there is a data connection. -/
def startList (s : Session) : Session :=
  let s' := { s with bufs := Function.update s.bufs s.nbuf [], nbuf := s.nbuf + 1 }
  let s' := (s'.send (.list s.nbuf)).hook (.list s.nbuf)
  { s' with dproc := some (.list s.nbuf), busy := s'.busy + 1 }

/-- `ftp_transfer` once there is a data connection. -/
def startTransfer (t : ℕ) (s : Session) : Session :=
  if (s.jobs t).op = .retr then
    let s' := (s.send (.retr t (s.jobs t).rname)).hook (.xfer t)
    { s' with dproc := some (.xfer t), busy := s'.busy + 1 }
  else s

/-- What happens once the data connection has been asked for. -/
inductive Start : Op → Session → Session → Prop
  /-- There is none. -/
  | none {op s} (h : s.data = false) : Start op s s
  /-- There is no memory for the receive buffer. -/
  | noBuffer {s} (h : s.data = true) : Start .list s (s.emit .outOfMemory)
  /-- The listing is asked for. -/
  | list {s} (h : s.data = true) : Start .list s s.startList
  /-- The file is asked for. -/
  | transfer {t s} (h : s.data = true) : Start (.xfer t) s (s.startTransfer t)

/-- `exec_op`, up to the point where it waits. -/
inductive Exec : Op → Session → Session → Prop
  /-- No data connection is needed. -/
  | simple {op s} (h : op.needsData = false) : Exec op s (s.execSimple op)
  /-- There is a data connection already. -/
  | atOnce {op s s'} (h : op.needsData = true) (hd : s.data = true)
      (hs : Start op (s.enter op) s') : Exec op s (s'.emit .ret)
  /-- In active mode the data connection comes later, and the operation is given up. -/
  | noData {op s} (r) (h : op.needsData = true) (hd : s.data = false) (hp : s.passive = false) :
      Exec op s (((s.enter op).active r).emit .ret)
  /-- The operation waits for the reply to `PASV`. -/
  | wait {op s} (h : op.needsData = true) (hd : s.data = false) (hp : s.passive = true) :
      Exec op s (s.enter op).askPasv

/-- `ftp_queue` of an operation that needs no data connection, or while something is
outstanding. -/
inductive Queue (op : Op) : Session → Session → Prop
  /-- It is carried out at once. -/
  | direct {s} (hb : s.busy = 0) (hq : s.queue = []) (h : op.needsData = false) :
      Queue op s ((s.emit (.accept op)).execSimple op)
  /-- It is appended to the queue. -/
  | append {s} (h : ¬(s.busy = 0 ∧ s.queue = [])) :
      Queue op s (s.enqueue op)
  /-- There is no memory for it. -/
  | full {s} (h : ¬(s.busy = 0 ∧ s.queue = [])) : Queue op s (s.emit .outOfMemory)

/-- `proc_control` for a reply that is passed on. -/
inductive Reply (code : Int) (buf : Bytes) : Session → Session → Prop
  | activeOk {s} (h : s.cproc = some .active) (hc : code = 200) :
      Reply code buf s (s.got code buf).finish
  | activeFail {s} (h : s.cproc = some .active) (hc : code ≠ 200) :
      Reply code buf s (s.got code buf).close.finish
  | pasvOpen {s} (h : s.cproc = some .pasv) (hc : code = 227) :
      Reply code buf s ({ s.got code buf with data := true }.emit .opened).finish
  | pasvFall {s} (r) (h : s.cproc = some .pasv) :
      Reply code buf s ({ s.got code buf with passive := false }.active r).finish
  | pwd {s} (h : s.cproc = some .pwd) : Reply code buf s (s.got code buf).finish
  | cwdFail {s} (h : s.cproc = some .cwd) (hc : code ≠ 250) :
      Reply code buf s (s.got code buf).finish
  | cwdOk {s s₁ s₂} (h : s.cproc = some .cwd) (hc : code = 250)
      (h₁ : Queue .pwd (s.got code buf) s₁) (h₂ : Queue .list s₁ s₂) : Reply code buf s s₂.finish
  | listMore {s r} (h : s.cproc = some (.list r)) (hc : code < 200) :
      Reply code buf s (s.got code buf)
  | listEnd {s r} (h : s.cproc = some (.list r)) (hc : 200 ≤ code) :
      Reply code buf s (s.got code buf).finish
  | xferTotal {s t} (h : s.cproc = some (.xfer t)) (hc : code = 150) (hx : xferTotal buf ≠ none) :
      Reply code buf s ((s.got code buf).emit (.touch t))
  | xferMore {s t} (h : s.cproc = some (.xfer t)) (hc : code < 200)
      (hx : code = 150 → xferTotal buf = none) : Reply code buf s (s.got code buf)
  | xferEnd {s t} (h : s.cproc = some (.xfer t)) (hc : 200 ≤ code) (hc' : code < 400) :
      Reply code buf s (s.got code buf).finish
  | xferFail {s t} (h : s.cproc = some (.xfer t)) (hc : 400 ≤ code) :
      Reply code buf s (((s.got code buf).emit (.touch t)).emit (.done t)).finish
  | loginUser {s} (u) (h : s.cproc = none) (hc : code = 220) :
      Reply code buf s ({ s.got code buf with busy := 0 }.send (.user u))
  | loginPass {s} (p) (h : s.cproc = none) (hc : code = 331) :
      Reply code buf s ({ s.got code buf with busy := 0 }.send (.pass p))
  | loginDone {s s₁ s₂ s₃} (h : s.cproc = none) (hc : code = 230)
      (h₁ : Queue (.type (ascii "I")) { s.got code buf with busy := 0 } s₁)
      (h₂ : Queue .pwd s₁ s₂) (h₃ : Queue .list s₂ s₃) : Reply code buf s s₃
  | loginOther {s} (h : s.cproc = none) (hc : code ≠ 220 ∧ code ≠ 331 ∧ code ≠ 230) :
      Reply code buf s { s.got code buf with busy := 0 }

/-- `handle_data` with bytes. -/
inductive Chunk (b : Bytes) : Session → Session → Prop
  | none {s} (h : s.dproc = none) : Chunk b s (s.emit (.chunk b none))
  | list {s r} (h : s.dproc = some (.list r)) :
      Chunk b s ((s.storeBuf r b).emit (.chunk b (some (.list r))))
  | listFull {s r} (h : s.dproc = some (.list r)) :
      Chunk b s (((s.emit (.chunk b (some (.list r)))).emit .outOfMemory).emit (.dropped r))
  | file {s t f} (h : s.dproc = some (.xfer t)) (ho : (s.jobs t).op = .retr)
      (hf : (s.jobs t).fp = some f) :
      Chunk b s (((s.storeFile f b).emit (.chunk b (some (.xfer t)))).emit (.touch t))
  | mem {s t} (h : s.dproc = some (.xfer t)) (ho : (s.jobs t).op = .retr)
      (hf : (s.jobs t).fp = .none) :
      Chunk b s (((s.storeMem t b).emit (.chunk b (some (.xfer t)))).emit (.touch t))
  | stor {s t} (h : s.dproc = some (.xfer t)) (ho : (s.jobs t).op ≠ .retr) :
      Chunk b s ((s.emit (.chunk b (some (.xfer t)))).emit (.touch t))

/-- `handle_data` at the end of the data. -/
inductive DataEof : Session → Session → Prop
  | none {s} (h : s.dproc = none) :
      DataEof s { s.emit (.dataEof none s.busy) with data := false }
  | list {s r} (tail junk) (h : s.dproc = some (.list r)) :
      DataEof s { (s.emit (.dataEof (some (.list r)) s.busy)).finish with
        dirent := listing tail junk (s.bufs r), dproc := .none, data := false }
  | xfer {s t} (h : s.dproc = some (.xfer t)) (ho : (s.jobs t).op = .retr) :
      DataEof s { ((((s.closeFile t).emit (.dataEof (some (.xfer t)) s.busy)).emit
        (.touch t)).emit (.done t)).finish with data := false }
  | stor {s t} (h : s.dproc = some (.xfer t)) (ho : (s.jobs t).op ≠ .retr) :
      DataEof s { (s.emit (.dataEof (some (.xfer t)) s.busy)).emit (.touch t) with data := false }

/-- What happens apart from the lines of the control connection. -/
inductive Act : Session → Session → Prop
  /-- A wait on a closed connection. -/
  | badSelect {s} : Act s (s.emit .badSelect)
  /-- The assertion of `ftp_handle` fails. -/
  | assert {s} (h : s.busy < 0) : Act s ({ s with busy := 0 }.emit .assertFailed)
  /-- The next operation of the queue is begun. -/
  | next {s s' op ops} (hb : s.busy = 0) (hq : s.queue = op :: ops)
      (h : Exec op { s with queue := ops } s') : Act s s'
  /-- An operation returns from its wait. -/
  | resume {s s' op ops} (hs : stack s.log = op :: ops)
      (h : Start op (s.emit (.wake s.data)) s') : Act s (s'.emit .ret)
  /-- The application queues an operation. -/
  | append {s op} (hs : stack s.log = []) (hop : op.transfer? = none)
      (h : ¬(s.busy = 0 ∧ s.queue = [])) : Act s (s.enqueue op)
  /-- The application queues an operation, but there is no memory for it. -/
  | refuse {s} (hs : stack s.log = []) (h : ¬(s.busy = 0 ∧ s.queue = [])) :
      Act s (s.emit .outOfMemory)
  /-- The application queues an operation, and it is begun at once. -/
  | direct {s s' op} (hs : stack s.log = []) (hop : op.transfer? = none) (hb : s.busy = 0)
      (hq : s.queue = []) (h : Exec op (s.emit (.accept op)) s') : Act s s'
  /-- The application makes a transfer, but there is no memory to queue it. -/
  | newJob {s} (j : Job) (hs : stack s.log = []) : Act s ((s.addJob j).emit .outOfMemory)
  /-- The application makes a transfer and queues it. -/
  | handOver {s} (j : Job) (hs : stack s.log = []) (h : ¬(s.busy = 0 ∧ s.queue = [])) :
      Act s ((s.addJob j).enqueue (.xfer s.njob))
  /-- The application makes a transfer and queues it, and it is begun at once. -/
  | handOverDirect {s s'} (j : Job) (hs : stack s.log = []) (hb : s.busy = 0) (hq : s.queue = [])
      (h : Exec (.xfer s.njob) ((s.addJob j).emit (.accept (.xfer s.njob))) s') : Act s s'
  /-- Bytes on the data connection. -/
  | chunk {s s'} (b) (hs : stack s.log = []) (hd : s.data = true) (h : Chunk b s s') : Act s s'
  /-- The end of the data. -/
  | dataEof {s s'} (hs : stack s.log = []) (hd : s.data = true) (h : DataEof s s') : Act s s'
  /-- A connection on the listening socket. -/
  | incoming {s} (hs : stack s.log = []) (hd : s.data = false) :
      Act s (({ s with data := true }.emit .incoming).emit .opened)

/-- **One step of a session.** -/
inductive Step : Session → Session → Prop
  /-- Bytes on the control connection. -/
  | recv {s} (b) : Step s (s.emit (.recv b))
  /-- A line of them. -/
  | line {s} (buf) : Step s (s.emit (.line buf))
  /-- The line buffer is written. -/
  | carry {s} (c) : Step s { s with crecv := c }
  /-- A reply. -/
  | reply {s s'} (code buf) (hc : 0 < code) (h : s.ctl = true ∨ s.cproc = some .active)
      (hr : Reply code buf s s') : Step s s'
  /-- The server has closed the control connection. -/
  | hangup {s} (h : s.ctl = true) : Step s s.close
  /-- Anything else. -/
  | act {s s'} (h : Act s s') : Step s s'

/-! ### Operations under way -/

section Stack

variable (s : Session)

@[simp] theorem stack_send (c : Cmd) : stack (s.send c).log = stack s.log := by
  rw [send]
  split <;> rfl

@[simp] theorem stack_enter (op : Op) : stack (s.enter op).log = op :: stack s.log := rfl

@[simp] theorem stack_hook (p : CProc) : stack (s.hook p).log = stack s.log := rfl

@[simp] theorem stack_close : stack s.close.log = stack s.log := by
  rw [close]
  dsimp only
  split <;> rfl

@[simp] theorem stack_finish : stack s.finish.log = stack s.log := rfl

@[simp] theorem stack_active (sa : Option (ℕ × ℕ)) : stack (s.active sa).log = stack s.log := by
  rcases sa with - | ⟨a, p⟩
  · rfl
  · simp [active]

@[simp] theorem stack_askPasv : stack s.askPasv.log = stack s.log := by
  simp [askPasv]

@[simp] theorem stack_got (code : Int) (buf : Bytes) : stack (s.got code buf).log = stack s.log :=
  rfl

@[simp] theorem stack_simple (op : Op) : stack (s.simple op).log = stack s.log := by
  cases op with
  | type arg =>
    unfold simple
    dsimp only
    split <;> simp
  | _ => simp [simple]

@[simp] theorem stack_execSimple (op : Op) : stack (s.execSimple op).log = stack s.log := by
  simp [execSimple, emit, stack]

@[simp] theorem stack_startList : stack s.startList.log = stack s.log := by
  simp [startList]

@[simp] theorem stack_startTransfer (t : ℕ) : stack (s.startTransfer t).log = stack s.log := by
  rw [startTransfer]
  split <;> simp

end Stack

variable {s s' : Session} {op : Op}

theorem Start.stack_eq (h : Start op s s') : stack s'.log = stack s.log := by
  cases h with
  | noBuffer => rfl
  | _ => simp

theorem Queue.stack_eq (h : Queue op s s') : stack s'.log = stack s.log := by
  cases h with
  | direct => simp [emit, stack]
  | append => rfl
  | full => rfl

/-- An operation that does not wait returns. -/
theorem Exec.stack_eq (h : Exec op s s')
    (hn : op.needsData = true → s.data = true ∨ s.passive = false) :
    stack s'.log = stack s.log := by
  cases h with
  | simple => simp
  | atOnce h hd hs => simp [emit, stack, hs.stack_eq]
  | noData r h hd hp => simp [emit, stack]
  | wait h hd hp => simp [h, hd, hp] at hn

theorem Chunk.stack_eq {b : Bytes} (h : Chunk b s s') : stack s'.log = stack s.log := by
  cases h <;> rfl

theorem Chunk.data_eq {b : Bytes} (h : Chunk b s s') : s'.data = s.data := by
  cases h <;> rfl

theorem DataEof.stack_eq (h : DataEof s s') : stack s'.log = stack s.log := by
  cases h <;> rfl

theorem Reply.stack_eq {code : Int} {buf : Bytes} (h : Reply code buf s s') :
    stack s'.log = stack s.log := by
  cases h with
  | cwdOk h hc h₁ h₂ => simp [h₂.stack_eq, h₁.stack_eq]
  | loginDone h hc h₁ h₂ h₃ =>
    rw [h₃.stack_eq, h₂.stack_eq, h₁.stack_eq]
    rfl
  | _ => simp [emit, stack, got]

/-! ### The control connection is left alone -/

theorem frame_simple (op : Op) (s : Session) :
    (s.simple op).ctl = s.ctl ∧ (s.simple op).crecv = s.crecv := by
  cases op with
  | type arg =>
    unfold simple
    dsimp only
    split <;> exact ⟨rfl, rfl⟩
  | _ => exact ⟨rfl, rfl⟩

theorem frame_active (sa : Option (ℕ × ℕ)) (s : Session) :
    (s.active sa).ctl = s.ctl ∧ (s.active sa).crecv = s.crecv := by
  rcases sa with - | ⟨a, p⟩ <;> exact ⟨rfl, rfl⟩

theorem Start.frame (h : Start op s s') : s'.ctl = s.ctl ∧ s'.crecv = s.crecv := by
  cases h with
  | @transfer t _ hd =>
    rw [startTransfer]
    split <;> exact ⟨rfl, rfl⟩
  | _ => exact ⟨rfl, rfl⟩

theorem Exec.frame (h : Exec op s s') : s'.ctl = s.ctl ∧ s'.crecv = s.crecv := by
  cases h with
  | simple => exact frame_simple op (s.enter op)
  | atOnce hop hd hs => exact hs.frame
  | noData sa => exact frame_active sa (s.enter op)
  | wait => exact ⟨rfl, rfl⟩

theorem Chunk.frame {b : Bytes} (h : Chunk b s s') : s'.ctl = s.ctl ∧ s'.crecv = s.crecv := by
  cases h <;> dsimp only [emit, storeFile, storeMem, storeBuf, setJob] <;> exact ⟨rfl, rfl⟩

theorem DataEof.frame (h : DataEof s s') : s'.ctl = s.ctl ∧ s'.crecv = s.crecv := by
  cases h <;> dsimp only [emit, finish, closeFile, setJob] <;> exact ⟨rfl, rfl⟩

/-- Nothing apart from the control connection touches it or its line buffer. -/
theorem Act.frame (h : Act s s') : s'.ctl = s.ctl ∧ s'.crecv = s.crecv := by
  cases h with
  | next hb hq h => exact h.frame
  | resume hs h => exact h.frame
  | direct hs hop hb hq h => exact h.frame
  | handOverDirect j hs hb hq h => exact h.frame
  | chunk b hs hd h => exact h.frame
  | dataEof hs hd h => exact h.frame
  | _ => exact ⟨rfl, rfl⟩

end Session

end Visftp
