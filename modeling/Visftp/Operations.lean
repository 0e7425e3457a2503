import Visftp.Commands

/-!
# Queued operations

The functions of `ftp.c` that put an operation on the queue, take it off and carry it out. Two
operations need a data connection, and in passive mode they wait for the server's answer inside
`ftp_waitresp`, which calls back into `ftp_handle`. Everything here takes `ftp_waitresp` as the
argument `wait`; `Visftp.Client` closes the circle.

## Main definitions

* `prepareData`, `ftpList`, `ftpTransfer` — the operations that need a data connection
* `execOp`, `execQueued` — one operation, the next operation of the queue
* `ftpQueue`, `ftpQueueTransfer` — the two ways in
-/

namespace Visftp

open CString

variable {α : Type}

/-- `TIMEOUT`, in seconds. -/
def timeout : Int := 15

section Wait

variable (wait : Int → World α → Int × World α)

/-- `prepare_data` -/
def prepareData (w : World α) : Int × World α :=
  if w.ftp.data ≠ none then (0, w)
  else if w.ftp.passive then
    let w := (wait timeout (ftpPassive w)).2
    let w := w.emit (.wake w.ftp.data.isSome)
    (if w.ftp.data = none then -1 else 0, w)
  else
    let r := ftpActive w
    if r.1 = -1 then (-1, r.2)
    else (if r.2.ftp.data = none then -1 else 0, r.2)

/-- The part of `ftp_list` behind `prepare_data`: a receive buffer, the command, the handlers. -/
def startList (w : World α) : World α :=
  let r := malloc w
  if !r.1 then errmsg (ascii "failed to allocate receive buffer\n") r.2
  else
    let r := malloc r.2
    if !r.1 then errmsg (ascii "failed to allocate receive buffer\n") r.2
    else
      let rbuf := r.2.nrbuf
      let w := { r.2 with rbufs := Function.update r.2.rbufs rbuf ⟨[], 1024⟩, nrbuf := rbuf + 1 }
      let w := setCproc (.list rbuf) (sendcmd (.list rbuf) w)
      w.mapFtp fun f => { f with dproc := some (.list rbuf), busy := f.busy + 1 }

/-- `ftp_list` -/
def ftpList (w : World α) : World α :=
  let r := prepareData wait w
  if r.1 = -1 then r.2 else startList r.2

/-- The part of `ftp_transfer` behind `prepare_data`. Only `FTP_RETR` is implemented. -/
def startTransfer (t : ℕ) (w : World α) : World α :=
  if (w.xfers t).op = .retr then
    let w := setCproc (.xfer t) (sendcmd (.retr t (w.xfers t).rname) w)
    w.mapFtp fun f => { f with dproc := some (.xfer t), busy := f.busy + 1 }
  else w

/-- `ftp_transfer` -/
def ftpTransfer (t : ℕ) (w : World α) : World α :=
  let r := prepareData wait w
  if r.1 = -1 then r.2 else startTransfer t r.2

/-- Record a call of `exec_op`. -/
def World.enter (op : Op) (w : World α) : World α :=
  w.emit (.exec op w.ftp.data.isSome w.ftp.passive)

/-- `exec_op`. The last five operations return at once: they are not implemented. -/
def execOp (op : Op) (w : World α) : World α :=
  let w := w.enter op
  let w := match op with
    | .type arg => ftpType arg w
    | .pwd => ftpPwd w
    | .chdir dirname => ftpChdir dirname w
    | .cdup => ftpChdir (ascii "..") w
    | .list => ftpList wait w
    | .xfer t => ftpTransfer wait t w
    | .mkdir _ => w
    | .rmdir _ => w
    | .del _ => w
    | .retr _ => w
    | .store _ => w
  w.emit .ret

/-- `exec_queued` -/
def execQueued (w : World α) : World α :=
  match w.ftp.queue.pop with
  | none => w
  | some (op, queue) => execOp wait op (w.mapFtp fun f => { f with queue := queue })

/-- Whether an operation's `arg` has to be duplicated for the queue. -/
def Op.hasArg : Op → Bool
  | .type _ | .chdir _ | .mkdir _ | .rmdir _ | .del _ | .retr _ | .store _ => true
  | _ => false

/-- Append an operation to the queue. -/
def enqueue (op : Op) (w : World α) : World α :=
  (w.mapFtp fun f => { f with queue := f.queue.enqueue op }).emit (.accept op)

/-- The common part of `ftp_queue` and `ftp_queue_transfer`: carry out the operation at once when
nothing is outstanding, else append it to the queue, for which `alloc` allocates the node. -/
def submit (alloc : World α → Bool × World α) (op : Op) (w : World α) : Int × World α :=
  if w.ftp.busy = 0 ∧ w.ftp.queue.head = none then (0, execOp wait op (w.emit (.accept op)))
  else
    let r := alloc w
    if r.1 then (0, enqueue op r.2) else (-1, r.2)

/-- `ftp_queue` -/
def ftpQueue (op : Op) (w : World α) : Int × World α :=
  submit wait (fun w =>
    let r := malloc w
    if r.1 && op.hasArg then malloc r.2 else r) op w

/-- `ftp_queue_transfer` -/
def ftpQueueTransfer (t : ℕ) (w : World α) : Int × World α :=
  submit wait malloc (.xfer t) w

end Wait

end Visftp
