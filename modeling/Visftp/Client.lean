import Visftp.Handlers

/-!
# The client

`ftp_handle` with the three connections behind it, the wait for a reply that calls it again, and
whole runs of the client.

## The wait

`ftp_waitresp` calls `ftp_handle`, which may start an operation that waits in turn. `waitLoop`
is a recursion on the number of `select` results still to come, which every round and every round
of a wait inside it uses up by at least one; a `select` without a result waits until the timeout.

## Main definitions

* `scanBytes`, `handleControl`, `handleData`, `acceptData` — the three connections
* `ftpHandleWith`, `waitLoop`, `ftpWaitresp`, `ftpHandle` — the event handler
* `Input`, `World.step`, `World.run` — what the main loop asks of the client, and runs
-/

namespace Visftp

open CString

variable {α : Type}

section Wait

variable (wait : Int → World α → Int × World α)

/-! ### The control connection -/

/-- The room for received bytes in `crecv`. -/
def crecvSize : ℕ := 256

/-- The scan of received bytes in `handle_control`. `cur` is the line so far, from `buf` on, and
`seen` says whether `buf` has moved since the beginning. At the end, what is left of a line goes to
the front of `crecv`, unless no line has ended in these bytes. -/
def scanBytes : Bytes → Bytes → Bool → World α → World α
  | [], cur, seen, w => w.mapFtp fun f => { f with crecv := if seen then cur else [] }
  | b :: bs, cur, seen, w =>
    if b = cr then scanBytes bs (cur ++ [nul]) seen w
    else if b = lf then
      scanBytes bs [] true (procControl wait (cstr cur) (w.emit (.line cur)))
    else scanBytes bs (cur ++ [b]) seen w

/-- The read loop of `handle_control`: `-1` when the server has closed the connection. Every round
takes one result of `recv`, so a fuel above their number is never used up. -/
def handleControlLoop : ℕ → World α → Int × World α
  | 0, w => (0, w)
  | fuel + 1, w =>
    let w := if crecvSize ≤ w.ftp.crecv.length then
        warnmsg (ascii "discard buffer\n") (w.mapFtp fun f => { f with crecv := [] })
      else w
    let r := recvCtl (crecvSize - w.ftp.crecv.length) w
    match r.1 with
    | .intr => handleControlLoop fuel r.2
    | .again => (0, r.2)
    | .eof => (-1, ftpClose r.2)
    | .data b => handleControlLoop fuel (scanBytes wait b r.2.ftp.crecv false (r.2.emit (.recv b)))

/-- `handle_control` -/
def handleControl (w : World α) : Int × World α :=
  handleControlLoop wait (w.env.ctlIn.length + 1) w

/-! ### The data connection -/

/-- `if(ftp->dproc) ftp->dproc(ftp, buf, rd, ftp->dproc_cls)` -/
def callDproc (buf : Bytes) (w : World α) : World α :=
  match w.ftp.dproc with
  | none => w
  | some p => p.run buf w

/-- The read loop of `handle_data`. -/
def handleDataLoop : ℕ → World α → World α
  | 0, w => w
  | n + 1, w =>
    let r := recvData 256 w
    match r.1 with
    | .intr => handleDataLoop n r.2
    | .again => r.2
    | .eof =>
      let w := callDproc [] (r.2.emit (.dataEof r.2.ftp.dproc r.2.ftp.busy))
      w.mapFtp fun f => { f with data := none }
    | .data b => handleDataLoop n (callDproc b (r.2.emit (.chunk b r.2.ftp.dproc)))

/-- `handle_data`, which reads at most four packets. -/
def handleData (w : World α) : World α :=
  if w.ftp.data = none then w else handleDataLoop 4 w

/-- The connection on the listening socket. -/
def acceptData (w : World α) : World α :=
  let r := accept w
  if w.ftp.data ≠ none then r.2
  else
    let w := r.2.mapFtp fun f => { f with data := r.1 }
    if r.1 = none then w else (w.emit .incoming).emit .opened

/-! ### Events -/

/-- The end of `ftp_handle`. A failed assertion is recorded, and the line behind it runs as in a
build without assertions. -/
def runQueue (w : World α) : World α :=
  if w.ftp.busy ≤ 0 then
    let w := if w.ftp.busy = 0 then w else w.emit .assertFailed
    execQueued wait (w.mapFtp fun f => { f with busy := 0 })
  else w

/-- `ftp_handle`. The descriptor is `none` for `-1`. -/
def ftpHandleWith (s : Option Fd) (w : World α) : World α :=
  if s = w.ftp.ctl then
    let r := handleControl wait w
    if r.1 = -1 then r.2 else runQueue wait r.2
  else if s = w.ftp.data then runQueue wait (handleData w)
  else if s = w.ftp.lis then runQueue wait (acceptData w)
  else runQueue wait w

end Wait

/-- The loop of `ftp_waitresp`. -/
def waitLoop : ℕ → Int → World α → Int × World α
  | 0, _, w => (-1, w)
  | n + 1, timeout, w =>
    -- `FD_SET` of a closed connection is undefined; here its `select` goes on like any other
    let w := if w.ftp.ctl = none then w.emit .badSelect else w
    let r := w.ask Env.selects (fun l e => { e with selects := l }) (.woke false timeout.toNat)
    match r.1 with
    | .intr => waitLoop n timeout r.2
    | .woke ready elapsed =>
      let wait timeout w := waitLoop n timeout (w.mapFtp fun f => { f with lastResp := -1 })
      let w := if ready then
          ftpHandleWith wait r.2.ftp.ctl (r.2.mapFtp fun f => { f with lastResp := -1 })
        else r.2
      if ready ∧ w.ftp.lastResp ≠ 0 then (w.ftp.lastResp, w)
      else if 0 < timeout then
        if timeout - elapsed ≤ 0 then (-1, w) else waitLoop n (timeout - elapsed) w
      else waitLoop n timeout w

/-- `ftp_waitresp` with at most `n` results of `select`. -/
def ftpWaitresp (n : ℕ) (timeout : Int) (w : World α) : Int × World α :=
  waitLoop n timeout (w.mapFtp fun f => { f with lastResp := -1 })

/-! ### Runs -/

/-- What the main loop asks of the client. -/
inductive Input (α : Type)
  /-- `ftp_queue`. A transfer is not queued here: there would be no pointer to it. -/
  | queue (op : Op) (h : op.transfer? = none)
  /-- `ftp_queue_transfer` of a new transfer. -/
  | transfer (x : Xfer α)
  /-- `ftp_handle` of a descriptor that has become readable. -/
  | handle (s : Fd)

/-- The purpose of a new transfer at address `t`. Where it goes to a file, that file has just been
opened, so it is no other transfer's. Where it goes to memory, the buffer is new and empty. -/
def Job.fresh (t : ℕ) (j : Job) : Job :=
  { j with fp := j.fp.map fun _ => t, mem := j.mem.map fun _ => [] }

/-- A new transfer on the heap, and an empty file for it. -/
def World.newXfer (x : Xfer α) (w : World α) : World α :=
  { w with
    xfers := Function.update w.xfers w.nxfer { x with toJob := x.toJob.fresh w.nxfer }
    files := Function.update w.files w.nxfer []
    nxfer := w.nxfer + 1 }.emit (.made w.nxfer (x.toJob.fresh w.nxfer))

/-- One call of the main loop into the client, with the system `env` for it. -/
def World.step (env : Env) (i : Input α) (w : World α) : World α :=
  let w := { w with env := env }
  let wait := ftpWaitresp env.selects.length
  match i with
  | .queue op _ => (ftpQueue wait op w).2
  | .transfer x => (ftpQueueTransfer wait w.nxfer (w.newXfer x)).2
  | .handle s => ftpHandleWith wait (some s) w

/-- The calls of a run, one after the other. -/
def World.run (w : World α) (inputs : List (Env × Input α)) : World α :=
  inputs.foldl (fun w i => w.step i.1 i.2) w

/-- A client that has just been connected: `ftp_alloc`, `ftp_auth` and `ftp_connect`. The heap
holds nothing of the client yet. -/
def World.connected (ctl : Fd) (user pass : Option Bytes) (app : α) : World α where
  ftp :=
    { ctl := some ctl, lis := none, data := none, status := .disc, busy := 0, user, pass
      passive := true, queue := LinkedFifo.empty, cproc := none, dproc := none, crecv := []
      curdir := none, dirent := [], lastResp := 0, modified := false }
  xfers := fun _ => ⟨⟨⟨.retr, [], none, none⟩, 0, 0⟩, fun _ app => app⟩
  nxfer := 0
  files := fun _ => []
  rbufs := fun _ => ⟨[], 0⟩
  nrbuf := 0
  env := Env.quiet
  app := app
  logfile := []
  log := []

end Visftp
