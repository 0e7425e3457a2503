import Visftp.World

/-!
# Commands

The calls of the client into the system, and the functions of `ftp.c` that send a command without
waiting for its reply: `sendcmd` itself, `ftp_close`, the two ways to get a data connection and the
operations `type`, `pwd` and `chdir`.

The value of a function that no caller looks at is left out: `sendcmd` gives only the state after
it, `ftp_active` also its result, which `prepare_data` tests.

## Main definitions

* `World.ask` — one call into the system
* `sendcmd`, `ftpClose`, `ftpActive`, `ftpPassive`, `ftpType`, `ftpPwd`, `ftpChdir`
-/

namespace Visftp

open CString

variable {α : Type}

/-! ### Calls into the system -/

/-- One call: the next answer of its kind, `silent` when there is none. -/
def World.ask {β : Type} (get : Env → List β) (set : List β → Env → Env) (silent : β)
    (w : World α) : β × World α :=
  ((get w.env).headD silent, { w with env := set (get w.env).tail w.env })

/-- The descriptors that are in use. -/
def Ftp.uses (f : Ftp) (fd : Fd) : Bool := f.ctl == some fd || f.lis == some fd || f.data == some fd

/-- `socket` -/
def socket (w : World α) : Option Fd × World α :=
  let r := w.ask Env.sockets (fun l e => { e with sockets := l }) none
  (r.1.filter fun fd => !w.ftp.uses fd, r.2)

/-- `accept` -/
def accept (w : World α) : Option Fd × World α :=
  let r := w.ask Env.accepts (fun l e => { e with accepts := l }) none
  (r.1.filter fun fd => !w.ftp.uses fd, r.2)

/-- `bind` -/
def bind (w : World α) : Bool × World α :=
  w.ask Env.binds (fun l e => { e with binds := l }) false

/-- `getsockname` of the listening socket, for an address of 32 and a port of 16 bits. -/
def getsockname (w : World α) : Option (ℕ × ℕ) × World α :=
  let r := w.ask Env.names (fun l e => { e with names := l }) none
  (r.1.filter fun sa => decide (sa.1 < 2 ^ 32 ∧ sa.2 < 2 ^ 16), r.2)

/-- `connect` -/
def connect (w : World α) : Bool × World α :=
  w.ask Env.connects (fun l e => { e with connects := l }) false

/-- An allocation, whether it succeeds. One that is not `possible` is more than any heap holds. -/
def allocate (possible : Bool) (w : World α) : Bool × World α :=
  let r := w.ask Env.allocs (fun l e => { e with allocs := l }) true
  if r.1 && possible then (true, r.2) else (false, r.2.emit .outOfMemory)

/-- `malloc` and `strdup` -/
def malloc (w : World α) : Bool × World α := allocate true w

/-- What `recv` for `sz` bytes makes of an answer. -/
def Recv.clip (sz : ℕ) : Recv → Recv
  | .data b => if b ≠ [] ∧ b.length ≤ sz then .data b else .again
  | r => r

/-- `recv` on the control connection, which fails when there is none. -/
def recvCtl (sz : ℕ) (w : World α) : Recv × World α :=
  if w.ftp.ctl = none then (.again, w)
  else
    let r := w.ask Env.ctlIn (fun l e => { e with ctlIn := l }) .again
    (r.1.clip sz, r.2)

/-- `recv` on the data connection. -/
def recvData (sz : ℕ) (w : World α) : Recv × World α :=
  let r := w.ask Env.dataIn (fun l e => { e with dataIn := l }) .again
  (r.1.clip sz, r.2)

/-- `infomsg` -/
def infomsg (text : Bytes) (w : World α) : World α := w.message .info text
/-- `warnmsg` -/
def warnmsg (text : Bytes) (w : World α) : World α := w.message .warn text
/-- `errmsg` -/
def errmsg (text : Bytes) (w : World α) : World α := w.message .err text

/-- `inet_ntoa` -/
def inetNtoa (addr : ℕ) : Bytes :=
  List.intercalate (ascii ".") ([addr >>> 24, addr >>> 16 &&& 255, addr >>> 8 &&& 255,
    addr &&& 255].map decimal)

/-! ### The control connection -/

/-- `ftp->cproc = p` -/
def setCproc (p : CProc) (w : World α) : World α :=
  (w.mapFtp fun f => { f with cproc := some p }).emit (.hook p)

/-- `sendcmd` -/
def sendcmd (c : Cmd) (w : World α) : World α :=
  if w.ftp.ctl = none then w
  else
    let w := w.mapFtp fun f => { f with busy := f.busy + 1 }
    let w := if ascii "pass " <+: c.line then infomsg (ascii "send: pass <password>\n") w
      else infomsg (ascii "send: " ++ c.line ++ ascii "\n") w
    w.emit (.sent c)

/-- `ftp_close` -/
def ftpClose (w : World α) : World α :=
  let w := if w.ftp.ctl = none then w
    else (w.mapFtp fun f => { f with ctl := none, crecv := [] }).emit .hangup
  w.mapFtp fun f => { f with lis := none, data := none }

/-- `ftp_active`. The old listening socket is closed, and the descriptor of the new one stored over
it. -/
def ftpActive (w : World α) : Int × World α :=
  let w := w.mapFtp fun f => { f with lis := none, data := none }
  let r := socket w
  let w := r.2.mapFtp fun f => { f with lis := r.1 }
  if r.1 = none then
    (-1, errmsg (ascii "ftp_active: failed to create listening socket\n") w)
  else
    let r := bind w
    if !r.1 then
      let w := errmsg (ascii "ftp_active: failed to bind listening socket\n") r.2
      (-1, w.mapFtp fun f => { f with lis := none })
    else
      let r := getsockname r.2
      match r.1 with
      | none =>
        let w := errmsg (ascii "ftp_active: failed to retrieve listening socket address\n") r.2
        (-1, w.mapFtp fun f => { f with lis := none })
      | some (addr, port) =>
        let w := infomsg (ascii "listening on " ++ inetNtoa addr ++ ascii " port " ++
          decimal port ++ ascii "\n") r.2
        (0, setCproc .active (sendcmd (.port addr port) w))

/-- `ftp_passive` -/
def ftpPassive (w : World α) : World α :=
  let w := w.mapFtp fun f => { f with lis := none, data := none }
  setCproc .pasv (sendcmd .pasv w)

/-! ### Operations that are one command -/

/-- `toupper` in the C locale. -/
def toupper (b : Byte) : Byte := if 97 ≤ b ∧ b ≤ 122 then b - 32 else b

/-- `ftp_type` -/
def ftpType (type : Bytes) (w : World α) : World α :=
  let tc := toupper (byteAt type 0)
  if tc ≠ 73 ∧ tc ≠ 65 then w else sendcmd (.type tc) w

/-- `ftp_pwd` -/
def ftpPwd (w : World α) : World α := setCproc .pwd (sendcmd .pwd w)

/-- `ftp_chdir` -/
def ftpChdir (dirname : Bytes) (w : World α) : World α :=
  setCproc .cwd (if dirname = ascii ".." then sendcmd .cdup w else sendcmd (.cwd dirname) w)

end Visftp
