import Visftp.Operations

/-!
# Reply and data handlers

The values of `cproc` and `dproc`. A reply handler gets a reply code and the line it came in, a
data handler the bytes received, none of them at the end of the data. `proc_control` is here too:
it reads one line of the control connection and passes the reply on.

Two things of the heap are idealised. A transfer and a receive buffer stay readable when they have
been freed, and the history says where a handler touched one (`Event.touch`). The callback `done`
is a parameter of the transfer.

## Main definitions

* `CProc.run`, `DProc.run` — the handlers
* `newconn`, `procControl` — the login dialogue, one line
-/

namespace Visftp

open CString

variable {α : Type}

/-! ### Data handlers -/

/-- `xfer->done(ftp, xfer)` -/
def callDone (t : ℕ) (w : World α) : World α :=
  { w with app := (w.xfers t).done (w.xfers t).toXferData w.app }.emit (.done t)

/-- `dproc_list` -/
def dprocList (r : ℕ) (buf : Bytes) (w : World α) : World α :=
  let rbuf := w.rbufs r
  if buf = [] then
    w.mapFtp fun f => { f with
      dirent := listing w.env.heapTail w.env.junk rbuf.buf
      modified := true
      dproc := none
      busy := f.busy - 1 }
  else
    let store (bufsz : ℕ) (w : World α) : World α :=
      { w with rbufs := Function.update w.rbufs r ⟨rbuf.buf ++ buf, bufsz⟩ }
    if rbuf.bufsz < rbuf.buf.length + buf.length then
      -- `newsz` is an `int`: what does not fit is negative, and an allocation no heap can hold
      let newsz : Int := (2 * rbuf.bufsz : Int).bmod (2 ^ 32)
      let a := allocate (decide (0 ≤ newsz)) w
      if !a.1 then (errmsg (ascii "failed to resize receive buffer\n") a.2).emit (.dropped r)
      else store newsz.toNat a.2
    else store rbuf.bufsz w

/-- Where `dproc_xfer` puts received bytes: into the file, else into the memory buffer. Its size is
an `int`: a buffer from `2 ^ 31` bytes on, whose allocation ends the program, is left out. -/
def storeBytes (t : ℕ) (buf : Bytes) (w : World α) : World α :=
  match (w.xfers t).fp with
  | some f => { w with files := Function.update w.files f (w.files f ++ buf) }
  | none => w.mapXfer t fun x => { x with mem := x.mem.map (· ++ buf) }

/-- `dproc_xfer`. Only `FTP_RETR` is implemented. -/
def dprocXfer (t : ℕ) (buf : Bytes) (w : World α) : World α :=
  let w := w.emit (.touch t)
  if (w.xfers t).op = .retr then
    if buf = [] then
      let w := infomsg (ascii "data connection closed\n") w
      let w := w.mapXfer t fun x => { x with fp := none }
      (callDone t w).mapFtp fun f => { f with busy := f.busy - 1 }
    else
      (storeBytes t buf w).mapXfer t fun x => { x with count := min (x.count + buf.length) x.total }
  else w

/-- A data handler. -/
def DProc.run : DProc → Bytes → World α → World α
  | .list r => dprocList r
  | .xfer t => dprocXfer t

/-! ### Reply handlers -/

/-- `cproc_active` -/
def cprocActive (code : Int) (w : World α) : Int × World α :=
  if code ≠ 200 then (0, ftpClose (errmsg (ascii "ftp_active failed\n") w))
  else (0, w.mapFtp fun f => { f with status := .act })

/-- `nopasv:` of `cproc_pasv` -/
def noPasv (w : World α) : Int × World α :=
  (0, (ftpActive (w.mapFtp fun f => { f with passive := false })).2)

/-- `%p` of the port number. -/
def pointer (n : ℕ) : Bytes :=
  if n = 0 then ascii "(nil)"
  else ascii "0x" ++ (Nat.toDigits 16 n).map fun c => UInt8.ofNat c.toNat

/-- `cproc_pasv` -/
def cprocPasv (code : Int) (buf : Bytes) (w : World α) : Int × World α :=
  if code ≠ 227 then noPasv (errmsg (ascii "ftp_passive failed\n") w)
  else
    match pasvAddr buf with
    | none => noPasv (errmsg (ascii "ftp_passive: failed to parse response: " ++ buf ++
        ascii "\n") w)
    | some (addr, port) =>
      let r := socket w
      let w := r.2.mapFtp fun f => { f with data := r.1 }
      if r.1 = none then noPasv w
      else
        let w := infomsg (ascii "passive mode: " ++ inetNtoa addr ++ ascii " port " ++
          decimal port ++ ascii "\n") w
        let r := connect w
        if !r.1 then
          let w := errmsg (ascii "ftp_passive: failed to connect to " ++ inetNtoa addr ++
            ascii ":" ++ pointer port ++ ascii "\n") r.2
          noPasv (w.mapFtp fun f => { f with data := none })
        else (0, (r.2.emit .opened).mapFtp fun f => { f with status := .pasv })

/-- `cproc_pwd` -/
def cprocPwd (code : Int) (buf : Bytes) (w : World α) : Int × World α :=
  if code ≠ 257 then (-1, warnmsg (ascii "pwd failed\n") w)
  else
    match getQuotedText buf with
    | none => (-1, warnmsg (ascii "pwd: invalid response: " ++ buf ++ ascii "\n") w)
    | some dirname => (0, w.mapFtp fun f => { f with curdir := some dirname, modified := true })

/-- `cproc_list` -/
def cprocList (code : Int) (w : World α) : Int × World α :=
  if code < 200 then (1, w)
  else if 400 ≤ code then (0, errmsg (ascii "failed to retrieve directory listing\n") w)
  else (0, w)

/-- `cproc_xfer` -/
def cprocXfer (t : ℕ) (code : Int) (buf : Bytes) (w : World α) : Int × World α :=
  if code < 200 then
    match if code = 150 then xferTotal buf else none with
    | some total => (1, (w.mapXfer t fun x => { x with total := total }).emit (.touch t))
    | none => (1, w)
  else if 400 ≤ code then
    (0, callDone t ((errmsg (ascii "failed to retrieve file\n") w).emit (.touch t)))
  else (0, w)

section Wait

variable (wait : Int → World α → Int × World α)

/-- `cproc_cwd` -/
def cprocCwd (code : Int) (w : World α) : Int × World α :=
  if code ≠ 250 then (-1, warnmsg (ascii "cwd failed\n") w)
  else (0, (ftpQueue wait .list (ftpQueue wait .pwd w).2).2)

/-- A reply handler. -/
def CProc.run (p : CProc) (code : Int) (buf : Bytes) : World α → Int × World α :=
  match p with
  | .active => cprocActive code
  | .pasv => cprocPasv code buf
  | .pwd => cprocPwd code buf
  | .cwd => cprocCwd wait code
  | .list _ => cprocList code
  | .xfer t => cprocXfer t code buf

/-! ### The login dialogue -/

/-- `newconn`, which always gives `0`. -/
def newconn (w : World α) : World α :=
  let w := (ftpQueue wait (.type (ascii "I")) w).2
  let w := (ftpQueue wait .pwd w).2
  (ftpQueue wait .list w).2

/-- The switch of `proc_control`, for replies that come before any handler is installed. -/
def login (code : Int) (w : World α) : World α :=
  let w := w.mapFtp fun f => { f with busy := 0 }
  if code = 220 then sendcmd (.user (w.ftp.user.getD (ascii "anonymous"))) w
  else if code = 331 then sendcmd (.pass (w.ftp.pass.getD (ascii "foobar"))) w
  else if code = 230 then newconn wait (infomsg (ascii "login successful\n") w)
  else if code = 530 then
    errmsg (ascii "login failed\n") (w.mapFtp fun f => { f with status := .disc })
  else w.mapFtp fun f => { f with busy := 0 }

/-! ### One line of the control connection -/

/-- What `proc_control` makes of a handler's result. -/
def settle (r : Int × World α) : World α :=
  if r.1 ≤ 0 then r.2.mapFtp fun f => { f with busy := f.busy - 1 } else r.2

/-- The part of `proc_control` behind the two tests of the code. -/
def deliver (code : Int) (buf : Bytes) (w : World α) : World α :=
  let w := w.mapFtp fun f => { f with lastResp := code }
  let w := w.emit (.reply code w.ftp.cproc w.ftp.busy buf)
  match w.ftp.cproc with
  | none => login wait code w
  | some p => settle (p.run wait code buf w)

/-- `proc_control` -/
def procControl (buf : Bytes) (w : World α) : World α :=
  let buf := replyText buf
  let w := infomsg (ascii "recv: " ++ buf ++ ascii "\n") w
  let code := respcode buf
  if code = 0 then warnmsg (ascii "ignoring invalid response: " ++ buf ++ ascii "\n") w
  else if code < 0 then w
  else deliver wait code buf w

end Wait

end Visftp
