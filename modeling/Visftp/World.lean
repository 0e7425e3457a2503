import Visftp.Lib.Histories
import Visftp.Lib.LinkedFifo
import Visftp.Dirent
import Visftp.Reply

/-!
# The state of the client

`struct ftp` and what its code can reach: the transfers and receive buffers on the heap, the
results the operating system has in store for it, and the history of what happened.

## The environment

Everything the code asks of the system is answered from `Env`, one list of answers for each call,
in the order in which the calls are made. An answer the call cannot give (more bytes than were
asked for, a descriptor that is in use) is read as a failure, and an exhausted list as "nothing
more for now": the call fails, the connection would block, the allocation succeeds. So every list
of answers is a behaviour of the system, and every behaviour of finitely many calls has one.

## The application

`done` is a function pointer of a transfer, into code that is not part of `ftp.c`. The state is
generic in the application's own state `α`, and `done` acts on it. It may read the transfer, whose
fields apart from `done` are `XferData`.

## The history

`World.log` is ghost state: the code never reads it. It holds an `Event` for everything a property
of the client may speak about, newest first.

## Main definitions

* `Ftp`, `Xfer`, `RecvBuf`, `CProc`, `DProc`, `Op`, `Cmd` — the data of `ftp.h` and `ftp.c`
* `Env`, `Event`, `World` — the system, the history, and all of it together
-/

namespace Visftp

open CString

/-- A socket descriptor. -/
abbrev Fd := ℕ

/-- The `status` of a connection. -/
inductive Status
  /-- `FTP_DISC` -/
  | disc
  /-- `FTP_CONN_PASV` -/
  | pasv
  /-- `FTP_CONN_ACT` -/
  | act
  deriving DecidableEq, Repr

/-- A queued operation, `struct ftp_op`: its code with the argument that goes with it. A transfer
is given by its address. -/
inductive Op
  | type (arg : Bytes)
  | pwd
  | chdir (dirname : Bytes)
  | cdup
  | mkdir (dirname : Bytes)
  | rmdir (dirname : Bytes)
  | del (fname : Bytes)
  | list
  | retr (fname : Bytes)
  | store (fname : Bytes)
  | xfer (t : ℕ)
  deriving DecidableEq, Repr

/-- The transfer of an operation. -/
def Op.transfer? : Op → Option ℕ
  | .xfer t => some t
  | _ => none

theorem Op.transfer?_cdup : Op.cdup.transfer? = none := rfl

theorem Op.transfer?_chdir (d : Bytes) : (Op.chdir d).transfer? = none := rfl

/-- The value of `cproc` with the `cproc_cls` it is installed with: `list` has the address of a
receive buffer, `xfer` of a transfer. The other handlers do not look at `cproc_cls`. -/
inductive CProc
  | active
  | pasv
  | pwd
  | cwd
  | list (r : ℕ)
  | xfer (t : ℕ)
  deriving DecidableEq, Repr

/-- The value of `dproc` with its `dproc_cls`. -/
inductive DProc
  | list (r : ℕ)
  | xfer (t : ℕ)
  deriving DecidableEq, Repr

/-- A command of the control connection. `list` and `retr` also name the receive buffer or the
transfer on whose behalf they are sent; the server does not see it. -/
inductive Cmd
  | user (name : Bytes)
  | pass (word : Bytes)
  | type (tc : Byte)
  | pwd
  | cdup
  | cwd (dirname : Bytes)
  | pasv
  | port (addr port : ℕ)
  | list (r : ℕ)
  | retr (t : ℕ) (rname : Bytes)
  deriving DecidableEq, Repr

/-- What the format string of the `sendcmd` call makes of a command. -/
def Cmd.text : Cmd → Bytes
  | .user name => ascii "user " ++ name
  | .pass word => ascii "pass " ++ word
  | .type tc => ascii "type " ++ [tc]
  | .pwd => ascii "pwd"
  | .cdup => ascii "cdup"
  | .cwd dirname => ascii "cwd " ++ dirname
  | .pasv => ascii "PASV"
  | .port a p =>
    ascii "PORT " ++ List.intercalate (ascii ",") ([a >>> 24, a >>> 16 &&& 255, a >>> 8 &&& 255,
      a &&& 255, p >>> 8, p &&& 255].map decimal)
  | .list _ => ascii "list"
  | .retr _ rname => ascii "retr " ++ rname

/-- The contents of `buf` after `vsnprintf(buf, sizeof buf, ...)`. -/
def Cmd.line (c : Cmd) : Bytes := c.text.take 255

/-- The bytes that `sendcmd` passes to `send`. -/
def Cmd.wire (c : Cmd) : Bytes := c.line ++ [cr, lf]

/-- The operation whose handlers wait for the data of a command. -/
def Cmd.owner : Cmd → Option DProc
  | .list r => some (.list r)
  | .retr t _ => some (.xfer t)
  | _ => none

/-- `struct recvbuf`: the `size` received bytes, and the allocated size. -/
structure RecvBuf where
  /-- The received bytes; `size` is their number. -/
  buf : Bytes
  /-- The size of the allocation. -/
  bufsz : ℕ
  deriving DecidableEq, Repr

/-- The direction of a transfer. -/
inductive XferOp
  /-- `FTP_RETR` -/
  | retr
  /-- Anything else. -/
  | stor
  deriving DecidableEq, Repr

/-- What a transfer is for: from where and to where. An open file is given by an address in
`World.files`, `mem` by its contents. -/
structure Job where
  /-- `FTP_RETR` or not. -/
  op : XferOp
  /-- The file's name on the server. -/
  rname : Bytes
  /-- The local file, when the transfer goes to one. -/
  fp : Option ℕ
  /-- The memory buffer, when the transfer goes to one. -/
  mem : Option Bytes
  deriving DecidableEq, Repr

/-- The fields of `struct ftp_transfer` that a `done` callback may read. -/
structure XferData extends Job where
  /-- The expected size. -/
  total : Int
  /-- The size so far. -/
  count : Int
  deriving DecidableEq, Repr

/-- `struct ftp_transfer`. The application sets `done` for every transfer, and `cproc_xfer` calls it
without looking; a null pointer is left out. -/
structure Xfer (α : Type) extends XferData where
  /-- The completion callback. -/
  done : XferData → α → α

/-- `struct ftp`. The bytes of `crecv` below `num_crecv` are `crecv`; `modified` is its one flag,
`FTP_MOD_DIR`. -/
structure Ftp where
  /-- The control connection. -/
  ctl : Option Fd
  /-- The listening socket of active mode. -/
  lis : Option Fd
  /-- The data connection. -/
  data : Option Fd
  status : Status
  /-- How many replies and data transfers are outstanding. -/
  busy : Int
  user : Option Bytes
  pass : Option Bytes
  /-- Passive mode: cleared for good once the server has refused `PASV`. -/
  passive : Bool
  queue : LinkedFifo Op
  cproc : Option CProc
  dproc : Option DProc
  crecv : Bytes
  curdir : Option Bytes
  dirent : List Dirent
  lastResp : Int
  modified : Bool

/-- A result of `recv`. -/
inductive Recv
  /-- These bytes were received. -/
  | data (b : Bytes)
  /-- The peer closed the connection. -/
  | eof
  /-- `-1`, nothing to read for now. -/
  | again
  /-- `-1` with `EINTR`. -/
  | intr
  deriving DecidableEq, Repr

/-- A result of the `select` in `ftp_waitresp`, with the seconds since the wait began. -/
inductive Sel
  /-- `-1` with `EINTR`. -/
  | intr
  /-- The call returned; the control connection was readable or not. -/
  | woke (ready : Bool) (elapsed : ℕ)
  deriving DecidableEq, Repr

/-- What the system answers to the calls to come. -/
structure Env where
  /-- `recv` on the control connection. -/
  ctlIn : List Recv
  /-- `recv` on the data connection. -/
  dataIn : List Recv
  /-- `select` in `ftp_waitresp`. -/
  selects : List Sel
  /-- `socket`: a descriptor, or `none` for `-1`. -/
  sockets : List (Option Fd)
  /-- `bind`: success or not. -/
  binds : List Bool
  /-- `getsockname` of the listening socket: address and port, or `none` for `-1`. -/
  names : List (Option (ℕ × ℕ))
  /-- `connect`: success or not. -/
  connects : List Bool
  /-- `accept`: a descriptor, or `none` for `-1`. -/
  accepts : List (Option Fd)
  /-- `malloc` and `realloc`: success or not. -/
  allocs : List Bool
  /-- The memory behind the received part of a receive buffer. -/
  heapTail : Bytes
  /-- The uninitialised `size` of the entry on `dproc_list`'s stack. -/
  junk : Int
  deriving Repr

/-- A system that has nothing to say. -/
def Env.quiet : Env := ⟨[], [], [], [], [], [], [], [], [], [], 0⟩

/-- The tags of the log file. -/
inductive Level
  | info
  | warn
  | err
  deriving DecidableEq, Repr

/-- Something that happened. -/
inductive Event
  /-- `recv` on the control connection delivered these bytes. -/
  | recv (chunk : Bytes)
  /-- `proc_control` was called on the buffer from `buf` to the line's end. -/
  | line (buf : Bytes)
  /-- A reply went to `cproc` (or to the login dialogue), at this value of `busy`. -/
  | reply (code : Int) (cproc : Option CProc) (busy : Int) (buf : Bytes)
  /-- `sendcmd` sent a command. -/
  | sent (cmd : Cmd)
  /-- `cproc` was set. -/
  | hook (cproc : CProc)
  /-- The application made a transfer. -/
  | made (t : ℕ) (job : Job)
  /-- An operation was accepted by `ftp_queue` or `ftp_queue_transfer`. -/
  | accept (op : Op)
  /-- `exec_op` was called, with a data connection or without one, in passive mode or not. -/
  | exec (op : Op) (isOpen isPassive : Bool)
  /-- `exec_op` returned. -/
  | ret
  /-- `ftp_waitresp` returned to `prepare_data`; the data connection is open or not. -/
  | wake (isOpen : Bool)
  /-- A data connection was established. -/
  | opened
  /-- A connection was accepted on the listening socket. -/
  | incoming
  /-- `handle_data` received a chunk, for `dproc`. -/
  | chunk (buf : Bytes) (dproc : Option DProc)
  /-- `handle_data` received the end of the data, for `dproc`, at this value of `busy`. -/
  | dataEof (dproc : Option DProc) (busy : Int)
  /-- A handler read or wrote a transfer. -/
  | touch (t : ℕ)
  /-- A transfer's `done` was called. -/
  | done (t : ℕ)
  /-- `assert(ftp->busy == 0)` failed. -/
  | assertFailed
  /-- `ftp_close` closed the control connection. -/
  | hangup
  /-- `FD_SET` was applied to descriptor `-1`. -/
  | badSelect
  /-- An allocation failed. -/
  | outOfMemory
  /-- `dproc_list` dropped a chunk, as its receive buffer could not be made larger. -/
  | dropped (r : ℕ)
  deriving DecidableEq, Repr

/-- The client, the heap, the system and the application. -/
structure World (α : Type) where
  ftp : Ftp
  /-- The transfers, by address. -/
  xfers : ℕ → Xfer α
  /-- The next address of a transfer. -/
  nxfer : ℕ
  /-- What was written to each local file. -/
  files : ℕ → Bytes
  /-- The receive buffers, by address. -/
  rbufs : ℕ → RecvBuf
  /-- The next address of a receive buffer. -/
  nrbuf : ℕ
  env : Env
  /-- The state of the application. -/
  app : α
  /-- What `infomsg`, `warnmsg` and `errmsg` wrote to the log file, newest line first. -/
  logfile : List (Level × Bytes)
  /-- The history, newest event first. -/
  log : List Event

namespace World

variable {α : Type}

/-- Record an event. -/
def emit (e : Event) (w : World α) : World α := { w with log := e :: w.log }

/-- Write a line to the log file. -/
def message (l : Level) (text : Bytes) (w : World α) : World α :=
  { w with logfile := (l, text) :: w.logfile }

/-- Assign to fields of `struct ftp`. -/
def mapFtp (f : Ftp → Ftp) (w : World α) : World α := { w with ftp := f w.ftp }

/-- Assign to fields of a transfer. -/
def mapXfer (t : ℕ) (f : XferData → XferData) (w : World α) : World α :=
  { w with xfers := Function.update w.xfers t ⟨f (w.xfers t).toXferData, (w.xfers t).done⟩ }

end World

end Visftp
