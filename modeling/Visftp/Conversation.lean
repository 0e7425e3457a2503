import Visftp.Client

/-!
# What passes between the client and the application

`ftp.c` reaches the application in one place: where a transfer is over, its `done` is called. A
`Talk` is such a call, or what the client does between two of them: it writes to a transfer without
giving it another purpose, or does nothing that the application could see. Every call into the
client is a sequence of these (`Talks`).

So the state of the application is what the callbacks in the history have made of it, one after the
other (`Talks.app_eq`).

## Main definitions

* `Event.isCall`, `calls` — the events of the history that concern the application
* `Talk`, `Talks` — what happens between the client and the application

## Main results

* `Talks.handle`, `Talks.queue`, `Talks.transfer` — the calls of the main loop
* `Talks.app_eq` — the application's state, from the history
-/

namespace Visftp

open CString Relation

variable {α : Type}

/-- A transfer was made, or its callback called. -/
def Event.isCall : Event → Bool
  | .made _ _ | .done _ => true
  | _ => false

/-- The events that concern the application, newest first. -/
def calls (log : List Event) : List Event := log.filter Event.isCall

/-- The same transfer, though perhaps another amount of it has been received. -/
structure SameJob (x y : XferData) : Prop where
  op : y.op = x.op
  rname : y.rname = x.rname
  mem : y.mem.isSome = x.mem.isSome

/-- **One step of the conversation** with the application. -/
inductive Talk : World α → World α → Prop
  /-- Nothing that the application could see. -/
  | quiet {w w'} (hx : w'.xfers = w.xfers) (hn : w'.nxfer = w.nxfer) (ha : w'.app = w.app)
      (hc : calls w'.log = calls w.log) : Talk w w'
  /-- A transfer is written to. -/
  | write {w} (t : ℕ) (f : XferData → XferData) (hf : ∀ x, SameJob x (f x)) :
      Talk w (w.mapXfer t f)
  /-- A callback is called. -/
  | call {w} (t : ℕ) : Talk w (callDone t w)

/-- A whole conversation. -/
def Talks (w₀ w : World α) : Prop := ReflTransGen Talk w₀ w

theorem SameJob.refl (x : XferData) : SameJob x x := ⟨rfl, rfl, rfl⟩

theorem SameJob.trans {x y z : XferData} (h : SameJob x y) (h' : SameJob y z) : SameJob x z :=
  ⟨h'.op.trans h.op, h'.rname.trans h.rname, h'.mem.trans h.mem⟩

namespace Talks

variable {w₀ w w' : World α} {wait : Int → World α → Int × World α}

/-- Nothing of it is touched. -/
theorem same (h : Talks w₀ w) (hx : w'.xfers = w.xfers) (hn : w'.nxfer = w.nxfer)
    (ha : w'.app = w.app) (hc : calls w'.log = calls w.log) : Talks w₀ w' :=
  h.tail (.quiet hx hn ha hc)

theorem emit (h : Talks w₀ w) (e : Event) (he : e.isCall = false := by rfl) :
    Talks w₀ (w.emit e) := by
  refine h.same rfl rfl rfl ?_
  show (e :: w.log).filter Event.isCall = _
  rw [List.filter_cons, he]
  rfl

theorem message (h : Talks w₀ w) (l : Level) (text : Bytes) : Talks w₀ (w.message l text) :=
  h.same rfl rfl rfl rfl

theorem mapXfer (h : Talks w₀ w) (t : ℕ) (f : XferData → XferData)
    (hf : ∀ x, SameJob x (f x) := by exact fun _ => ⟨rfl, rfl, rfl⟩) :
    Talks w₀ (w.mapXfer t f) := h.tail (.write t f hf)

/-! ### Commands -/

theorem sendcmd (h : Talks w₀ w) (c : Cmd) : Talks w₀ (Visftp.sendcmd c w) := by
  rw [Visftp.sendcmd]
  split
  · exact h
  · dsimp only
    split <;> exact h.same rfl rfl rfl rfl

theorem setCproc (h : Talks w₀ w) (p : CProc) : Talks w₀ (Visftp.setCproc p w) :=
  h.same rfl rfl rfl rfl

theorem ftpClose (h : Talks w₀ w) : Talks w₀ (Visftp.ftpClose w) := by
  rw [Visftp.ftpClose]
  split <;> exact h.same rfl rfl rfl rfl

theorem allocate (h : Talks w₀ w) (possible : Bool) :
    Talks w₀ (Visftp.allocate possible w).2 := by
  rw [Visftp.allocate]
  split <;> exact h.same rfl rfl rfl rfl

theorem malloc (h : Talks w₀ w) : Talks w₀ (Visftp.malloc w).2 := h.allocate true

theorem ftpActive (h : Talks w₀ w) : Talks w₀ (Visftp.ftpActive w).2 := by
  rw [Visftp.ftpActive]
  dsimp only
  split
  · exact h.same rfl rfl rfl rfl
  split
  · exact h.same rfl rfl rfl rfl
  split
  · exact h.same rfl rfl rfl rfl
  · refine (Talks.sendcmd ?_ _).setCproc .active
    exact h.same rfl rfl rfl rfl

theorem ftpPassive (h : Talks w₀ w) : Talks w₀ (Visftp.ftpPassive w) := by
  rw [Visftp.ftpPassive]
  refine (Talks.sendcmd ?_ .pasv).setCproc .pasv
  exact h.same rfl rfl rfl rfl

theorem ftpType (h : Talks w₀ w) (type : Bytes) : Talks w₀ (Visftp.ftpType type w) := by
  rw [Visftp.ftpType]
  split
  · exact h
  · exact h.sendcmd _

theorem ftpChdir (h : Talks w₀ w) (dirname : Bytes) :
    Talks w₀ (Visftp.ftpChdir dirname w) := by
  rw [Visftp.ftpChdir]
  split
  · exact (h.sendcmd .cdup).setCproc .cwd
  · exact (h.sendcmd (.cwd dirname)).setCproc .cwd

/-! ### Operations -/

theorem startList (h : Talks w₀ w) : Talks w₀ (Visftp.startList w) := by
  rw [Visftp.startList]
  dsimp only
  split
  · exact h.malloc.same rfl rfl rfl rfl
  split
  · exact h.malloc.malloc.same rfl rfl rfl rfl
  · have hmem := h.malloc.malloc
    generalize (Visftp.malloc (Visftp.malloc w).2).2 = w₂ at hmem ⊢
    have hbuf : Talks w₀ { w₂ with
        rbufs := Function.update w₂.rbufs w₂.nrbuf ⟨[], 1024⟩, nrbuf := w₂.nrbuf + 1 } :=
      hmem.same rfl rfl rfl rfl
    exact ((hbuf.sendcmd (.list w₂.nrbuf)).setCproc (.list w₂.nrbuf)).same rfl rfl rfl rfl

theorem startTransfer (h : Talks w₀ w) (t : ℕ) : Talks w₀ (Visftp.startTransfer t w) := by
  rw [Visftp.startTransfer]
  split
  · exact ((h.sendcmd _).setCproc (.xfer t)).same rfl rfl rfl rfl
  · exact h

section Wait

variable (hwait : ∀ t (w : World α), Talks w₀ w → Talks w₀ (wait t w).2)

include hwait

theorem prepareData (h : Talks w₀ w) : Talks w₀ (Visftp.prepareData wait w).2 := by
  rw [Visftp.prepareData]
  split
  · exact h
  split
  · exact (hwait timeout _ h.ftpPassive).same rfl rfl rfl rfl
  · dsimp only
    split <;> exact h.ftpActive

theorem execOp (h : Talks w₀ w) (op : Op) : Talks w₀ (Visftp.execOp wait op w) := by
  have henter : Talks w₀ (w.enter op) := h.same rfl rfl rfl rfl
  unfold Visftp.execOp
  cases op with
  | type arg => exact (henter.ftpType arg).same rfl rfl rfl rfl
  | pwd => exact ((henter.sendcmd .pwd).setCproc .pwd).same rfl rfl rfl rfl
  | chdir dirname => exact (henter.ftpChdir dirname).same rfl rfl rfl rfl
  | cdup => exact (henter.ftpChdir _).same rfl rfl rfl rfl
  | list =>
    refine Talks.same (w := ftpList wait (w.enter .list)) ?_ rfl rfl rfl rfl
    rw [ftpList]
    split
    · exact prepareData hwait henter
    · exact (prepareData hwait henter).startList
  | xfer t =>
    refine Talks.same (w := ftpTransfer wait t (w.enter (.xfer t))) ?_ rfl rfl rfl rfl
    rw [ftpTransfer]
    split
    · exact prepareData hwait henter
    · exact (prepareData hwait henter).startTransfer t
  | mkdir _ | rmdir _ | del _ | retr _ | store _ => exact henter.same rfl rfl rfl rfl

theorem execQueued (h : Talks w₀ w) : Talks w₀ (Visftp.execQueued wait w) := by
  rw [Visftp.execQueued]
  split
  · exact h
  · next op queue _ =>
    refine execOp hwait (w := w.mapFtp fun f => { f with queue := queue }) ?_ op
    exact h.same rfl rfl rfl rfl

theorem submit (h : Talks w₀ w) {alloc : World α → Bool × World α}
    (halloc : ∀ w, Talks w₀ w → Talks w₀ (alloc w).2) (op : Op) :
    Talks w₀ (Visftp.submit wait alloc op w).2 := by
  rw [Visftp.submit]
  split
  · refine execOp hwait (w := w.emit (.accept op)) ?_ op
    exact h.same rfl rfl rfl rfl
  · dsimp only
    split
    · exact (halloc w h).same rfl rfl rfl rfl
    · exact halloc w h

theorem ftpQueue (h : Talks w₀ w) (op : Op) : Talks w₀ (Visftp.ftpQueue wait op w).2 := by
  refine submit hwait h (fun w hw => ?_) op
  dsimp only
  split
  · exact hw.malloc.malloc
  · exact hw.malloc

theorem ftpQueueTransfer (h : Talks w₀ w) (t : ℕ) :
    Talks w₀ (Visftp.ftpQueueTransfer wait t w).2 :=
  submit hwait h (fun _ hw => hw.malloc) (.xfer t)

end Wait

/-! ### Replies -/

theorem noPasv (h : Talks w₀ w) : Talks w₀ (Visftp.noPasv w).2 := by
  rw [Visftp.noPasv]
  refine Talks.ftpActive (w := w.mapFtp fun f => { f with passive := false }) ?_
  exact h.same rfl rfl rfl rfl

theorem cprocPasv (h : Talks w₀ w) (code : Int) (buf : Bytes) :
    Talks w₀ (Visftp.cprocPasv code buf w).2 := by
  rw [Visftp.cprocPasv]
  split
  · exact Talks.noPasv (h.same rfl rfl rfl rfl)
  split
  · exact Talks.noPasv (h.same rfl rfl rfl rfl)
  dsimp only
  split
  · exact Talks.noPasv (h.same rfl rfl rfl rfl)
  split
  · exact Talks.noPasv (h.same rfl rfl rfl rfl)
  · exact h.same rfl rfl rfl rfl

/-- **A callback is called.** -/
theorem callDone (h : Talks w₀ w) (t : ℕ) : Talks w₀ (Visftp.callDone t w) := h.tail (.call t)

theorem cprocXfer (h : Talks w₀ w) (t : ℕ) (code : Int) (buf : Bytes) :
    Talks w₀ (Visftp.cprocXfer t code buf w).2 := by
  rw [Visftp.cprocXfer]
  split
  · split
    · next total _ => exact (h.mapXfer t fun x => { x with total := total }).same rfl rfl rfl rfl
    · exact h
  split
  · exact callDone ((h.message _ _).emit (.touch t)) t
  · exact h

section Wait

variable (hwait : ∀ t (w : World α), Talks w₀ w → Talks w₀ (wait t w).2)

include hwait

theorem runCproc (h : Talks w₀ w) (p : CProc) (code : Int) (buf : Bytes) :
    Talks w₀ (p.run wait code buf w).2 := by
  cases p with
  | active =>
    show Talks w₀ (cprocActive code w).2
    rw [cprocActive]
    split
    · exact Talks.ftpClose (h.same rfl rfl rfl rfl)
    · exact h.same rfl rfl rfl rfl
  | pasv => exact h.cprocPasv code buf
  | pwd =>
    show Talks w₀ (cprocPwd code buf w).2
    rw [cprocPwd]
    split
    · exact h.same rfl rfl rfl rfl
    split <;> exact h.same rfl rfl rfl rfl
  | cwd =>
    show Talks w₀ (cprocCwd wait code w).2
    rw [cprocCwd]
    split
    · exact h.same rfl rfl rfl rfl
    · exact ftpQueue hwait (ftpQueue hwait h .pwd) .list
  | list r =>
    show Talks w₀ (cprocList code w).2
    rw [cprocList]
    split
    · exact h
    split
    · exact h.same rfl rfl rfl rfl
    · exact h
  | xfer t => exact cprocXfer h t code buf

theorem login (h : Talks w₀ w) (code : Int) : Talks w₀ (Visftp.login wait code w) := by
  have hzero : Talks w₀ (w.mapFtp fun f => { f with busy := 0 }) := h.same rfl rfl rfl rfl
  rw [Visftp.login]
  split
  · exact hzero.sendcmd _
  split
  · exact hzero.sendcmd _
  split
  · have hmsg := hzero.message .info (ascii "login successful\n")
    exact ftpQueue hwait (ftpQueue hwait (ftpQueue hwait hmsg (.type (ascii "I"))) .pwd) .list
  split <;> exact hzero.same rfl rfl rfl rfl

theorem deliver (h : Talks w₀ w) (code : Int) (buf : Bytes) :
    Talks w₀ (Visftp.deliver wait code buf w) := by
  have hresp : Talks w₀ (w.mapFtp fun f => { f with lastResp := code }) := h.same rfl rfl rfl rfl
  have hgot := hresp.emit (.reply code w.ftp.cproc w.ftp.busy buf)
  rw [Visftp.deliver]
  split
  · exact login hwait hgot code
  · next p _ =>
    have hrun := runCproc hwait hgot p code buf
    rw [settle]
    split
    · exact hrun.same rfl rfl rfl rfl
    · exact hrun

/-- One line of the control connection. -/
theorem procControl (h : Talks w₀ w) (buf : Bytes) :
    Talks w₀ (Visftp.procControl wait buf w) := by
  rw [Visftp.procControl]
  split
  · exact h.same rfl rfl rfl rfl
  split
  · exact h.same rfl rfl rfl rfl
  · exact deliver hwait (h.message .info _) _ _

theorem scanBytes (h : Talks w₀ w) (bs cur : Bytes) (seen : Bool) :
    Talks w₀ (Visftp.scanBytes wait bs cur seen w) := by
  induction bs generalizing cur seen w with
  | nil => exact h.same rfl rfl rfl rfl
  | cons b bs ih =>
    rw [Visftp.scanBytes]
    split
    · exact ih h _ _
    split
    · exact ih (procControl hwait (h.emit (.line cur)) _) _ _
    · exact ih h _ _

theorem handleControlLoop (h : Talks w₀ w) (fuel : ℕ) :
    Talks w₀ (Visftp.handleControlLoop wait fuel w).2 := by
  induction fuel generalizing w with
  | zero => exact h
  | succ fuel ih =>
    rw [Visftp.handleControlLoop]
    have hroom : Talks w₀ (if crecvSize ≤ w.ftp.crecv.length then
        warnmsg (ascii "discard buffer\n") (w.mapFtp fun f => { f with crecv := [] }) else w) := by
      split
      · exact h.same rfl rfl rfl rfl
      · exact h
    generalize (if crecvSize ≤ w.ftp.crecv.length then _ else w) = w₁ at hroom ⊢
    have hasked : Talks w₀ (recvCtl (crecvSize - w₁.ftp.crecv.length) w₁).2 := by
      rw [recvCtl]
      split
      · exact hroom
      · exact hroom.same rfl rfl rfl rfl
    generalize recvCtl (crecvSize - w₁.ftp.crecv.length) w₁ = r at hasked ⊢
    rcases r with ⟨a, w₂⟩
    cases a with
    | intr => exact ih hasked
    | again => exact hasked
    | eof => exact hasked.ftpClose
    | data b => exact ih (scanBytes hwait (hasked.emit (.recv b)) _ _ _)

theorem runQueue (h : Talks w₀ w) : Talks w₀ (Visftp.runQueue wait w) := by
  rw [Visftp.runQueue]
  split
  · dsimp only
    split <;> exact execQueued hwait (h.same rfl rfl rfl rfl)
  · exact h

/-- An event on the control connection. -/
theorem ftpHandleWith_ctl (h : Talks w₀ w) :
    Talks w₀ (Visftp.ftpHandleWith wait w.ftp.ctl w) := by
  have hctl : Talks w₀ (handleControl wait w).2 := handleControlLoop hwait h _
  rw [Visftp.ftpHandleWith, if_pos rfl]
  dsimp only
  split
  · exact hctl
  · exact runQueue hwait hctl

end Wait

/-- **A wait** reads the control connection only. -/
theorem waitLoop (n : ℕ) (t : Int) (h : Talks w₀ w) :
    Talks w₀ (Visftp.waitLoop n t w).2 := by
  induction n generalizing t w with
  | zero => exact h
  | succ n ih =>
    rw [Visftp.waitLoop]
    have hfirst : Talks w₀ (if w.ftp.ctl = none then w.emit .badSelect else w) := by
      split
      · exact h.same rfl rfl rfl rfl
      · exact h
    generalize (if w.ftp.ctl = none then w.emit .badSelect else w) = w₁ at hfirst ⊢
    dsimp only
    generalize hr : World.ask _ _ _ w₁ = r
    have hasked : Talks w₀ r.2 := hr ▸ hfirst.same rfl rfl rfl rfl
    rcases r with ⟨a, w₂⟩
    cases a with
    | intr => exact ih t hasked
    | woke ready elapsed =>
      have hwait : ∀ t (w : World α), Talks w₀ w →
          Talks w₀ (Visftp.waitLoop n t (w.mapFtp fun f => { f with lastResp := -1 })).2 :=
        fun t w hw => ih t (hw.same rfl rfl rfl rfl)
      dsimp only
      set w₃ := if ready then ftpHandleWith
          (fun t w => Visftp.waitLoop n t (w.mapFtp fun f => { f with lastResp := -1 })) w₂.ftp.ctl
          (w₂.mapFtp fun f => { f with lastResp := -1 }) else w₂ with hw₃
      have hhandle : Talks w₀ w₃ := by
        rw [hw₃]
        split
        · exact ftpHandleWith_ctl hwait
            (w := w₂.mapFtp fun f => { f with lastResp := -1 }) (hasked.same rfl rfl rfl rfl)
        · exact hasked
      split
      · exact hhandle
      split
      · split
        · exact hhandle
        · exact ih _ hhandle
      · exact ih t hhandle

theorem ftpWaitresp (n : ℕ) (t : Int) (h : Talks w₀ w) :
    Talks w₀ (Visftp.ftpWaitresp n t w).2 :=
  waitLoop n t (h.same rfl rfl rfl rfl)

/-! ### Data -/

theorem runDproc (h : Talks w₀ w) (p : DProc) (buf : Bytes) :
    Talks w₀ (p.run buf w) := by
  cases p with
  | list r =>
    show Talks w₀ (dprocList r buf w)
    rw [dprocList]
    dsimp only
    split
    · exact h.same rfl rfl rfl rfl
    split
    · split
      · exact ((h.allocate _).message _ _).emit _
      · exact (h.allocate _).same rfl rfl rfl rfl
    · exact h.same rfl rfl rfl rfl
  | xfer t =>
    have htouch := h.emit (.touch t)
    show Talks w₀ (dprocXfer t buf w)
    rw [dprocXfer]
    dsimp only
    split
    · split
      · have hclosed := (htouch.message .info (ascii "data connection closed\n")).mapXfer t
          fun x => { x with fp := none }
        exact (callDone hclosed t).same rfl rfl rfl rfl
      · have hstore : Talks w₀ (storeBytes t buf (w.emit (.touch t))) := by
          rw [storeBytes]
          split
          · exact htouch.same rfl rfl rfl rfl
          · exact htouch.mapXfer t _ fun _ => ⟨rfl, rfl, Option.isSome_map⟩
        exact hstore.mapXfer t _
    · exact htouch

theorem callDproc (h : Talks w₀ w) (buf : Bytes) : Talks w₀ (Visftp.callDproc buf w) := by
  rw [Visftp.callDproc]
  split
  · exact h
  · exact runDproc h _ buf

theorem handleData (h : Talks w₀ w) : Talks w₀ (Visftp.handleData w) := by
  have hloop : ∀ n (w : World α), Talks w₀ w → Talks w₀ (handleDataLoop n w) := by
    intro n
    induction n with
    | zero => exact fun _ h => h
    | succ n ih =>
      intro w h
      rw [handleDataLoop]
      have hasked : Talks w₀ (recvData 256 w).2 := h.same rfl rfl rfl rfl
      generalize recvData 256 w = r at hasked ⊢
      rcases r with ⟨a, w₂⟩
      cases a with
      | intr => exact ih _ hasked
      | again => exact hasked
      | eof =>
        have hcall := callDproc
          (hasked.emit (.dataEof w₂.ftp.dproc w₂.ftp.busy)) []
        exact hcall.same rfl rfl rfl rfl
      | data b => exact ih _ (callDproc (hasked.emit (.chunk b w₂.ftp.dproc)) b)
  rw [Visftp.handleData]
  split
  · exact h
  · exact hloop 4 w h

theorem acceptData (h : Talks w₀ w) : Talks w₀ (Visftp.acceptData w) := by
  rw [Visftp.acceptData]
  dsimp only
  split
  · exact h.same rfl rfl rfl rfl
  split <;> exact h.same rfl rfl rfl rfl

/-- **`ftp_handle`** of any descriptor. -/
theorem handle (env : Env) (fd : Fd) (h : Talks w₀ w) :
    Talks w₀ (w.step env (.handle fd)) := by
  have henv : Talks w₀ { w with env := env } := h.same rfl rfl rfl rfl
  have hwait : ∀ t (w : World α), Talks w₀ w →
      Talks w₀ (Visftp.ftpWaitresp env.selects.length t w).2 :=
    fun t w hw => ftpWaitresp _ t hw
  show Talks w₀ (ftpHandleWith _ (some fd) { w with env := env })
  rw [ftpHandleWith]
  split
  · next hctl =>
    have hc := handleControlLoop hwait henv (env.ctlIn.length + 1)
    dsimp only
    split
    · exact hc
    · exact runQueue hwait hc
  split
  · exact runQueue hwait (handleData henv)
  split
  · exact runQueue hwait henv.acceptData
  · exact runQueue hwait henv

/-! ### The calls of the main loop -/

/-- **`ftp_queue`** leaves the entries alone. -/
theorem queue (env : Env) (op : Op) (hop : op.transfer? = none) (h : Talks w₀ w) :
    Talks w₀ (w.step env (.queue op hop)) :=
  ftpQueue (fun t _ hw => ftpWaitresp _ t hw)
    (w := { w with env := env }) (h.same rfl rfl rfl rfl) op

/-- **`ftp_queue_transfer`** of a new transfer. -/
theorem transfer (env : Env) (x : Xfer α) (w : World α) :
    Talks (({ w with env := env } : World α).newXfer x) (w.step env (.transfer x)) :=
  ftpQueueTransfer (fun t _ hw => ftpWaitresp _ t hw) .refl w.nxfer

/-! ### What the application sees -/

/-- The transfers keep their callbacks and their purpose. -/
theorem xfers_eq (h : Talks w₀ w) (t : ℕ) : (w.xfers t).done = (w₀.xfers t).done ∧
    SameJob (w₀.xfers t).toXferData (w.xfers t).toXferData := by
  induction h with
  | refl => exact ⟨rfl, .refl _⟩
  | tail _ hstep ih =>
    cases hstep with
    | quiet hx _ _ _ =>
      rw [hx]
      exact ih
    | write u f hf =>
      rw [World.mapXfer]
      dsimp only
      rw [Function.update_apply]
      split
      · next heq =>
        subst heq
        exact ⟨ih.1, ih.2.trans (hf _)⟩
      · exact ih
    | call u => exact ih

/-- **The application's state, from the history**: the callbacks that were called have made it, one
after the other, and each was given its own transfer. -/
theorem app_eq (h : Talks w₀ w) : ∃ cs : List (ℕ × XferData),
    calls w.log = (cs.map fun c => Event.done c.1).reverse ++ calls w₀.log ∧
      w.app = cs.foldl (fun a c => (w₀.xfers c.1).done c.2 a) w₀.app ∧
      ∀ c ∈ cs, SameJob (w₀.xfers c.1).toXferData c.2 := by
  induction h with
  | refl => exact ⟨[], rfl, rfl, by simp⟩
  | @tail w₁ w₂ htalks hstep ih =>
    obtain ⟨cs, hlog, happ, hjobs⟩ := ih
    cases hstep with
    | quiet _ _ ha hc => exact ⟨cs, hc.trans hlog, ha.trans happ, hjobs⟩
    | write u f _ => exact ⟨cs, hlog, happ, hjobs⟩
    | call u =>
      obtain ⟨hdone, hjob⟩ := xfers_eq htalks u
      refine ⟨cs ++ [(u, (w₁.xfers u).toXferData)], ?_, ?_, ?_⟩
      · show calls (.done u :: w₁.log) = _
        rw [calls, List.filter_cons_of_pos rfl, ← calls, hlog]
        simp
      · rw [List.foldl_append, ← happ, List.foldl_cons, List.foldl_nil, ← hdone]
        rfl
      · intro c hc
        rcases List.mem_append.mp hc with hc | hc
        · exact hjobs c hc
        · rw [List.mem_singleton.mp hc]
          exact hjob

end Talks

end Visftp
