import Visftp.Moves

/-!
# What the application keeps

`ftp.c` calls back into the application in one place, where a transfer is done. Whatever every
callback keeps of the application's state is kept by every call into the client (`Hosts`). The
entries of the remote directory belong to it, as the application reads them: they are written at
the end of a listing's data, and nowhere else.

## Main definitions

* `Hosts` — the callbacks are good, and the application's state and the entries are as they should

## Main results

* `Hosts.waitLoop` — a wait only reads the control connection, so the entries stay
* `Hosts.queue`, `Hosts.transfer`, `Hosts.handle` — the calls of the main loop
-/

namespace Visftp

open CString

variable {α : Type}

/-- **What the application relies on**: every transfer has a good callback, and `P` holds of the
application's state and the entries of the remote directory. -/
structure Hosts (Good : (XferData → α → α) → Prop) (P : α → List Dirent → Prop) (w : World α) :
    Prop where
  done : ∀ t, Good (w.xfers t).done
  app : P w.app w.ftp.dirent

namespace Hosts

variable {Good : (XferData → α → α) → Prop} {P : α → List Dirent → Prop} {w w' : World α}
  {wait : Int → World α → Int × World α}

/-- Nothing of it is touched. -/
theorem same (h : Hosts Good P w) (hx : w'.xfers = w.xfers) (ha : w'.app = w.app)
    (hl : w'.ftp.dirent = w.ftp.dirent) : Hosts Good P w' where
  done t := by
    rw [hx]
    exact h.done t
  app := by
    rw [ha, hl]
    exact h.app

theorem emit (h : Hosts Good P w) (e : Event) : Hosts Good P (w.emit e) := h.same rfl rfl rfl

theorem message (h : Hosts Good P w) (l : Level) (text : Bytes) : Hosts Good P (w.message l text) :=
  h.same rfl rfl rfl

theorem mapXfer (h : Hosts Good P w) (t : ℕ) (f : XferData → XferData) :
    Hosts Good P (w.mapXfer t f) where
  done u := by
    show Good (Function.update w.xfers t _ u).done
    rw [Function.update_apply]
    split
    · exact h.done t
    · exact h.done u
  app := h.app

/-! ### Commands -/

theorem sendcmd (h : Hosts Good P w) (c : Cmd) : Hosts Good P (Visftp.sendcmd c w) := by
  rw [Visftp.sendcmd]
  split
  · exact h
  · dsimp only
    split <;> exact h.same rfl rfl rfl

theorem setCproc (h : Hosts Good P w) (p : CProc) : Hosts Good P (Visftp.setCproc p w) :=
  h.same rfl rfl rfl

theorem ftpClose (h : Hosts Good P w) : Hosts Good P (Visftp.ftpClose w) := by
  rw [Visftp.ftpClose]
  split <;> exact h.same rfl rfl rfl

theorem allocate (h : Hosts Good P w) (possible : Bool) :
    Hosts Good P (Visftp.allocate possible w).2 := by
  rw [Visftp.allocate]
  split <;> exact h.same rfl rfl rfl

theorem malloc (h : Hosts Good P w) : Hosts Good P (Visftp.malloc w).2 := h.allocate true

theorem ftpActive (h : Hosts Good P w) : Hosts Good P (Visftp.ftpActive w).2 := by
  rw [Visftp.ftpActive]
  dsimp only
  split
  · exact h.same rfl rfl rfl
  split
  · exact h.same rfl rfl rfl
  split
  · exact h.same rfl rfl rfl
  · refine (Hosts.sendcmd ?_ _).setCproc .active
    exact h.same rfl rfl rfl

theorem ftpPassive (h : Hosts Good P w) : Hosts Good P (Visftp.ftpPassive w) := by
  rw [Visftp.ftpPassive]
  refine (Hosts.sendcmd ?_ .pasv).setCproc .pasv
  exact h.same rfl rfl rfl

theorem ftpType (h : Hosts Good P w) (type : Bytes) : Hosts Good P (Visftp.ftpType type w) := by
  rw [Visftp.ftpType]
  split
  · exact h
  · exact h.sendcmd _

theorem ftpChdir (h : Hosts Good P w) (dirname : Bytes) :
    Hosts Good P (Visftp.ftpChdir dirname w) := by
  rw [Visftp.ftpChdir]
  split
  · exact (h.sendcmd .cdup).setCproc .cwd
  · exact (h.sendcmd (.cwd dirname)).setCproc .cwd

/-! ### Operations -/

theorem startList (h : Hosts Good P w) : Hosts Good P (Visftp.startList w) := by
  rw [Visftp.startList]
  dsimp only
  split
  · exact h.malloc.same rfl rfl rfl
  split
  · exact h.malloc.malloc.same rfl rfl rfl
  · have hmem := h.malloc.malloc
    generalize (Visftp.malloc (Visftp.malloc w).2).2 = w₂ at hmem ⊢
    have hbuf : Hosts Good P { w₂ with
        rbufs := Function.update w₂.rbufs w₂.nrbuf ⟨[], 1024⟩, nrbuf := w₂.nrbuf + 1 } :=
      hmem.same rfl rfl rfl
    exact ((hbuf.sendcmd (.list w₂.nrbuf)).setCproc (.list w₂.nrbuf)).same rfl rfl rfl

theorem startTransfer (h : Hosts Good P w) (t : ℕ) : Hosts Good P (Visftp.startTransfer t w) := by
  rw [Visftp.startTransfer]
  split
  · exact ((h.sendcmd _).setCproc (.xfer t)).same rfl rfl rfl
  · exact h

section Wait

variable (hwait : ∀ t (w : World α), Hosts Good P w → Hosts Good P (wait t w).2)

include hwait

theorem prepareData (h : Hosts Good P w) : Hosts Good P (Visftp.prepareData wait w).2 := by
  rw [Visftp.prepareData]
  split
  · exact h
  split
  · exact (hwait timeout _ h.ftpPassive).same rfl rfl rfl
  · dsimp only
    split <;> exact h.ftpActive

theorem execOp (h : Hosts Good P w) (op : Op) : Hosts Good P (Visftp.execOp wait op w) := by
  have henter : Hosts Good P (w.enter op) := h.same rfl rfl rfl
  unfold Visftp.execOp
  cases op with
  | type arg => exact (henter.ftpType arg).same rfl rfl rfl
  | pwd => exact ((henter.sendcmd .pwd).setCproc .pwd).same rfl rfl rfl
  | chdir dirname => exact (henter.ftpChdir dirname).same rfl rfl rfl
  | cdup => exact (henter.ftpChdir _).same rfl rfl rfl
  | list =>
    refine Hosts.same (w := ftpList wait (w.enter .list)) ?_ rfl rfl rfl
    rw [ftpList]
    split
    · exact prepareData hwait henter
    · exact (prepareData hwait henter).startList
  | xfer t =>
    refine Hosts.same (w := ftpTransfer wait t (w.enter (.xfer t))) ?_ rfl rfl rfl
    rw [ftpTransfer]
    split
    · exact prepareData hwait henter
    · exact (prepareData hwait henter).startTransfer t
  | mkdir _ | rmdir _ | del _ | retr _ | store _ => exact henter.same rfl rfl rfl

theorem execQueued (h : Hosts Good P w) : Hosts Good P (Visftp.execQueued wait w) := by
  rw [Visftp.execQueued]
  split
  · exact h
  · next op queue _ =>
    refine execOp hwait (w := w.mapFtp fun f => { f with queue := queue }) ?_ op
    exact h.same rfl rfl rfl

theorem submit (h : Hosts Good P w) {alloc : World α → Bool × World α}
    (halloc : ∀ w, Hosts Good P w → Hosts Good P (alloc w).2) (op : Op) :
    Hosts Good P (Visftp.submit wait alloc op w).2 := by
  rw [Visftp.submit]
  split
  · refine execOp hwait (w := w.emit (.accept op)) ?_ op
    exact h.same rfl rfl rfl
  · dsimp only
    split
    · exact (halloc w h).same rfl rfl rfl
    · exact halloc w h

theorem ftpQueue (h : Hosts Good P w) (op : Op) : Hosts Good P (Visftp.ftpQueue wait op w).2 := by
  refine submit hwait h (fun w hw => ?_) op
  dsimp only
  split
  · exact hw.malloc.malloc
  · exact hw.malloc

theorem ftpQueueTransfer (h : Hosts Good P w) (t : ℕ) :
    Hosts Good P (Visftp.ftpQueueTransfer wait t w).2 :=
  submit hwait h (fun _ hw => hw.malloc) (.xfer t)

end Wait

/-! ### Replies -/

theorem noPasv (h : Hosts Good P w) : Hosts Good P (Visftp.noPasv w).2 := by
  rw [Visftp.noPasv]
  refine Hosts.ftpActive (w := w.mapFtp fun f => { f with passive := false }) ?_
  exact h.same rfl rfl rfl

theorem cprocPasv (h : Hosts Good P w) (code : Int) (buf : Bytes) :
    Hosts Good P (Visftp.cprocPasv code buf w).2 := by
  rw [Visftp.cprocPasv]
  split
  · exact Hosts.noPasv (h.same rfl rfl rfl)
  split
  · exact Hosts.noPasv (h.same rfl rfl rfl)
  dsimp only
  split
  · exact Hosts.noPasv (h.same rfl rfl rfl)
  split
  · exact Hosts.noPasv (h.same rfl rfl rfl)
  · exact h.same rfl rfl rfl

section Callback

variable (hdone : ∀ d, Good d → ∀ x a l, P a l → P (d x a) l)

include hdone

/-- **A callback is called.** -/
theorem callDone (h : Hosts Good P w) (t : ℕ) : Hosts Good P (Visftp.callDone t w) where
  done := h.done
  app := hdone _ (h.done t) _ _ _ h.app

theorem cprocXfer (h : Hosts Good P w) (t : ℕ) (code : Int) (buf : Bytes) :
    Hosts Good P (Visftp.cprocXfer t code buf w).2 := by
  rw [Visftp.cprocXfer]
  split
  · split
    · next total _ => exact (h.mapXfer t fun x => { x with total := total }).same rfl rfl rfl
    · exact h
  split
  · exact callDone hdone ((h.message _ _).emit (.touch t)) t
  · exact h

section Wait

variable (hwait : ∀ t (w : World α), Hosts Good P w → Hosts Good P (wait t w).2)

include hwait

theorem runCproc (h : Hosts Good P w) (p : CProc) (code : Int) (buf : Bytes) :
    Hosts Good P (p.run wait code buf w).2 := by
  cases p with
  | active =>
    show Hosts Good P (cprocActive code w).2
    rw [cprocActive]
    split
    · exact Hosts.ftpClose (h.same rfl rfl rfl)
    · exact h.same rfl rfl rfl
  | pasv => exact h.cprocPasv code buf
  | pwd =>
    show Hosts Good P (cprocPwd code buf w).2
    rw [cprocPwd]
    split
    · exact h.same rfl rfl rfl
    split <;> exact h.same rfl rfl rfl
  | cwd =>
    show Hosts Good P (cprocCwd wait code w).2
    rw [cprocCwd]
    split
    · exact h.same rfl rfl rfl
    · exact ftpQueue hwait (ftpQueue hwait h .pwd) .list
  | list r =>
    show Hosts Good P (cprocList code w).2
    rw [cprocList]
    split
    · exact h
    split
    · exact h.same rfl rfl rfl
    · exact h
  | xfer t => exact cprocXfer hdone h t code buf

omit hdone in
theorem login (h : Hosts Good P w) (code : Int) : Hosts Good P (Visftp.login wait code w) := by
  have hzero : Hosts Good P (w.mapFtp fun f => { f with busy := 0 }) := h.same rfl rfl rfl
  rw [Visftp.login]
  split
  · exact hzero.sendcmd _
  split
  · exact hzero.sendcmd _
  split
  · have hmsg := hzero.message .info (ascii "login successful\n")
    exact ftpQueue hwait (ftpQueue hwait (ftpQueue hwait hmsg (.type (ascii "I"))) .pwd) .list
  split <;> exact hzero.same rfl rfl rfl

theorem deliver (h : Hosts Good P w) (code : Int) (buf : Bytes) :
    Hosts Good P (Visftp.deliver wait code buf w) := by
  have hresp : Hosts Good P (w.mapFtp fun f => { f with lastResp := code }) := h.same rfl rfl rfl
  have hgot := hresp.emit (.reply code w.ftp.cproc w.ftp.busy buf)
  rw [Visftp.deliver]
  split
  · exact login hwait hgot code
  · next p _ =>
    have hrun := runCproc hdone hwait hgot p code buf
    rw [settle]
    split
    · exact hrun.same rfl rfl rfl
    · exact hrun

/-- One line of the control connection. -/
theorem procControl (h : Hosts Good P w) (buf : Bytes) :
    Hosts Good P (Visftp.procControl wait buf w) := by
  rw [Visftp.procControl]
  split
  · exact h.same rfl rfl rfl
  split
  · exact h.same rfl rfl rfl
  · exact deliver hdone hwait (h.message .info _) _ _

theorem scanBytes (h : Hosts Good P w) (bs cur : Bytes) (seen : Bool) :
    Hosts Good P (Visftp.scanBytes wait bs cur seen w) := by
  induction bs generalizing cur seen w with
  | nil => exact h.same rfl rfl rfl
  | cons b bs ih =>
    rw [Visftp.scanBytes]
    split
    · exact ih h _ _
    split
    · exact ih (procControl hdone hwait (h.emit (.line cur)) _) _ _
    · exact ih h _ _

theorem handleControlLoop (h : Hosts Good P w) (fuel : ℕ) :
    Hosts Good P (Visftp.handleControlLoop wait fuel w).2 := by
  induction fuel generalizing w with
  | zero => exact h
  | succ fuel ih =>
    rw [Visftp.handleControlLoop]
    have hroom : Hosts Good P (if crecvSize ≤ w.ftp.crecv.length then
        warnmsg (ascii "discard buffer\n") (w.mapFtp fun f => { f with crecv := [] }) else w) := by
      split
      · exact h.same rfl rfl rfl
      · exact h
    generalize (if crecvSize ≤ w.ftp.crecv.length then _ else w) = w₁ at hroom ⊢
    have hasked : Hosts Good P (recvCtl (crecvSize - w₁.ftp.crecv.length) w₁).2 := by
      rw [recvCtl]
      split
      · exact hroom
      · exact hroom.same rfl rfl rfl
    generalize recvCtl (crecvSize - w₁.ftp.crecv.length) w₁ = r at hasked ⊢
    rcases r with ⟨a, w₂⟩
    cases a with
    | intr => exact ih hasked
    | again => exact hasked
    | eof => exact hasked.ftpClose
    | data b => exact ih (scanBytes hdone hwait (hasked.emit (.recv b)) _ _ _)

omit hdone in
theorem runQueue (h : Hosts Good P w) : Hosts Good P (Visftp.runQueue wait w) := by
  rw [Visftp.runQueue]
  split
  · dsimp only
    split <;> exact execQueued hwait (h.same rfl rfl rfl)
  · exact h

/-- An event on the control connection. -/
theorem ftpHandleWith_ctl (h : Hosts Good P w) :
    Hosts Good P (Visftp.ftpHandleWith wait w.ftp.ctl w) := by
  have hctl : Hosts Good P (handleControl wait w).2 := handleControlLoop hdone hwait h _
  rw [Visftp.ftpHandleWith, if_pos rfl]
  dsimp only
  split
  · exact hctl
  · exact runQueue hwait hctl

end Wait

/-- **A wait** reads the control connection only. -/
theorem waitLoop (n : ℕ) (t : Int) (h : Hosts Good P w) :
    Hosts Good P (Visftp.waitLoop n t w).2 := by
  induction n generalizing t w with
  | zero => exact h
  | succ n ih =>
    rw [Visftp.waitLoop]
    have hfirst : Hosts Good P (if w.ftp.ctl = none then w.emit .badSelect else w) := by
      split
      · exact h.same rfl rfl rfl
      · exact h
    generalize (if w.ftp.ctl = none then w.emit .badSelect else w) = w₁ at hfirst ⊢
    dsimp only
    generalize hr : World.ask _ _ _ w₁ = r
    have hasked : Hosts Good P r.2 := hr ▸ hfirst.same rfl rfl rfl
    rcases r with ⟨a, w₂⟩
    cases a with
    | intr => exact ih t hasked
    | woke ready elapsed =>
      have hwait : ∀ t (w : World α), Hosts Good P w →
          Hosts Good P (Visftp.waitLoop n t (w.mapFtp fun f => { f with lastResp := -1 })).2 :=
        fun t w hw => ih t (hw.same rfl rfl rfl)
      dsimp only
      set w₃ := if ready then ftpHandleWith
          (fun t w => Visftp.waitLoop n t (w.mapFtp fun f => { f with lastResp := -1 })) w₂.ftp.ctl
          (w₂.mapFtp fun f => { f with lastResp := -1 }) else w₂ with hw₃
      have hhandle : Hosts Good P w₃ := by
        rw [hw₃]
        split
        · exact ftpHandleWith_ctl hdone hwait
            (w := w₂.mapFtp fun f => { f with lastResp := -1 }) (hasked.same rfl rfl rfl)
        · exact hasked
      split
      · exact hhandle
      split
      · split
        · exact hhandle
        · exact ih _ hhandle
      · exact ih t hhandle

theorem ftpWaitresp (n : ℕ) (t : Int) (h : Hosts Good P w) :
    Hosts Good P (Visftp.ftpWaitresp n t w).2 :=
  waitLoop hdone n t (h.same rfl rfl rfl)

/-! ### Data -/

section Data

variable (hlist : ∀ a l l', P a l → P a l')

include hlist

theorem runDproc (h : Hosts Good P w) (p : DProc) (buf : Bytes) :
    Hosts Good P (p.run buf w) := by
  cases p with
  | list r =>
    show Hosts Good P (dprocList r buf w)
    rw [dprocList]
    dsimp only
    split
    · exact ⟨h.done, hlist _ _ _ h.app⟩
    split
    · split
      · exact ((h.allocate _).message _ _).emit _
      · exact (h.allocate _).same rfl rfl rfl
    · exact h.same rfl rfl rfl
  | xfer t =>
    have htouch := h.emit (.touch t)
    show Hosts Good P (dprocXfer t buf w)
    rw [dprocXfer]
    dsimp only
    split
    · split
      · have hclosed := (htouch.message .info (ascii "data connection closed\n")).mapXfer t
          fun x => { x with fp := none }
        exact (callDone hdone hclosed t).same rfl rfl rfl
      · have hstore : Hosts Good P (storeBytes t buf (w.emit (.touch t))) := by
          rw [storeBytes]
          split
          · exact htouch.same rfl rfl rfl
          · exact htouch.mapXfer t _
        exact hstore.mapXfer t _
    · exact htouch

theorem callDproc (h : Hosts Good P w) (buf : Bytes) : Hosts Good P (Visftp.callDproc buf w) := by
  rw [Visftp.callDproc]
  split
  · exact h
  · exact runDproc hdone hlist h _ buf

theorem handleData (h : Hosts Good P w) : Hosts Good P (Visftp.handleData w) := by
  have hloop : ∀ n (w : World α), Hosts Good P w → Hosts Good P (handleDataLoop n w) := by
    intro n
    induction n with
    | zero => exact fun _ h => h
    | succ n ih =>
      intro w h
      rw [handleDataLoop]
      have hasked : Hosts Good P (recvData 256 w).2 := h.same rfl rfl rfl
      generalize recvData 256 w = r at hasked ⊢
      rcases r with ⟨a, w₂⟩
      cases a with
      | intr => exact ih _ hasked
      | again => exact hasked
      | eof =>
        have hcall := callDproc hdone hlist
          (hasked.emit (.dataEof w₂.ftp.dproc w₂.ftp.busy)) []
        exact hcall.same rfl rfl rfl
      | data b => exact ih _ (callDproc hdone hlist (hasked.emit (.chunk b w₂.ftp.dproc)) b)
  rw [Visftp.handleData]
  split
  · exact h
  · exact hloop 4 w h

omit hdone hlist in
theorem acceptData (h : Hosts Good P w) : Hosts Good P (Visftp.acceptData w) := by
  rw [Visftp.acceptData]
  dsimp only
  split
  · exact h.same rfl rfl rfl
  split <;> exact h.same rfl rfl rfl

/-- **`ftp_handle`** of any descriptor. -/
theorem handle (env : Env) (fd : Fd) (h : Hosts Good P w) :
    Hosts Good P (w.step env (.handle fd)) := by
  have henv : Hosts Good P { w with env := env } := h.same rfl rfl rfl
  have hwait : ∀ t (w : World α), Hosts Good P w →
      Hosts Good P (Visftp.ftpWaitresp env.selects.length t w).2 :=
    fun t w hw => ftpWaitresp hdone _ t hw
  show Hosts Good P (ftpHandleWith _ (some fd) { w with env := env })
  rw [ftpHandleWith]
  split
  · next hctl =>
    have hc := handleControlLoop hdone hwait henv (env.ctlIn.length + 1)
    dsimp only
    split
    · exact hc
    · exact runQueue hwait hc
  split
  · exact runQueue hwait (handleData hdone hlist henv)
  split
  · exact runQueue hwait henv.acceptData
  · exact runQueue hwait henv

end Data

/-! ### The calls of the main loop -/

/-- **`ftp_queue`** leaves the entries alone. -/
theorem queue (env : Env) (op : Op) (hop : op.transfer? = none) (h : Hosts Good P w) :
    Hosts Good P (w.step env (.queue op hop)) :=
  ftpQueue (fun t _ hw => ftpWaitresp hdone _ t hw)
    (w := { w with env := env }) (h.same rfl rfl rfl) op

/-- **`ftp_queue_transfer`**, with a good callback. -/
theorem transfer (env : Env) {x : Xfer α} (hx : Good x.done) (h : Hosts Good P w) :
    Hosts Good P (w.step env (.transfer x)) := by
  refine ftpQueueTransfer (fun t _ hw => ftpWaitresp hdone _ t hw)
    (w := ({ w with env := env } : World α).newXfer x) ?_ w.nxfer
  refine ⟨fun t => ?_, h.app⟩
  show Good (Function.update w.xfers w.nxfer _ t).done
  rw [Function.update_apply]
  split
  · exact hx
  · exact h.done t

end Callback

end Hosts

end Visftp
