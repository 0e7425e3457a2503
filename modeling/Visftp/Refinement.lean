import Visftp.Session

/-!
# The functions of the client as steps of a session

What each function of the client does to `World.view`, one lemma for each. For the functions that
only assign and send, that is an equation; for those whose outcome the system decides, the step of
`Session` that says which outcomes there are.

The functions that take `ftp_waitresp` as an argument are treated here where they do not call it.
A reply handler never does (`reply_deliver`), because an operation that would wait finds something
outstanding and is appended to the queue.

## Main results

* `exec_execOp`, `queue_ftpQueue` — operations
* `reply_procControl` — one line of the control connection
* `chunk_callDproc`, `dataEof_callDproc`, `incoming_acceptData` — the data connection
-/

namespace Visftp

open CString Session

variable {α : Type} {w : World α}

/-! ### The system -/

@[simp] theorem view_emit (e : Event) (w : World α) : (w.emit e).view = w.view.emit e := rfl

@[simp] theorem view_enter (op : Op) (w : World α) : (w.enter op).view = w.view.enter op := rfl

@[simp] theorem view_infomsg (text : Bytes) (w : World α) : (infomsg text w).view = w.view := rfl
@[simp] theorem view_warnmsg (text : Bytes) (w : World α) : (warnmsg text w).view = w.view := rfl
@[simp] theorem view_errmsg (text : Bytes) (w : World α) : (errmsg text w).view = w.view := rfl

@[simp] theorem view_socket (w : World α) : (socket w).2.view = w.view := rfl
@[simp] theorem view_accept (w : World α) : (accept w).2.view = w.view := rfl
@[simp] theorem view_bind (w : World α) : (bind w).2.view = w.view := rfl
@[simp] theorem view_getsockname (w : World α) : (getsockname w).2.view = w.view := rfl
@[simp] theorem view_connect (w : World α) : (connect w).2.view = w.view := rfl
@[simp] theorem view_recvData (sz : ℕ) (w : World α) : (recvData sz w).2.view = w.view := rfl

@[simp] theorem view_recvCtl (sz : ℕ) (w : World α) : (recvCtl sz w).2.view = w.view := by
  rw [recvCtl]
  split <;> rfl

theorem view_setData (w : World α) (fd : Option Fd) :
    (w.mapFtp fun f => { f with data := fd }).view = { w.view with data := fd.isSome } := rfl

theorem view_setStatus (w : World α) (st : Status) :
    (w.mapFtp fun f => { f with status := st }).view = w.view := rfl

/-! ### Commands -/

@[simp] theorem view_setCproc (p : CProc) (w : World α) : (setCproc p w).view = w.view.hook p := rfl

@[simp] theorem view_sendcmd (c : Cmd) (w : World α) : (sendcmd c w).view = w.view.send c := by
  rw [sendcmd, Session.send]
  cases h : w.ftp.ctl with
  | none =>
    have hv : w.view.ctl ≠ true := by simp [World.view, h]
    rw [if_pos rfl, if_neg hv, if_neg hv]
  | some fd =>
    have hv : w.view.ctl = true := by simp [World.view, h]
    rw [if_neg (by simp), if_pos hv, if_pos hv]
    dsimp only
    split <;> rfl

@[simp] theorem view_ftpClose (w : World α) : (ftpClose w).view = w.view.close := by
  rw [ftpClose, Session.close]
  cases h : w.ftp.ctl with
  | none => simp [World.view, World.mapFtp, h]
  | some fd => simp [World.view, World.mapFtp, World.emit, h]

/-- `ftp_active` fails, or sends an address. -/
theorem view_ftpActive (w : World α) :
    ((ftpActive w).1 = -1 ∧ (ftpActive w).2.view = w.view.active none) ∨
      ((ftpActive w).1 = 0 ∧ ∃ sa, (ftpActive w).2.view = w.view.active (some sa)) := by
  rw [ftpActive]
  dsimp only
  split
  · exact .inl ⟨rfl, rfl⟩
  split
  · exact .inl ⟨rfl, rfl⟩
  split
  · exact .inl ⟨rfl, rfl⟩
  · next a p _ =>
    refine .inr ⟨rfl, (a, p), ?_⟩
    simp only [view_setCproc, view_sendcmd]
    rfl

theorem exists_view_ftpActive (w : World α) :
    ∃ sa, (ftpActive w).2.view = w.view.active sa := by
  rcases view_ftpActive w with ⟨-, h⟩ | ⟨-, sa, h⟩
  exacts [⟨none, h⟩, ⟨some sa, h⟩]

@[simp] theorem view_ftpPassive (w : World α) : (ftpPassive w).view = w.view.askPasv := by
  simp only [ftpPassive, view_setCproc, view_sendcmd]
  rfl

@[simp] theorem view_ftpPwd (w : World α) : (ftpPwd w).view = (w.view.send .pwd).hook .pwd := by
  simp [ftpPwd]

/-- What an allocation shows: that it has failed, if it has. -/
theorem view_allocate (possible : Bool) (w : World α) :
    ((allocate possible w).1 = true ∧ (allocate possible w).2.view = w.view) ∨
      ((allocate possible w).1 = false ∧
        (allocate possible w).2.view = w.view.emit .outOfMemory) := by
  unfold allocate
  dsimp only
  split
  exacts [.inl ⟨rfl, rfl⟩, .inr ⟨rfl, rfl⟩]

theorem view_malloc (w : World α) :
    ((malloc w).1 = true ∧ (malloc w).2.view = w.view) ∨
      ((malloc w).1 = false ∧ (malloc w).2.view = w.view.emit .outOfMemory) :=
  view_allocate true w

/-! ### Operations -/

theorem view_data_eq_false : w.view.data = false ↔ w.ftp.data = none := by
  simp [World.view]

/-- Writing a receive buffer. -/
theorem view_setRbuf (w : World α) (r n : ℕ) (rbuf : RecvBuf) :
    ({ w with rbufs := Function.update w.rbufs r rbuf, nrbuf := n } : World α).view =
      { w.view with bufs := Function.update w.view.bufs r rbuf.buf, nbuf := n } := by
  simp only [World.view, Session.mk.injEq, true_and, and_true]
  funext i
  by_cases hi : i = r
  · subst hi
    simp
  · simp [hi]

/-- Writing a transfer. -/
theorem view_mapXfer (w : World α) (t : ℕ) (f : XferData → XferData) :
    (w.mapXfer t f).view =
      w.view.setJob t (f (w.xfers t).toXferData).toJob := by
  simp only [World.view, World.mapXfer, setJob, Session.mk.injEq, true_and, and_true]
  funext i
  by_cases hi : i = t
  · subst hi
    simp
  · simp [hi]

/-- Writing the sizes of a transfer. -/
theorem view_mapXfer_of_job {w : World α} {t : ℕ} {f : XferData → XferData}
    (h : (f (w.xfers t).toXferData).toJob = (w.xfers t).toJob) :
    (w.mapXfer t f).view = w.view := by
  have hself : Function.update w.view.jobs t (w.xfers t).toJob = w.view.jobs :=
    Function.update_eq_self t w.view.jobs
  rw [view_mapXfer, h, setJob, hself]

/-- The end of `ftp_list` and `ftp_transfer`. -/
theorem view_setDproc (w : World α) (p : DProc) :
    (w.mapFtp fun f => { f with dproc := some p, busy := f.busy + 1 }).view =
      { w.view with dproc := some p, busy := w.view.busy + 1 } := rfl

@[simp] theorem view_finish (w : World α) :
    (w.mapFtp fun f => { f with busy := f.busy - 1 }).view = w.view.finish := rfl

/-- `ftp_list` behind `prepare_data`. -/
theorem start_startList (hd : w.view.data = true) :
    Start .list w.view (startList w).view := by
  rw [startList]
  dsimp only
  rcases view_malloc w with ⟨h₁, hv₁⟩ | ⟨h₁, hv₁⟩
  · rcases view_malloc (malloc w).2 with ⟨h₂, hv₂⟩ | ⟨h₂, hv₂⟩
    · rw [hv₁] at hv₂
      have hnbuf : (malloc (malloc w).2).2.nrbuf = w.view.nbuf := congrArg Session.nbuf hv₂
      simp only [h₁, h₂, Bool.not_true, Bool.false_eq_true, if_false]
      rw [view_setDproc, view_setCproc, view_sendcmd, view_setRbuf, hv₂, hnbuf]
      exact .list hd
    · simp only [h₁, h₂, Bool.not_true, Bool.not_false, Bool.false_eq_true, if_false, if_true]
      rw [view_errmsg, hv₂, hv₁]
      exact .noBuffer hd
  · simp only [h₁, Bool.not_false, if_true]
    rw [view_errmsg, hv₁]
    exact .noBuffer hd

/-- `ftp_transfer` behind `prepare_data`. -/
theorem view_startTransfer (t : ℕ) (w : World α) :
    (startTransfer t w).view = w.view.startTransfer t := by
  rw [startTransfer, Session.startTransfer]
  have ho : (w.view.jobs t).op = (w.xfers t).op := rfl
  rw [ho]
  split
  · rw [view_setDproc, view_setCproc, view_sendcmd]
    rfl
  · rfl

variable {wait : Int → World α → Int × World α}

/-- `exec_op` of an operation that needs no data connection. -/
theorem view_execOp_simple {op : Op} (h : op.needsData = false) (w : World α) :
    (execOp wait op w).view = w.view.execSimple op := by
  cases op with
  | type arg =>
    simp only [execOp, ftpType, Session.execSimple, Session.simple, view_emit]
    split <;> simp
  | chdir d => by_cases hd : d = ascii ".." <;> simp [execOp, execSimple, simple, ftpChdir, hd]
  | list => simp [Op.needsData] at h
  | xfer t => simp [Op.needsData] at h
  | _ => simp [execOp, execSimple, simple, ftpChdir]

/-- What is left of an operation once there is a data connection. -/
def startOp : Op → World α → World α
  | .list => startList
  | .xfer t => startTransfer t
  | _ => id

theorem start_startOp {op : Op} (h : op.needsData = true) {w : World α}
    (hd : w.view.data = true) : Start op w.view (startOp op w).view := by
  cases op with
  | list => exact start_startList hd
  | xfer t => exact view_startTransfer t w ▸ .transfer hd
  | _ => simp [Op.needsData] at h

/-- `exec_op` of an operation that needs a data connection. -/
theorem execOp_of_needsData {op : Op} (h : op.needsData = true) (w : World α) :
    execOp wait op w =
      (if (prepareData wait (w.enter op)).1 = -1
        then (prepareData wait (w.enter op)).2
        else startOp op (prepareData wait (w.enter op)).2).emit .ret := by
  cases op with
  | list => rfl
  | xfer t => rfl
  | _ => simp [Op.needsData] at h

theorem prepareData_of_data (hd : w.ftp.data ≠ none) : prepareData wait w = (0, w) := by
  rw [prepareData, if_pos hd]

theorem prepareData_active (hd : w.ftp.data = none) (hp : w.ftp.passive = false) :
    prepareData wait w = (-1, (ftpActive w).2) := by
  have hnone : (ftpActive w).2.ftp.data = none := by
    rw [← view_data_eq_false]
    obtain ⟨sa, h⟩ := exists_view_ftpActive w
    rw [h]
    rcases sa with - | ⟨a, p⟩
    · rfl
    · rfl
  rw [prepareData, if_neg (by simp [hd]), if_neg (by simp [hp])]
  dsimp only
  rw [if_pos hnone, ite_self]

/-- `exec_op` of an operation that does not wait. -/
theorem exec_execOp {op : Op}
    (h : op.needsData = true → w.ftp.data ≠ none ∨ w.ftp.passive = false) :
    Exec op w.view (execOp wait op w).view := by
  cases hn : op.needsData with
  | false => exact view_execOp_simple hn w ▸ .simple hn
  | true =>
    rw [execOp_of_needsData hn]
    by_cases hd : w.ftp.data = none
    · have hp := (h hn).resolve_left fun hne => hne hd
      obtain ⟨sa, hsa⟩ := exists_view_ftpActive (w.enter op)
      rw [prepareData_active (by exact hd) (by exact hp)]
      simp only [if_true, view_emit, hsa]
      exact .noData sa hn (view_data_eq_false.mpr hd) hp
    · have hd' : w.view.data = true := by
        simpa using mt view_data_eq_false.mp hd
      rw [prepareData_of_data (by exact hd)]
      exact .atOnce hn hd' (start_startOp (w := w.enter op) hn hd')

/-! ### The queue -/

theorem view_queue_eq_nil : w.view.queue = [] ↔ w.ftp.queue.head = none :=
  w.ftp.queue.toList_eq_nil_iff

theorem view_enqueue (op : Op) (w : World α) :
    (enqueue op w).view = w.view.enqueue op := by
  simp [enqueue, World.view, World.mapFtp, World.emit, Session.enqueue, Session.emit]

/-- An allocation shows nothing, or that it has failed. -/
def Allocates (alloc : World α → Bool × World α) : Prop :=
  ∀ w, ((alloc w).1 = true ∧ (alloc w).2.view = w.view) ∨
    ((alloc w).1 = false ∧ (alloc w).2.view = w.view.emit .outOfMemory)

/-- The allocations of `ftp_queue`. -/
theorem allocates_alloc (op : Op) : Allocates (α := α) fun w =>
    if (malloc w).1 && op.hasArg then malloc (malloc w).2 else malloc w := by
  intro w
  dsimp only
  rcases view_malloc w with ⟨h, hv⟩ | ⟨h, hv⟩
  · split
    · rw [← hv]
      exact view_malloc _
    · exact .inl ⟨h, hv⟩
  · rw [h, Bool.false_and, if_neg Bool.false_ne_true]
    exact .inr ⟨h, hv⟩

/-- What happens to an operation that cannot be carried out at once. -/
theorem view_submit_of_blocked (wait : Int → World α → Int × World α)
    {alloc : World α → Bool × World α} (halloc : Allocates alloc) (op : Op)
    (hq : ¬(w.view.busy = 0 ∧ w.view.queue = [])) :
    (submit wait alloc op w).2.view = w.view.enqueue op ∨
      (submit wait alloc op w).2.view = w.view.emit .outOfMemory := by
  rw [submit]
  rw [if_neg fun hv => hq ⟨hv.1, view_queue_eq_nil.mpr hv.2⟩]
  dsimp only
  rcases halloc w with ⟨h, hv⟩ | ⟨h, hv⟩
  · rw [if_pos h]
    exact .inl (by rw [view_enqueue, hv])
  · rw [if_neg (by simp [h])]
    exact .inr hv

theorem submit_of_idle {alloc : World α → Bool × World α} {op : Op}
    (hq : w.view.busy = 0 ∧ w.view.queue = []) :
    (submit wait alloc op w).2 = execOp wait op (w.emit (.accept op)) := by
  have hq' : w.ftp.busy = 0 ∧ w.ftp.queue.head = none := ⟨hq.1, view_queue_eq_nil.mp hq.2⟩
  rw [submit, if_pos hq']

/-- `ftp_queue` where it does not wait. -/
theorem queue_ftpQueue {op : Op}
    (h : op.needsData = true → ¬(w.view.busy = 0 ∧ w.view.queue = [])) :
    Queue op w.view (ftpQueue wait op w).2.view := by
  by_cases hq : w.view.busy = 0 ∧ w.view.queue = []
  · have hn : op.needsData = false := by
      cases hn : op.needsData with
      | false => rfl
      | true => exact absurd hq (h hn)
    rw [ftpQueue, submit_of_idle hq, view_execOp_simple hn]
    exact .direct hq.1 hq.2 hn
  · rcases view_submit_of_blocked wait (allocates_alloc op) op hq with h | h
    · rw [ftpQueue, h]
      exact .append hq
    · rw [ftpQueue, h]
      exact .full hq

/-- While the control connection is open, queueing a command leaves something outstanding. -/
theorem Session.Queue.blocked {op : Op} {s s' : Session} (h : Queue op s s') (hctl : s.ctl = true)
    (hop : op = .pwd ∨ op = .type (ascii "I")) :
    s'.ctl = true ∧ ¬(s'.busy = 0 ∧ s'.queue = []) := by
  cases h with
  | direct hb hq hn =>
    rcases hop with rfl | rfl <;>
      simp [execSimple, simple, enter, emit, send, Session.hook, hctl, hb, toupper, byteAt, ascii]
  | append h => exact ⟨hctl, by simp [Session.enqueue, emit]⟩
  | full h => exact ⟨hctl, h⟩

/-! ### Replies -/

theorem view_settle_of_nonpos {r : Int × World α} (h : r.1 ≤ 0) :
    (settle r).view = r.2.view.finish := by
  rw [settle, if_pos h]
  rfl

section Handlers

variable {s : Session} {code : Int} {buf : Bytes}

theorem reply_cprocActive (hw : w.view = s.got code buf) (h : s.cproc = some .active) :
    Reply code buf s (settle (cprocActive code w)).view := by
  rw [cprocActive]
  split
  · next hc =>
    rw [view_settle_of_nonpos le_rfl, view_ftpClose, view_errmsg, hw]
    exact .activeFail h hc
  · next hc =>
    rw [view_settle_of_nonpos le_rfl]
    exact (show Reply code buf s w.view.finish by rw [hw]; exact .activeOk h (not_not.mp hc))

theorem reply_noPasv (hw : { w.view with data := false } = { s.got code buf with data := false })
    (h : s.cproc = some .pasv) : Reply code buf s (settle (noPasv w)).view := by
  obtain ⟨sa, hsa⟩ := exists_view_ftpActive (w.mapFtp fun f => { f with passive := false })
  rw [noPasv, view_settle_of_nonpos le_rfl]
  dsimp only
  rw [hsa]
  have hpass : ∀ v : Session, (Session.active sa { v with passive := false }) =
      Session.active sa { { v with data := false } with passive := false } := by
    intro v
    rcases sa with - | ⟨a, p⟩ <;> rfl
  have hv : (w.mapFtp fun f => { f with passive := false }).view =
      { w.view with passive := false } := rfl
  rw [hv, hpass, hw, ← hpass]
  exact .pasvFall sa h

theorem reply_cprocPasv (hw : w.view = s.got code buf) (h : s.cproc = some .pasv) :
    Reply code buf s (settle (cprocPasv code buf w)).view := by
  rw [cprocPasv]
  split
  · exact reply_noPasv (by simp [hw]) h
  · next hc =>
    split
    · exact reply_noPasv (by simp [hw]) h
    · dsimp only
      split
      · next hsock =>
        refine reply_noPasv ?_ h
        rw [← hw]
        rfl
      · split
        · refine reply_noPasv ?_ h
          rw [← hw]
          rfl
        · rw [view_settle_of_nonpos le_rfl]
          have hv : ((socket w).2.mapFtp fun f => { f with data := (socket w).1 }).view =
              { w.view with data := true } := by
            rw [view_setData, view_socket, Option.isSome_iff_ne_none.mpr ‹_›]
          dsimp only
          rw [view_setStatus, view_emit, view_connect, view_infomsg, hv, hw]
          exact .pasvOpen h (not_not.mp hc)

theorem reply_cprocPwd (hw : w.view = s.got code buf) (h : s.cproc = some .pwd) :
    Reply code buf s (settle (cprocPwd code buf w)).view := by
  have hr : (cprocPwd code buf w).1 ≤ 0 ∧ (cprocPwd code buf w).2.view = w.view := by
    rw [cprocPwd]
    split
    · exact ⟨by simp, rfl⟩
    · split
      · exact ⟨by simp, rfl⟩
      · exact ⟨le_rfl, rfl⟩
  rw [view_settle_of_nonpos hr.1, hr.2, hw]
  exact .pwd h

theorem reply_cprocCwd (hw : w.view = s.got code buf) (h : s.cproc = some .cwd)
    (hctl : s.ctl = true) : Reply code buf s (settle (cprocCwd wait code w)).view := by
  rw [cprocCwd]
  split
  · next hc =>
    rw [view_settle_of_nonpos (by simp), view_warnmsg, hw]
    exact .cwdFail h hc
  · next hc =>
    rw [view_settle_of_nonpos le_rfl]
    have h₁ : Queue .pwd w.view (ftpQueue wait .pwd w).2.view :=
      queue_ftpQueue (by simp [Op.needsData])
    have hblock := h₁.blocked (by rw [hw]; exact hctl) (.inl rfl)
    exact .cwdOk h (not_not.mp hc) (hw ▸ h₁) (queue_ftpQueue fun _ => hblock.2)

theorem reply_cprocList {r : ℕ} (hw : w.view = s.got code buf) (h : s.cproc = some (.list r)) :
    Reply code buf s (settle (cprocList code w)).view := by
  rw [cprocList]
  split
  · next hc => exact (show Reply code buf s w.view by rw [hw]; exact .listMore h hc)
  · next hc =>
    have hr : ∀ w' : World α, w'.view = w.view → Reply code buf s w'.view.finish := by
      intro w' hw'
      rw [hw', hw]
      exact .listEnd h (not_lt.mp hc)
    split
    · exact hr _ rfl
    · exact hr _ rfl

@[simp] theorem view_callDone (t : ℕ) (w : World α) :
    (callDone t w).view = w.view.emit (.done t) := rfl

theorem reply_cprocXfer {t : ℕ} (hw : w.view = s.got code buf) (h : s.cproc = some (.xfer t)) :
    Reply code buf s (settle (cprocXfer t code buf w)).view := by
  rw [cprocXfer]
  split
  · next hc =>
    split
    · next total htot =>
      have h150 : code = 150 ∧ xferTotal buf ≠ none := by
        split at htot
        · exact ⟨‹_›, by simp [htot]⟩
        · simp at htot
      have hset : settle (1, (w.mapXfer t fun x => { x with total := total }).emit (.touch t)) =
          (w.mapXfer t fun x => { x with total := total }).emit (.touch t) := rfl
      rw [hset, view_emit, view_mapXfer_of_job rfl, hw]
      exact .xferTotal h h150.1 h150.2
    · next htot =>
      have hx : code = 150 → xferTotal buf = none := fun h150 => by rwa [if_pos h150] at htot
      exact (show Reply code buf s w.view by rw [hw]; exact .xferMore h hc hx)
  · next hc =>
    split
    · next hc' =>
      rw [view_settle_of_nonpos le_rfl, view_callDone, view_emit, view_errmsg, hw]
      exact .xferFail h hc'
    · next hc' =>
      rw [view_settle_of_nonpos le_rfl, hw]
      exact .xferEnd h (not_lt.mp hc) (not_le.mp hc')

theorem reply_login (hw : w.view = s.got code buf) (h : s.cproc = none) (hctl : s.ctl = true) :
    Reply code buf s (login wait code w).view := by
  have hb : (w.mapFtp fun f => { f with busy := 0 }).view = { s.got code buf with busy := 0 } := by
    rw [← hw]
    rfl
  unfold login
  dsimp only
  split
  · next hc =>
    rw [view_sendcmd, hb]
    exact .loginUser _ h hc
  split
  · next hc =>
    rw [view_sendcmd, hb]
    exact .loginPass _ h hc
  split
  · next hc =>
    set w₀ := infomsg (ascii "login successful\n") (w.mapFtp fun f => { f with busy := 0 })
    have hw₀ : w₀.view = { s.got code buf with busy := 0 } := hb
    have h₁ : Queue (.type (ascii "I")) w₀.view (ftpQueue wait (.type (ascii "I")) w₀).2.view :=
      queue_ftpQueue (by simp [Op.needsData])
    have hblock := h₁.blocked (by rw [hw₀]; exact hctl) (.inr rfl)
    have h₂ : Queue .pwd _ (ftpQueue wait .pwd (ftpQueue wait (.type (ascii "I")) w₀).2).2.view :=
      queue_ftpQueue (by simp [Op.needsData])
    have hblock' := h₂.blocked hblock.1 (.inl rfl)
    exact .loginDone h hc (hw₀ ▸ h₁) h₂ (queue_ftpQueue fun _ => hblock'.2)
  · next h220 h331 h230 =>
    have hother : Reply code buf s { s.got code buf with busy := 0 } :=
      .loginOther h ⟨h220, h331, h230⟩
    rw [← hb] at hother
    split
    · exact hother
    · exact hother

/-- A reply that is passed on before any handler is installed. -/
theorem deliver_of_none (h : w.ftp.cproc = none) : deliver wait code buf w =
    login wait code ((w.mapFtp fun f => { f with lastResp := code }).emit
      (.reply code w.ftp.cproc w.ftp.busy buf)) := by
  simp only [deliver, World.emit, World.mapFtp, h]

/-- A reply that is passed on to a handler. -/
theorem deliver_of_some {p : CProc} (h : w.ftp.cproc = some p) : deliver wait code buf w =
    settle (p.run wait code buf ((w.mapFtp fun f => { f with lastResp := code }).emit
      (.reply code w.ftp.cproc w.ftp.busy buf))) := by
  simp only [deliver, World.emit, World.mapFtp, h]

/-- **A reply that is passed on is a step of the session.** -/
theorem reply_deliver (hctl : w.view.ctl = true ∨ w.view.cproc = some .active) :
    Reply code buf w.view (deliver wait code buf w).view := by
  set g := (w.mapFtp fun f => { f with lastResp := code }).emit
    (.reply code w.ftp.cproc w.ftp.busy buf) with hg
  have hgv : g.view = w.view.got code buf := rfl
  have hopen : w.ftp.cproc ≠ some .active → w.view.ctl = true := fun hne =>
    hctl.resolve_right hne
  cases hp : w.ftp.cproc with
  | none =>
    rw [deliver_of_none hp, ← hg]
    exact reply_login hgv hp (hopen (by simp [hp]))
  | some p =>
    rw [deliver_of_some hp, ← hg]
    cases p with
    | active => exact reply_cprocActive hgv hp
    | pasv => exact reply_cprocPasv hgv hp
    | pwd => exact reply_cprocPwd hgv hp
    | cwd => exact reply_cprocCwd hgv hp (hopen (by simp [hp]))
    | list r => exact reply_cprocList hgv hp
    | xfer t => exact reply_cprocXfer hgv hp

/-- `proc_control` drops a line, or passes a reply on. -/
theorem reply_procControl (wait : Int → World α → Int × World α) (buf : Bytes)
    (hctl : w.view.ctl = true ∨ w.view.cproc = some .active) :
    (respcode (replyText buf) ≤ 0 ∧ (procControl wait buf w).view = w.view) ∨
      (0 < respcode (replyText buf) ∧
        Reply (respcode (replyText buf)) (replyText buf) w.view (procControl wait buf w).view) := by
  unfold procControl
  dsimp only
  split
  · next h0 => exact .inl ⟨h0.le, by rw [view_warnmsg, view_infomsg]⟩
  split
  · next h0 => exact .inl ⟨h0.le, by rw [view_infomsg]⟩
  · next hne hle =>
    set g := infomsg (ascii "recv: " ++ replyText buf ++ ascii "\n") w with hg
    have hr : Reply (respcode (replyText buf)) (replyText buf) g.view
        (deliver wait (respcode (replyText buf)) (replyText buf) g).view := reply_deliver hctl
    exact .inr ⟨by omega, hr⟩

end Handlers

@[simp] theorem Session.ctl_active (sa : Option (ℕ × ℕ)) (s : Session) :
    (s.active sa).ctl = s.ctl := by
  rcases sa with - | ⟨a, p⟩ <;> rfl

@[simp] theorem Session.ctl_execSimple (op : Op) (s : Session) :
    (s.execSimple op).ctl = s.ctl := by
  cases op with
  | type arg =>
    simp only [execSimple, simple, emit]
    split <;> rfl
  | _ => rfl

theorem Session.Queue.ctl_eq {op : Op} {s s' : Session} (h : Queue op s s') : s'.ctl = s.ctl := by
  cases h with
  | direct => exact ctl_execSimple _ _
  | append => rfl
  | full => rfl

/-- A handler can only close the control connection as `cproc_active`, which stays installed. So
all replies that are received together meet an open connection or this handler. -/
theorem Session.Reply.keeps_open {code : Int} {buf : Bytes} {s s' : Session}
    (h : Reply code buf s s') (hs : s.ctl = true ∨ s.cproc = some .active) :
    s'.ctl = true ∨ s'.cproc = some .active := by
  have hne : s.cproc ≠ some .active → s.ctl = true := fun hne => hs.resolve_right hne
  cases h with
  | activeOk h | activeFail h => exact .inr h
  | pasvFall r h => exact .inl ((ctl_active _ _).trans (hne (by simp [h])))
  | cwdOk h hc h₁ h₂ =>
    exact .inl (h₂.ctl_eq.trans (h₁.ctl_eq.trans (hne (by simp [h]))))
  | loginDone h hc h₁ h₂ h₃ =>
    exact .inl (h₃.ctl_eq.trans (h₂.ctl_eq.trans (h₁.ctl_eq.trans (hne (by simp [h])))))
  | pasvOpen h | pwd h | cwdFail h | listMore h | listEnd h | xferTotal h | xferMore h | xferEnd h
  | xferFail h => exact .inl (hne (by simp [h]))
  | loginUser _ h | loginPass _ h | loginOther h => exact .inl (hne (by simp [h]))

/-! ### Data -/

theorem view_storeRbuf (w : World α) (r n : ℕ) (b : Bytes) :
    ({ w with rbufs := Function.update w.rbufs r ⟨(w.rbufs r).buf ++ b, n⟩ } : World α).view =
      w.view.storeBuf r b :=
  view_setRbuf w r w.nrbuf ⟨(w.rbufs r).buf ++ b, n⟩

/-- Bytes of a listing are appended to its receive buffer, unless it cannot grow. -/
theorem view_dprocList {b : Bytes} (hb : b ≠ []) (r : ℕ) (w : World α) :
    (dprocList r b w).view = w.view.storeBuf r b ∨
      (dprocList r b w).view = (w.view.emit .outOfMemory).emit (.dropped r) := by
  rw [dprocList]
  dsimp only
  rw [if_neg hb]
  split
  · generalize decide (0 ≤ (2 * (w.rbufs r).bufsz : Int).bmod (2 ^ 32)) = possible
    rcases view_allocate possible w with ⟨h, hv⟩ | ⟨h, hv⟩
    · have hbuf : ((allocate possible w).2.rbufs r).buf = (w.rbufs r).buf :=
        congrFun (congrArg Session.bufs hv) r
      rw [if_neg (by simp [h]), ← hbuf, view_storeRbuf, hv]
      exact .inl rfl
    · rw [if_pos (by simp [h]), view_emit, view_errmsg, hv]
      exact .inr rfl
  · exact .inl (view_storeRbuf w r _ b)

/-- The steps of `handle_data` with bytes for a transfer. -/
theorem chunk_dprocXfer {b : Bytes} (hb : b ≠ []) {t : ℕ} (hp : w.view.dproc = some (.xfer t)) :
    Chunk b w.view (dprocXfer t b (w.emit (.chunk b (some (.xfer t))))).view := by
  set g := (w.emit (.chunk b (some (.xfer t)))).emit (.touch t) with hg
  have hrun : dprocXfer t b (w.emit (.chunk b (some (.xfer t)))) =
      if (w.xfers t).op = .retr then
        (storeBytes t b g).mapXfer t fun x => { x with count := min (x.count + b.length) x.total }
      else g := by
    simp only [dprocXfer, hb, if_false]
    rfl
  rw [hrun]
  split
  · next ho =>
    rw [view_mapXfer_of_job rfl, storeBytes]
    cases hf : (g.xfers t).fp with
    | some f => exact .file hp ho hf
    | none =>
      dsimp only
      rw [view_mapXfer]
      exact .mem hp ho hf
  · next ho => exact .stor hp ho

theorem callDproc_of_none {b : Bytes} (h : w.ftp.dproc = none) : callDproc b w = w := by
  simp only [callDproc, h]

theorem callDproc_of_some {b : Bytes} {p : DProc} (h : w.ftp.dproc = some p) :
    callDproc b w = p.run b w := by
  simp only [callDproc, h]

/-- `handle_data` with bytes is a step of the session. -/
theorem chunk_callDproc {b : Bytes} (hb : b ≠ []) (w : World α) :
    Chunk b w.view (callDproc b (w.emit (.chunk b w.ftp.dproc))).view := by
  cases hp : w.ftp.dproc with
  | none =>
    rw [callDproc_of_none (w := w.emit _) hp]
    exact .none hp
  | some p =>
    rw [callDproc_of_some (w := w.emit _) hp]
    cases p with
    | list r =>
      dsimp only [DProc.run]
      rcases view_dprocList hb r (w.emit (.chunk b (some (.list r)))) with h | h
      · rw [h]
        exact .list hp
      · rw [h]
        exact .listFull hp
    | xfer t => exact chunk_dprocXfer hb hp

/-- `handle_data` at the end of the data is a step of the session. -/
theorem dataEof_callDproc (w : World α) :
    DataEof w.view ((callDproc [] (w.emit (.dataEof w.ftp.dproc w.ftp.busy))).mapFtp
      fun f => { f with data := none }).view := by
  rw [view_setData]
  cases hp : w.ftp.dproc with
  | none =>
    rw [callDproc_of_none (w := w.emit _) hp]
    exact .none hp
  | some p =>
    rw [callDproc_of_some (w := w.emit _) hp]
    cases p with
    | list r => exact .list w.env.heapTail w.env.junk hp
    | xfer t =>
      dsimp only [DProc.run]
      set g := (w.emit (.dataEof (some (.xfer t)) w.ftp.busy)).emit (.touch t) with hg
      have hrun : dprocXfer t [] (w.emit (.dataEof (some (.xfer t)) w.ftp.busy)) =
          if (w.xfers t).op = .retr then
            (callDone t ((infomsg (ascii "data connection closed\n") g).mapXfer t
              fun x => { x with fp := none })).mapFtp fun f => { f with busy := f.busy - 1 }
          else g := rfl
      rw [hrun]
      split
      · next ho =>
        rw [view_finish, view_callDone, view_mapXfer]
        exact .xfer hp ho
      · next ho => exact .stor hp ho

/-- A connection on the listening socket is a step of the session, or is closed again. -/
theorem incoming_acceptData (hs : stack w.log = []) :
    (Act w.view (acceptData w).view ∧ stack (acceptData w).log = stack w.log) ∨
      (acceptData w).view = w.view := by
  rw [acceptData]
  dsimp only
  split
  · exact .inr rfl
  · next hd =>
    have hd' : w.ftp.data = none := not_not.mp hd
    have hdv := view_data_eq_false.mpr hd'
    split
    · next hn =>
      refine .inr ?_
      rw [view_setData, view_accept, hn, Option.isSome_none, ← hdv]
    · next hn =>
      refine .inl ⟨?_, rfl⟩
      rw [view_emit, view_emit, view_setData, view_accept, Option.isSome_iff_ne_none.mpr hn]
      exact .incoming hs hdv

end Visftp
