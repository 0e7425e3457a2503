import Visftp.Client

/-!
# What decides what the client does

The history of a `World` is ghost state, and the log file is written but not read. The nodes of the
queue that have been taken off are never seen again, and `last_resp` is set before it is read. These
are the hidden parts of a state. Two states that differ in them at most, and whose hidden parts are
related by what every assignment to these keeps, go the same way, whatever the call.

Two hidden parts that are related have the same operations in their queues. The loop of
`ftp_waitresp` also looks at `last_resp`, which it sets at its beginning.

## Main definitions

* `Hidden`, `Kin` — the hidden parts, and a relation between them that assignments keep
* `Like`, `LikeOn`, `Unseeing` — states and results that differ in hidden parts

## Main results

* `like_ftpHandleWith` — the event handler
* `unseeing_ftpWaitresp` — the wait
* `like_step`, `like_run` — calls, and whole runs
-/

namespace Visftp

open CString

/-- The hidden parts of a state. -/
structure Hidden where
  lastResp : Int
  queue : LinkedFifo Op
  logfile : List (Level × Bytes)
  log : List Event

/-- **A relation of hidden parts** that assignments keep, and that leaves the queued operations
alone. -/
structure Kin (K : Hidden → Hidden → Prop) : Prop where
  toList_eq : ∀ {h h'}, K h h' → h'.queue.toList = h.queue.toList
  emit : ∀ {h h'} (e : Event), K h h' →
    K { h with log := e :: h.log } { h' with log := e :: h'.log }
  message : ∀ {h h'} (m : Level × Bytes), K h h' →
    K { h with logfile := m :: h.logfile } { h' with logfile := m :: h'.logfile }
  setLastResp : ∀ {h h'} (c : Int), K h h' →
    K { h with lastResp := c } { h' with lastResp := c }
  enqueue : ∀ {h h'} (op : Op), K h h' →
    K { h with queue := h.queue.enqueue op } { h' with queue := h'.queue.enqueue op }
  pop : ∀ {h h' op q q'}, K h h' → h.queue.pop = some (op, q) → h'.queue.pop = some (op, q') →
    K { h with queue := q } { h' with queue := q' }

/-- Other values of the hidden fields. -/
def Ftp.hide (c : Int) (q : LinkedFifo Op) (f : Ftp) : Ftp := { f with lastResp := c, queue := q }

variable {α : Type}

/-- The hidden parts. -/
def World.hidden (w : World α) : Hidden := ⟨w.ftp.lastResp, w.ftp.queue, w.logfile, w.log⟩

/-- The state with other hidden parts. -/
def World.hide (h : Hidden) (w : World α) : World α :=
  { w with ftp := w.ftp.hide h.lastResp h.queue, logfile := h.logfile, log := h.log }

variable {K K' : Hidden → Hidden → Prop}

/-- Two states that differ in related hidden parts at most. -/
def Like (K : Hidden → Hidden → Prop) (w w' : World α) : Prop :=
  ∃ h, K w.hidden h ∧ w' = w.hide h

/-- The same result, and states that are alike. -/
def LikeOn {β : Type} (K : Hidden → Hidden → Prop) (r r' : β × World α) : Prop :=
  r.1 = r'.1 ∧ Like K r.2 r'.2

variable {w w' : World α}

theorem Like.mono (h : Like K w w') (hK : ∀ h h', K h h' → K' h h') : Like K' w w' := by
  obtain ⟨g, hg, rfl⟩ := h
  exact ⟨g, hK _ _ hg, rfl⟩

/-! ### What is seen -/

namespace Like

/-- A value that no hidden field goes into. -/
theorem seen {β : Type} (h : Like K w w') (f : Ftp → β) (hf : ∀ x c q, f (x.hide c q) = f x) :
    f w'.ftp = f w.ftp := by
  obtain ⟨g, -, rfl⟩ := h
  exact hf _ _ _

theorem ctl_eq (h : Like K w w') : w'.ftp.ctl = w.ftp.ctl := h.seen Ftp.ctl fun _ _ _ => rfl

theorem data_eq (h : Like K w w') : w'.ftp.data = w.ftp.data := h.seen Ftp.data fun _ _ _ => rfl

theorem busy_eq (h : Like K w w') : w'.ftp.busy = w.ftp.busy := h.seen Ftp.busy fun _ _ _ => rfl

theorem cproc_eq (h : Like K w w') : w'.ftp.cproc = w.ftp.cproc :=
  h.seen Ftp.cproc fun _ _ _ => rfl

theorem crecv_eq (h : Like K w w') : w'.ftp.crecv = w.ftp.crecv :=
  h.seen Ftp.crecv fun _ _ _ => rfl

theorem env_eq (h : Like K w w') : w'.env = w.env := by
  obtain ⟨g, -, rfl⟩ := h
  rfl

theorem xfers_eq (h : Like K w w') : w'.xfers = w.xfers := by
  obtain ⟨g, -, rfl⟩ := h
  rfl

theorem rbufs_eq (h : Like K w w') : w'.rbufs = w.rbufs := by
  obtain ⟨g, -, rfl⟩ := h
  rfl

theorem nrbuf_eq (h : Like K w w') : w'.nrbuf = w.nrbuf := by
  obtain ⟨g, -, rfl⟩ := h
  rfl

theorem toList_eq (hK : Kin K) (h : Like K w w') :
    w'.ftp.queue.toList = w.ftp.queue.toList := by
  obtain ⟨g, hg, rfl⟩ := h
  exact hK.toList_eq hg

theorem head_iff (hK : Kin K) (h : Like K w w') :
    w'.ftp.queue.head = none ↔ w.ftp.queue.head = none := by
  rw [← LinkedFifo.toList_eq_nil_iff, ← LinkedFifo.toList_eq_nil_iff, h.toList_eq hK]

/-! ### What is written -/

theorem emit (hK : Kin K) (h : Like K w w') (e : Event) : Like K (w.emit e) (w'.emit e) := by
  obtain ⟨g, hg, rfl⟩ := h
  exact ⟨_, hK.emit e hg, rfl⟩

theorem message (hK : Kin K) (h : Like K w w') (l : Level) (t : Bytes) :
    Like K (w.message l t) (w'.message l t) := by
  obtain ⟨g, hg, rfl⟩ := h
  exact ⟨_, hK.message (l, t) hg, rfl⟩

/-- An assignment to fields that are not hidden. -/
theorem mapFtp (h : Like K w w') (f : Ftp → Ftp) (hf : ∀ x c q, f (x.hide c q) = (f x).hide c q) :
    Like K (w.mapFtp f) (w'.mapFtp f) := by
  obtain ⟨g, hg, rfl⟩ := h
  have hown : f w.ftp = (f w.ftp).hide w.ftp.lastResp w.ftp.queue := hf w.ftp _ _
  refine ⟨g, ?_, congrArg (fun x => { w with ftp := x, logfile := g.logfile, log := g.log })
    (hf w.ftp g.lastResp g.queue)⟩
  have hhidden : (w.mapFtp f).hidden = w.hidden := by
    show Hidden.mk (f w.ftp).lastResp (f w.ftp).queue w.logfile w.log = _
    rw [hown]
    rfl
  rwa [hhidden]

theorem setLastResp (hK : Kin K) (h : Like K w w') (c : Int) :
    Like K (w.mapFtp fun f => { f with lastResp := c })
      (w'.mapFtp fun f => { f with lastResp := c }) := by
  obtain ⟨g, hg, rfl⟩ := h
  exact ⟨_, hK.setLastResp c hg, rfl⟩

theorem mapXfer (h : Like K w w') (t : ℕ) (f : XferData → XferData) :
    Like K (w.mapXfer t f) (w'.mapXfer t f) := by
  obtain ⟨g, hg, rfl⟩ := h
  exact ⟨g, hg, rfl⟩

theorem setEnv (h : Like K w w') (env : Env) :
    Like K { w with env := env } { w' with env := env } := by
  obtain ⟨g, hg, rfl⟩ := h
  exact ⟨g, hg, rfl⟩

end Like

/-! ### Calls into the system -/

theorem likeOn_ask {β : Type} (get : Env → List β) (set : List β → Env → Env) (silent : β)
    (h : Like K w w') : LikeOn K (w.ask get set silent) (w'.ask get set silent) := by
  obtain ⟨g, hg, rfl⟩ := h
  exact ⟨rfl, g, hg, rfl⟩

theorem likeOn_allocate (hK : Kin K) (possible : Bool) (h : Like K w w') :
    LikeOn K (allocate possible w) (allocate possible w') := by
  obtain ⟨hfst, hask⟩ := likeOn_ask Env.allocs (fun l e => { e with allocs := l }) true h
  rw [allocate, allocate, ← hfst]
  split
  · exact ⟨rfl, hask⟩
  · exact ⟨rfl, hask.emit hK _⟩

theorem likeOn_malloc (hK : Kin K) (h : Like K w w') : LikeOn K (malloc w) (malloc w') :=
  likeOn_allocate hK true h

theorem likeOn_socket (h : Like K w w') : LikeOn K (socket w) (socket w') := by
  obtain ⟨g, hg, rfl⟩ := h
  exact ⟨rfl, g, hg, rfl⟩

theorem likeOn_connect (h : Like K w w') : LikeOn K (connect w) (connect w') :=
  likeOn_ask _ _ _ h

theorem likeOn_accept (h : Like K w w') : LikeOn K (accept w) (accept w') := by
  obtain ⟨g, hg, rfl⟩ := h
  exact ⟨rfl, g, hg, rfl⟩

theorem likeOn_getsockname (h : Like K w w') : LikeOn K (getsockname w) (getsockname w') := by
  obtain ⟨g, hg, rfl⟩ := h
  exact ⟨rfl, g, hg, rfl⟩

theorem likeOn_recvCtl (sz : ℕ) (h : Like K w w') : LikeOn K (recvCtl sz w) (recvCtl sz w') := by
  rw [recvCtl, recvCtl, h.ctl_eq]
  split
  · exact ⟨rfl, h⟩
  · obtain ⟨hfst, hask⟩ := likeOn_ask Env.ctlIn (fun l e => { e with ctlIn := l }) .again h
    exact ⟨congrArg (Recv.clip sz) hfst, hask⟩

theorem likeOn_recvData (sz : ℕ) (h : Like K w w') :
    LikeOn K (recvData sz w) (recvData sz w') := by
  obtain ⟨hfst, hask⟩ := likeOn_ask Env.dataIn (fun l e => { e with dataIn := l }) .again h
  exact ⟨congrArg (Recv.clip sz) hfst, hask⟩

/-! ### Commands -/

theorem like_sendcmd (hK : Kin K) (c : Cmd) (h : Like K w w') :
    Like K (sendcmd c w) (sendcmd c w') := by
  rw [sendcmd, sendcmd, h.ctl_eq]
  split
  · exact h
  · have hbusy := h.mapFtp (fun f => { f with busy := f.busy + 1 }) fun _ _ _ => rfl
    dsimp only
    split
    · exact (hbusy.message hK _ _).emit hK _
    · exact (hbusy.message hK _ _).emit hK _

theorem like_setCproc (hK : Kin K) (p : CProc) (h : Like K w w') :
    Like K (setCproc p w) (setCproc p w') :=
  (h.mapFtp _ fun _ _ _ => rfl).emit hK _

theorem like_ftpClose (hK : Kin K) (h : Like K w w') : Like K (ftpClose w) (ftpClose w') := by
  rw [ftpClose, ftpClose, h.ctl_eq]
  split
  · exact h.mapFtp _ fun _ _ _ => rfl
  · exact ((h.mapFtp _ fun _ _ _ => rfl).emit hK _).mapFtp _ fun _ _ _ => rfl

theorem likeOn_ftpActive (hK : Kin K) (h : Like K w w') :
    LikeOn K (ftpActive w) (ftpActive w') := by
  have hclosed := h.mapFtp (fun f => { f with lis := none, data := none }) fun _ _ _ => rfl
  obtain ⟨hfst, hsocket⟩ := likeOn_socket hclosed
  rw [ftpActive, ftpActive]
  dsimp only
  rw [← hfst]
  generalize socket (w.mapFtp _) = r at hsocket ⊢
  generalize socket (w'.mapFtp _) = r' at hsocket ⊢
  have hlis := hsocket.mapFtp (fun f => { f with lis := r.1 }) fun _ _ _ => rfl
  split
  · exact ⟨rfl, hlis.message hK _ _⟩
  obtain ⟨hfst', hbind⟩ : LikeOn K (bind _) (bind _) := likeOn_ask _ _ _ hlis
  rw [← hfst']
  split
  · exact ⟨rfl, (hbind.message hK _ _).mapFtp _ fun _ _ _ => rfl⟩
  obtain ⟨hfst'', hname⟩ := likeOn_getsockname hbind
  rw [← hfst'']
  split
  · exact ⟨rfl, (hname.message hK _ _).mapFtp _ fun _ _ _ => rfl⟩
  · exact ⟨rfl, like_setCproc hK _ (like_sendcmd hK _ (hname.message hK _ _))⟩

theorem like_ftpPassive (hK : Kin K) (h : Like K w w') : Like K (ftpPassive w) (ftpPassive w') :=
  like_setCproc hK _ (like_sendcmd hK _ (h.mapFtp _ fun _ _ _ => rfl))

theorem like_ftpType (hK : Kin K) (type : Bytes) (h : Like K w w') :
    Like K (ftpType type w) (ftpType type w') := by
  rw [ftpType, ftpType]
  split
  · exact h
  · exact like_sendcmd hK _ h

theorem like_ftpPwd (hK : Kin K) (h : Like K w w') : Like K (ftpPwd w) (ftpPwd w') :=
  like_setCproc hK _ (like_sendcmd hK _ h)

theorem like_ftpChdir (hK : Kin K) (dirname : Bytes) (h : Like K w w') :
    Like K (ftpChdir dirname w) (ftpChdir dirname w') := by
  rw [ftpChdir, ftpChdir]
  split
  · exact like_setCproc hK _ (like_sendcmd hK _ h)
  · exact like_setCproc hK _ (like_sendcmd hK _ h)

/-! ### Data handlers -/

theorem like_callDone (hK : Kin K) (t : ℕ) (h : Like K w w') :
    Like K (callDone t w) (callDone t w') := by
  obtain ⟨g, hg, rfl⟩ := h
  exact ⟨_, hK.emit (.done t) hg, rfl⟩

theorem like_dprocList (hK : Kin K) (r : ℕ) (buf : Bytes) (h : Like K w w') :
    Like K (dprocList r buf w) (dprocList r buf w') := by
  rw [dprocList, dprocList]
  dsimp only
  rw [h.rbufs_eq, h.env_eq]
  split
  · exact h.mapFtp _ fun _ _ _ => rfl
  split
  · obtain ⟨hfst, halloc⟩ :=
      likeOn_allocate hK (decide (0 ≤ (2 * (w.rbufs r).bufsz : Int).bmod (2 ^ 32))) h
    rw [← hfst]
    split
    · exact (halloc.message hK _ _).emit hK _
    · obtain ⟨g, hg, heq⟩ := halloc
      rw [heq]
      exact ⟨g, hg, rfl⟩
  · obtain ⟨g, hg, rfl⟩ := h
    exact ⟨g, hg, rfl⟩

theorem like_storeBytes (t : ℕ) (buf : Bytes) (h : Like K w w') :
    Like K (storeBytes t buf w) (storeBytes t buf w') := by
  rw [storeBytes, storeBytes, h.xfers_eq]
  split
  · obtain ⟨g, hg, rfl⟩ := h
    exact ⟨g, hg, rfl⟩
  · exact h.mapXfer t _

theorem like_dprocXfer (hK : Kin K) (t : ℕ) (buf : Bytes) (h : Like K w w') :
    Like K (dprocXfer t buf w) (dprocXfer t buf w') := by
  have htouch := h.emit hK (.touch t)
  rw [dprocXfer, dprocXfer]
  generalize w.emit (.touch t) = v at htouch ⊢
  generalize w'.emit (.touch t) = v' at htouch ⊢
  dsimp only
  rw [htouch.xfers_eq]
  split
  · split
    · exact (like_callDone hK t ((htouch.message hK _ _).mapXfer t _)).mapFtp _ fun _ _ _ => rfl
    · exact (like_storeBytes t buf htouch).mapXfer t _
  · exact htouch

theorem like_run_dproc (hK : Kin K) (p : DProc) (buf : Bytes) (h : Like K w w') :
    Like K (p.run buf w) (p.run buf w') := by
  cases p with
  | list r => exact like_dprocList hK r buf h
  | xfer t => exact like_dprocXfer hK t buf h

/-! ### Reply handlers -/

theorem likeOn_cprocActive (hK : Kin K) (code : Int) (h : Like K w w') :
    LikeOn K (cprocActive code w) (cprocActive code w') := by
  rw [cprocActive, cprocActive]
  split
  · exact ⟨rfl, like_ftpClose hK (h.message hK _ _)⟩
  · exact ⟨rfl, h.mapFtp _ fun _ _ _ => rfl⟩

theorem likeOn_noPasv (hK : Kin K) (h : Like K w w') : LikeOn K (noPasv w) (noPasv w') :=
  ⟨rfl, (likeOn_ftpActive hK (h.mapFtp _ fun _ _ _ => rfl)).2⟩

theorem likeOn_cprocPasv (hK : Kin K) (code : Int) (buf : Bytes) (h : Like K w w') :
    LikeOn K (cprocPasv code buf w) (cprocPasv code buf w') := by
  rw [cprocPasv, cprocPasv]
  split
  · exact likeOn_noPasv hK (h.message hK _ _)
  split
  · exact likeOn_noPasv hK (h.message hK _ _)
  · next addr port _ =>
    obtain ⟨hfst, hsocket⟩ := likeOn_socket h
    dsimp only
    rw [← hfst]
    have hdata := hsocket.mapFtp (fun f => { f with data := (socket w).1 }) fun _ _ _ => rfl
    split
    · exact likeOn_noPasv hK hdata
    · obtain ⟨hfst', hconn⟩ := likeOn_connect (hdata.message hK .info
        (ascii "passive mode: " ++ inetNtoa addr ++ ascii " port " ++ decimal port ++ ascii "\n"))
      rw [infomsg, infomsg, ← hfst']
      split
      · exact likeOn_noPasv hK ((hconn.message hK _ _).mapFtp _ fun _ _ _ => rfl)
      · exact ⟨rfl, (hconn.emit hK _).mapFtp _ fun _ _ _ => rfl⟩

theorem likeOn_cprocPwd (hK : Kin K) (code : Int) (buf : Bytes) (h : Like K w w') :
    LikeOn K (cprocPwd code buf w) (cprocPwd code buf w') := by
  rw [cprocPwd, cprocPwd]
  split
  · exact ⟨rfl, h.message hK _ _⟩
  split
  · exact ⟨rfl, h.message hK _ _⟩
  · exact ⟨rfl, h.mapFtp _ fun _ _ _ => rfl⟩

theorem likeOn_cprocList (hK : Kin K) (code : Int) (h : Like K w w') :
    LikeOn K (cprocList code w) (cprocList code w') := by
  rw [cprocList, cprocList]
  split
  · exact ⟨rfl, h⟩
  split
  · exact ⟨rfl, h.message hK _ _⟩
  · exact ⟨rfl, h⟩

theorem likeOn_cprocXfer (hK : Kin K) (t : ℕ) (code : Int) (buf : Bytes) (h : Like K w w') :
    LikeOn K (cprocXfer t code buf w) (cprocXfer t code buf w') := by
  rw [cprocXfer, cprocXfer]
  split
  · split
    · exact ⟨rfl, (h.mapXfer t _).emit hK _⟩
    · exact ⟨rfl, h⟩
  split
  · exact ⟨rfl, like_callDone hK t ((h.message hK _ _).emit hK _)⟩
  · exact ⟨rfl, h⟩

section Wait

variable {wait : Int → World α → Int × World α}

/-- A wait that does not see the hidden parts either. -/
def Unseeing (K : Hidden → Hidden → Prop) (wait : Int → World α → Int × World α) : Prop :=
  ∀ timeout w w', Like K w w' → LikeOn K (wait timeout w) (wait timeout w')

/-! ### Operations -/

theorem likeOn_prepareData (hK : Kin K) (hw : Unseeing K wait) (h : Like K w w') :
    LikeOn K (prepareData wait w) (prepareData wait w') := by
  rw [prepareData, prepareData, h.data_eq, h.seen Ftp.passive fun _ _ _ => rfl]
  split
  · exact ⟨rfl, h⟩
  split
  · obtain ⟨-, hwait⟩ := hw timeout _ _ (like_ftpPassive hK h)
    have hwake := hwait.emit hK (.wake (wait timeout (ftpPassive w)).2.ftp.data.isSome)
    dsimp only [World.emit]
    rw [hwait.data_eq]
    exact ⟨rfl, hwake⟩
  · obtain ⟨hfst, hact⟩ := likeOn_ftpActive hK h
    dsimp only
    rw [← hfst]
    split
    · exact ⟨rfl, hact⟩
    · rw [hact.data_eq]
      exact ⟨rfl, hact⟩

theorem like_startList (hK : Kin K) (h : Like K w w') :
    Like K (startList w) (startList w') := by
  obtain ⟨hfst, h₁⟩ := likeOn_malloc hK h
  obtain ⟨hfst', h₂⟩ := likeOn_malloc hK h₁
  rw [startList, startList]
  dsimp only
  rw [← hfst, ← hfst']
  split
  · exact h₁.message hK _ _
  split
  · exact h₂.message hK _ _
  · rw [h₂.nrbuf_eq]
    refine (like_setCproc hK _ (like_sendcmd hK _ ?_)).mapFtp _ fun _ _ _ => rfl
    obtain ⟨g, hg, heq⟩ := h₂
    rw [heq]
    exact ⟨g, hg, rfl⟩

theorem like_ftpList (hK : Kin K) (hw : Unseeing K wait) (h : Like K w w') :
    Like K (ftpList wait w) (ftpList wait w') := by
  obtain ⟨hfst, hprep⟩ := likeOn_prepareData hK hw h
  rw [ftpList, ftpList, ← hfst]
  split
  · exact hprep
  · exact like_startList hK hprep

theorem like_startTransfer (hK : Kin K) (t : ℕ) (h : Like K w w') :
    Like K (startTransfer t w) (startTransfer t w') := by
  rw [startTransfer, startTransfer, h.xfers_eq]
  split
  · exact (like_setCproc hK _ (like_sendcmd hK _ h)).mapFtp _ fun _ _ _ => rfl
  · exact h

theorem like_ftpTransfer (hK : Kin K) (hw : Unseeing K wait) (t : ℕ) (h : Like K w w') :
    Like K (ftpTransfer wait t w) (ftpTransfer wait t w') := by
  obtain ⟨hfst, hprep⟩ := likeOn_prepareData hK hw h
  rw [ftpTransfer, ftpTransfer, ← hfst]
  split
  · exact hprep
  · exact like_startTransfer hK t hprep

theorem like_enter (hK : Kin K) (op : Op) (h : Like K w w') :
    Like K (w.enter op) (w'.enter op) := by
  rw [World.enter, World.enter, h.data_eq, h.seen Ftp.passive fun _ _ _ => rfl]
  exact h.emit hK _

theorem like_execOp (hK : Kin K) (hw : Unseeing K wait) (op : Op) (h : Like K w w') :
    Like K (execOp wait op w) (execOp wait op w') := by
  have henter := like_enter hK op h
  cases op with
  | type arg => exact (like_ftpType hK arg henter).emit hK .ret
  | pwd => exact (like_ftpPwd hK henter).emit hK .ret
  | chdir dirname => exact (like_ftpChdir hK dirname henter).emit hK .ret
  | cdup => exact (like_ftpChdir hK (ascii "..") henter).emit hK .ret
  | list => exact (like_ftpList hK hw henter).emit hK .ret
  | xfer t => exact (like_ftpTransfer hK hw t henter).emit hK .ret
  | _ => exact henter.emit hK .ret

/-- **The next operation** of the queue. -/
theorem like_execQueued (hK : Kin K) (hw : Unseeing K wait) (h : Like K w w') :
    Like K (execQueued wait w) (execQueued wait w') := by
  have hlist := h.toList_eq hK
  rw [execQueued, execQueued]
  cases hl : w.ftp.queue.toList with
  | nil =>
    rw [LinkedFifo.pop_of_toList_nil hl, LinkedFifo.pop_of_toList_nil (hlist.trans hl)]
    exact h
  | cons op ops =>
    obtain ⟨q, hpop, -⟩ := LinkedFifo.pop_of_toList_cons hl
    obtain ⟨q', hpop', -⟩ := LinkedFifo.pop_of_toList_cons (hlist.trans hl)
    rw [hpop, hpop']
    refine like_execOp hK hw op ?_
    obtain ⟨g, hg, rfl⟩ := h
    exact ⟨_, hK.pop hg hpop hpop', rfl⟩

theorem like_enqueue (hK : Kin K) (op : Op) (h : Like K w w') :
    Like K (enqueue op w) (enqueue op w') := by
  obtain ⟨g, hg, rfl⟩ := h
  exact ⟨_, hK.emit _ (hK.enqueue op hg), rfl⟩

theorem likeOn_submit (hK : Kin K) (hw : Unseeing K wait) {alloc : World α → Bool × World α}
    (ha : ∀ w w', Like K w w' → LikeOn K (alloc w) (alloc w')) (op : Op) (h : Like K w w') :
    LikeOn K (submit wait alloc op w) (submit wait alloc op w') := by
  obtain ⟨hfst, halloc⟩ := ha w w' h
  have hidle : (w'.ftp.busy = 0 ∧ w'.ftp.queue.head = none) ↔
      (w.ftp.busy = 0 ∧ w.ftp.queue.head = none) := by
    rw [h.busy_eq, h.head_iff hK]
  rw [submit, submit]
  by_cases hi : w.ftp.busy = 0 ∧ w.ftp.queue.head = none
  · rw [if_pos hi, if_pos (hidle.mpr hi)]
    exact ⟨rfl, like_execOp hK hw op (h.emit hK _)⟩
  · rw [if_neg hi, if_neg fun hi' => hi (hidle.mp hi')]
    dsimp only
    rw [← hfst]
    split
    · exact ⟨rfl, like_enqueue hK op halloc⟩
    · exact ⟨rfl, halloc⟩

theorem likeOn_ftpQueue (hK : Kin K) (hw : Unseeing K wait) (op : Op) (h : Like K w w') :
    LikeOn K (ftpQueue wait op w) (ftpQueue wait op w') := by
  refine likeOn_submit hK hw (fun w w' h => ?_) op h
  obtain ⟨hfst, halloc⟩ := likeOn_malloc hK h
  dsimp only
  rw [← hfst]
  split
  · exact likeOn_malloc hK halloc
  · exact ⟨hfst, halloc⟩

theorem likeOn_ftpQueueTransfer (hK : Kin K) (hw : Unseeing K wait) (t : ℕ) (h : Like K w w') :
    LikeOn K (ftpQueueTransfer wait t w) (ftpQueueTransfer wait t w') :=
  likeOn_submit hK hw (fun _ _ h => likeOn_malloc hK h) (.xfer t) h

/-! ### One line of the control connection -/

theorem likeOn_run_cproc (hK : Kin K) (hw : Unseeing K wait) (p : CProc) (code : Int) (buf : Bytes)
    (h : Like K w w') : LikeOn K (p.run wait code buf w) (p.run wait code buf w') := by
  cases p with
  | active => exact likeOn_cprocActive hK code h
  | pasv => exact likeOn_cprocPasv hK code buf h
  | pwd => exact likeOn_cprocPwd hK code buf h
  | cwd =>
    show LikeOn K (cprocCwd wait code w) (cprocCwd wait code w')
    rw [cprocCwd, cprocCwd]
    split
    · exact ⟨rfl, h.message hK _ _⟩
    · exact ⟨rfl, (likeOn_ftpQueue hK hw _ (likeOn_ftpQueue hK hw _ h).2).2⟩
  | list r => exact likeOn_cprocList hK code h
  | xfer t => exact likeOn_cprocXfer hK t code buf h

theorem like_newconn (hK : Kin K) (hw : Unseeing K wait) (h : Like K w w') :
    Like K (newconn wait w) (newconn wait w') :=
  (likeOn_ftpQueue hK hw _ (likeOn_ftpQueue hK hw _ (likeOn_ftpQueue hK hw _ h).2).2).2

theorem like_login (hK : Kin K) (hw : Unseeing K wait) (code : Int) (h : Like K w w') :
    Like K (login wait code w) (login wait code w') := by
  have hbusy := h.mapFtp (fun f => { f with busy := 0 }) fun _ _ _ => rfl
  rw [login, login]
  rw [hbusy.seen Ftp.user fun _ _ _ => rfl, hbusy.seen Ftp.pass fun _ _ _ => rfl]
  split
  · exact like_sendcmd hK _ hbusy
  split
  · exact like_sendcmd hK _ hbusy
  split
  · exact like_newconn hK hw (hbusy.message hK _ _)
  split
  · exact (hbusy.mapFtp _ fun _ _ _ => rfl).message hK _ _
  · exact hbusy.mapFtp _ fun _ _ _ => rfl

theorem like_settle {r r' : Int × World α} (h : LikeOn K r r') :
    Like K (settle r) (settle r') := by
  rw [settle, settle, ← h.1]
  split
  · exact h.2.mapFtp _ fun _ _ _ => rfl
  · exact h.2

theorem like_deliver (hK : Kin K) (hw : Unseeing K wait) (code : Int) (buf : Bytes)
    (h : Like K w w') : Like K (deliver wait code buf w) (deliver wait code buf w') := by
  have hresp := h.setLastResp hK code
  rw [deliver, deliver]
  generalize w.mapFtp (fun f => { f with lastResp := code }) = v at hresp ⊢
  generalize w'.mapFtp (fun f => { f with lastResp := code }) = v' at hresp ⊢
  have hreply := hresp.emit hK (.reply code v.ftp.cproc v.ftp.busy buf)
  rw [hresp.cproc_eq, hresp.busy_eq]
  generalize v.emit (.reply code v.ftp.cproc v.ftp.busy buf) = u at hreply ⊢
  generalize v'.emit (.reply code v.ftp.cproc v.ftp.busy buf) = u' at hreply ⊢
  rw [hreply.cproc_eq]
  split
  · exact like_login hK hw _ hreply
  · exact like_settle (likeOn_run_cproc hK hw _ _ _ hreply)

theorem like_procControl (hK : Kin K) (hw : Unseeing K wait) (buf : Bytes) (h : Like K w w') :
    Like K (procControl wait buf w) (procControl wait buf w') := by
  have hinfo := h.message hK .info (ascii "recv: " ++ replyText buf ++ ascii "\n")
  rw [procControl, procControl]
  split
  · exact hinfo.message hK _ _
  split
  · exact hinfo
  · exact like_deliver hK hw _ _ hinfo

/-! ### The three connections -/

theorem like_scanBytes (hK : Kin K) (hw : Unseeing K wait) (bs cur : Bytes) (seen : Bool)
    (h : Like K w w') : Like K (scanBytes wait bs cur seen w) (scanBytes wait bs cur seen w') := by
  induction bs generalizing cur seen w w' with
  | nil => exact h.mapFtp _ fun _ _ _ => rfl
  | cons b bs ih =>
    rw [scanBytes, scanBytes]
    split
    · exact ih _ _ h
    split
    · exact ih _ _ (like_procControl hK hw _ (h.emit hK _))
    · exact ih _ _ h

theorem likeOn_handleControlLoop (hK : Kin K) (hw : Unseeing K wait) (fuel : ℕ)
    (h : Like K w w') :
    LikeOn K (handleControlLoop wait fuel w) (handleControlLoop wait fuel w') := by
  induction fuel generalizing w w' with
  | zero => exact ⟨rfl, h⟩
  | succ fuel ih =>
    have hroom : Like K (if crecvSize ≤ w.ftp.crecv.length then
          warnmsg (ascii "discard buffer\n") (w.mapFtp fun f => { f with crecv := [] }) else w)
        (if crecvSize ≤ w'.ftp.crecv.length then
          warnmsg (ascii "discard buffer\n") (w'.mapFtp fun f => { f with crecv := [] })
          else w') := by
      rw [h.crecv_eq]
      split
      · exact (h.mapFtp _ fun _ _ _ => rfl).message hK _ _
      · exact h
    rw [handleControlLoop, handleControlLoop]
    generalize (if crecvSize ≤ w.ftp.crecv.length then _ else w) = v at hroom ⊢
    generalize (if crecvSize ≤ w'.ftp.crecv.length then _ else w') = v' at hroom ⊢
    rw [hroom.crecv_eq]
    obtain ⟨hfst, hrecv⟩ := likeOn_recvCtl (crecvSize - v.ftp.crecv.length) hroom
    rw [← hfst]
    split
    · exact ih hrecv
    · exact ⟨rfl, hrecv⟩
    · exact ⟨rfl, like_ftpClose hK hrecv⟩
    · rw [hrecv.crecv_eq]
      exact ih (like_scanBytes hK hw _ _ _ (hrecv.emit hK _))

theorem likeOn_handleControl (hK : Kin K) (hw : Unseeing K wait) (h : Like K w w') :
    LikeOn K (handleControl wait w) (handleControl wait w') := by
  rw [handleControl, handleControl, h.env_eq]
  exact likeOn_handleControlLoop hK hw _ h

theorem like_callDproc (hK : Kin K) (buf : Bytes) (h : Like K w w') :
    Like K (callDproc buf w) (callDproc buf w') := by
  rw [callDproc, callDproc, h.seen Ftp.dproc fun _ _ _ => rfl]
  split
  · exact h
  · exact like_run_dproc hK _ buf h

theorem like_handleDataLoop (hK : Kin K) (n : ℕ) (h : Like K w w') :
    Like K (handleDataLoop n w) (handleDataLoop n w') := by
  induction n generalizing w w' with
  | zero => exact h
  | succ n ih =>
    obtain ⟨hfst, hrecv⟩ := likeOn_recvData 256 h
    rw [handleDataLoop, handleDataLoop]
    dsimp only
    rw [← hfst, hrecv.busy_eq, hrecv.seen Ftp.dproc fun _ _ _ => rfl]
    split
    · exact ih hrecv
    · exact hrecv
    · exact (like_callDproc hK [] (hrecv.emit hK _)).mapFtp _ fun _ _ _ => rfl
    · exact ih (like_callDproc hK _ (hrecv.emit hK _))

theorem like_handleData (hK : Kin K) (h : Like K w w') : Like K (handleData w) (handleData w') := by
  rw [handleData, handleData, h.data_eq]
  split
  · exact h
  · exact like_handleDataLoop hK 4 h

theorem like_acceptData (hK : Kin K) (h : Like K w w') : Like K (acceptData w) (acceptData w') := by
  obtain ⟨hfst, hacc⟩ := likeOn_accept h
  rw [acceptData, acceptData]
  dsimp only
  rw [h.data_eq, ← hfst]
  split
  · exact hacc
  · have hopen := hacc.mapFtp (fun f => { f with data := (accept w).1 }) fun _ _ _ => rfl
    split
    · exact hopen
    · exact (hopen.emit hK _).emit hK _

/-! ### Events -/

theorem like_runQueue (hK : Kin K) (hw : Unseeing K wait) (h : Like K w w') :
    Like K (runQueue wait w) (runQueue wait w') := by
  rw [runQueue, runQueue, h.busy_eq]
  split
  · refine like_execQueued hK hw (Like.mapFtp ?_ _ fun _ _ _ => rfl)
    split
    · exact h
    · exact h.emit hK _
  · exact h

/-- **The event handler.** -/
theorem like_ftpHandleWith (hK : Kin K) (hw : Unseeing K wait) (s : Option Fd) (h : Like K w w') :
    Like K (ftpHandleWith wait s w) (ftpHandleWith wait s w') := by
  rw [ftpHandleWith, ftpHandleWith, h.ctl_eq, h.data_eq, h.seen Ftp.lis fun _ _ _ => rfl]
  split
  · obtain ⟨hfst, hctl⟩ := likeOn_handleControl hK hw h
    dsimp only
    rw [← hfst]
    split
    · exact hctl
    · exact like_runQueue hK hw hctl
  split
  · exact like_runQueue hK hw (like_handleData hK h)
  split
  · exact like_runQueue hK hw (like_acceptData hK h)
  · exact like_runQueue hK hw h

end Wait

/-! ### The wait, and runs -/

theorem likeOn_waitLoop (hK : Kin K) (hresp : ∀ h h', K h h' → h'.lastResp = h.lastResp) (n : ℕ)
    (timeout : Int) (h : Like K w w') :
    LikeOn K (waitLoop n timeout w) (waitLoop n timeout w') := by
  have hlast : ∀ {w w' : World α}, Like K w w' → w'.ftp.lastResp = w.ftp.lastResp := by
    rintro w _ ⟨g, hg, rfl⟩
    exact hresp _ _ hg
  induction n generalizing timeout w w' with
  | zero => exact ⟨rfl, h⟩
  | succ n ih =>
    have hbad : Like K (if w.ftp.ctl = none then w.emit .badSelect else w)
        (if w'.ftp.ctl = none then w'.emit .badSelect else w') := by
      rw [h.ctl_eq]
      split
      · exact h.emit hK _
      · exact h
    rw [waitLoop, waitLoop]
    dsimp only
    generalize (if w.ftp.ctl = none then w.emit .badSelect else w) = v at hbad ⊢
    generalize (if w'.ftp.ctl = none then w'.emit .badSelect else w') = v' at hbad ⊢
    obtain ⟨hfst, hask⟩ := likeOn_ask Env.selects (fun l e => { e with selects := l })
      (.woke false timeout.toNat) hbad
    rw [← hfst]
    split
    · exact ih timeout hask
    · next ready elapsed _ =>
      have hin : Unseeing K fun timeout (w : World α) =>
          waitLoop n timeout (w.mapFtp fun f => { f with lastResp := -1 }) :=
        fun timeout _ _ hlike => ih timeout (hlike.setLastResp hK _)
      generalize v.ask Env.selects (fun l e => { e with selects := l })
        (.woke false timeout.toNat) = r at hask ⊢
      generalize v'.ask Env.selects (fun l e => { e with selects := l })
        (.woke false timeout.toNat) = r' at hask ⊢
      have hhandle := like_ftpHandleWith hK hin r.2.ftp.ctl (hask.setLastResp hK (-1))
      have hstep : Like K
          (if ready = true then ftpHandleWith (fun timeout (w : World α) => waitLoop n timeout
              (w.mapFtp fun f => { f with lastResp := -1 })) r.2.ftp.ctl
              (r.2.mapFtp fun f => { f with lastResp := -1 })
            else r.2)
          (if ready = true then ftpHandleWith (fun timeout (w : World α) => waitLoop n timeout
              (w.mapFtp fun f => { f with lastResp := -1 })) r'.2.ftp.ctl
              (r'.2.mapFtp fun f => { f with lastResp := -1 })
            else r'.2) := by
        rw [hask.ctl_eq]
        split
        · exact hhandle
        · exact hask
      generalize (if ready = true then _ else r.2) = u at hstep ⊢
      generalize (if ready = true then _ else r'.2) = u' at hstep ⊢
      rw [hlast hstep]
      split
      · exact ⟨rfl, hstep⟩
      split
      · split
        · exact ⟨rfl, hstep⟩
        · exact ih _ hstep
      · exact ih _ hstep

/-- **The wait**, which sets `last_resp` first: states that are alike but for it stay so. -/
theorem unseeing_ftpWaitresp (hK : Kin K) (hresp : ∀ h h', K h h' → h'.lastResp = h.lastResp)
    (hset : ∀ h h', K' h h' → K { h with lastResp := -1 } { h' with lastResp := -1 })
    (hle : ∀ h h', K h h' → K' h h') (n : ℕ) : Unseeing K' (ftpWaitresp n (α := α)) := by
  intro timeout w w' h
  have hstart : Like K (w.mapFtp fun f => { f with lastResp := -1 })
      (w'.mapFtp fun f => { f with lastResp := -1 }) := by
    obtain ⟨g, hg, rfl⟩ := h
    exact ⟨_, hset _ _ hg, rfl⟩
  obtain ⟨hfst, hwait⟩ := likeOn_waitLoop hK hresp n timeout hstart
  exact ⟨hfst, hwait.mono hle⟩

/-- **Every call**, whatever it is. -/
theorem like_step (hK : Kin K) (hw : ∀ n, Unseeing K (ftpWaitresp n (α := α))) (env : Env)
    (i : Input α) (h : Like K w w') : Like K (w.step env i) (w'.step env i) := by
  have henv := h.setEnv env
  cases i with
  | queue op hop => exact (likeOn_ftpQueue hK (hw _) op henv).2
  | transfer x =>
    obtain ⟨g, hg, rfl⟩ := h
    have hnew : Like K ({ w with env := env }.newXfer x)
        ({ w.hide g with env := env }.newXfer x) := ⟨_, hK.emit _ hg, rfl⟩
    exact (likeOn_ftpQueueTransfer hK (hw _) w.nxfer hnew).2
  | handle s => exact like_ftpHandleWith hK (hw _) (some s) henv

/-- **Whole runs.** -/
theorem like_run (hK : Kin K) (hw : ∀ n, Unseeing K (ftpWaitresp n (α := α)))
    (inputs : List (Env × Input α)) (h : Like K w w') : Like K (w.run inputs) (w'.run inputs) := by
  induction inputs generalizing w w' with
  | nil => exact h
  | cons i inputs ih => exact ih (like_step hK hw i.1 i.2 h)

end Visftp
