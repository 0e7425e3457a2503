import Visftp.Moves

/-!
# What every function of the client keeps

Three things are kept by every function of `ftp.c`, whatever it is called from. The strings on the
control connection are those that were given to the client: the user and the password, and the
arguments of its operations. Once the connection is closed, nothing is sent or received on it, and
`select` is called on it only if an operation waits that was begun later. The last reply is known,
unless a wait inside has been started.

`Upkeep` says all of it, and the lemmas here go through the functions in the order of the source.
Unlike the invariants of a session, it speaks about what a session does not show.

## Main definitions

* `Given` — the strings of a run
* `Mute`, `Stalled` — nothing is sent, and an operation waits, after the connection is closed
* `Upkeep` — the invariant

## Main results

* `upkeep_execOp`, `upkeep_procControl`, `upkeep_waitLoop` — the functions that wait
* `upkeep_run` — whole runs
-/

namespace Visftp

open CString Histories

/-! ### The invariant -/

/-- **The strings of a run**: the user and the password, the directories that are entered and the
files that are asked for. -/
structure Given where
  user : Option Bytes
  pass : Option Bytes
  dirs : Bytes → Prop
  names : Bytes → Prop

/-- The commands that are made of them. -/
def Given.Sends (g : Given) : Cmd → Prop
  | .user u => u = g.user.getD (ascii "anonymous")
  | .pass p => p = g.pass.getD (ascii "foobar")
  | .cwd d => g.dirs d ∧ d ≠ ascii ".."
  | .retr _ n => g.names n
  | .port addr port => addr < 2 ^ 32 ∧ port < 2 ^ 16
  | _ => True

/-- The operations that are made of them, when there are `n` transfers. -/
def Given.Queues (g : Given) (n : ℕ) : Op → Prop
  | .chdir d => g.dirs d
  | .xfer t => t < n
  | _ => True

/-- Nothing is sent or received once the control connection is closed. -/
def Mute (past : List Event) : Event → Prop
  | .sent _ | .recv _ => .hangup ∉ past
  | _ => True

/-- An operation was begun that waits for a reply, after the control connection was closed. -/
def Stalled (log : List Event) : Prop :=
  ∃ op past, op.needsData = true ∧ .exec op false true :: past <:+ log ∧ .hangup ∈ past

theorem Stalled.cons {log : List Event} (h : Stalled log) (e : Event) : Stalled (e :: log) := by
  obtain ⟨op, past, hop, hlog, hmem⟩ := h
  exact ⟨op, past, hop, hlog.trans (List.suffix_cons e log), hmem⟩

variable {α : Type}

/-- **What every function keeps**: where strings come from, what a closed connection means, and
something about the last reply. -/
structure Upkeep (g : Given) (n : ℕ) (R : Int → Prop) (w : World α) : Prop where
  user : w.ftp.user = g.user
  pass : w.ftp.pass = g.pass
  made : w.nxfer = n
  queue : ∀ op ∈ w.ftp.queue.toList, g.Queues n op
  names : ∀ t < n, g.names (w.xfers t).rname
  sent : ∀ c, .sent c ∈ w.log → g.Sends c
  resp : R w.ftp.lastResp
  closed : w.ftp.ctl = none ↔ .hangup ∈ w.log
  silent : Always Mute w.log
  stalled : .badSelect ∈ w.log → Stalled w.log

namespace Upkeep

variable {g : Given} {n : ℕ} {R : Int → Prop} {w w' : World α}

/-! ### Assignments and events -/

theorem congr (h : Upkeep g n R w) (hu : w'.ftp.user = w.ftp.user) (hp : w'.ftp.pass = w.ftp.pass)
    (hq : w'.ftp.queue = w.ftp.queue) (hr : w'.ftp.lastResp = w.ftp.lastResp)
    (hc : w'.ftp.ctl = w.ftp.ctl) (hn : w'.nxfer = w.nxfer)
    (hx : ∀ t, (w'.xfers t).rname = (w.xfers t).rname) (hl : w'.log = w.log) :
    Upkeep g n R w' where
  user := hu.trans h.user
  pass := hp.trans h.pass
  made := hn.trans h.made
  queue := by rw [hq]; exact h.queue
  names t ht := by rw [hx]; exact h.names t ht
  sent := by rw [hl]; exact h.sent
  resp := hr ▸ h.resp
  closed := by rw [hc, hl]; exact h.closed
  silent := by rw [hl]; exact h.silent
  stalled := by rw [hl]; exact h.stalled

theorem mapFtp (h : Upkeep g n R w) {f : Ftp → Ftp} (hu : (f w.ftp).user = w.ftp.user)
    (hp : (f w.ftp).pass = w.ftp.pass) (hq : (f w.ftp).queue = w.ftp.queue)
    (hr : (f w.ftp).lastResp = w.ftp.lastResp) (hc : (f w.ftp).ctl = w.ftp.ctl) :
    Upkeep g n R (w.mapFtp f) :=
  h.congr hu hp hq hr hc rfl (fun _ => rfl) rfl

theorem setEnv (h : Upkeep g n R w) (env : Env) : Upkeep g n R { w with env := env } :=
  h.congr rfl rfl rfl rfl rfl rfl (fun _ => rfl) rfl

theorem socket (h : Upkeep g n R w) : Upkeep g n R (Visftp.socket w).2 := h.setEnv _

theorem bind (h : Upkeep g n R w) : Upkeep g n R (Visftp.bind w).2 := h.setEnv _

theorem getsockname (h : Upkeep g n R w) : Upkeep g n R (Visftp.getsockname w).2 := h.setEnv _

theorem connect (h : Upkeep g n R w) : Upkeep g n R (Visftp.connect w).2 := h.setEnv _

theorem message (h : Upkeep g n R w) (l : Level) (text : Bytes) : Upkeep g n R (w.message l text) :=
  h.congr rfl rfl rfl rfl rfl rfl (fun _ => rfl) rfl

/-- The last reply is set. -/
theorem setResp (h : Upkeep g n R w) {P : Int → Prop} {code : Int} (hcode : P code) :
    Upkeep g n P (w.mapFtp fun f => { f with lastResp := code }) :=
  ⟨h.user, h.pass, h.made, h.queue, h.names, h.sent, hcode, h.closed, h.silent, h.stalled⟩

theorem mapXfer (h : Upkeep g n R w) (t : ℕ) {f : XferData → XferData}
    (hf : ∀ x, (f x).rname = x.rname) : Upkeep g n R (w.mapXfer t f) := by
  refine h.congr rfl rfl rfl rfl rfl rfl (fun t' => ?_) rfl
  rcases eq_or_ne t' t with rfl | ht
  · simp [World.mapXfer, hf]
  · simp [World.mapXfer, ht]

/-- An event that is allowed is recorded. -/
theorem emitOf (h : Upkeep g n R w) {e : Event} (hsent : ∀ c, e = .sent c → g.Sends c)
    (hsilent : Mute w.log e) (hhang : e ≠ .hangup) (hbad : e = .badSelect → Stalled w.log) :
    Upkeep g n R (w.emit e) where
  user := h.user
  pass := h.pass
  made := h.made
  queue := h.queue
  names := h.names
  sent c hc := (List.mem_cons.mp hc).elim (fun he => hsent c he.symm) (h.sent c)
  resp := h.resp
  closed := h.closed.trans
    ⟨List.mem_cons_of_mem e, fun hm => (List.mem_cons.mp hm).resolve_left hhang.symm⟩
  silent := ⟨hsilent, h.silent⟩
  stalled hm := by
    rcases List.mem_cons.mp hm with he | hm
    · exact (hbad he.symm).cons e
    · exact (h.stalled hm).cons e

/-- Events of which nothing is asked. -/
def harmless : Event → Bool
  | .sent _ | .recv _ | .hangup | .badSelect => false
  | _ => true

theorem emit (h : Upkeep g n R w) {e : Event} (he : harmless e = true) :
    Upkeep g n R (w.emit e) := by
  refine h.emitOf (fun c hc => ?_) ?_ (fun hc => ?_) (fun hc => ?_)
  · simp [hc, harmless] at he
  · cases e with
    | sent c => simp [harmless] at he
    | recv b => simp [harmless] at he
    | _ => trivial
  · simp [hc, harmless] at he
  · simp [hc, harmless] at he

/-- Nothing has been closed while the control connection is open. -/
theorem hangup_notMem (h : Upkeep g n R w) (hctl : w.ftp.ctl ≠ none) : .hangup ∉ w.log :=
  fun hm => hctl (h.closed.mpr hm)

/-! ### Commands -/

theorem sendcmd (h : Upkeep g n R w) {c : Cmd} (hc : g.Sends c) :
    Upkeep g n R (Visftp.sendcmd c w) := by
  rw [Visftp.sendcmd]
  split
  · exact h
  · next hctl =>
    have hbusy : Upkeep g n R (w.mapFtp fun f => { f with busy := f.busy + 1 }) :=
      h.mapFtp rfl rfl rfl rfl rfl
    have hmute : .hangup ∉ w.log := h.hangup_notMem hctl
    dsimp only
    split
    · exact (hbusy.message _ _).emitOf (fun _ he => Event.sent.inj he ▸ hc) hmute (by simp)
        (by simp)
    · exact (hbusy.message _ _).emitOf (fun _ he => Event.sent.inj he ▸ hc) hmute (by simp)
        (by simp)

theorem setCproc (h : Upkeep g n R w) (p : CProc) : Upkeep g n R (Visftp.setCproc p w) :=
  (h.mapFtp rfl rfl rfl rfl rfl).emit rfl

theorem ftpClose (h : Upkeep g n R w) : Upkeep g n R (Visftp.ftpClose w) := by
  unfold Visftp.ftpClose
  dsimp only
  split
  · exact h.mapFtp rfl rfl rfl rfl rfl
  · exact {
      user := h.user
      pass := h.pass
      made := h.made
      queue := h.queue
      names := h.names
      sent := fun c hc => (List.mem_cons.mp hc).elim (by simp) (h.sent c)
      resp := h.resp
      closed := ⟨fun _ => List.mem_cons_self, fun _ => rfl⟩
      silent := ⟨trivial, h.silent⟩
      stalled := fun hm => (h.stalled ((List.mem_cons.mp hm).resolve_left (by simp))).cons _ }

theorem allocate (h : Upkeep g n R w) (possible : Bool) :
    Upkeep g n R (Visftp.allocate possible w).2 := by
  unfold Visftp.allocate
  dsimp only
  split
  · exact h.setEnv _
  · exact (h.setEnv _).emit rfl

theorem malloc (h : Upkeep g n R w) : Upkeep g n R (Visftp.malloc w).2 := h.allocate true

/-- The address `getsockname` gives fits a `PORT` command. -/
theorem sends_port {addr port : ℕ} (h : (Visftp.getsockname w).1 = some (addr, port)) :
    g.Sends (.port addr port) := by
  rw [Visftp.getsockname] at h
  have hfits : addr < 2 ^ 32 ∧ port < 2 ^ 16 :=
    of_decide_eq_true (Option.filter_eq_some_iff.mp h).2
  exact hfits

theorem ftpActive (h : Upkeep g n R w) : Upkeep g n R (Visftp.ftpActive w).2 := by
  rw [Visftp.ftpActive]
  have hdrop : Upkeep g n R (w.mapFtp fun f => { f with lis := none, data := none }) :=
    h.mapFtp rfl rfl rfl rfl rfl
  have hlis : ∀ (w : World α) fd, Upkeep g n R w →
      Upkeep g n R (w.mapFtp fun f => { f with lis := fd }) := fun w fd h =>
    h.mapFtp rfl rfl rfl rfl rfl
  dsimp only
  split
  · exact (hlis _ _ hdrop.socket).message _ _
  split
  · exact hlis _ none ((hlis _ _ hdrop.socket).bind.message _ _)
  split
  · exact hlis _ none ((hlis _ _ hdrop.socket).bind.getsockname.message _ _)
  · next addr port hsa =>
    exact (((hlis _ _ hdrop.socket).bind.getsockname.message _ _).sendcmd
      (sends_port hsa)).setCproc _

theorem ftpPassive (h : Upkeep g n R w) : Upkeep g n R (Visftp.ftpPassive w) := by
  have hdrop : Upkeep g n R (w.mapFtp fun f => { f with lis := none, data := none }) :=
    h.mapFtp rfl rfl rfl rfl rfl
  exact (hdrop.sendcmd (c := .pasv) trivial).setCproc _

theorem ftpType (h : Upkeep g n R w) (type : Bytes) : Upkeep g n R (Visftp.ftpType type w) := by
  unfold Visftp.ftpType
  dsimp only
  split
  · exact h
  · exact h.sendcmd trivial

theorem ftpPwd (h : Upkeep g n R w) : Upkeep g n R (Visftp.ftpPwd w) :=
  (h.sendcmd (c := .pwd) trivial).setCproc _

theorem ftpChdir (h : Upkeep g n R w) {dirname : Bytes}
    (hd : dirname ≠ ascii ".." → g.dirs dirname) : Upkeep g n R (Visftp.ftpChdir dirname w) := by
  rw [Visftp.ftpChdir]
  split
  · exact (h.sendcmd (c := .cdup) trivial).setCproc _
  · next hup => exact (h.sendcmd (c := .cwd dirname) ⟨hd hup, hup⟩).setCproc _

/-! ### Operations -/

theorem startList (h : Upkeep g n R w) : Upkeep g n R (Visftp.startList w) := by
  rw [Visftp.startList]
  dsimp only
  split
  · exact h.malloc.message _ _
  split
  · exact h.malloc.malloc.message _ _
  · have hbuf : Upkeep g n R { (Visftp.malloc (Visftp.malloc w).2).2 with
        rbufs := Function.update (Visftp.malloc (Visftp.malloc w).2).2.rbufs
          (Visftp.malloc (Visftp.malloc w).2).2.nrbuf ⟨[], 1024⟩
        nrbuf := (Visftp.malloc (Visftp.malloc w).2).2.nrbuf + 1 } :=
      h.malloc.malloc.congr rfl rfl rfl rfl rfl rfl (fun _ => rfl) rfl
    exact ((hbuf.sendcmd (c := .list _) trivial).setCproc _).mapFtp rfl rfl rfl rfl rfl

theorem startTransfer (h : Upkeep g n R w) {t : ℕ} (ht : t < n) :
    Upkeep g n R (Visftp.startTransfer t w) := by
  rw [Visftp.startTransfer]
  split
  · exact ((h.sendcmd (c := .retr t _) (h.names t ht)).setCproc _).mapFtp rfl rfl rfl rfl rfl
  · exact h

end Upkeep

/-! ### Functions that may wait -/

/-- What is asked of `ftp_waitresp`: it is called on a closed connection only by an operation that
was begun later. -/
def WaitKeeps (g : Given) (n : ℕ) (R : Int → Prop) (wait : Int → World α → Int × World α) : Prop :=
  ∀ t w, Upkeep g n R w → (w.ftp.ctl = none → Stalled w.log) → Upkeep g n R (wait t w).2

namespace Upkeep

variable {g : Given} {n : ℕ} {R : Int → Prop} {w w' : World α}
  {wait : Int → World α → Int × World α}

/-- `PASV` is not sent on a closed connection, but the wait begins. -/
theorem stalled_ftpPassive (hstall : w.ftp.ctl = none → Stalled w.log)
    (hctl : (Visftp.ftpPassive w).ftp.ctl = none) : Stalled (Visftp.ftpPassive w).log := by
  have hview := view_ftpPassive w
  have hsome : (Visftp.ftpPassive w).ftp.ctl.isSome = w.ftp.ctl.isSome := congrArg Session.ctl hview
  have hnone : w.ftp.ctl = none := by simpa [hctl] using hsome
  have hlog : (Visftp.ftpPassive w).log = .hook .pasv :: w.log := by
    have hlog : (Visftp.ftpPassive w).log = w.view.askPasv.log := congrArg Session.log hview
    rw [hlog]
    simp [Session.askPasv, Session.send, Session.hook, World.view, hnone]
  rw [hlog]
  exact (hstall hnone).cons _

/-- `prepare_data`, which waits only in passive mode and without a data connection. -/
theorem prepareData (h : Upkeep g n R w)
    (hwait : w.ftp.data = none → w.ftp.passive = true →
      (w.ftp.ctl = none → Stalled w.log) ∧ WaitKeeps g n R wait) :
    Upkeep g n R (Visftp.prepareData wait w).2 := by
  rw [Visftp.prepareData]
  split
  · exact h
  next hdata =>
  split
  · next hpassive =>
    obtain ⟨hstall, hwait⟩ := hwait (not_not.mp hdata) hpassive
    exact Upkeep.emit (hwait _ _ h.ftpPassive (stalled_ftpPassive hstall)) rfl
  · dsimp only
    split
    · exact h.ftpActive
    · exact h.ftpActive

theorem ftpList (h : Upkeep g n R w)
    (hwait : w.ftp.data = none → w.ftp.passive = true →
      (w.ftp.ctl = none → Stalled w.log) ∧ WaitKeeps g n R wait) :
    Upkeep g n R (Visftp.ftpList wait w) := by
  unfold Visftp.ftpList
  dsimp only
  split
  · exact h.prepareData hwait
  · exact (h.prepareData hwait).startList

theorem ftpTransfer (h : Upkeep g n R w) {t : ℕ} (ht : t < n)
    (hwait : w.ftp.data = none → w.ftp.passive = true →
      (w.ftp.ctl = none → Stalled w.log) ∧ WaitKeeps g n R wait) :
    Upkeep g n R (Visftp.ftpTransfer wait t w) := by
  unfold Visftp.ftpTransfer
  dsimp only
  split
  · exact h.prepareData hwait
  · exact (h.prepareData hwait).startTransfer ht

/-- **`exec_op`**. An operation that waits on a closed connection is stalled. -/
theorem execOp (h : Upkeep g n R w) {op : Op} (hop : g.Queues n op)
    (hwait : op.needsData = true → w.ftp.data = none → w.ftp.passive = true →
      WaitKeeps g n R wait) : Upkeep g n R (Visftp.execOp wait op w) := by
  have henter : Upkeep g n R (w.enter op) := h.emit rfl
  have hstall : op.needsData = true → (w.enter op).ftp.data = none →
      (w.enter op).ftp.passive = true →
      ((w.enter op).ftp.ctl = none → Stalled (w.enter op).log) ∧ WaitKeeps g n R wait := by
    intro hneeds hdata hpassive
    refine ⟨fun hctl => ⟨op, w.log, hneeds, ?_, h.closed.mp hctl⟩, hwait hneeds hdata hpassive⟩
    have hd : w.ftp.data = none := hdata
    have hp : w.ftp.passive = true := hpassive
    rw [World.enter, World.emit, hd, hp]
    exact List.suffix_rfl
  unfold Visftp.execOp
  dsimp only
  refine Upkeep.emit ?_ rfl
  cases op with
  | type arg => exact henter.ftpType arg
  | pwd => exact henter.ftpPwd
  | chdir d => exact henter.ftpChdir fun _ => hop
  | cdup => exact henter.ftpChdir fun hne => absurd rfl hne
  | list => exact henter.ftpList (hstall rfl)
  | xfer t => exact henter.ftpTransfer hop (hstall rfl)
  | _ => exact henter

theorem setQueue (h : Upkeep g n R w) {q : LinkedFifo Op} (hq : ∀ op ∈ q.toList, g.Queues n op) :
    Upkeep g n R (w.mapFtp fun f => { f with queue := q }) :=
  ⟨h.user, h.pass, h.made, hq, h.names, h.sent, h.resp, h.closed, h.silent, h.stalled⟩

/-- `exec_queued` -/
theorem execQueued (h : Upkeep g n R w)
    (hwait : w.ftp.data = none → w.ftp.passive = true → WaitKeeps g n R wait) :
    Upkeep g n R (Visftp.execQueued wait w) := by
  rw [Visftp.execQueued]
  cases hl : w.ftp.queue.toList with
  | nil =>
    rw [LinkedFifo.pop_of_toList_nil hl]
    exact h
  | cons op ops =>
    obtain ⟨q, hq, hops⟩ := LinkedFifo.pop_of_toList_cons hl
    have hqueue := h.queue
    rw [hl] at hqueue
    have hpop : Upkeep g n R (w.mapFtp fun f => { f with queue := q }) := by
      refine h.setQueue fun op' hop' => hqueue op' (List.mem_cons_of_mem op ?_)
      rwa [hops] at hop'
    rw [hq]
    exact hpop.execOp (hqueue op List.mem_cons_self) fun _ => hwait

theorem enqueue (h : Upkeep g n R w) {op : Op} (hop : g.Queues n op) :
    Upkeep g n R (Visftp.enqueue op w) := by
  refine Upkeep.emit (h.setQueue (q := w.ftp.queue.enqueue op) fun op' hop' => ?_) rfl
  rw [LinkedFifo.toList_enqueue] at hop'
  rcases List.mem_append.mp hop' with hop' | hop'
  · exact h.queue op' hop'
  · exact List.mem_singleton.mp hop' ▸ hop

theorem submit (h : Upkeep g n R w) {alloc : World α → Bool × World α}
    (halloc : ∀ w, Upkeep g n R w → Upkeep g n R (alloc w).2) {op : Op} (hop : g.Queues n op)
    (hwait : WaitKeeps g n R wait) : Upkeep g n R (Visftp.submit wait alloc op w).2 := by
  rw [Visftp.submit]
  split
  · exact Upkeep.execOp (w := w.emit (.accept op)) (h.emit rfl) hop fun _ _ _ => hwait
  · dsimp only
    split
    · exact (halloc w h).enqueue hop
    · exact halloc w h

theorem ftpQueue (h : Upkeep g n R w) (op : Op) (hop : g.Queues n op)
    (hwait : WaitKeeps g n R wait) : Upkeep g n R (Visftp.ftpQueue wait op w).2 := by
  refine h.submit (fun w h => ?_) hop hwait
  dsimp only
  split
  · exact h.malloc.malloc
  · exact h.malloc

theorem ftpQueueTransfer (h : Upkeep g n R w) {t : ℕ} (ht : t < n) (hwait : WaitKeeps g n R wait) :
    Upkeep g n R (Visftp.ftpQueueTransfer wait t w).2 :=
  h.submit (fun _ h => h.malloc) ht hwait

/-! ### Handlers -/

theorem callDone (h : Upkeep g n R w) (t : ℕ) : Upkeep g n R (Visftp.callDone t w) := by
  have happ : Upkeep g n R { w with app := (w.xfers t).done (w.xfers t).toXferData w.app } :=
    h.congr rfl rfl rfl rfl rfl rfl (fun _ => rfl) rfl
  exact happ.emit (e := .done t) rfl

theorem dprocList (h : Upkeep g n R w) (r : ℕ) (buf : Bytes) :
    Upkeep g n R (Visftp.dprocList r buf w) := by
  have hstore : ∀ (w : World α) bufs, Upkeep g n R w → Upkeep g n R { w with rbufs := bufs } :=
    fun w bufs h => h.congr rfl rfl rfl rfl rfl rfl (fun _ => rfl) rfl
  rw [Visftp.dprocList]
  dsimp only
  split
  · exact h.mapFtp rfl rfl rfl rfl rfl
  split
  · split
    · exact ((h.allocate _).message _ _).emit rfl
    · exact hstore _ _ (h.allocate _)
  · exact hstore _ _ h

theorem storeBytes (h : Upkeep g n R w) (t : ℕ) (buf : Bytes) :
    Upkeep g n R (Visftp.storeBytes t buf w) := by
  rw [Visftp.storeBytes]
  split
  · exact h.congr rfl rfl rfl rfl rfl rfl (fun _ => rfl) rfl
  · exact h.mapXfer t fun _ => rfl

theorem dprocXfer (h : Upkeep g n R w) (t : ℕ) (buf : Bytes) :
    Upkeep g n R (Visftp.dprocXfer t buf w) := by
  have htouch : Upkeep g n R (w.emit (.touch t)) := h.emit rfl
  rw [Visftp.dprocXfer]
  dsimp only
  split
  · split
    · have hclose := (htouch.message .info (ascii "data connection closed\n")).mapXfer t
        (f := fun x => { x with fp := none }) fun _ => rfl
      exact (hclose.callDone t).mapFtp rfl rfl rfl rfl rfl
    · exact (htouch.storeBytes t buf).mapXfer t fun _ => rfl
  · exact htouch

theorem runDproc (h : Upkeep g n R w) (p : DProc) (buf : Bytes) : Upkeep g n R (p.run buf w) := by
  cases p with
  | list r => exact h.dprocList r buf
  | xfer t => exact h.dprocXfer t buf

theorem cprocActive (h : Upkeep g n R w) (code : Int) :
    Upkeep g n R (Visftp.cprocActive code w).2 := by
  rw [Visftp.cprocActive]
  split
  · exact (h.message _ _).ftpClose
  · dsimp only
    exact h.mapFtp rfl rfl rfl rfl rfl

theorem noPasv (h : Upkeep g n R w) : Upkeep g n R (Visftp.noPasv w).2 :=
  Upkeep.ftpActive (w := w.mapFtp fun f => { f with passive := false })
    (h.mapFtp rfl rfl rfl rfl rfl)

theorem cprocPasv (h : Upkeep g n R w) (code : Int) (buf : Bytes) :
    Upkeep g n R (Visftp.cprocPasv code buf w).2 := by
  have hdata : ∀ (w : World α) fd, Upkeep g n R w →
      Upkeep g n R (w.mapFtp fun f => { f with data := fd }) := fun w fd h =>
    h.mapFtp rfl rfl rfl rfl rfl
  have hopened : ∀ w : World α, Upkeep g n R w →
      Upkeep g n R ((w.emit .opened).mapFtp fun f => { f with status := .pasv }) := fun w h =>
    Upkeep.mapFtp (h.emit (e := .opened) rfl) rfl rfl rfl rfl rfl
  rw [Visftp.cprocPasv]
  split
  · exact (h.message _ _).noPasv
  split
  · exact (h.message _ _).noPasv
  dsimp only
  split
  · exact (hdata _ _ h.socket).noPasv
  split
  · exact (hdata _ _ (((hdata _ _ h.socket).message _ _).connect.message _ _)).noPasv
  · exact hopened _ ((hdata _ _ h.socket).message _ _).connect

theorem cprocPwd (h : Upkeep g n R w) (code : Int) (buf : Bytes) :
    Upkeep g n R (Visftp.cprocPwd code buf w).2 := by
  rw [Visftp.cprocPwd]
  split
  · exact h.message _ _
  split
  · exact h.message _ _
  · dsimp only
    exact h.mapFtp rfl rfl rfl rfl rfl

theorem cprocList (h : Upkeep g n R w) (code : Int) : Upkeep g n R (Visftp.cprocList code w).2 := by
  rw [Visftp.cprocList]
  split
  · exact h
  split
  · exact h.message _ _
  · exact h

theorem cprocXfer (h : Upkeep g n R w) (t : ℕ) (code : Int) (buf : Bytes) :
    Upkeep g n R (Visftp.cprocXfer t code buf w).2 := by
  rw [Visftp.cprocXfer]
  split
  · split
    · next total _ =>
      exact (h.mapXfer t (f := fun x => { x with total := total }) fun _ => rfl).emit
        (e := .touch t) rfl
    · exact h
  split
  · exact Upkeep.callDone (Upkeep.emit (h.message _ _) rfl) t
  · exact h

theorem cprocCwd (h : Upkeep g n R w) (hwait : WaitKeeps g n R wait) (code : Int) :
    Upkeep g n R (Visftp.cprocCwd wait code w).2 := by
  rw [Visftp.cprocCwd]
  split
  · exact h.message _ _
  · exact (h.ftpQueue .pwd trivial hwait).ftpQueue .list trivial hwait

/-- A reply handler. Only `cproc_cwd` begins operations. -/
theorem runCproc (h : Upkeep g n R w) (p : CProc) (hwait : p = .cwd → WaitKeeps g n R wait)
    (code : Int) (buf : Bytes) : Upkeep g n R (p.run wait code buf w).2 := by
  cases p with
  | active => exact h.cprocActive code
  | pasv => exact h.cprocPasv code buf
  | pwd => exact h.cprocPwd code buf
  | cwd => exact h.cprocCwd (hwait rfl) code
  | list r => exact h.cprocList code
  | xfer t => exact h.cprocXfer t code buf

theorem newconn (h : Upkeep g n R w) (hwait : WaitKeeps g n R wait) :
    Upkeep g n R (Visftp.newconn wait w) :=
  ((h.ftpQueue (.type (ascii "I")) trivial hwait).ftpQueue .pwd trivial hwait).ftpQueue .list
    trivial hwait

theorem login (h : Upkeep g n R w) (hwait : WaitKeeps g n R wait) (code : Int) :
    Upkeep g n R (Visftp.login wait code w) := by
  have hzero : Upkeep g n R (w.mapFtp fun f => { f with busy := 0 }) :=
    h.mapFtp rfl rfl rfl rfl rfl
  unfold Visftp.login
  dsimp only
  split
  · exact hzero.sendcmd (c := .user _) (by rw [hzero.user]; rfl)
  split
  · exact hzero.sendcmd (c := .pass _) (by rw [hzero.pass]; rfl)
  split
  · exact (hzero.message _ _).newconn hwait
  split
  · exact Upkeep.message (hzero.mapFtp rfl rfl rfl rfl rfl) _ _
  · exact hzero.mapFtp rfl rfl rfl rfl rfl

theorem settle {r : Int × World α} (h : Upkeep g n R r.2) : Upkeep g n R (Visftp.settle r) := by
  rw [Visftp.settle]
  split
  · exact h.mapFtp rfl rfl rfl rfl rfl
  · exact h

/-! ### The control connection -/

/-- A reply is passed on, and is the last one. -/
theorem deliver (h : Upkeep g n R w) {P : Int → Prop} {code : Int} (hcode : P code)
    (hwait : w.ftp.cproc = none ∨ w.ftp.cproc = some .cwd → WaitKeeps g n P wait) (buf : Bytes) :
    Upkeep g n P (Visftp.deliver wait code buf w) := by
  have hgot : Upkeep g n P ((w.mapFtp fun f => { f with lastResp := code }).emit
      (.reply code w.ftp.cproc w.ftp.busy buf)) := (h.setResp hcode).emit rfl
  cases hp : w.ftp.cproc with
  | none =>
    rw [deliver_of_none hp]
    exact hgot.login (hwait (.inl hp)) code
  | some p =>
    rw [deliver_of_some hp]
    exact (hgot.runCproc p (fun hcwd => hwait (.inr (hcwd ▸ hp))) code buf).settle

/-- **One line of the control connection.** -/
theorem procControl (h : Upkeep g n R w) (hR : ∀ code, 0 < code → R code)
    (hwait : WaitKeeps g n R wait) (buf : Bytes) :
    Upkeep g n R (Visftp.procControl wait buf w) := by
  unfold Visftp.procControl
  dsimp only
  split
  · exact (h.message _ _).message _ _
  split
  · exact h.message _ _
  · exact (h.message _ _).deliver (hR _ (by omega)) (fun _ => hwait) _

theorem scanBytes (h : Upkeep g n R w) (hR : ∀ code, 0 < code → R code)
    (hwait : WaitKeeps g n R wait) (bs cur : Bytes) (seen : Bool) :
    Upkeep g n R (Visftp.scanBytes wait bs cur seen w) := by
  induction bs generalizing cur seen w with
  | nil => exact h.mapFtp rfl rfl rfl rfl rfl
  | cons b bs ih =>
    rw [Visftp.scanBytes]
    split
    · exact ih h _ _
    split
    · exact ih (Upkeep.procControl (w := w.emit (.line cur)) (h.emit rfl) hR hwait _) _ _
    · exact ih h _ _

theorem handleControlLoop (h : Upkeep g n R w) (hR : ∀ code, 0 < code → R code)
    (hwait : WaitKeeps g n R wait) (fuel : ℕ) :
    Upkeep g n R (Visftp.handleControlLoop wait fuel w).2 := by
  induction fuel generalizing w with
  | zero => exact h
  | succ fuel ih =>
    rw [Visftp.handleControlLoop]
    set w₁ := if crecvSize ≤ w.ftp.crecv.length then
        warnmsg (ascii "discard buffer\n") (w.mapFtp fun f => { f with crecv := [] })
      else w with hw₁
    have hfirst : Upkeep g n R w₁ := by
      rw [hw₁]
      split
      · exact Upkeep.message (h.mapFtp rfl rfl rfl rfl rfl) _ _
      · exact h
    set r := recvCtl (crecvSize - w₁.ftp.crecv.length) w₁ with hr
    have hasked : Upkeep g n R r.2 := by
      rw [hr, recvCtl]
      split
      · exact hfirst
      · exact hfirst.setEnv _
    split
    · exact ih hasked
    · exact hasked
    · exact hasked.ftpClose
    · next b hdata =>
      obtain ⟨hctl, -⟩ := recvCtl_spec (hr ▸ hdata) (by simp)
      have hrecv : Upkeep g n R (r.2.emit (.recv b)) :=
        hasked.emitOf (by simp) (hasked.hangup_notMem hctl) (by simp) (by simp)
      exact ih (hrecv.scanBytes hR hwait _ _ _)

/-! ### The event handler -/

theorem callDproc (h : Upkeep g n R w) (buf : Bytes) : Upkeep g n R (Visftp.callDproc buf w) := by
  rw [Visftp.callDproc]
  split
  · exact h
  · exact h.runDproc _ buf

theorem handleDataLoop (h : Upkeep g n R w) (k : ℕ) : Upkeep g n R (Visftp.handleDataLoop k w) := by
  induction k generalizing w with
  | zero => exact h
  | succ k ih =>
    rw [Visftp.handleDataLoop]
    have hasked : Upkeep g n R (recvData 256 w).2 := h.setEnv _
    dsimp only
    split
    · exact ih hasked
    · exact hasked
    · exact Upkeep.mapFtp (Upkeep.callDproc (hasked.emit rfl) []) rfl rfl rfl rfl rfl
    · next b _ => exact ih (Upkeep.callDproc (hasked.emit rfl) b)

theorem handleData (h : Upkeep g n R w) : Upkeep g n R (Visftp.handleData w) := by
  rw [Visftp.handleData]
  split
  · exact h
  · exact h.handleDataLoop 4

theorem acceptData (h : Upkeep g n R w) : Upkeep g n R (Visftp.acceptData w) := by
  have hasked : Upkeep g n R (accept w).2 := h.setEnv _
  have hdata : Upkeep g n R ((accept w).2.mapFtp fun f => { f with data := (accept w).1 }) :=
    hasked.mapFtp rfl rfl rfl rfl rfl
  rw [Visftp.acceptData]
  dsimp only
  split
  · exact hasked
  split
  · exact hdata
  · exact Upkeep.emit (hdata.emit (e := .incoming) rfl) rfl

/-- The end of `ftp_handle`. -/
theorem runQueue (h : Upkeep g n R w)
    (hwait : w.ftp.data = none → w.ftp.passive = true → WaitKeeps g n R wait) :
    Upkeep g n R (Visftp.runQueue wait w) := by
  rw [Visftp.runQueue]
  split
  · have hassert : Upkeep g n R (if w.ftp.busy = 0 then w else w.emit .assertFailed) := by
      split
      · exact h
      · exact h.emit rfl
    refine Upkeep.execQueued (hassert.mapFtp rfl rfl rfl rfl rfl) ?_
    split <;> exact hwait
  · exact h

/-- `ftp_handle` of the control connection. -/
theorem ftpHandleWith_ctl (h : Upkeep g n R w) (hR : ∀ code, 0 < code → R code)
    (hwait : WaitKeeps g n R wait) : Upkeep g n R (ftpHandleWith wait w.ftp.ctl w) := by
  rw [ftpHandleWith, if_pos rfl]
  have hcontrol : Upkeep g n R (handleControl wait w).2 := h.handleControlLoop hR hwait _
  dsimp only
  split
  · exact hcontrol
  · exact hcontrol.runQueue fun _ _ => hwait

theorem ftpHandleWith (h : Upkeep g n R w) (hR : ∀ code, 0 < code → R code)
    (hwait : WaitKeeps g n R wait) (fd : Option Fd) :
    Upkeep g n R (Visftp.ftpHandleWith wait fd w) := by
  by_cases hctl : fd = w.ftp.ctl
  · rw [hctl]
    exact h.ftpHandleWith_ctl hR hwait
  rw [Visftp.ftpHandleWith, if_neg hctl]
  split
  · exact h.handleData.runQueue fun _ _ => hwait
  split
  · exact h.acceptData.runQueue fun _ _ => hwait
  · exact h.runQueue fun _ _ => hwait

end Upkeep

/-! ### The wait -/

section Run

variable {g : Given} {n : ℕ} {w : World α}

theorem Upkeep.mono {R P : Int → Prop} (h : Upkeep g n R w) (hRP : ∀ c, R c → P c) :
    Upkeep g n P w :=
  { h with resp := hRP _ h.resp }

/-- **The wait** ends with the first event, so it is not resumed on a connection that was closed in
the meantime. -/
theorem upkeep_waitLoop (k : ℕ) {R : Int → Prop} (hR : ∀ c, c = -1 ∨ 0 < c → R c) (t : Int)
    (h : Upkeep g n R w) (hstall : w.ftp.ctl = none → Stalled w.log) :
    Upkeep g n R (waitLoop k t w).2 := by
  induction k generalizing R t w with
  | zero => exact h
  | succ k ih =>
    rw [waitLoop]
    set w₁ := if w.ftp.ctl = none then w.emit .badSelect else w with hw₁
    have hfirst : Upkeep g n R w₁ ∧ (w₁.ftp.ctl = none → Stalled w₁.log) := by
      rw [hw₁]
      split
      · next hctl =>
        have hlog := hstall hctl
        exact ⟨h.emitOf (by simp) trivial (by simp) fun _ => hlog, fun _ => hlog.cons _⟩
      · exact ⟨h, hstall⟩
    dsimp only
    set r := w₁.ask Env.selects (fun l e => { e with selects := l }) (.woke false t.toNat) with hr
    have hasked : Upkeep g n R r.2 ∧ (r.2.ftp.ctl = none → Stalled r.2.log) :=
      ⟨hfirst.1.setEnv _, hfirst.2⟩
    split
    · exact ih hR t hasked.1 hasked.2
    · next ready elapsed hres =>
      set w₂ := if ready then ftpHandleWith
          (fun t w => waitLoop k t (w.mapFtp fun f => { f with lastResp := -1 })) r.2.ftp.ctl
          (r.2.mapFtp fun f => { f with lastResp := -1 }) else r.2 with hw₂
      cases ready with
      | true =>
        -- the last reply is known behind the event
        have hP : ∀ c : Int, c = -1 ∨ 0 < c → R c ∧ c ≠ 0 := fun c hc => ⟨hR c hc, by omega⟩
        have hwait : WaitKeeps g n (fun c => R c ∧ c ≠ 0)
            fun t (w : World α) => waitLoop k t (w.mapFtp fun f => { f with lastResp := -1 }) :=
          fun t w hw hs => ih hP t (hw.setResp (hP (-1) (.inl rfl))) hs
        have hset : Upkeep g n (fun c => R c ∧ c ≠ 0)
            (r.2.mapFtp fun f => { f with lastResp := -1 }) :=
          hasked.1.setResp (hP (-1) (.inl rfl))
        have hhandle : Upkeep g n (fun c => R c ∧ c ≠ 0) w₂ :=
          hset.ftpHandleWith_ctl (fun c hc => hP c (.inr hc)) hwait
        rw [if_pos ⟨rfl, hhandle.resp.2⟩]
        exact hhandle.mono fun _ => And.left
      | false =>
        have hnot : ¬(false = true ∧ w₂.ftp.lastResp ≠ 0) := fun hc => absurd hc.1 (by decide)
        rw [if_neg hnot]
        split
        · split
          · exact hasked.1
          · exact ih hR _ hasked.1 hasked.2
        · exact ih hR t hasked.1 hasked.2

theorem waitKeeps_ftpWaitresp (k : ℕ) {R : Int → Prop} (hR : ∀ c, c = -1 ∨ 0 < c → R c) :
    WaitKeeps (α := α) g n R (ftpWaitresp k) :=
  fun t _ hw hs => upkeep_waitLoop k hR t (hw.setResp (hR (-1) (.inl rfl))) hs

/-! ### Runs -/

/-- The strings an input of the main loop gives to the client. -/
def Input.From (g : Given) : Input α → Prop
  | .queue (.chdir d) _ => g.dirs d
  | .transfer x => g.names x.rname
  | _ => True

theorem upkeep_newXfer (h : Upkeep g n (fun _ => True) w) {x : Xfer α} (hx : g.names x.rname) :
    Upkeep g (n + 1) (fun _ => True) (w.newXfer x) := by
  have hmade := h.made
  have hheap : Upkeep g (n + 1) (fun _ => True) { w with
      xfers := Function.update w.xfers w.nxfer { x with toJob := x.toJob.fresh w.nxfer }
      files := Function.update w.files w.nxfer []
      nxfer := w.nxfer + 1 } := by
    refine ⟨h.user, h.pass, congrArg (· + 1) hmade, fun op hop => ?_, fun t ht => ?_, h.sent,
      trivial, h.closed, h.silent, h.stalled⟩
    · have hop' := h.queue op hop
      cases op with
      | xfer t => exact Nat.lt_succ_of_lt hop'
      | _ => exact hop'
    · rcases eq_or_ne t w.nxfer with rfl | hne
      · simpa [Job.fresh] using hx
      · simpa [hne] using h.names t (by omega)
  exact hheap.emit (e := .made w.nxfer (x.toJob.fresh w.nxfer)) rfl

/-- **One call** of the main loop. -/
theorem upkeep_step (env : Env) {i : Input α} (hi : i.From g) (h : Upkeep g n (fun _ => True) w) :
    ∃ n', Upkeep g n' (fun _ => True) (w.step env i) := by
  have hR : ∀ c : Int, c = -1 ∨ 0 < c → True := fun _ _ => trivial
  have henv : Upkeep g n (fun _ => True) { w with env := env } := h.setEnv env
  cases i with
  | queue op hop =>
    refine ⟨n, henv.ftpQueue _ ?_ (waitKeeps_ftpWaitresp _ hR)⟩
    cases op with
    | chdir d => exact hi
    | xfer t => simp [Op.transfer?] at hop
    | _ => trivial
  | transfer x =>
    have hlt : w.nxfer < n + 1 := Nat.lt_succ_of_le h.made.le
    exact ⟨n + 1, (upkeep_newXfer henv hi).ftpQueueTransfer hlt (waitKeeps_ftpWaitresp _ hR)⟩
  | handle fd =>
    exact ⟨n, henv.ftpHandleWith (fun _ _ => trivial) (waitKeeps_ftpWaitresp _ hR) (some fd)⟩

/-- **Whole runs**, of a client that has just been connected. -/
theorem upkeep_run (g : Given) (ctl : Fd) (app : α) (inputs : List (Env × Input α))
    (hin : ∀ i ∈ inputs, i.2.From g) :
    ∃ n, Upkeep g n (fun _ => True) ((World.connected ctl g.user g.pass app).run inputs) := by
  have hstart : Upkeep g 0 (fun _ => True) (World.connected ctl g.user g.pass app) :=
    { user := rfl
      pass := rfl
      made := rfl
      queue := by simp [World.connected]
      names := fun t ht => absurd ht (Nat.not_lt_zero t)
      sent := by simp [World.connected]
      resp := trivial
      closed := by simp [World.connected]
      silent := trivial
      stalled := by simp [World.connected] }
  have hrun : ∀ w : World α, (∃ n, Upkeep g n (fun _ => True) w) →
      ∃ n, Upkeep g n (fun _ => True) (w.run inputs) := by
    induction inputs with
    | nil => exact fun _ h => h
    | cons i inputs ih =>
      rintro w ⟨n, h⟩
      have hstep := upkeep_step i.1 (hin i List.mem_cons_self) h
      exact ih (fun j hj => hin j (List.mem_cons_of_mem i hj)) _ hstep
  exact hrun _ ⟨0, hstart⟩

end Run

end Visftp
