import Visftp.Refinement

/-!
# Every call into the client is a sequence of moves

The one recursion of the client goes through `ftp_waitresp`: `ftp_handle` begins an operation, the
operation waits, the wait calls `ftp_handle`. Here that recursion is taken apart once and for all.
A `Move` is a step of the session or one round of `handle_control`; `runs_run` says that a run of
the client is a sequence of moves, whatever it waits for, and that between two calls of the main
loop no operation is under way. Every invariant of the client is then proved move by move.

## Main results

* `Move`, `Move.steps` — moves, and their view as steps of the session
* `runs_execOp`, `runs_waitLoop` — an operation that waits, and the wait
* `runs_run` — whole runs
-/

namespace Visftp

open CString Session Relation

variable {α : Type}

/-! ### What leaves the entries alone -/

namespace Session

variable {s s' : Session} {op : Op}

theorem dirent_simple (op : Op) (s : Session) : (s.simple op).dirent = s.dirent := by
  cases op with
  | type arg =>
    rw [simple]
    split <;> rfl
  | _ => rfl

theorem dirent_active (sa : Option (ℕ × ℕ)) (s : Session) : (s.active sa).dirent = s.dirent := by
  rcases sa with - | ⟨a, p⟩ <;> rfl

theorem Start.dirent_eq (h : Start op s s') : s'.dirent = s.dirent := by
  cases h with
  | @transfer t _ hd =>
    rw [startTransfer]
    split <;> rfl
  | _ => rfl

theorem Exec.dirent_eq (h : Exec op s s') : s'.dirent = s.dirent := by
  cases h with
  | simple => exact dirent_simple op (s.enter op)
  | atOnce hop hd hs => exact hs.dirent_eq
  | noData sa => exact dirent_active sa (s.enter op)
  | wait => rfl

theorem Queue.dirent_eq (h : Queue op s s') : s'.dirent = s.dirent := by
  cases h with
  | direct => exact dirent_simple op _
  | append => rfl
  | full => rfl

theorem Reply.dirent_eq {code : Int} {buf : Bytes} (h : Reply code buf s s') :
    s'.dirent = s.dirent := by
  cases h with
  | pasvFall sa => exact dirent_active sa _
  | cwdOk h hc h₁ h₂ => exact h₂.dirent_eq.trans h₁.dirent_eq
  | loginDone h hc h₁ h₂ h₃ => exact h₃.dirent_eq.trans (h₂.dirent_eq.trans h₁.dirent_eq)
  | _ => rfl

theorem Chunk.dirent_eq {b : Bytes} (h : Chunk b s s') : s'.dirent = s.dirent := by
  cases h <;> rfl

end Session

/-! ### Moves -/

/-- **One move of the client**: a step of the session apart from the control connection, or one
of the things `handle_control` does with received bytes. -/
inductive Move : World α → World α → Prop
  /-- Nothing that a session shows. -/
  | quiet {w w'} (h : w'.view = w.view) : Move w w'
  /-- A step of the session. -/
  | act {w w'} (h : Act w.view w'.view) : Move w w'
  /-- The line buffer is full. -/
  | discard {w} (h : crecvSize ≤ w.ftp.crecv.length) :
      Move w (w.mapFtp fun f => { f with crecv := [] })
  /-- Received bytes are scanned. -/
  | scan {w} (wait : Int → World α → Int × World α) (b : Bytes) (hctl : w.ftp.ctl ≠ none)
      (hb : b ≠ []) (hlen : b.length ≤ crecvSize - w.ftp.crecv.length) :
      Move w (scanBytes wait b w.ftp.crecv false (w.emit (.recv b)))
  /-- The server has closed the control connection. -/
  | hangup {w} (hctl : w.ftp.ctl ≠ none) : Move w (ftpClose w)

variable {w w' w₀ w₁ w₂ w₃ : World α} {wait : Int → World α → Int × World α}

/-- A sequence of moves that leaves as many operations under way as there were. -/
def Runs (w w' : World α) : Prop := ReflTransGen Move w w' ∧ stack w'.log = stack w.log

theorem Runs.refl (w : World α) : Runs w w := ⟨.refl, rfl⟩

theorem Runs.trans (h : Runs w₁ w₂) (h' : Runs w₂ w₃) : Runs w₁ w₃ :=
  ⟨h.1.trans h'.1, h'.2.trans h.2⟩

theorem stack_of_view_eq (h : w'.view = w.view) : stack w'.log = stack w.log :=
  congrArg (fun s : Session => stack s.log) h

theorem Runs.quiet (h : w'.view = w.view) : Runs w w' := ⟨.single (.quiet h), stack_of_view_eq h⟩

theorem Runs.act (h : Act w.view w'.view) (hs : stack w'.log = stack w.log) : Runs w w' :=
  ⟨.single (.act h), hs⟩

/-- Such a sequence that leaves the entries of the remote directory alone. Only data handlers write
them, and these are called by nothing but the main loop. -/
structure Keeps (w w' : World α) : Prop where
  runs : Runs w w'
  dirent_eq : w'.ftp.dirent = w.ftp.dirent

namespace Keeps

theorem refl (w : World α) : Keeps w w := ⟨.refl w, rfl⟩

theorem trans (h : Keeps w₁ w₂) (h' : Keeps w₂ w₃) : Keeps w₁ w₃ :=
  ⟨h.runs.trans h'.runs, h'.dirent_eq.trans h.dirent_eq⟩

theorem quiet (h : w'.view = w.view) : Keeps w w' := ⟨.quiet h, congrArg Session.dirent h⟩

/-- `ftp->last_resp = -1` -/
theorem resetLastResp (w : World α) : Keeps w (w.mapFtp fun f => { f with lastResp := -1 }) :=
  .quiet rfl

theorem act (h : Act w.view w'.view) (hs : stack w'.log = stack w.log)
    (hd : w'.ftp.dirent = w.ftp.dirent) : Keeps w w' := ⟨.act h hs, hd⟩

end Keeps

/-! ### Received bytes -/

theorem Recv.of_clip_eq_data {sz : ℕ} {a : Recv} {b : Bytes} (h : a.clip sz = .data b) :
    b ≠ [] ∧ b.length ≤ sz := by
  cases a with
  | data c =>
    rw [Recv.clip] at h
    split at h
    · next hc =>
      obtain rfl : c = b := by simpa using h
      exact hc
    · simp at h
  | _ => simp [Recv.clip] at h

/-- **The rule for received bytes**: what holds before the scan, and is kept by each line and by
writing the line buffer, holds after it. A line meets an open connection, or `cproc_active`. -/
theorem scanBytes_induction {I : World α → Prop} (wait : Int → World α → Int × World α)
    (hline : ∀ w cur, (w.view.ctl = true ∨ w.view.cproc = some .active) → I w →
      I (procControl wait (cstr cur) (w.emit (.line cur))))
    (hcarry : ∀ (w : World α) c, I w → I (w.mapFtp fun f => { f with crecv := c }))
    (bs cur : Bytes) (seen : Bool) (hs : w.view.ctl = true ∨ w.view.cproc = some .active)
    (h : I w) : I (scanBytes wait bs cur seen w) := by
  induction bs generalizing cur seen w with
  | nil => exact hcarry w _ h
  | cons b bs ih =>
    rw [scanBytes]
    split
    · exact ih _ _ hs h
    split
    · refine ih _ _ ?_ (hline w cur hs h)
      rcases reply_procControl wait (cstr cur) (w := w.emit (.line cur)) hs with ⟨-, hv⟩ | ⟨-, hr⟩
      · rw [hv]
        exact hs
      · exact hr.keeps_open hs
    · exact ih _ _ hs h

/-- `ftp_waitresp` is not called for received bytes: the scan is a sequence of steps. -/
theorem steps_scanBytes (wait : Int → World α → Int × World α) (bs cur : Bytes) (seen : Bool)
    (hs : w.view.ctl = true ∨ w.view.cproc = some .active) :
    ReflTransGen Step w.view (scanBytes wait bs cur seen w).view ∧
      stack (scanBytes wait bs cur seen w).log = stack w.log := by
  refine scanBytes_induction wait (I := fun w' =>
    ReflTransGen Step w.view w'.view ∧ stack w'.log = stack w.log) ?_ ?_ bs cur seen hs ⟨.refl, rfl⟩
  · rintro w' cur hs' ⟨hsteps, hstack⟩
    set g := w'.emit (.line cur) with hg
    have hline : ReflTransGen Step w.view g.view := hsteps.tail (.line cur)
    rcases reply_procControl wait (cstr cur) (w := g) hs' with ⟨-, hv⟩ | ⟨hc, hr⟩
    · exact ⟨by rw [hv]; exact hline, (stack_of_view_eq hv).trans hstack⟩
    · exact ⟨hline.tail (.reply _ _ hc hs' hr), hr.stack_eq.trans hstack⟩
  · rintro w' c ⟨hsteps, hstack⟩
    exact ⟨hsteps.tail (.carry c), hstack⟩

theorem view_ctl_of_ne_none (h : w.ftp.ctl ≠ none) : w.view.ctl = true :=
  Option.isSome_iff_ne_none.mpr h

/-- Every move is a sequence of steps of the session. -/
theorem Move.steps (h : Move w w') : ReflTransGen Step w.view w'.view := by
  cases h with
  | quiet h => rw [h]
  | act h => exact .single (.act h)
  | discard h => exact .single (.carry [])
  | scan wait b hctl hb hlen =>
    have hsteps := steps_scanBytes wait b w.ftp.crecv false (w := w.emit (.recv b))
      (.inl (view_ctl_of_ne_none hctl))
    exact .head (.recv b) hsteps.1
  | hangup hctl =>
    rw [view_ftpClose]
    exact .single (.hangup (view_ctl_of_ne_none hctl))

/-- Replies leave the entries alone. -/
theorem dirent_scanBytes (wait : Int → World α → Int × World α) (bs cur : Bytes) (seen : Bool)
    (hs : w.view.ctl = true ∨ w.view.cproc = some .active) :
    (scanBytes wait bs cur seen w).ftp.dirent = w.ftp.dirent := by
  refine scanBytes_induction wait (I := fun w' => w'.ftp.dirent = w.ftp.dirent) ?_
    (fun _ _ h => h) bs cur seen hs rfl
  intro w' cur hs' h
  rcases reply_procControl wait (cstr cur) (w := w'.emit (.line cur)) hs' with ⟨-, hv⟩ | ⟨-, hr⟩
  · exact (congrArg Session.dirent hv).trans h
  · exact hr.dirent_eq.trans h

theorem Keeps.scan (wait : Int → World α → Int × World α) {b : Bytes} (hctl : w.ftp.ctl ≠ none)
    (hb : b ≠ []) (hlen : b.length ≤ crecvSize - w.ftp.crecv.length) :
    Keeps w (scanBytes wait b w.ftp.crecv false (w.emit (.recv b))) where
  runs := ⟨.single (.scan wait b hctl hb hlen),
    (steps_scanBytes wait b w.ftp.crecv false (w := w.emit (.recv b))
      (.inl (view_ctl_of_ne_none hctl))).2⟩
  dirent_eq := dirent_scanBytes wait b w.ftp.crecv false (w := w.emit (.recv b))
    (.inl (view_ctl_of_ne_none hctl))

theorem Keeps.hangup (hctl : w.ftp.ctl ≠ none) : Keeps w (ftpClose w) where
  runs := ⟨.single (.hangup hctl), by
    have h : (ftpClose w).log = w.view.close.log := congrArg Session.log (view_ftpClose w)
    rw [h, stack_close]
    rfl⟩
  dirent_eq := congrArg Session.dirent (view_ftpClose w)

/-- What `recv` on the control connection can answer. -/
theorem recvCtl_spec {sz : ℕ} {a : Recv} (h : (recvCtl sz w).1 = a) (ha : a ≠ .again) :
    (recvCtl sz w).2.ftp.ctl ≠ none ∧ ∀ b, a = .data b → b ≠ [] ∧ b.length ≤ sz := by
  rw [recvCtl] at h ⊢
  split at h
  · exact absurd h.symm ha
  · next hctl =>
    rw [if_neg hctl]
    refine ⟨hctl, ?_⟩
    rintro b rfl
    exact Recv.of_clip_eq_data h

/-! ### Operations -/

/-- `exec_op` of an operation that waits: a `PASV` is sent, other things happen, and the operation
is resumed. -/
theorem start_execOp {op : Op} (wait : Int → World α → Int × World α) (hop : op.needsData = true)
    (hd : w₀.ftp.data = none) (hp : w₀.ftp.passive = true)
    (hw : w₂ = (wait timeout (ftpPassive (w₀.enter op))).2) :
    ∃ w₃ : World α, execOp wait op w₀ = w₃.emit .ret ∧
      Start op (w₂.view.emit (.wake w₂.view.data)) w₃.view := by
  set w₁ := w₂.emit (.wake w₂.ftp.data.isSome) with hw₁
  have hexec : execOp wait op w₀ =
      (if w₁.ftp.data = none then w₁ else startOp op w₁).emit .ret := by
    have hprep : prepareData wait (w₀.enter op) = (if w₁.ftp.data = none then -1 else 0, w₁) := by
      rw [prepareData, if_neg (by exact not_not.mpr hd), if_pos (by exact hp), hw₁, hw]
    rw [execOp_of_needsData hop, hprep]
    split <;> simp
  refine ⟨_, hexec, ?_⟩
  change Start op w₁.view _
  split
  · next hd₁ => exact .none (view_data_eq_false.mpr hd₁)
  · next hd₁ => exact start_startOp hop (Option.isSome_iff_ne_none.mpr hd₁)

section Wait

variable (hwait : ∀ t (w : World α), Keeps w (wait t w).2)

include hwait

/-- `exec_op`, from the state `w` that begins the operation by some step. -/
theorem keeps_execOp {op : Op} (hact : ∀ s, Exec op w₀.view s → Act w.view s)
    (hst : stack w₀.log = stack w.log) (hents : w₀.ftp.dirent = w.ftp.dirent) :
    Keeps w (execOp wait op w₀) := by
  by_cases hn : op.needsData = true → w₀.ftp.data ≠ none ∨ w₀.ftp.passive = false
  · have h : Exec op w₀.view (execOp wait op w₀).view := exec_execOp hn
    refine .act (hact _ h) ((h.stack_eq fun h' => ?_).trans hst) (h.dirent_eq.trans hents)
    rcases hn h' with hd | hp
    · exact .inl (Option.isSome_iff_ne_none.mpr hd)
    · exact .inr hp
  · obtain ⟨hop, hn⟩ := Classical.not_imp.mp hn
    obtain ⟨hd, hp⟩ := not_or.mp hn
    rw [not_not] at hd
    rw [Bool.not_eq_false] at hp
    -- the operation is begun, and waits
    set w₁ := ftpPassive (w₀.enter op) with hw₁
    have hv₁ : w₁.view = (w₀.view.enter op).askPasv := view_ftpPassive _
    have hst₁ : stack w₁.log = op :: stack w.log := by
      have h : stack w₁.view.log = op :: stack w₀.log := by
        rw [hv₁, stack_askPasv]
        rfl
      rw [← hst]
      exact h
    have hbegin : Move w w₁ := .act (hact _ (hv₁ ▸ .wait hop (view_data_eq_false.mpr hd) hp))
    -- other things happen, and the operation is resumed
    have hmid : Keeps w₁ (wait timeout w₁).2 := hwait timeout w₁
    have hst₂ : stack (wait timeout w₁).2.log = op :: stack w.log := hmid.runs.2.trans hst₁
    obtain ⟨w₃, hexec, hstart⟩ := start_execOp wait hop hd hp rfl
    have hst₃ : stack w₃.log = op :: stack w.log := hstart.stack_eq.trans hst₂
    have hact₃ : Act (wait timeout w₁).2.view (w₃.view.emit .ret) := .resume hst₂ hstart
    have hend : Move (wait timeout w₁).2 (w₃.emit .ret) := .act hact₃
    rw [hexec]
    refine ⟨⟨(ReflTransGen.single hbegin).trans (hmid.runs.1.tail hend), ?_⟩, ?_⟩
    · rw [World.emit, stack, hst₃, List.tail_cons]
    · have hasked : w₁.ftp.dirent = w₀.ftp.dirent := congrArg Session.dirent hv₁
      exact hstart.dirent_eq.trans (hmid.dirent_eq.trans (hasked.trans hents))

/-- `exec_queued` -/
theorem keeps_execQueued (hb : w.view.busy = 0) : Keeps w (execQueued wait w) := by
  rw [execQueued]
  cases hl : w.ftp.queue.toList with
  | nil =>
    rw [LinkedFifo.pop_of_toList_nil hl]
    exact .refl w
  | cons op ops =>
    obtain ⟨q, hq, hops⟩ := LinkedFifo.pop_of_toList_cons hl
    rw [hq]
    refine keeps_execOp hwait (fun s hs => .next hb hl ?_) rfl rfl
    have hv : (w.mapFtp fun f => { f with queue := q }).view = { w.view with queue := ops } := by
      rw [← hops]
      rfl
    exact hv ▸ hs

/-- The end of `ftp_handle`. -/
theorem keeps_runQueue : Keeps w (runQueue wait w) := by
  rw [runQueue]
  split
  · next hle =>
    by_cases hb : w.ftp.busy = 0
    · rw [if_pos hb]
      refine Keeps.trans (.quiet ?_) (keeps_execQueued hwait rfl)
      rw [← hb]
      rfl
    · rw [if_neg hb]
      set w₁ := (w.emit .assertFailed).mapFtp fun f => { f with busy := 0 } with hw₁
      have hneg : Act w.view w₁.view := .assert (lt_of_le_of_ne hle hb)
      exact Keeps.trans (.act hneg rfl rfl) (keeps_execQueued hwait rfl)
  · exact .refl w

/-- `ftp_queue`, called by the main loop. -/
theorem keeps_ftpQueue (op : Op) (hop : op.transfer? = none) (hs : stack w.log = []) :
    Keeps w (ftpQueue wait op w).2 := by
  by_cases hq : w.view.busy = 0 ∧ w.view.queue = []
  · rw [ftpQueue, submit_of_idle hq]
    exact keeps_execOp hwait (fun s h => .direct hs hop hq.1 hq.2 h) rfl rfl
  · rcases view_submit_of_blocked wait (allocates_alloc op) op hq with h | h
    · refine .act (h ▸ .append hs hop hq) ?_ (congrArg Session.dirent h)
      exact congrArg (fun s : Session => stack s.log) h
    · refine .act (h ▸ .refuse hs hq) ?_ (congrArg Session.dirent h)
      exact congrArg (fun s : Session => stack s.log) h

omit hwait in
theorem view_newXfer (x : Xfer α) (w : World α) :
    (w.newXfer x).view = w.view.addJob x.toJob := by
  simp only [World.view, World.newXfer, World.emit, addJob, Session.mk.injEq, true_and, and_true]
  funext t
  by_cases ht : t = w.nxfer
  · subst ht
    simp
  · simp [ht]

/-- `ftp_queue_transfer`, called by the main loop with a new transfer. -/
theorem keeps_ftpQueueTransfer (x : Xfer α) (hs : stack w.log = []) :
    Keeps w (ftpQueueTransfer wait w.nxfer (w.newXfer x)).2 := by
  have hv := view_newXfer x w
  by_cases hq : (w.newXfer x).view.busy = 0 ∧ (w.newXfer x).view.queue = []
  · rw [ftpQueueTransfer, submit_of_idle hq]
    refine keeps_execOp hwait (fun s h => .handOverDirect x.toJob hs hq.1 hq.2 ?_) rfl rfl
    rwa [view_emit, hv] at h
  · rcases view_submit_of_blocked wait view_malloc (.xfer w.nxfer) hq with h | h
    · rw [hv] at h
      refine .act (h ▸ .handOver x.toJob hs hq) ?_ (congrArg Session.dirent h)
      exact congrArg (fun s : Session => stack s.log) h
    · rw [hv] at h
      refine .act (h ▸ .newJob x.toJob hs) ?_ (congrArg Session.dirent h)
      exact congrArg (fun s : Session => stack s.log) h

/-! ### The event handler -/

omit hwait in
theorem keeps_handleControlLoop (fuel : ℕ) (w : World α) :
    Keeps w (handleControlLoop wait fuel w).2 := by
  induction fuel generalizing w with
  | zero => exact .refl w
  | succ fuel ih =>
    rw [handleControlLoop]
    set w₁ := if crecvSize ≤ w.ftp.crecv.length then
        warnmsg (ascii "discard buffer\n") (w.mapFtp fun f => { f with crecv := [] })
      else w with hw₁
    have hfirst : Keeps w w₁ := by
      rw [hw₁]
      split
      · next h => exact Keeps.trans ⟨⟨.single (.discard h), rfl⟩, rfl⟩ (.quiet rfl)
      · exact .refl w
    refine hfirst.trans ?_
    set r := recvCtl (crecvSize - w₁.ftp.crecv.length) w₁ with hr
    have hrv : r.2.view = w₁.view := view_recvCtl _ _
    have hasked : Keeps w₁ r.2 := .quiet hrv
    split
    · exact hasked.trans (ih _)
    · exact hasked
    · next heof =>
      obtain ⟨hctl, -⟩ := recvCtl_spec (hr ▸ heof) (by simp)
      exact hasked.trans (.hangup hctl)
    · next b hdata =>
      obtain ⟨hctl, hb⟩ := recvCtl_spec (hr ▸ hdata) (by simp)
      have hcrecv : r.2.ftp.crecv = w₁.ftp.crecv := congrArg Session.crecv hrv
      have hlen := (hb b rfl).2
      rw [← hcrecv] at hlen
      exact hasked.trans ((Keeps.scan wait hctl (hb b rfl).1 hlen).trans (ih _))

omit hwait in
theorem keeps_handleControl (w : World α) : Keeps w (handleControl wait w).2 :=
  keeps_handleControlLoop _ w

omit hwait in
theorem runs_handleDataLoop (n : ℕ) (hs : stack w.log = []) (hd : w.view.data = true) :
    Runs w (handleDataLoop n w) := by
  induction n generalizing w with
  | zero => exact .refl w
  | succ n ih =>
    rw [handleDataLoop]
    set r := recvData 256 w with hr
    have hrv : r.2.view = w.view := view_recvData _ _
    have hasked : Runs w r.2 := .quiet hrv
    split
    · exact hasked.trans (ih hs hd)
    · exact hasked
    · have hstep := dataEof_callDproc r.2
      exact hasked.trans (.act (.dataEof hs hd hstep) hstep.stack_eq)
    · next b hdata =>
      have hstep := chunk_callDproc (Recv.of_clip_eq_data hdata).1 r.2
      have hact : Act r.2.view _ := .chunk b hs hd hstep
      refine hasked.trans ((Runs.act hact hstep.stack_eq).trans (ih ?_ ?_))
      · exact hstep.stack_eq.trans hs
      · exact hstep.data_eq.trans hd

omit hwait in
theorem runs_handleData (hs : stack w.log = []) : Runs w (handleData w) := by
  rw [handleData]
  split
  · exact .refl w
  · next hd => exact runs_handleDataLoop 4 hs (Option.isSome_iff_ne_none.mpr hd)

omit hwait in
theorem keeps_acceptData (hs : stack w.log = []) : Keeps w (acceptData w) := by
  rcases incoming_acceptData hs with ⟨h, hs'⟩ | h
  · refine .act h hs' ?_
    rw [acceptData]
    dsimp only
    split
    · exact congrArg Session.dirent (view_accept w)
    · split <;> exact congrArg Session.dirent (view_accept w)
  · exact .quiet h

/-- `ftp_handle` of the control connection, also from inside a wait. -/
theorem keeps_ftpHandleWith_ctl (w : World α) : Keeps w (ftpHandleWith wait w.ftp.ctl w) := by
  rw [ftpHandleWith, if_pos rfl]
  dsimp only
  have h : Keeps w (handleControl wait w).2 := keeps_handleControl w
  split
  · exact h
  · exact h.trans (keeps_runQueue hwait)

/-- `ftp_handle`, called by the main loop: the data connection is handled first, and the rest leaves
the entries alone. -/
theorem runs_ftpHandleWith (fd : Option Fd) (hs : stack w.log = []) :
    Keeps w (ftpHandleWith wait fd w) ∨
      Runs w (handleData w) ∧ Keeps (handleData w) (ftpHandleWith wait fd w) := by
  by_cases hctl : fd = w.ftp.ctl
  · rw [hctl]
    exact .inl (keeps_ftpHandleWith_ctl hwait w)
  rw [ftpHandleWith, if_neg hctl]
  split
  · exact .inr ⟨runs_handleData hs, keeps_runQueue hwait⟩
  split
  · exact .inl ((keeps_acceptData hs).trans (keeps_runQueue hwait))
  · exact .inl (keeps_runQueue hwait)

end Wait

/-- **`ftp_waitresp`**: whatever happens during a wait, and during the waits inside it. -/
theorem keeps_waitLoop (n : ℕ) (t : Int) (w : World α) : Keeps w (waitLoop n t w).2 := by
  induction n generalizing t w with
  | zero => exact .refl w
  | succ n ih =>
    rw [waitLoop]
    set w₁ := if w.ftp.ctl = none then w.emit .badSelect else w with hw₁
    have hfirst : Keeps w w₁ := by
      rw [hw₁]
      split
      · exact .act .badSelect rfl rfl
      · exact .refl w
    refine hfirst.trans ?_
    dsimp only
    set r := w₁.ask Env.selects (fun l e => { e with selects := l }) (.woke false t.toNat) with hr
    have hasked : Keeps w₁ r.2 := .quiet rfl
    refine hasked.trans ?_
    split
    · exact ih t r.2
    · next ready elapsed hres =>
      have hwait : ∀ t (w : World α),
          Keeps w (waitLoop n t (w.mapFtp fun f => { f with lastResp := -1 })).2 := fun t w =>
        (Keeps.resetLastResp w).trans (ih t _)
      set w₂ := if ready then ftpHandleWith
          (fun t w => waitLoop n t (w.mapFtp fun f => { f with lastResp := -1 })) r.2.ftp.ctl
          (r.2.mapFtp fun f => { f with lastResp := -1 }) else r.2 with hw₂
      have hhandle : Keeps r.2 w₂ := by
        rw [hw₂]
        split
        · exact (Keeps.resetLastResp r.2).trans (keeps_ftpHandleWith_ctl hwait _)
        · exact .refl _
      refine hhandle.trans ?_
      split
      · exact .refl _
      split
      · split
        · exact .refl _
        · exact ih _ _
      · exact ih _ _

theorem keeps_ftpWaitresp (n : ℕ) (t : Int) (w : World α) : Keeps w (ftpWaitresp n t w).2 :=
  (Keeps.resetLastResp w).trans (keeps_waitLoop n t _)

/-! ### Runs -/

/-- **A call of the main loop** leaves the entries alone, or handles the data connection first. -/
theorem keeps_or_handleData (env : Env) (i : Input α) (hs : stack w.log = []) :
    Keeps w (w.step env i) ∨ (∃ fd, i = .handle fd) ∧ Runs w (handleData { w with env := env }) ∧
      Keeps (handleData { w with env := env }) (w.step env i) := by
  have hwait := keeps_ftpWaitresp (α := α) env.selects.length
  have henv : Keeps w { w with env := env } := .quiet rfl
  cases i with
  | queue op hop => exact .inl (henv.trans (keeps_ftpQueue hwait op hop hs))
  | transfer x => exact .inl (henv.trans (keeps_ftpQueueTransfer hwait x hs))
  | handle fd =>
    rcases runs_ftpHandleWith (w := { w with env := env }) hwait (some fd) hs with h | ⟨hdata, h⟩
    · exact .inl (henv.trans h)
    · exact .inr ⟨⟨fd, rfl⟩, henv.runs.trans hdata, h⟩

/-- Every call of the main loop is a sequence of moves, and no operation is left under way. -/
theorem runs_step (env : Env) (i : Input α) (hs : stack w.log = []) : Runs w (w.step env i) := by
  rcases keeps_or_handleData env i hs with h | ⟨-, hdata, h⟩
  · exact h.runs
  · exact hdata.trans h.runs

theorem runs_run (inputs : List (Env × Input α)) (hs : stack w.log = []) :
    Runs w (w.run inputs) := by
  induction inputs generalizing w with
  | nil => exact .refl w
  | cons i inputs ih =>
    have hstep := runs_step i.1 i.2 hs
    exact hstep.trans (ih (hstep.2.trans hs))

/-- What every move keeps holds in every state of a run. -/
theorem run_induction {I : World α → Prop} (hmove : ∀ ⦃w w'⦄, I w → Move w w' → I w')
    (hs : stack w.log = []) (h : I w) (inputs : List (Env × Input α)) : I (w.run inputs) := by
  have hmoves : ∀ w', ReflTransGen Move w w' → I w' := by
    intro w' hrun
    induction hrun with
    | refl => exact h
    | tail _ hm ih => exact hmove ih hm
  exact hmoves _ (runs_run inputs hs).1

/-- A run of the client is a sequence of steps of its session. -/
theorem steps_run (hs : stack w.log = []) (inputs : List (Env × Input α)) :
    ReflTransGen Step w.view (w.run inputs).view :=
  run_induction (I := fun w' => ReflTransGen Step w.view w'.view)
    (fun _ _ h hm => h.trans hm.steps) hs .refl inputs

/-- Between two calls of the main loop no operation is under way. -/
theorem stack_run (hs : stack w.log = []) (inputs : List (Env × Input α)) :
    stack (w.run inputs).log = [] :=
  (runs_run inputs hs).2.trans hs

end Visftp
