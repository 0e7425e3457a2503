import Visftp.Facts
import Visftp.Likeness

/-!
# Connecting again

`ftp_close` closes the sockets and `ftp_connect` opens a new control connection. Neither touches
`busy`, the queue or the handlers, so what the old session has left there meets the replies of the
new server. A session in which no reply handler has been installed, nothing is outstanding and
nothing is queued has left nothing: `last_resp` and the nodes of the queue are hidden parts, and all
other fields are as they were allocated.

## Main definitions

* `ftpAlloc`, `ftpAuth`, `ftpConnect` — the functions
* `reconnect`, `firstConnect` — the old client connects again, and a new one in its place
* `Reached`, `World.visible` — the states of a client, and what can be seen of one

## Main results

* `Facts.Step.untouched`, `Facts.Step.installed` — before and after the first handler
* `reconnect_run_iff` — when the two behave alike
-/

namespace Visftp

open CString

/-! ### Opening and closing -/

/-- `ftp_alloc` -/
def ftpAlloc : Ftp where
  ctl := none
  lis := none
  data := none
  status := .disc
  busy := 0
  user := none
  pass := none
  passive := true
  queue := LinkedFifo.empty
  cproc := none
  dproc := none
  crecv := []
  curdir := none
  dirent := []
  lastResp := 0
  modified := false

/-- `ftp_auth` -/
def ftpAuth (user pass : Option Bytes) (f : Ftp) : Ftp := { f with user, pass }

variable {α : Type}

/-- `ftp_connect`, where `resolved` says whether `gethostbyname` finds the host. -/
def ftpConnect (resolved : Bool) (hostname : Bytes) (port : ℕ) (w : World α) : Int × World α :=
  let r := socket w
  let w := r.2.mapFtp fun f => { f with ctl := r.1 }
  if r.1 = none then (-1, errmsg (ascii "failed to create control socket\n") w)
  else if !resolved then
    let w := errmsg (ascii "failed to resolve host: " ++ hostname ++ ascii "\n") w
    (-1, w.mapFtp fun f => { f with ctl := none })
  else
    let r := connect w
    if !r.1 then
      let w := errmsg (ascii "failed to connect to: " ++ hostname ++ ascii " (port: " ++
        decimal port ++ ascii ")\n") r.2
      (-1, w.mapFtp fun f => { f with ctl := none })
    else (0, r.2.mapFtp fun f => { f with crecv := [] })

/-- `ftp_close` and `ftp_connect`, with the system `env` for it. -/
def reconnect (env : Env) (resolved : Bool) (hostname : Bytes) (port : ℕ) (w : World α) :
    Int × World α :=
  ftpConnect resolved hostname port { ftpClose w with env }

/-- `ftp_connect` of a client from `ftp_alloc` and `ftp_auth`, in the place of the old one and with
its user and password. -/
def firstConnect (env : Env) (resolved : Bool) (hostname : Bytes) (port : ℕ) (w : World α) :
    Int × World α :=
  ftpConnect resolved hostname port
    { (ftpClose w).mapFtp fun f => ftpAuth f.user f.pass ftpAlloc with env }

/-- **The states of a client**, which may connect more than once. -/
inductive Reached : World α → Prop
  | connected (ctl : Fd) (user pass : Option Bytes) (app : α) :
      Reached (World.connected ctl user pass app)
  | step {w} (h : Reached w) (env : Env) (i : Input α) : Reached (w.step env i)
  | reconnect {w} (h : Reached w) (env : Env) (resolved : Bool) (hostname : Bytes) (port : ℕ) :
      Reached (reconnect env resolved hostname port w).2

/-- The commands that were sent, the last one first. -/
def sentCmds (log : List Event) : List Cmd :=
  log.filterMap fun
    | .sent c => some c
    | _ => none

/-- What can be seen of a client: what it sends, what the application reads, and its files. -/
structure Visible (α : Type) where
  sent : List Cmd
  status : Status
  curdir : Option Bytes
  dirent : List Dirent
  modified : Bool
  files : ℕ → Bytes
  app : α
  logfile : List (Level × Bytes)

/-- What can be seen of a client. -/
def World.visible (w : World α) : Visible α where
  sent := sentCmds w.log
  status := w.ftp.status
  curdir := w.ftp.curdir
  dirent := w.ftp.dirent
  modified := w.ftp.modified
  files := w.files
  app := w.app
  logfile := w.logfile

/-! ### Before and after the first handler -/

/-- Until a reply handler is installed, the fields that it would write are as they were
allocated. -/
def Facts.Untouched (f : Facts) : Prop :=
  f.cproc = none → f.dproc = none ∧ f.passive = true ∧ f.status = .disc ∧ f.curdir = none ∧
    f.dirent = [] ∧ f.modified = false

theorem Facts.Step.untouched {f f' : Facts} (h : Facts.Step f f') (hf : f.Untouched) :
    f'.Untouched := by
  intro hnone
  cases h with
  | hook p => exact absurd hnone (Option.some_ne_none p)
  | expect p hp | fallBack hp | moved d hp => exact absurd hnone hp
  | listed dirent hd => exact absurd (hf hnone).1 hd
  | connected status hst =>
    obtain ⟨hdproc, hpassive, -, hrest⟩ := hf hnone
    exact ⟨hdproc, hpassive, hst hnone, hrest⟩
  | greeted name _ => exact hf hnone

/-- Once one is installed, no `USER` is sent. -/
theorem Facts.Step.installed {f f' : Facts} {names : List Bytes} (h : Facts.Step f f')
    (hf : f.cproc ≠ none ∧ f.named = names) : f'.cproc ≠ none ∧ f'.named = names := by
  cases h with
  | hook p => exact ⟨Option.some_ne_none p, hf.2⟩
  | greeted name hp => exact absurd hp hf.1
  | _ => exact hf

variable {w w' : World α} {env : Env} {resolved : Bool} {hostname : Bytes} {port : ℕ}

theorem facts_ftpClose (w : World α) : (ftpClose w).facts = w.facts := by
  rw [ftpClose]
  split
  · rfl
  · rfl

theorem facts_ftpConnect (w : World α) :
    (ftpConnect resolved hostname port w).2.facts = w.facts := by
  rw [ftpConnect]
  dsimp only
  split
  · rfl
  split
  · rfl
  split
  · rfl
  · rfl

theorem facts_reconnect (w : World α) :
    (reconnect env resolved hostname port w).2.facts = w.facts :=
  (facts_ftpConnect _).trans (facts_ftpClose w)

theorem Reached.untouched (h : Reached w) : w.facts.Untouched := by
  induction h with
  | connected => exact fun _ => ⟨rfl, rfl, rfl, rfl, rfl, rfl⟩
  | step _ env i ih => exact (Leads.worldStep .refl env i).keeps (fun _ _ hs => hs.untouched) ih
  | reconnect _ env resolved hostname port ih =>
    rw [facts_reconnect]
    exact ih

/-! ### The new connection -/

theorem closed_ftpClose (w : World α) :
    (ftpClose w).ftp.ctl = none ∧ (ftpClose w).ftp.lis = none ∧ (ftpClose w).ftp.data = none := by
  rw [ftpClose]
  split
  · next hctl => exact ⟨hctl, rfl, rfl⟩
  · exact ⟨rfl, rfl, rfl⟩

/-- The system environment after a connection. -/
def Env.afterConnect (e : Env) : Env :=
  { e with sockets := e.sockets.tail, connects := e.connects.tail }

/-- A connection needs a descriptor, a host and an answer, and leaves everything else alone. -/
theorem ftpConnect_eq_zero_iff : (ftpConnect resolved hostname port w).1 = 0 ↔
    (socket w).1 ≠ none ∧ resolved = true ∧ w.env.connects.headD false = true := by
  rw [ftpConnect]
  dsimp only
  split
  · next hfd => simp [hfd]
  split
  · next hres => simp_all
  split
  · next hconn =>
    have hconn' : (!w.env.connects.headD false) = true := hconn
    simp_all
  · next hfd hres hconn =>
    have hconn' : ¬(!w.env.connects.headD false) = true := hconn
    simp_all

theorem ftpConnect_of_eq_zero (hopen : (ftpConnect resolved hostname port w).1 = 0) :
    (ftpConnect resolved hostname port w).2 =
      { w with
        ftp := { w.ftp with ctl := (socket w).1, crecv := [] }
        env := w.env.afterConnect } := by
  obtain ⟨hfd, rfl, hconn⟩ := ftpConnect_eq_zero_iff.mp hopen
  have hconn' : ¬(!w.env.connects.headD false) = true := by simpa using hconn
  rw [ftpConnect]
  dsimp only
  rw [if_neg hfd, if_neg (by simp), if_neg (by exact hconn')]
  rfl

/-- With no descriptor in use, any that the system gives is taken. -/
theorem socket_of_closed (hctl : w.ftp.ctl = none) (hlis : w.ftp.lis = none)
    (hdata : w.ftp.data = none) : (socket w).1 = w.env.sockets.headD none := by
  have huses : (fun fd => !w.ftp.uses fd) = fun _ => true := by
    funext fd
    simp [Ftp.uses, hctl, hlis, hdata]
  show (w.env.sockets.headD none).filter (fun fd => !w.ftp.uses fd) = _
  rw [huses]
  cases w.env.sockets.headD none <;> rfl

/-- The client `f` in the place of the old one, with a control connection. -/
def World.opened (w : World α) (f : Ftp) (fd : Fd) (env : Env) : World α :=
  { ftpClose w with ftp := { f with ctl := some fd, crecv := [] }, env := env.afterConnect }

/-- **Both connections are made**, and with the same descriptor. -/
theorem connects_of_reconnect (hopen : (reconnect env resolved hostname port w).1 = 0) :
    ∃ fd, (reconnect env resolved hostname port w).2 = w.opened (ftpClose w).ftp fd env ∧
      (firstConnect env resolved hostname port w).2 =
        w.opened (ftpAuth (ftpClose w).ftp.user (ftpClose w).ftp.pass ftpAlloc) fd env := by
  obtain ⟨hctl, hlis, hdata⟩ := closed_ftpClose w
  set old : World α := { ftpClose w with env }
  set new : World α :=
    { (ftpClose w).mapFtp fun f => ftpAuth f.user f.pass ftpAlloc with env }
  have hold : (socket old).1 = env.sockets.headD none := socket_of_closed hctl hlis hdata
  have hnew : (socket new).1 = env.sockets.headD none := socket_of_closed rfl rfl rfl
  obtain ⟨hfd, hres, hconn⟩ := ftpConnect_eq_zero_iff.mp hopen
  obtain ⟨fd, hsome⟩ := Option.ne_none_iff_exists'.mp hfd
  have hsocket : (socket new).1 = some fd := hnew.trans (hold.symm.trans hsome)
  have hopen' : (ftpConnect resolved hostname port new).1 = 0 :=
    ftpConnect_eq_zero_iff.mpr ⟨by rw [hsocket]; exact Option.some_ne_none fd, hres, hconn⟩
  refine ⟨fd, ?_, ?_⟩
  · rw [reconnect, ftpConnect_of_eq_zero hopen, hsome]
    rfl
  · show (ftpConnect resolved hostname port new).2 = _
    rw [ftpConnect_of_eq_zero hopen', hsocket]
    rfl

/-! ### Nothing is left -/

/-- The queued operations, the log file and the history are the same. -/
def Hidden.SameList (h h' : Hidden) : Prop :=
  h'.queue.toList = h.queue.toList ∧ h'.logfile = h.logfile ∧ h'.log = h.log

/-- The last reply is the same, too. -/
def Hidden.SameResp (h h' : Hidden) : Prop := h.SameList h' ∧ h'.lastResp = h.lastResp

theorem kin_sameList : Kin Hidden.SameList where
  toList_eq h := h.1
  emit e h := ⟨h.1, h.2.1, congrArg (e :: ·) h.2.2⟩
  message m h := ⟨h.1, congrArg (m :: ·) h.2.1, h.2.2⟩
  setLastResp _ h := h
  enqueue op h := by
    refine ⟨?_, h.2⟩
    rw [LinkedFifo.toList_enqueue, LinkedFifo.toList_enqueue, h.1]
  pop := by
    intro h h' op q q' hK hpop hpop'
    have hlist := (LinkedFifo.toList_of_pop hpop').symm.trans
      (hK.1.trans (LinkedFifo.toList_of_pop hpop))
    exact ⟨(List.cons.inj hlist).2, hK.2⟩

theorem kin_sameResp : Kin Hidden.SameResp where
  toList_eq h := h.1.1
  emit e h := ⟨kin_sameList.emit e h.1, h.2⟩
  message m h := ⟨kin_sameList.message m h.1, h.2⟩
  setLastResp _ h := ⟨h.1, rfl⟩
  enqueue op h := ⟨kin_sameList.enqueue op h.1, h.2⟩
  pop h hpop hpop' := ⟨kin_sameList.pop h.1 hpop hpop', h.2⟩

theorem unseeing_sameList (n : ℕ) : Unseeing Hidden.SameList (ftpWaitresp n (α := α)) :=
  unseeing_ftpWaitresp kin_sameResp (fun _ _ h => h.2) (fun _ _ h => ⟨h, rfl⟩) (fun _ _ h => h.1) n

theorem visible_of_like (h : Like Hidden.SameList w w') : w'.visible = w.visible := by
  obtain ⟨⟨c, q, m, l⟩, ⟨-, hm, hl⟩, rfl⟩ := h
  obtain rfl : m = w.logfile := hm
  obtain rfl : l = w.log := hl
  rfl

theorem ftp_ftpClose (w : World α) : ∃ c, (ftpClose w).ftp =
    { w.ftp with ctl := none, lis := none, data := none, crecv := c } := by
  rw [ftpClose]
  split
  · next hctl =>
    refine ⟨w.ftp.crecv, ?_⟩
    rw [← hctl]
    rfl
  · exact ⟨[], rfl⟩

/-- Where nothing is left, the old client is like a new one. -/
theorem like_firstConnect (hw : w.facts.Untouched)
    (hopen : (reconnect env resolved hostname port w).1 = 0) (hcproc : w.ftp.cproc = none)
    (hbusy : w.ftp.busy = 0) (hqueue : w.ftp.queue.toList = []) :
    Like Hidden.SameList (reconnect env resolved hostname port w).2
      (firstConnect env resolved hostname port w).2 := by
  obtain ⟨fd, hold, hnew⟩ := connects_of_reconnect hopen
  have hfields : w.ftp.dproc = none ∧ w.ftp.passive = true ∧ w.ftp.status = .disc ∧
      w.ftp.curdir = none ∧ w.ftp.dirent = [] ∧ w.ftp.modified = false := hw hcproc
  rw [hold, hnew]
  obtain ⟨crecv, hclosed⟩ := ftp_ftpClose w
  refine ⟨⟨0, LinkedFifo.empty, (ftpClose w).logfile, (ftpClose w).log⟩, ⟨?_, rfl, rfl⟩, ?_⟩
  · show [] = (ftpClose w).ftp.queue.toList
    rw [hclosed]
    exact hqueue.symm
  · have hftp : { ftpAuth (ftpClose w).ftp.user (ftpClose w).ftp.pass ftpAlloc with
        ctl := some fd, crecv := [] } =
        Ftp.hide 0 LinkedFifo.empty { (ftpClose w).ftp with ctl := some fd, crecv := [] } := by
      rw [hclosed]
      simp [Ftp.hide, ftpAuth, ftpAlloc, hcproc, hbusy, hfields]
    rw [World.opened, hftp]
    rfl

/-! ### Something is left -/

theorem sentCmds_queue_of_idle (hctl : w.ftp.ctl ≠ none) (hbusy : w.ftp.busy = 0)
    (hqueue : w.ftp.queue.head = none) (env : Env) :
    sentCmds (w.step env (.queue .pwd rfl)).log = .pwd :: sentCmds w.log := by
  show sentCmds (ftpQueue _ .pwd { w with env }).2.log = _
  rw [ftpQueue, submit, if_pos ⟨hbusy, hqueue⟩]
  show sentCmds (sendcmd .pwd _).log = _
  rw [sendcmd, if_neg (by exact hctl)]
  rfl

theorem sentCmds_queue_of_busy (h : ¬(w.ftp.busy = 0 ∧ w.ftp.queue.head = none)) (env : Env) :
    sentCmds (w.step env (.queue .pwd rfl)).log = sentCmds w.log := by
  have hblocked : ¬(w.view.busy = 0 ∧ w.view.queue = []) :=
    fun hv => h ⟨hv.1, view_queue_eq_nil.mp hv.2⟩
  show sentCmds (ftpQueue (ftpWaitresp env.selects.length) .pwd { w with env }).2.log = _
  rcases view_submit_of_blocked (ftpWaitresp env.selects.length) (allocates_alloc .pwd) .pwd
    (w := { w with env }) hblocked with hv | hv
  · exact congrArg (fun s : Session => sentCmds s.log) hv
  · exact congrArg (fun s : Session => sentCmds s.log) hv

/-- The `USER` commands among those that were sent. -/
theorem named_eq (log : List Event) : named log = (sentCmds log).filterMap fun
    | .user name => some name
    | _ => none := by
  induction log with
  | nil => rfl
  | cons e log ih =>
    cases e with
    | sent c =>
      cases c with
      | user name => exact congrArg (name :: ·) ih
      | _ => exact ih
    | _ => exact ih

/-- The commands of the history stay there. -/
theorem Facts.Step.suffix {f f' : Facts} {names : List Bytes} (h : Facts.Step f f')
    (hf : names <:+ f.named) : names <:+ f'.named := by
  cases h with
  | greeted name => exact hf.trans (List.suffix_cons name _)
  | _ => exact hf

/-- The server greets. -/
def greeting : Env := { Env.quiet with ctlIn := [.data (ascii "220 \n")] }

theorem procControl_greeting (wait : Int → World α → Int × World α) (hctl : w.ftp.ctl ≠ none)
    (hcproc : w.ftp.cproc = none) : named (procControl wait (ascii "220 ") w).log =
      w.ftp.user.getD (ascii "anonymous") :: named w.log := by
  have htext : replyText (ascii "220 ") = ascii "220 " := by decide
  have hcode : respcode (ascii "220 ") = 220 := by decide
  rw [procControl, htext, hcode, if_neg (by decide), if_neg (by decide),
    deliver_of_none (by exact hcproc), login, if_pos rfl, sendcmd, if_neg (by exact hctl)]
  rfl

/-- **A client without a handler answers the greeting.** -/
theorem named_greeting {fd : Fd} (hctl : w.ftp.ctl = some fd) (hcproc : w.ftp.cproc = none)
    (hcrecv : w.ftp.crecv = []) :
    w.ftp.user.getD (ascii "anonymous") :: named w.log <:+
      named (w.step greeting (.handle fd)).log := by
  set wait : Int → World α → Int × World α := ftpWaitresp 0
  set w₁ : World α := { w with env := greeting }
  set w₂ : World α :=
    { w with env := Env.quiet, log := .recv (ascii "220 \n") :: w.log }.emit (.line (ascii "220 "))
  have hne : w.ftp.ctl ≠ none := by rw [hctl]; exact Option.some_ne_none fd
  have hscan : handleControl wait w₁ = handleControlLoop wait 1
      ((procControl wait (ascii "220 ") w₂).mapFtp fun f => { f with crecv := [] }) := by
    have hrecv : recvCtl crecvSize w₁ = (.data (ascii "220 \n"), { w with env := Env.quiet }) := by
      rw [recvCtl, if_neg (by exact hne)]
      rfl
    have hcrecv₁ : w₁.ftp.crecv = [] := hcrecv
    rw [handleControl]
    show handleControlLoop wait 2 w₁ = _
    rw [handleControlLoop, hcrecv₁, if_neg (by decide), hcrecv₁, List.length_nil, Nat.sub_zero,
      hrecv]
    show handleControlLoop wait 1 (scanBytes wait (ascii "220 \n") w.ftp.crecv false _) = _
    rw [hcrecv]
    rfl
  -- what comes behind the reply only adds to the history
  set m := (procControl wait (ascii "220 ") w₂).facts with hm
  have hwait : WaitLeads m wait := fun t w h => waitLeads_waitLoop 0 t _ h
  have hcontrol : Leads m (handleControl wait w₁).2 := by
    rw [hscan]
    exact Leads.handleControlLoop (by exact .refl) hwait 1
  have hstep : Leads m (w.step greeting (.handle fd)) := by
    show Leads m (ftpHandleWith wait (some fd) w₁)
    rw [ftpHandleWith, if_pos hctl.symm]
    dsimp only
    split
    · exact hcontrol
    · exact hcontrol.runQueue hwait
  refine hstep.keeps (I := fun f => _ <:+ f.named) (fun _ _ hs => hs.suffix) ?_
  show _ <:+ named (procControl wait (ascii "220 ") w₂).log
  rw [procControl_greeting wait (by exact hne) (by exact hcproc)]
  exact List.suffix_rfl

section Left

variable (hopen : (reconnect env resolved hostname port w).1 = 0)
  (hall : ∀ later : List (Env × Input α),
    ((reconnect env resolved hostname port w).2.run later).visible =
      ((firstConnect env resolved hostname port w).2.run later).visible)
include hopen hall

/-- A command before the greeting shows what is outstanding or queued. -/
theorem idle_of_visible : w.ftp.busy = 0 ∧ w.ftp.queue.head = none := by
  obtain ⟨fd, hold, hnew⟩ := connects_of_reconnect hopen
  obtain ⟨crecv, hclosed⟩ := ftp_ftpClose w
  by_contra hbusy
  have hsent : sentCmds _ = sentCmds _ :=
    congrArg Visible.sent (hall [(Env.quiet, .queue .pwd rfl)])
  rw [hold, hnew] at hsent
  have hleft : ¬((w.opened (ftpClose w).ftp fd env).ftp.busy = 0 ∧
      (w.opened (ftpClose w).ftp fd env).ftp.queue.head = none) := by
    rw [hclosed]
    exact hbusy
  have hold := sentCmds_queue_of_busy hleft Env.quiet
  have hnew := sentCmds_queue_of_idle
    (w := w.opened (ftpAuth (ftpClose w).ftp.user (ftpClose w).ftp.pass ftpAlloc) fd env)
    (Option.some_ne_none fd) rfl rfl Env.quiet
  exact List.cons_ne_self _ _ (hnew.symm.trans (hsent.symm.trans hold))

/-- The greeting shows whether there is a reply handler. -/
theorem cproc_of_visible : w.ftp.cproc = none := by
  obtain ⟨fd, hold, hnew⟩ := connects_of_reconnect hopen
  obtain ⟨crecv, hclosed⟩ := ftp_ftpClose w
  by_contra hne
  have hsent : sentCmds _ = sentCmds _ := congrArg Visible.sent (hall [(greeting, .handle fd)])
  have hnamed := (named_eq _).trans ((congrArg _ hsent).trans (named_eq _).symm)
  rw [hold, hnew] at hnamed
  set old := w.opened (ftpClose w).ftp fd env
  set new := w.opened (ftpAuth (ftpClose w).ftp.user (ftpClose w).ftp.pass ftpAlloc) fd env
  have hinstalled : old.facts.cproc ≠ none ∧ old.facts.named = named (ftpClose w).log := by
    refine ⟨?_, rfl⟩
    show (ftpClose w).ftp.cproc ≠ none
    rw [hclosed]
    exact hne
  have hsilent : named (old.step greeting (.handle fd)).log = named (ftpClose w).log :=
    ((leads_run old [(greeting, .handle fd)]).keeps (fun _ _ hs => hs.installed) hinstalled).2
  have hanswer : new.ftp.user.getD (ascii "anonymous") :: named (ftpClose w).log <:+
      named (new.step greeting (.handle fd)).log := named_greeting (w := new) rfl rfl rfl
  have hsame : named (new.step greeting (.handle fd)).log = named (ftpClose w).log :=
    hnamed.symm.trans hsilent
  rw [hsame] at hanswer
  exact absurd hanswer.length_le (by simp)

end Left

/-- **The old client behaves as a new one would, whatever happens later, if and only if** no reply
handler has been installed, no reply is outstanding and no operation is queued. -/
theorem reconnect_run_iff (h : Reached w)
    (hopen : (reconnect env resolved hostname port w).1 = 0) :
    (∀ later : List (Env × Input α),
      ((reconnect env resolved hostname port w).2.run later).visible =
        ((firstConnect env resolved hostname port w).2.run later).visible) ↔
      w.ftp.cproc = none ∧ w.ftp.busy = 0 ∧ w.ftp.queue.toList = [] := by
  constructor
  · intro hall
    obtain ⟨hbusy, hqueue⟩ := idle_of_visible hopen hall
    exact ⟨cproc_of_visible hopen hall, hbusy, w.ftp.queue.toList_eq_nil_iff.mpr hqueue⟩
  · rintro ⟨hcproc, hbusy, hqueue⟩ later
    have hlike := like_firstConnect h.untouched hopen hcproc hbusy hqueue
    exact (visible_of_like (like_run kin_sameList unseeing_sameList later hlike)).symm

/-- A system that gives a descriptor and reaches the host. -/
def hostUp : Env := { Env.quiet with sockets := [some 4], connects := [true] }

/-- A client that has answered the greeting. -/
def clientNamed : World Unit := (World.connected 3 none none ()).step greeting (.handle 3)

/-- When the connection is closed then, an answer is outstanding. -/
theorem reconnect_run_iff_named : ¬∀ later : List (Env × Input Unit),
    ((reconnect hostUp true (ascii "host") 21 clientNamed).2.run later).visible =
      ((firstConnect hostUp true (ascii "host") 21 clientNamed).2.run later).visible := by
  have hreached : Reached clientNamed :=
    (Reached.connected 3 none none ()).step greeting (.handle 3)
  intro hall
  exact absurd ((reconnect_run_iff hreached (by decide)).mp hall).2.1 (by decide)

/-- A client that has logged in, and waits for the reply to `PWD`. -/
def clientTyped : World Unit := clientNamed.run
  [({ Env.quiet with ctlIn := [.data (ascii "230 Logged in\n")] }, .handle 3),
    ({ Env.quiet with ctlIn := [.data (ascii "200 Type set\n")] }, .handle 3)]

/-- To the greeting of the next server the old client sends `PASV`, for the listing that was queued
for the server before, and a new one `USER`. -/
theorem not_visible_clientTyped : ¬∀ later : List (Env × Input Unit),
    ((reconnect hostUp true (ascii "host") 21 clientTyped).2.run later).visible =
      ((firstConnect hostUp true (ascii "host") 21 clientTyped).2.run later).visible := by
  intro hall
  have hsent := congrArg Visible.sent (hall [(greeting, .handle 4)])
  have hold : sentCmds ((reconnect hostUp true (ascii "host") 21 clientTyped).2.run
      [(greeting, .handle 4)]).log =
        [.pasv, .pwd, .type 73, .user (ascii "anonymous")] := by decide
  have hnew : sentCmds ((firstConnect hostUp true (ascii "host") 21 clientTyped).2.run
      [(greeting, .handle 4)]).log =
        [.user (ascii "anonymous"), .pwd, .type 73, .user (ascii "anonymous")] := by decide
  exact absurd (hold.symm.trans (hsent.trans hnew)) (by decide)

end Visftp
