import Visftp.Dialogue
import Visftp.Progress

/-!
# The login dialogue

The client has no handler for the replies of the login dialogue: it recognises them by there being
none, and keeps operations out of it by `busy`. Between the connection and the greeting `busy` is
zero, so an operation that is accepted then is begun at once, and the greeting goes to its handler.
An operation that is accepted later waits in the queue until `newconn` has added its own three.

## Main definitions

* `LoginServer` — how the server greets and answers
* `Patient` — what is asked of the application, and of the allocations of `newconn`
* `Guarded`, `loginSent`, `loginAsked`, `earlier` — what is promised of the history
* `Session.BeforeLogin`, `AfterLogin` — the invariant

## Main results

* `Session.Step.beforeLogin`, `Session.Step.afterLogin` — one step
* `login_run` — whole runs
-/

namespace Visftp

open CString Histories Session

/-- A reply has been received. -/
def greeted : List Event → Bool
  | [] => false
  | .reply .. :: _ => true
  | _ :: h => greeted h

/-- The operations that were accepted before the login was over, `none` until it is. -/
def earlier : List Event → Option (List Op)
  | [] => none
  | .reply code _ _ _ :: h => if code = 230 then some (accepted h) else earlier h
  | _ :: h => earlier h

/-- The operations that `newconn` queues. -/
def newconnOps : List Op := [.type (ascii "I"), .pwd, .list]

/-- How many operations `newconn` has yet to queue. -/
def newconnLeft : List Event → ℕ
  | [] => 0
  | .reply code _ _ _ :: h => if code = 230 then 3 else newconnLeft h
  | .accept _ :: h | .outOfMemory :: h => newconnLeft h - 1
  | _ :: h => newconnLeft h

/-- A command of the login dialogue. -/
def Cmd.isLogin : Cmd → Bool
  | .user _ | .pass _ => true
  | _ => false

/-- The code that answers what is owed first: the greeting, a command of the login dialogue, or
another command. -/
def LoginReply (code : Int) : List (Option Cmd) → Prop
  | none :: _ => code = 220
  | some (.user _) :: _ => code = 331 ∨ code = 230
  | some (.pass _) :: _ => code = 230
  | _ => code ≠ 220 ∧ code ≠ 331 ∧ code ≠ 230

instance (code : Int) (l : List (Option Cmd)) : Decidable (LoginReply code l) := by
  induction l using List.casesOn with
  | nil => dsimp only [LoginReply]; infer_instance
  | cons c l =>
    induction c using Option.casesOn with
    | none => dsimp only [LoginReply]; infer_instance
    | some c => induction c using Cmd.casesOn <;> (dsimp only [LoginReply]; infer_instance)

/-- The server greets with `220`, and answers `USER` with `331` or `230` and `PASS` with `230`. Its
replies are those that the client reads. -/
def LoginServer (past : List Event) : Event → Prop
  | .reply code _ _ _ => LoginReply code (due past)
  | _ => True

instance (past : List Event) (e : Event) : Decidable (LoginServer past e) := by
  induction e using Event.casesOn <;> (dsimp only [LoginServer]; infer_instance)

/-- No operation is accepted before the greeting, and no allocation of `newconn` fails. -/
def Patient (past : List Event) : Event → Prop
  | .accept _ => greeted past = true
  | .outOfMemory => newconnLeft past = 0
  | _ => True

instance (past : List Event) (e : Event) : Decidable (Patient past e) := by
  induction e using Event.casesOn <;> (dsimp only [Patient]; infer_instance)

/-- The last event is a reply with this code. -/
def JustGot (code : Int) : List Event → Prop
  | .reply c _ _ _ :: _ => c = code
  | _ => False

instance (code : Int) (h : List Event) : Decidable (JustGot code h) := by
  induction h using List.casesOn with
  | nil => dsimp only [JustGot]; infer_instance
  | cons e h => induction e using Event.casesOn <;> (dsimp only [JustGot]; infer_instance)

/-- `USER` is sent on the greeting and `PASS` on a `331`. Everything else is sent after the `230`
has come, operations are begun after it, and it comes once. -/
def Guarded (past : List Event) : Event → Prop
  | .sent (.user _) => JustGot 220 past
  | .sent (.pass _) => JustGot 331 past
  | .sent _ | .exec .. => (earlier past).isSome = true
  | .reply code _ _ _ => code = 230 → earlier past = none
  | _ => True

instance (past : List Event) (e : Event) : Decidable (Guarded past e) := by
  induction e using Event.casesOn with
  | sent c => induction c using Cmd.casesOn <;> (dsimp only [Guarded]; infer_instance)
  | _ => dsimp only [Guarded]; infer_instance

/-- The commands of the login dialogue. -/
inductive LoginCmd
  | user
  | pass
  deriving DecidableEq, Repr

/-- The command of the login dialogue that an event sends. -/
def Event.loginSent? : Event → Option LoginCmd
  | .sent (.user _) => some .user
  | .sent (.pass _) => some .pass
  | _ => none

/-- The command of the login dialogue that a reply asks for. -/
def Event.loginAsked? : Event → Option LoginCmd
  | .reply code _ _ _ => if code = 220 then some .user else if code = 331 then some .pass else none
  | _ => none

/-- The commands of the login dialogue that were sent. -/
def loginSent (h : List Event) : List LoginCmd := h.filterMap Event.loginSent?

/-- The commands of the login dialogue that the server has asked for. -/
def loginAsked (h : List Event) : List LoginCmd := h.filterMap Event.loginAsked?

/-! ### After the login -/

/-- An event that is none of the login dialogue. -/
def Event.calm : Event → Bool
  | .reply .. => false
  | .sent c => !c.isLogin
  | _ => true

/-- What holds of a history once the `230` has come. -/
structure LoginOver (h : List Event) : Prop where
  loggedIn : (earlier h).isSome = true
  due : ∀ q ∈ due h, ∃ c : Cmd, q = some c ∧ c.isLogin = false
  answered : loginSent h = loginAsked h
  guarded : Always Guarded h

/-- What holds of a history once `newconn` has queued its operations. -/
structure AfterLogin (h : List Event) : Prop extends LoginOver h where
  newconn : newconnLeft h = 0
  queued : ∀ ops, earlier h = some ops → ops ++ newconnOps <+: accepted h

theorem accepted_prefix_cons (e : Event) (h : List Event) : accepted h <+: accepted (e :: h) := by
  rw [accepted_cons]
  exact List.prefix_append _ _

theorem earlier_of_calm {e : Event} (he : e.calm = true) (h : List Event) :
    earlier (e :: h) = earlier h := by
  cases e <;> simp_all [earlier, Event.calm]

theorem login_of_calm {e : Event} (he : e.calm = true) (h : List Event) :
    loginSent (e :: h) = loginSent h ∧ loginAsked (e :: h) = loginAsked h := by
  cases e with
  | reply => simp [Event.calm] at he
  | sent c =>
    cases c with
    | user | pass => simp [Event.calm, Cmd.isLogin] at he
    | _ => exact ⟨rfl, rfl⟩
  | _ => exact ⟨rfl, rfl⟩

theorem newconnLeft_of_calm {e : Event} (he : e.calm = true) (h : List Event) :
    newconnLeft (e :: h) ≤ newconnLeft h := by
  cases e <;> simp_all [newconnLeft, Event.calm]

theorem mem_due_of_calm {e : Event} (he : e.calm = true) {h : List Event} {q : Option Cmd}
    (hq : q ∈ due (e :: h)) : q ∈ due h ∨ ∃ c : Cmd, q = some c ∧ c.isLogin = false := by
  cases e with
  | reply => simp [Event.calm] at he
  | sent c =>
    rw [due, List.mem_append, List.mem_singleton] at hq
    exact hq.imp id fun hq => ⟨c, hq, by simpa [Event.calm] using he⟩
  | hangup => simp [due] at hq
  | _ => exact .inl hq

theorem guarded_of_calm {e : Event} (he : e.calm = true) {h : List Event}
    (hover : (earlier h).isSome = true) : Guarded h e := by
  cases e with
  | reply => simp [Event.calm] at he
  | sent c => cases c <;> simp_all [Event.calm, Cmd.isLogin, Guarded]
  | exec => exact hover
  | _ => trivial

theorem LoginOver.calm {h : List Event} (hl : LoginOver h) {e : Event} (he : e.calm = true) :
    LoginOver (e :: h) where
  loggedIn := by rw [earlier_of_calm he]; exact hl.loggedIn
  due q hq := (mem_due_of_calm he hq).elim (hl.due q) id
  answered := by rw [(login_of_calm he h).1, (login_of_calm he h).2]; exact hl.answered
  guarded := ⟨guarded_of_calm he hl.loggedIn, hl.guarded⟩

theorem AfterLogin.calm {h : List Event} (hl : AfterLogin h) {e : Event} (he : e.calm = true) :
    AfterLogin (e :: h) where
  toLoginOver := hl.toLoginOver.calm he
  newconn := Nat.le_zero.mp ((newconnLeft_of_calm he h).trans hl.newconn.le)
  queued ops hops := by
    rw [earlier_of_calm he] at hops
    exact (hl.queued ops hops).trans (accepted_prefix_cons e h)

namespace Session

variable {s s' s'' : Session} {op : Op} {code : Int} {buf : Bytes}

/-- The history of `s'` is that of `s` with events of the kind `k` added. -/
def Adds (k : Event → Bool) (s s' : Session) : Prop :=
  ∃ new, s'.log = new ++ s.log ∧ ∀ e ∈ new, k e = true

/-- The history of `s'` is that of `s` with calm events added. -/
abbrev Calms : Session → Session → Prop := Adds Event.calm

theorem Adds.refl (k : Event → Bool) (s : Session) : Adds k s s := ⟨[], rfl, by simp⟩

theorem Adds.congr {k : Event → Bool} (h : Adds k s s') (hl : s''.log = s'.log) : Adds k s s'' := by
  obtain ⟨new, hlog, hnew⟩ := h
  exact ⟨new, hl.trans hlog, hnew⟩

theorem Adds.cons {k : Event → Bool} (h : Adds k s s') {e : Event} (he : k e = true)
    (hl : s''.log = e :: s'.log) : Adds k s s'' := by
  obtain ⟨new, hlog, hnew⟩ := h
  refine ⟨e :: new, by rw [hl, hlog, List.cons_append], fun e' he' => ?_⟩
  rcases List.mem_cons.mp he' with rfl | he'
  exacts [he, hnew e' he']

/-- What holds of a history, and with every event of the kind, holds after them. -/
theorem Adds.keeps {k : Event → Bool} (h : Adds k s s') {P : List Event → Prop}
    (hP : ∀ e h, k e = true → P h → P (e :: h)) (hs : P s.log) : P s'.log := by
  obtain ⟨new, hlog, hnew⟩ := h
  rw [hlog]
  clear hlog
  induction new with
  | nil => exact hs
  | cons e new ih =>
    exact hP e _ (hnew e List.mem_cons_self) (ih fun e' he' => hnew e' (List.mem_cons_of_mem e he'))

theorem Adds.emit {k : Event → Bool} (h : Adds k s s') {e : Event} (he : k e = true) :
    Adds k s (s'.emit e) :=
  h.cons he rfl

theorem Adds.send {k : Event → Bool} (h : Adds k s s') {c : Cmd} (hc : k (.sent c) = true) :
    Adds k s (s'.send c) := by
  cases hctl : s'.ctl with
  | true => exact h.cons hc (by simp [Session.send, hctl])
  | false => exact h.congr (by simp [Session.send, hctl])

/-- An operation that needs no data connection sends a command that is none of the login
dialogue, and installs its handler. -/
theorem Adds.simple {k : Event → Bool} (h : Adds k s s') (op : Op)
    (hk : ∀ c : Cmd, c.isLogin = false → k (.sent c) = true) (hp : ∀ p, k (.hook p) = true) :
    Adds k s (s'.simple op) := by
  have hask : ∀ (c : Cmd) (p : CProc), c.isLogin = false → Adds k s ((s'.send c).hook p) :=
    fun c p hc => (h.send (hk c hc)).cons (hp p) rfl
  cases op with
  | type arg =>
    rw [Session.simple]
    split
    exacts [h, h.send (hk _ rfl)]
  | chdir d =>
    refine hask _ .cwd ?_
    split <;> rfl
  | pwd => exact hask .pwd .pwd rfl
  | cdup => exact hask .cdup .cwd rfl
  | _ => exact h

theorem Calms.ask (h : Calms s s') {c : Cmd} (hc : Event.calm (.sent c) = true) (p : CProc) :
    Calms s ((s'.send c).hook p) :=
  (h.send hc).cons (e := .hook p) rfl rfl

theorem Calms.close (h : Calms s s') : Calms s s'.close := by
  cases hctl : s'.ctl with
  | true => exact h.cons (e := .hangup) rfl (by simp [Session.close, hctl])
  | false => exact h.congr (by simp [Session.close, hctl])

theorem Calms.active (h : Calms s s') (sa : Option (ℕ × ℕ)) : Calms s (s'.active sa) := by
  have h₁ : Calms s { s' with data := false } := h.congr rfl
  rcases sa with - | ⟨a, p⟩
  exacts [h₁, Calms.ask h₁ rfl .active]

theorem Calms.calmSimple (h : Calms s s') (op : Op) : Calms s (s'.simple op) :=
  h.simple op (fun c hc => by simp [Event.calm, hc]) fun _ => rfl

theorem Calms.start (h : Calms s s') (hs : Start op s' s'') : Calms s s'' := by
  cases hs with
  | none => exact h
  | noBuffer => exact h.emit rfl
  | list =>
    have h₁ : Calms s { s' with bufs := Function.update s'.bufs s'.nbuf [], nbuf := s'.nbuf + 1 } :=
      h.congr rfl
    exact (Calms.ask h₁ (c := .list s'.nbuf) rfl (.list s'.nbuf)).congr rfl
  | @transfer t =>
    rw [startTransfer]
    split
    · exact (Calms.ask h (c := .retr t (s'.jobs t).rname) rfl (.xfer t)).congr rfl
    · exact h

theorem Calms.exec (h : Calms s s') (hs : Exec op s' s'') : Calms s s'' := by
  have he : Calms s (s'.enter op) := h.emit rfl
  cases hs with
  | simple => exact (Calms.calmSimple he op).emit rfl
  | atOnce _ _ hs => exact (Calms.start he hs).emit rfl
  | noData sa => exact (Calms.active he sa).emit rfl
  | wait =>
    have h₁ : Calms s { s'.enter op with data := false } := he.congr rfl
    exact Calms.ask h₁ rfl .pasv

theorem Calms.queue (h : Calms s s') (hs : Queue op s' s'') : Calms s s'' := by
  cases hs with
  | direct =>
    have h₁ : Calms s ((s'.emit (.accept op)).enter op) := (h.emit rfl).emit rfl
    exact (Calms.calmSimple h₁ op).emit rfl
  | append => exact h.cons (e := .accept op) rfl rfl
  | full => exact h.emit rfl

theorem Chunk.calms {b : Bytes} (h : Chunk b s s') : Calms s s' := by
  have hr : Calms s s := .refl _ s
  cases h with
  | none => exact hr.emit rfl
  | @list r =>
    have h₁ : Calms s (s.storeBuf r b) := hr.congr rfl
    exact h₁.emit rfl
  | listFull => exact ((hr.emit rfl).emit rfl).emit rfl
  | stor => exact (hr.emit rfl).emit rfl
  | @file t f =>
    have h₁ : Calms s (s.storeFile f b) := hr.congr rfl
    exact (h₁.emit rfl).emit rfl
  | @mem t =>
    have h₁ : Calms s (s.storeMem t b) := hr.congr rfl
    exact (h₁.emit rfl).emit rfl

theorem DataEof.calms (h : DataEof s s') : Calms s s' := by
  have hr : Calms s s := .refl _ s
  cases h with
  | none => exact (hr.emit (e := .dataEof Option.none s.busy) rfl).congr rfl
  | @list r => exact (hr.emit (e := .dataEof (some (.list r)) s.busy) rfl).congr rfl
  | @xfer t =>
    have h₁ : Calms s (s.closeFile t) := hr.congr rfl
    have h₂ := h₁.emit (e := .dataEof (some (.xfer t)) s.busy) rfl
    exact ((h₂.emit (e := .touch t) rfl).emit (e := .done t) rfl).congr rfl
  | @stor t =>
    have h₁ := hr.emit (e := .dataEof (some (.xfer t)) s.busy) rfl
    exact (h₁.emit (e := .touch t) rfl).congr rfl

/-- Apart from the control connection, nothing is part of the login dialogue. -/
theorem Act.calms (h : Act s s') : Calms s s' := by
  have hr : Calms s s := .refl _ s
  have hadd : ∀ j, Calms s (s.addJob j) := fun j =>
    hr.cons (e := .made s.njob (j.fresh s.njob)) rfl rfl
  cases h with
  | badSelect => exact hr.emit rfl
  | assert => exact hr.cons (e := .assertFailed) rfl rfl
  | @next _ op ops hb hq h =>
    have h₁ : Calms s { s with queue := ops } := hr.congr rfl
    exact Calms.exec h₁ h
  | resume _ h =>
    have h₁ : Calms s (s.emit (.wake s.data)) := hr.emit rfl
    exact (Calms.start h₁ h).emit rfl
  | @append op => exact hr.cons (e := .accept op) rfl rfl
  | @direct _ op _ _ _ _ h =>
    have h₁ : Calms s (s.emit (.accept op)) := hr.emit rfl
    exact Calms.exec h₁ h
  | refuse => exact hr.emit rfl
  | newJob j => exact (hadd j).emit rfl
  | handOver j => exact (hadd j).cons (e := .accept (.xfer s.njob)) rfl rfl
  | handOverDirect j _ _ _ h =>
    have h₁ : Calms s ((s.addJob j).emit (.accept (.xfer s.njob))) := (hadd j).emit rfl
    exact Calms.exec h₁ h
  | chunk b _ _ h => exact h.calms
  | dataEof _ _ h => exact h.calms
  | incoming =>
    have h₁ : Calms s { s with data := true } := hr.congr rfl
    exact (h₁.emit rfl).emit rfl

/-- What a reply leads to, unless its code is one of the login dialogue. -/
theorem Reply.calms (h : Reply code buf s s') (hc : code ≠ 220 ∧ code ≠ 331 ∧ code ≠ 230) :
    Calms (s.got code buf) s' := by
  have hr : Calms (s.got code buf) (s.got code buf) := .refl _ _
  cases h with
  | activeOk | pwd | cwdFail | listMore | listEnd | xferMore | xferEnd | loginOther =>
    exact hr.congr rfl
  | activeFail => exact (Calms.close hr).congr rfl
  | pasvOpen => exact (hr.emit (e := .opened) rfl).congr rfl
  | pasvFall sa =>
    have h₁ : Calms (s.got code buf) { s.got code buf with passive := false } := hr.congr rfl
    exact (Calms.active h₁ sa).congr rfl
  | cwdOk _ _ h₁ h₂ => exact (Calms.queue (Calms.queue hr h₁) h₂).congr rfl
  | xferTotal => exact hr.emit rfl
  | @xferFail t => exact ((hr.emit (e := .touch t) rfl).emit (e := .done t) rfl).congr rfl
  | loginUser _ _ h220 => exact absurd h220 hc.1
  | loginPass _ _ h331 => exact absurd h331 hc.2.1
  | loginDone _ h230 => exact absurd h230 hc.2.2

theorem Calms.afterLogin (h : Calms s s') (hl : AfterLogin s.log) : AfterLogin s'.log :=
  h.keeps (fun _ _ he hl => hl.calm he) hl

/-- After the login, no reply has a code of the login dialogue. -/
theorem AfterLogin.code_ne (hl : AfterLogin s.log) (h : LoginReply code (due s.log)) :
    code ≠ 220 ∧ code ≠ 331 ∧ code ≠ 230 := by
  cases hd : due s.log with
  | nil => rwa [hd] at h
  | cons q l =>
    obtain ⟨c, rfl, hc⟩ := hl.due q (hd ▸ List.mem_cons_self)
    rw [hd] at h
    cases c with
    | user | pass => simp [Cmd.isLogin] at hc
    | _ => exact h

theorem AfterLogin.got (hl : AfterLogin s.log) (hc : code ≠ 220 ∧ code ≠ 331 ∧ code ≠ 230) :
    AfterLogin (s.got code buf).log := by
  have hearlier : earlier (s.got code buf).log = earlier s.log := by
    rw [Session.got, Session.emit, earlier, if_neg hc.2.2]
  have haccepted : accepted (s.got code buf).log = accepted s.log := by
    rw [Session.got, Session.emit, accepted_cons]
    exact List.append_nil _
  have hasked : loginAsked (s.got code buf).log = loginAsked s.log := by
    simp [Session.got, Session.emit, loginAsked, Event.loginAsked?, hc.1, hc.2.1]
  refine ⟨⟨by rw [hearlier]; exact hl.loggedIn, fun q hq => hl.due q ?_, ?_,
    ⟨fun h230 => absurd h230 hc.2.2, hl.guarded⟩⟩, ?_, ?_⟩
  · rw [Session.got, Session.emit, Visftp.due] at hq
    split at hq
    exacts [List.mem_of_mem_tail hq, hq]
  · exact hl.answered.trans hasked.symm
  · rw [Session.got, Session.emit, newconnLeft, if_neg hc.2.2]
    exact hl.newconn
  · rw [hearlier, haccepted]
    exact hl.queued

/-- **One step** after the login. -/
theorem Step.afterLogin (h : Step s s') (hl : AfterLogin s.log)
    (hA : Always LoginServer s'.log) : AfterLogin s'.log := by
  have hr : Calms s s := .refl _ s
  cases h with
  | recv b => exact hl.calm rfl
  | line buf => exact hl.calm rfl
  | carry c => exact hl
  | reply code buf _ _ h =>
    have hc := AfterLogin.code_ne hl (hA.suffix h.extends.event).1
    exact Calms.afterLogin (h.calms hc) (AfterLogin.got hl hc)
  | hangup => exact Calms.afterLogin (Calms.close (.refl _ s)) hl
  | act h => exact Calms.afterLogin h.calms hl

/-! ### Before the login -/

/-- What holds of a session until the login is over. -/
structure BeforeLogin (s : Session) : Prop where
  cproc : s.cproc = none
  dproc : s.dproc = none
  stack : stack s.log = []
  earlier : earlier s.log = none
  answered : loginSent s.log = loginAsked s.log
  guarded : Always Guarded s.log
  /-- Before the greeting nothing is outstanding or queued, and then one reply is. -/
  phase : greeted s.log = false ∧ s.queue = [] ∧ s.busy = 0 ∧
      (s.ctl = true → due s.log = [none]) ∨
    greeted s.log = true ∧ s.busy = 1 ∧
      (s.ctl = true → ∃ c : Cmd, due s.log = [some c] ∧ c.isLogin = true)

/-- An event that changes nothing before the login. -/
structure Idle (e : Event) : Prop where
  calm : e.calm = true
  stack : ∀ h, Visftp.stack (e :: h) = Visftp.stack h
  guarded : ∀ h, Guarded h e
  due : ∀ h, Visftp.due (e :: h) = Visftp.due h
  greeted : ∀ h, Visftp.greeted (e :: h) = Visftp.greeted h

theorem BeforeLogin.emit (h : BeforeLogin s) {e : Event} (he : Idle e) :
    BeforeLogin (s.emit e) where
  cproc := h.cproc
  dproc := h.dproc
  stack := (he.stack s.log).trans h.stack
  earlier := (earlier_of_calm he.calm s.log).trans h.earlier
  answered := by
    obtain ⟨hs, ha⟩ := login_of_calm he.calm s.log
    exact hs.trans (h.answered.trans ha.symm)
  guarded := ⟨he.guarded s.log, h.guarded⟩
  phase := by
    rw [Session.emit, he.due, he.greeted]
    exact h.phase

theorem BeforeLogin.congr (h : BeforeLogin s) (hl : s'.log = s.log) (hp : s'.cproc = s.cproc)
    (hd : s'.dproc = s.dproc) (hq : s'.queue = s.queue) (hb : s'.busy = s.busy)
    (hc : s'.ctl = s.ctl) : BeforeLogin s' where
  cproc := hp.trans h.cproc
  dproc := hd.trans h.dproc
  stack := hl ▸ h.stack
  earlier := hl ▸ h.earlier
  answered := hl ▸ h.answered
  guarded := hl ▸ h.guarded
  phase := by
    rw [hl, hq, hb, hc]
    exact h.phase

/-- After the greeting, an operation can be queued. -/
theorem BeforeLogin.enqueue (h : BeforeLogin s) (hn : ¬(s.busy = 0 ∧ s.queue = [])) (op : Op) :
    BeforeLogin (s.enqueue op) := by
  obtain ⟨hg, hb, hd⟩ := h.phase.resolve_left fun hf => hn ⟨hf.2.2.1, hf.2.1⟩
  have h₁ : BeforeLogin { s with queue := s.queue ++ [op] } :=
    ⟨h.cproc, h.dproc, h.stack, h.earlier, h.answered, h.guarded, .inr ⟨hg, hb, hd⟩⟩
  exact h₁.emit ⟨rfl, fun _ => rfl, fun _ => trivial, fun _ => rfl, fun _ => rfl⟩

theorem BeforeLogin.close (h : BeforeLogin s) : BeforeLogin s.close := by
  cases hctl : s.ctl with
  | false =>
    exact h.congr (by simp [Session.close, hctl]) rfl rfl rfl rfl (by simp [Session.close, hctl])
  | true =>
    have hlog : s.close.log = .hangup :: s.log := by simp [Session.close, hctl]
    have hclosed : ∀ {q : Prop}, (s.close.ctl = true → q) := fun hf => by simp [Session.close] at hf
    refine ⟨h.cproc, h.dproc, hlog ▸ h.stack, hlog ▸ h.earlier, hlog ▸ h.answered,
      hlog ▸ ⟨trivial, h.guarded⟩, ?_⟩
    rw [hlog]
    exact h.phase.imp (fun h => ⟨h.1, h.2.1, h.2.2.1, hclosed⟩) fun h => ⟨h.1, h.2.1, hclosed⟩

/-- No operation is begun before the login. -/
theorem BeforeLogin.not_direct (h : BeforeLogin s) (hb : s.busy = 0) (hg : greeted s.log = true) :
    False := by
  rcases h.phase with ⟨hf, -⟩ | ⟨-, hone, -⟩
  · simp [hg] at hf
  · simp [hb] at hone

theorem Act.beforeLogin (ha : Act s s') (h : BeforeLogin s) (hA : Always Patient s'.log) :
    BeforeLogin s' := by
  have hmem : Idle .outOfMemory := ⟨rfl, fun _ => rfl, fun _ => trivial, fun _ => rfl, fun _ => rfl⟩
  have hadd : ∀ j, BeforeLogin (s.addJob j) := fun j =>
    have h₁ : BeforeLogin (s.emit (.made s.njob (j.fresh s.njob))) :=
      h.emit ⟨rfl, fun _ => rfl, fun _ => trivial, fun _ => rfl, fun _ => rfl⟩
    h₁.congr rfl rfl rfl rfl rfl rfl
  cases ha with
  | badSelect => exact h.emit ⟨rfl, fun _ => rfl, fun _ => trivial, fun _ => rfl, fun _ => rfl⟩
  | assert hb =>
    rcases h.phase with ⟨-, -, hb', -⟩ | ⟨-, hb', -⟩ <;> omega
  | next hb hq =>
    rcases h.phase with ⟨-, hq', -⟩ | ⟨-, hb', -⟩
    · simp [hq] at hq'
    · omega
  | resume hs => simp [h.stack] at hs
  | append _ _ hn => exact h.enqueue hn _
  | refuse => exact h.emit hmem
  | @direct _ op _ _ hb _ hx =>
    have hsuffix := (Extends.refl (s.emit (.accept op))).exec hx
    exact (h.not_direct hb (hA.suffix hsuffix.suffix).1).elim
  | newJob j => exact (hadd j).emit hmem
  | handOver j _ hn => exact (hadd j).enqueue hn _
  | handOverDirect j _ hb _ hx =>
    have hsuffix := (Extends.refl ((s.addJob j).emit (.accept (.xfer s.njob)))).exec hx
    exact ((hadd j).not_direct hb (hA.suffix hsuffix.suffix).1).elim
  | chunk b _ _ hc =>
    have hchunk : Idle (.chunk b none) :=
      ⟨rfl, fun _ => rfl, fun _ => trivial, fun _ => rfl, fun _ => rfl⟩
    cases hc with
    | none => exact h.emit hchunk
    | list hp | listFull hp | file hp | mem hp | stor hp => simp [h.dproc] at hp
  | dataEof _ _ hd =>
    have heof : Idle (.dataEof none s.busy) :=
      ⟨rfl, fun _ => rfl, fun _ => trivial, fun _ => rfl, fun _ => rfl⟩
    cases hd with
    | none => exact (h.emit heof).congr rfl rfl rfl rfl rfl rfl
    | list _ _ hp | xfer hp | stor hp => simp [h.dproc] at hp
  | incoming =>
    have h₁ : BeforeLogin { s with data := true } := h.congr rfl rfl rfl rfl rfl rfl
    have hin : Idle .incoming :=
      ⟨rfl, fun _ => rfl, fun _ => trivial, fun _ => rfl, fun _ => rfl⟩
    exact (h₁.emit hin).emit ⟨rfl, fun _ => rfl, fun _ => trivial, fun _ => rfl, fun _ => rfl⟩

/-- The next command of the login dialogue. -/
theorem BeforeLogin.ask (h : BeforeLogin s) (hctl : s.ctl = true) (hlen : (due s.log).length = 1)
    {c : Cmd} (hlogin : c.isLogin = true)
    (hc : code = 220 ∧ Event.loginSent? (.sent c) = some .user ∨
      code = 331 ∧ Event.loginSent? (.sent c) = some .pass) :
    BeforeLogin ({ s.got code buf with busy := 0 }.send c) := by
  have hsend : { s.got code buf with busy := 0 }.send c =
      { s with busy := 1, log := .sent c :: .reply code s.cproc s.busy buf :: s.log } := by
    simp [Session.send, Session.got, Session.emit, hctl]
  have h230 : code ≠ 230 := by omega
  have hasked : Event.loginAsked? (.reply code s.cproc s.busy buf) =
      Event.loginSent? (.sent c) := by
    rcases hc with ⟨rfl, hc⟩ | ⟨rfl, hc⟩ <;> rw [hc] <;> rfl
  have hdue : due (.sent c :: .reply code s.cproc s.busy buf :: s.log) = [some c] := by
    rw [Visftp.due, Visftp.due, if_pos (by omega)]
    have htail : (due s.log).tail = [] := List.eq_nil_of_length_eq_zero (by simp [hlen])
    rw [htail, List.nil_append]
  rw [hsend]
  refine ⟨h.cproc, h.dproc, h.stack, ?_, ?_, ⟨?_, ⟨fun hf => absurd hf h230, h.guarded⟩⟩,
    .inr ⟨rfl, rfl, fun _ => ⟨c, hdue, hlogin⟩⟩⟩
  · change (if code = 230 then some (accepted s.log) else Visftp.earlier s.log) = none
    rw [if_neg h230]
    exact h.earlier
  · change (_ :: _ :: s.log).filterMap _ = (_ :: _ :: s.log).filterMap _
    rw [List.filterMap_cons, List.filterMap_cons, List.filterMap_cons, List.filterMap_cons, hasked]
    have hrest : s.log.filterMap Event.loginSent? = s.log.filterMap Event.loginAsked? := h.answered
    rw [hrest]
    rfl
  · cases c with
    | user u => exact (hc.resolve_right fun hf => by simp [Event.loginSent?] at hf).1
    | pass w => exact (hc.resolve_left fun hf => by simp [Event.loginSent?] at hf).1
    | _ => simp [Cmd.isLogin] at hlogin

/-- What an operation does that is carried out. -/
def working : Event → Bool
  | .exec .. | .sent _ | .hook _ | .ret => true
  | _ => false

theorem Adds.newconnLeft (h : Adds working s s') :
    Visftp.newconnLeft s'.log = Visftp.newconnLeft s.log ∧ accepted s'.log = accepted s.log ∧
      Visftp.earlier s'.log = Visftp.earlier s.log := by
  refine h.keeps (P := fun h => Visftp.newconnLeft h = Visftp.newconnLeft s.log ∧
    accepted h = accepted s.log ∧ Visftp.earlier h = Visftp.earlier s.log) ?_ ⟨rfl, rfl, rfl⟩
  rintro e h he ⟨hleft, hacc, hear⟩
  rw [accepted_cons, hacc]
  cases e <;>
    first
      | exact ⟨hleft, List.append_nil _, hear⟩
      | simp [working] at he

/-- An operation that `newconn` queues is accepted. -/
theorem Queue.newconn (h : Queue op s s') (hA : Always Patient s'.log) {n : ℕ}
    (hn : newconnLeft s.log = n + 1) :
    newconnLeft s'.log = n ∧ accepted s'.log = accepted s.log ++ [op] ∧
      Visftp.earlier s'.log = Visftp.earlier s.log := by
  have haccept : newconnLeft (.accept op :: s.log) = n := by
    rw [newconnLeft, hn, Nat.add_sub_cancel]
  cases h with
  | full =>
    have hzero : newconnLeft s.log = 0 := hA.1
    omega
  | append => exact ⟨haccept, accepted_cons _ _, rfl⟩
  | direct hb hq hop =>
    have henter : Adds working (s.emit (.accept op)) ((s.emit (.accept op)).enter op) :=
      (Adds.refl _ _).emit rfl
    obtain ⟨hleft, hacc, hear⟩ := Adds.newconnLeft
      ((henter.simple op (fun _ _ => rfl) fun _ => rfl).emit (e := .ret) rfl)
    exact ⟨hleft.trans haccept, hacc.trans (accepted_cons _ _), hear⟩

/-- The `230` ends the login. -/
theorem BeforeLogin.done (h : BeforeLogin s) {s₁ s₂ s₃ : Session} (hlen : (due s.log).length = 1)
    (h₁ : Queue (.type (ascii "I")) { s.got 230 buf with busy := 0 } s₁) (h₂ : Queue .pwd s₁ s₂)
    (h₃ : Queue .list s₂ s₃) (hA : Always Patient s₃.log) : AfterLogin s₃.log := by
  have hA₂ := hA.suffix (Extends.queue (.refl _) h₃).suffix
  have hA₁ := hA₂.suffix (Extends.queue (.refl _) h₂).suffix
  obtain ⟨hn₁, ha₁, he₁⟩ := h₁.newconn (n := 2) hA₁ rfl
  obtain ⟨hn₂, ha₂, he₂⟩ := h₂.newconn hA₂ hn₁
  obtain ⟨hn₃, ha₃, he₃⟩ := h₃.newconn hA hn₂
  have hover : LoginOver (s.got 230 buf).log := by
    refine ⟨rfl, fun q hq => ?_, ?_, fun _ => h.earlier, h.guarded⟩
    · have htail : due (s.got 230 buf).log = (due s.log).tail := rfl
      have hnil : (due s.log).tail = [] := List.eq_nil_of_length_eq_zero (by simp [hlen])
      simp [htail, hnil] at hq
    · exact h.answered
  have hcalms : Calms { s.got 230 buf with busy := 0 } s₃ :=
    Calms.queue (Calms.queue (Calms.queue (.refl _ _) h₁) h₂) h₃
  refine ⟨hcalms.keeps (fun _ _ he hl => hl.calm he) hover, hn₃, fun ops hops => ?_⟩
  have hgot : Visftp.earlier (s.got 230 buf).log = some (accepted s.log) := rfl
  have hacc : accepted (s.got 230 buf).log = accepted s.log :=
    (accepted_cons _ _).trans (List.append_nil _)
  obtain rfl : accepted s.log = ops := by
    rw [he₃, he₂, he₁] at hops
    exact Option.some.inj (hgot.symm.trans hops)
  have hall : accepted s₃.log = accepted s.log ++ newconnOps := by
    rw [ha₃, ha₂, ha₁]
    simp only [hacc, newconnOps, List.append_assoc, List.cons_append, List.nil_append]
  rw [hall]

/-- A reply before the login goes on with the dialogue, or ends it. -/
theorem Reply.beforeLogin (hr : Reply code buf s s') (h : BeforeLogin s) (hctl : s.ctl = true)
    (hS : LoginReply code (due s.log)) (hA : Always Patient s'.log) :
    BeforeLogin s' ∨ AfterLogin s'.log := by
  have hcode : (due s.log).length = 1 ∧ (code = 220 ∨ code = 331 ∨ code = 230) := by
    rcases h.phase with ⟨-, -, -, hd⟩ | ⟨-, -, hd⟩
    · rw [hd hctl] at hS ⊢
      exact ⟨rfl, .inl hS⟩
    · obtain ⟨c, hd, hc⟩ := hd hctl
      rw [hd] at hS ⊢
      cases c with
      | user => exact ⟨rfl, .inr hS⟩
      | pass => exact ⟨rfl, .inr (.inr hS)⟩
      | _ => simp [Cmd.isLogin] at hc
  obtain ⟨hlen, hcode⟩ := hcode
  cases hr with
  | loginUser u _ hc => exact .inl (h.ask hctl hlen rfl (.inl ⟨hc, rfl⟩))
  | loginPass w _ hc => exact .inl (h.ask hctl hlen rfl (.inr ⟨hc, rfl⟩))
  | loginDone _ hc h₁ h₂ h₃ =>
    subst hc
    exact .inr (h.done hlen h₁ h₂ h₃ hA)
  | loginOther _ hc => omega
  | activeOk hp | activeFail hp | pasvOpen hp | pasvFall _ hp | pwd hp | cwdFail hp | cwdOk hp
  | listMore hp | listEnd hp | xferTotal hp | xferMore hp | xferEnd hp | xferFail hp =>
    simp [h.cproc] at hp

/-- **One step** before the login. -/
theorem Step.beforeLogin (hs : Step s s') (h : BeforeLogin s) (hS : Always LoginServer s'.log)
    (hA : Always Patient s'.log) : BeforeLogin s' ∨ AfterLogin s'.log := by
  cases hs with
  | recv b | line buf =>
    exact .inl (h.emit ⟨rfl, fun _ => rfl, fun _ => trivial, fun _ => rfl, fun _ => rfl⟩)
  | carry c => exact .inl (h.congr rfl rfl rfl rfl rfl rfl)
  | reply code buf _ hctl hr =>
    have hopen : s.ctl = true := hctl.resolve_right (by simp [h.cproc])
    exact hr.beforeLogin h hopen (hS.suffix hr.extends.event).1 hA
  | hangup => exact .inl h.close
  | act ha => exact .inl (ha.beforeLogin h hA)

end Session

/-- What the login dialogue leaves behind. -/
structure World.LoggedIn {α : Type} (w : World α) : Prop where
  /-- `USER` answers the greeting and `PASS` a `331`; everything else comes after the `230`. -/
  guarded : Always Guarded w.log
  /-- The commands of the dialogue that the server has asked for were sent. -/
  answered : loginSent w.log = loginAsked w.log
  /-- `newconn` has queued its operations behind those accepted earlier. -/
  queued : ∀ ops, earlier w.log = some ops → ops ++ newconnOps <+: accepted w.log
  /-- Operations are begun in the order of their acceptance. -/
  order : begun w.log ++ w.ftp.queue.toList = accepted w.log
  /-- When the operations all start something, something is outstanding that starts the next. -/
  progress : Always Lively w.log → w.ftp.ctl ≠ none → w.ftp.queue.toList ≠ [] → 0 < w.ftp.busy

/-- **The login dialogue.** In every run with a server that greets and answers as it should, `USER`
is sent on the greeting and `PASS` on a `331`, no operation is begun and no other command sent
before the `230`, and `newconn` queues its operations once, behind those accepted earlier. All are
begun in the order of their acceptance. This takes an application that queues nothing before the
greeting, and the memory for `newconn`. -/
theorem login_run {α : Type} (ctl : Fd) (user pass : Option Bytes) (app : α)
    (inputs : List (Env × Input α))
    (hS : Always LoginServer ((World.connected ctl user pass app).run inputs).log)
    (hA : Always Patient ((World.connected ctl user pass app).run inputs).log) :
    ((World.connected ctl user pass app).run inputs).LoggedIn := by
  have h₀ : BeforeLogin (World.connected ctl user pass app).view :=
    ⟨rfl, rfl, rfl, rfl, rfl, trivial, .inl ⟨rfl, rfl, rfl, fun _ => rfl⟩⟩
  have hlive : (World.connected ctl user pass app).view.Live := fun _ =>
    ⟨le_rfl, fun hne => absurd rfl hne⟩
  have hI := run_invariant (I := fun s => BeforeLogin s ∨ AfterLogin s.log)
    (A := fun past e => LoginServer past e ∧ Patient past e)
    (fun s s' hs hA hI => ?_) (.inl h₀) inputs (hS.and hA)
  · have hord := inOrder_run ctl user pass app inputs
    have hprog : Always Lively ((World.connected ctl user pass app).run inputs).log →
        ((World.connected ctl user pass app).run inputs).ftp.ctl ≠ none →
        ((World.connected ctl user pass app).run inputs).ftp.queue.toList ≠ [] →
        0 < ((World.connected ctl user pass app).run inputs).ftp.busy := fun hL hctl hq =>
      (live_run inputs hlive rfl rfl hL (view_ctl_of_ne_none hctl)).2 hq
    rcases hI with h | h
    · exact ⟨h.guarded, h.answered, fun _ hops => (nomatch h.earlier.symm.trans hops), hord, hprog⟩
    · exact ⟨h.guarded, h.answered, h.queued, hord, hprog⟩
  · obtain ⟨hS, hA⟩ := always_and.mp hA
    rcases hI with h | h
    · exact hs.beforeLogin h hS hA
    · exact .inr (hs.afterLogin h hS)

/-- A login during which an operation is queued. -/
def patientLogin : World Unit :=
  (World.connected 3 none none ()).run
    [(.control (ascii "220 ready\r\n"), .handle 3),
      (.quiet, .queue (.chdir (ascii "pub")) rfl),
      (.control (ascii "331 password?\r\n"), .handle 3),
      (.control (ascii "230 welcome\r\n"), .handle 3)]

theorem login_run_patient : patientLogin.LoggedIn :=
  login_run 3 none none () _ (by decide) (by decide)

/-- A login before which an operation is queued. -/
def hastyLogin : World Unit :=
  (World.connected 3 none none ()).run
    [(.quiet, .queue .cdup rfl), (.control (ascii "220 ready\r\n"), .handle 3)]

/-- An operation that is accepted before the greeting is begun at once. The greeting goes to its
handler, and `USER` is never sent. -/
theorem not_loggedIn_of_hasty :
    Always LoginServer hastyLogin.log ∧ ¬hastyLogin.LoggedIn ∧
      ¬Always Guarded hastyLogin.log ∧ loginSent hastyLogin.log ≠ loginAsked hastyLogin.log :=
  ⟨by decide, fun h => absurd h.guarded (by decide), by decide, by decide⟩

end Visftp
