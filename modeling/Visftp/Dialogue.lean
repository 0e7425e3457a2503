import Visftp.Transfers

/-!
# The dialogue on the control connection

The client has one reply handler, so it must not send a command while the server owes it a reply.
It goes by `busy`, and starts an operation when that is zero. This is right as long as `busy`
counts what is owed: no operation is begun while the greeting is owed or another operation waits,
a reply that is not final comes only for a command whose handler expects it, and the end of the
data only once for each data command (`Conforms`). The first fails by itself, whatever the server
does: `ftp_handle` begins the next operation of the queue inside the wait of the one before.

## Main definitions

* `due`, `awaitsData` — what the server owes
* `Conforms`, `Orderly` — what is asked of the history, and what follows
* `Session.Core`, `Session.Waits` — the invariant

## Main results

* `Session.Step.inSync` — one step
* `orderly_run` — whole runs
-/

namespace Visftp

open CString Histories Session Relation

/-- The replies that the server owes, oldest first: the greeting, `none`, and one for each command.
On a closed connection nothing is owed. -/
def due : List Event → List (Option Cmd)
  | [] => [none]
  | .sent c :: past => due past ++ [some c]
  | .reply code _ _ _ :: past => if 200 ≤ code then (due past).tail else due past
  | .hangup :: _ => []
  | _ :: past => due past

/-- A data command has been sent, and no handler has seen the end of its data. -/
def awaitsData : List Event → Bool
  | [] => false
  | .sent c :: past => c.owner.isSome || awaitsData past
  | .dataEof (some _) _ :: _ => false
  | _ :: past => awaitsData past

/-- The handler of a command is installed. The login dialogue has none, and `TYPE` leaves the one
that is there. -/
def Cmd.HandledBy : Cmd → Option CProc → Prop
  | .user _, p | .pass _, p => p = none
  | .type _, _ => True
  | .pwd, p => p = some .pwd
  | .cdup, p | .cwd _, p => p = some .cwd
  | .pasv, p => p = some .pasv
  | .port .., p => p = some .active
  | .list r, p => p = some (.list r)
  | .retr t _, p => p = some (.xfer t)

instance (c : Cmd) (p : Option CProc) : Decidable (c.HandledBy p) := by
  induction c using Cmd.casesOn <;> (dsimp only [Cmd.HandledBy]; infer_instance)

/-- A reply answers what is owed first; it is preliminary only for the greeting or a data
command. -/
def Answers (code : Int) : List (Option Cmd) → Prop
  | [] => False
  | none :: _ => True
  | some c :: _ => code < 200 → c.owner.isSome = true

instance (code : Int) (l : List (Option Cmd)) : Decidable (Answers code l) := by
  induction l using List.casesOn with
  | nil => dsimp only [Answers]; infer_instance
  | cons c l => induction c using Option.casesOn <;> (dsimp only [Answers]; infer_instance)

/-- The handler that is installed belongs to what is owed first. -/
def Finds (p : Option CProc) : List (Option Cmd) → Prop
  | [] => True
  | none :: _ => p = none
  | some c :: _ => c.HandledBy p

instance (p : Option CProc) (l : List (Option Cmd)) : Decidable (Finds p l) := by
  induction l using List.casesOn with
  | nil => dsimp only [Finds]; infer_instance
  | cons c l => induction c using Option.casesOn <;> (dsimp only [Finds]; infer_instance)

/-- The server answers what it owes, in order. -/
def Answering (past : List Event) : Event → Prop
  | .reply code _ _ _ => Answers code (due past)
  | _ => True

instance (past : List Event) (e : Event) : Decidable (Answering past e) := by
  induction e using Event.casesOn <;> (dsimp only [Answering]; infer_instance)

/-- What is asked of the server, and when operations are begun. Every reply answers something, and
the end of the data comes once for each data command. No operation is begun before the greeting, or
while another one waits. -/
def Conforms (past : List Event) : Event → Prop
  | .reply code _ _ _ => Answers code (due past)
  | .exec .. => none ∉ due past ∧ stack past = []
  | .dataEof (some _) _ => awaitsData past = true
  | _ => True

instance (past : List Event) (e : Event) : Decidable (Conforms past e) := by
  induction e using Event.casesOn with
  | dataEof p busy => induction p using Option.casesOn <;> (dsimp only [Conforms]; infer_instance)
  | _ => dsimp only [Conforms]; infer_instance

/-- A command is sent when nothing is owed, and a final reply finds the handler of what it
answers. -/
def Orderly (past : List Event) : Event → Prop
  | .sent _ => due past = []
  | .reply code p _ _ => 200 ≤ code → Finds p (due past)
  | _ => True

instance (past : List Event) (e : Event) : Decidable (Orderly past e) := by
  induction e using Event.casesOn <;> (dsimp only [Orderly]; infer_instance)

/-- The kinds of events that are none of the dialogue. -/
def Event.silent : Event → Bool
  | .sent _ | .reply .. | .dataEof (some _) _ | .hangup => false
  | _ => true

namespace Session

variable {s s' : Session} {op : Op} {k : ℤ} {e : Event}

/-- How much is outstanding: a reply to a command, and the end of its data. -/
def outstanding (log : List Event) : ℤ :=
  (due log).countP Option.isSome + if awaitsData log then 1 else 0

/-- **At most one reply is owed**, its handler is installed, and `busy` is what is outstanding, and
`k` more: a handler that runs has not been counted off yet. -/
structure Core (k : ℤ) (s : Session) : Prop where
  orderly : Always Orderly s.log
  one : (due s.log).length ≤ 1
  matched : Finds s.cproc (due s.log)
  closed : s.ctl = false → due s.log = []
  login : s.ctl = true → s.cproc = none → awaitsData s.log = false
  busy : s.ctl = true → s.busy = outstanding s.log + k

/-- An operation waits for the reply to `PASV`, or to the `PORT` that follows a refusal. -/
structure Waiting (s : Session) : Prop where
  cproc : s.cproc = some .pasv ∨ s.cproc = some .active
  awaits : s.ctl = true → awaitsData s.log = false
  idle : s.ctl = true → s.data = true → due s.log = []

/-- At most one operation is under way, and that one waits. -/
def Waits (s : Session) : Prop := stack s.log = [] ∨ ((∃ op, stack s.log = [op]) ∧ Waiting s)

/-! ### Actions -/

/-- An event that is none of the dialogue. -/
structure Silent (e : Event) : Prop where
  due : ∀ past, due (e :: past) = Visftp.due past
  awaits : ∀ past, awaitsData (e :: past) = awaitsData past
  orderly : ∀ past, Orderly past e

theorem silent_of (he : e.silent = true) : Silent e := by
  cases e with
  | sent | reply | hangup => simp [Event.silent] at he
  | dataEof p b =>
    cases p with
    | none => exact ⟨fun _ => rfl, fun _ => rfl, fun _ => trivial⟩
    | some p => simp [Event.silent] at he
  | _ => exact ⟨fun _ => rfl, fun _ => rfl, fun _ => trivial⟩

theorem Core.emit (h : Core k s) (he : Silent e) : Core k (s.emit e) where
  orderly := ⟨he.orderly s.log, h.orderly⟩
  one := by rw [Session.emit, he.due]; exact h.one
  matched := by rw [Session.emit, he.due]; exact h.matched
  closed := by rw [Session.emit, he.due]; exact h.closed
  login := by rw [Session.emit, he.awaits]; exact h.login
  busy := by rw [Session.emit, outstanding, he.due, he.awaits]; exact h.busy

theorem Core.congr (h : Core k s) (hl : s'.log = s.log) (hc : s'.ctl = s.ctl)
    (hp : s'.cproc = s.cproc) (hb : s'.busy = s.busy) : Core k s' where
  orderly := hl ▸ h.orderly
  one := hl ▸ h.one
  matched := by rw [hl, hp]; exact h.matched
  closed := by rw [hl, hc]; exact h.closed
  login := by rw [hl, hc, hp]; exact h.login
  busy := by rw [hl, hc, hb]; exact h.busy

theorem Core.finish (h : Core k s) : Core (k - 1) s.finish where
  orderly := h.orderly
  one := h.one
  matched := h.matched
  closed := h.closed
  login := h.login
  busy hc := by
    have := h.busy hc
    simp only [Session.finish]
    omega

theorem Core.close (h : Core k s) (k' : ℤ) : Core k' s.close := by
  rw [Session.close]
  cases hc : s.ctl with
  | true =>
    exact ⟨⟨trivial, h.orderly⟩, Nat.zero_le 1, trivial, fun _ => rfl, fun hf => by simp at hf,
      fun hf => by simp at hf⟩
  | false =>
    exact ⟨h.orderly, h.one, h.matched, fun _ => h.closed hc, fun hf => by simp at hf,
      fun hf => by simp at hf⟩

theorem silent_hook (p : CProc) : Silent (.hook p) := silent_of rfl

theorem awaitsData_send {c : Cmd} (hn : c.owner = none) (s : Session) :
    awaitsData (s.send c).log = awaitsData s.log := by
  rw [Session.send]
  dsimp only
  split
  · simp [awaitsData, hn]
  · rfl

/-- A command is sent when nothing is owed, and the installed handler is the one for it. -/
theorem Core.send (h : Core k s) (hd : due s.log = []) {c : Cmd} (hm : c.HandledBy s.cproc)
    (hn : c.owner = none) : Core k (s.send c) := by
  rw [Session.send]
  cases hc : s.ctl with
  | false => exact h.congr rfl hc.symm rfl rfl
  | true =>
    have hdue : due (.sent c :: s.log) = [some c] := by rw [due, hd, List.nil_append]
    have hawaits : awaitsData (.sent c :: s.log) = awaitsData s.log := by simp [awaitsData, hn]
    refine ⟨⟨hd, h.orderly⟩, ?_, ?_, fun hf => by simp at hf, fun _ => ?_, fun _ => ?_⟩
    · exact (congrArg List.length hdue).le
    · exact (show Finds s.cproc (due (.sent c :: s.log)) by rw [hdue]; exact hm)
    · exact (show s.cproc = none → awaitsData (.sent c :: s.log) = false by
        rw [hawaits]; exact h.login hc)
    · have := h.busy hc
      simp only [outstanding, hd, hdue, hawaits, List.countP_nil, List.countP_singleton,
        Option.isSome_some, if_true] at this ⊢
      push_cast at this ⊢
      omega

/-- A command is sent when nothing is owed, and its handler is installed. -/
theorem Core.ask (h : Core k s) (hd : due s.log = []) {c : Cmd} {p : CProc}
    (hm : c.HandledBy (some p)) (hn : c.owner = none) : Core k ((s.send c).hook p) := by
  -- with its handler installed before, nothing else changes
  have h₁ : Core k { s with cproc := some p } :=
    ⟨h.orderly, h.one, by rw [hd]; trivial, h.closed, fun _ hf => by simp at hf, h.busy⟩
  exact ((h₁.send hd hm hn).emit (silent_hook p)).congr rfl rfl rfl rfl

theorem Core.active (h : Core k s) (hd : due s.log = []) (sa : Option (ℕ × ℕ)) :
    Core k (s.active sa) := by
  have h₁ : Core k { s with data := false } := h.congr rfl rfl rfl rfl
  rcases sa with - | ⟨a, p⟩
  · exact h₁
  · exact h₁.ask hd (p := .active) rfl rfl

theorem Core.simple (h : Core k s) (hd : due s.log = []) (op : Op) : Core k (s.simple op) := by
  cases op with
  | type arg =>
    unfold Session.simple
    dsimp only
    split
    · exact h
    · exact h.send hd trivial rfl
  | pwd => exact h.ask hd (p := .pwd) rfl rfl
  | cdup => exact h.ask hd (p := .cwd) rfl rfl
  | chdir d =>
    refine h.ask hd (p := .cwd) ?_ ?_
    · split <;> rfl
    · split <;> rfl
  | _ => exact h

/-- A data command is sent when nothing is outstanding: its reply and its data are. -/
theorem Core.startData (h : Core k s) (hd : due s.log = [])
    (ha : s.ctl = true → awaitsData s.log = false) {c : Cmd} {p : CProc}
    (hm : c.HandledBy (some p)) (hn : c.owner.isSome = true) (d : Option DProc) :
    Core k { (s.send c).hook p with dproc := d, busy := ((s.send c).hook p).busy + 1 } := by
  rw [Session.send]
  cases hc : s.ctl with
  | false =>
    have hclosed : ∀ {q : Prop}, (s.ctl = true → q) := fun hf => by simp [hc] at hf
    exact ⟨⟨trivial, h.orderly⟩, h.one, (show Finds (some p) (due s.log) by rw [hd]; trivial),
      fun _ => hd, fun hf => by simp [Session.hook] at hf, fun hf => by simp [Session.hook] at hf⟩
  | true =>
    have hdue : due (.sent c :: s.log) = [some c] := by rw [due, hd, List.nil_append]
    refine ⟨⟨trivial, hd, h.orderly⟩, ?_, ?_, fun hf => by simp [Session.hook] at hf,
      fun _ hf => by simp [Session.hook] at hf, fun _ => ?_⟩
    · exact (congrArg List.length hdue).le
    · exact (show Finds (some p) (due (.sent c :: s.log)) by rw [hdue]; exact hm)
    · have := h.busy hc
      have hout : outstanding (.hook p :: .sent c :: s.log) = 2 := by
        simp [outstanding, due, awaitsData, hd, hn]
      simp only [Session.hook, if_true, hout]
      simp only [outstanding, hd, ha hc] at this
      simp at this
      omega

theorem silent_outOfMemory : Silent .outOfMemory := silent_of rfl

theorem Core.start (h : Core k s) (hd : due s.log = [])
    (ha : s.ctl = true → awaitsData s.log = false) (hs : Start op s s') : Core k s' := by
  cases hs with
  | none => exact h
  | noBuffer => exact h.emit silent_outOfMemory
  | list =>
    rw [startList]
    set s₁ : Session := { s with bufs := Function.update s.bufs s.nbuf [], nbuf := s.nbuf + 1 }
    have h₁ : Core k s₁ := h.congr rfl rfl rfl rfl
    exact h₁.startData hd ha (c := .list s.nbuf) (p := .list s.nbuf) rfl rfl _
  | @transfer t =>
    rw [startTransfer]
    split
    · exact h.startData hd ha (c := .retr t (s.jobs t).rname) (p := .xfer t) rfl rfl _
    · exact h

theorem silent_exec (op : Op) (d p : Bool) : Silent (.exec op d p) :=
  silent_of rfl

theorem silent_touch (t : ℕ) : Silent (.touch t) := silent_of rfl

theorem silent_done (t : ℕ) : Silent (.done t) := silent_of rfl

theorem silent_ret : Silent .ret := silent_of rfl

/-- When `busy` is zero and the greeting is not owed, nothing is outstanding. -/
theorem Core.idle (h : Core k s) (hk : 0 ≤ k) (hb : s.busy = 0) (hg : none ∉ due s.log) :
    due s.log = [] ∧ (s.ctl = true → awaitsData s.log = false) := by
  cases hc : s.ctl with
  | false => exact ⟨h.closed hc, fun hf => by simp at hf⟩
  | true =>
    have hbusy := h.busy hc
    rw [hb, outstanding] at hbusy
    have hcount : (due s.log).countP Option.isSome = 0 := by
      split at hbusy <;> omega
    refine ⟨List.eq_nil_iff_forall_not_mem.mpr fun q hq => ?_, fun _ => ?_⟩
    · have hnone : q = none := by simpa using List.countP_eq_zero.mp hcount q hq
      exact hg (hnone ▸ hq)
    · split at hbusy
      · omega
      · next hawaits => simpa using hawaits

/-- `exec_op` while nothing is outstanding. -/
theorem Core.exec (h : Core 0 s) (hb : s.busy = 0) (hA : Conforms s.log (.exec op s.data s.passive))
    (hs : Exec op s s') : Core 0 s' ∧ Waits s' := by
  obtain ⟨hg, hst⟩ := hA
  obtain ⟨hd, ha⟩ := h.idle le_rfl hb hg
  have he : Core 0 (s.enter op) := h.emit (silent_exec _ _ _)
  cases hs with
  | simple => exact ⟨(he.simple hd op).emit silent_ret, .inl ((stack_execSimple s op).trans hst)⟩
  | atOnce _ _ hstart =>
    refine ⟨(he.start hd ha hstart).emit silent_ret, .inl ?_⟩
    rw [Session.emit, stack, hstart.stack_eq]
    exact hst
  | noData sa =>
    refine ⟨(he.active hd sa).emit silent_ret, .inl ?_⟩
    rw [Session.emit, stack, stack_active]
    exact hst
  | wait =>
    have h₁ : Core 0 { s.enter op with data := false } := he.congr rfl rfl rfl rfl
    refine ⟨h₁.ask hd (p := .pasv) rfl rfl, .inr ⟨⟨op, ?_⟩, .inl rfl, fun hc => ?_, ?_⟩⟩
    · rw [stack_askPasv, stack_enter, hst]
    · exact (awaitsData_send (c := .pasv) rfl { s.enter op with data := false }).trans (ha hc)
    · exact fun _ hf => by simp [askPasv, Session.send, Session.hook] at hf

/-! ### Steps -/

/-- An operation that a reply handler queues: it is begun if the handler has been counted off. -/
theorem Core.queue (h : Core k s) (hk : 0 ≤ k) (hq : Queue op s s') (hA : Always Conforms s'.log) :
    Core k s' := by
  have haccept : ∀ op', Silent (.accept op') := fun _ => silent_of rfl
  have hcongr : ∀ q, Core k { s with queue := q } := fun _ => h.congr rfl rfl rfl rfl
  cases hq with
  | append => exact (hcongr _).emit (haccept op)
  | full => exact h.emit silent_outOfMemory
  | direct hb _ hn =>
    have hx : Exec op (s.emit (.accept op)) ((s.emit (.accept op)).execSimple op) := .simple hn
    have hg : none ∉ due s.log := (hA.suffix hx.extends.suffix).1.1
    have hd := (h.idle hk hb hg).1
    have he : Core k ((s.emit (.accept op)).enter op) :=
      (h.emit (haccept op)).emit (silent_exec _ _ _)
    exact (he.simple hd op).emit silent_ret

/-- One reply is owed when one is given. -/
theorem Core.due_eq_singleton {code : Int} (h : Core k s) (hA : Answers code (due s.log)) :
    ∃ q, due s.log = [q] := by
  have hone := h.one
  cases hd : due s.log with
  | nil => simp [hd, Answers] at hA
  | cons q l =>
    rw [hd, List.length_cons] at hone
    exact ⟨q, by rw [List.eq_nil_of_length_eq_zero (by omega : l.length = 0)]⟩

/-- A final reply to a handler takes what is owed off the list; `busy` follows later. -/
theorem Core.got_of_final {code : Int} (h : Core 0 s) (buf : Bytes)
    (hA : Answers code (due s.log)) (hc : 200 ≤ code) (hp : s.cproc ≠ none) :
    due (s.got code buf).log = [] ∧ Core 1 (s.got code buf) := by
  obtain ⟨q, hq⟩ := h.due_eq_singleton hA
  have hdue : due (s.got code buf).log = [] := by
    rw [got, Session.emit, due, if_pos hc, hq, List.tail_cons]
  obtain ⟨c, rfl⟩ : ∃ c, q = some c := by
    refine Option.ne_none_iff_exists'.mp fun hn => hp ?_
    have := h.matched
    rwa [hq, hn] at this
  refine ⟨hdue, ⟨fun _ => h.matched, h.orderly⟩, by simp [hdue], by rw [hdue]; trivial,
    fun _ => hdue, h.login, fun hctl => ?_⟩
  have := h.busy hctl
  have hbusy : (s.got code buf).busy = s.busy := rfl
  have hawaits : awaitsData (s.got code buf).log = awaitsData s.log := rfl
  rw [hbusy, this, outstanding, outstanding, hdue, hq, hawaits]
  simp
  omega

/-- A preliminary reply changes nothing. -/
theorem Core.got_of_preliminary {code : Int} (h : Core k s) (buf : Bytes) (hc : code < 200) :
    Core k (s.got code buf) := by
  have hdue : due (s.got code buf).log = due s.log := by
    rw [got, Session.emit, due, if_neg (by omega)]
  refine ⟨⟨fun hc' => absurd hc' (by omega), h.orderly⟩, ?_, ?_, ?_, h.login, ?_⟩
  · rw [hdue]; exact h.one
  · rw [hdue]; exact h.matched
  · rw [hdue]; exact h.closed
  · rw [outstanding, hdue]; exact h.busy

/-- A preliminary reply goes to a handler that expects one. -/
theorem Core.handler_of_preliminary {code : Int} (h : Core k s) (hA : Answers code (due s.log))
    (hc : code < 200) {p : CProc} (hp : s.cproc = some p) :
    (∃ r, p = .list r) ∨ ∃ t, p = .xfer t := by
  obtain ⟨q, hq⟩ := h.due_eq_singleton hA
  have hm := h.matched
  rw [hq] at hA hm
  cases q with
  | none => simp [Finds, hp] at hm
  | some c =>
    have hdata : c.owner.isSome = true := hA hc
    cases c with
    | list r => exact .inl ⟨r, by simpa [Finds, Cmd.HandledBy, hp] using hm⟩
    | retr t n => exact .inr ⟨t, by simpa [Finds, Cmd.HandledBy, hp] using hm⟩
    | _ => simp [Cmd.owner] at hdata

/-- A reply to the login dialogue, which clears `busy`. -/
theorem Core.got_login {code : Int} (h : Core 0 s) (buf : Bytes)
    (hA : Answers code (due s.log)) (hp : s.cproc = none) (hctl : s.ctl = true) :
    Core 0 { s.got code buf with busy := 0 } ∧ (200 ≤ code → due (s.got code buf).log = []) := by
  obtain ⟨q, hq⟩ := h.due_eq_singleton hA
  have hawaits : awaitsData (s.got code buf).log = false := h.login hctl hp
  by_cases hc : 200 ≤ code
  · have hdue : due (s.got code buf).log = [] := by
      rw [got, Session.emit, due, if_pos hc, hq, List.tail_cons]
    refine ⟨⟨⟨fun _ => h.matched, h.orderly⟩, by simp [hdue], by simp [hdue, Finds],
      fun _ => hdue, fun _ _ => hawaits, fun _ => ?_⟩, fun _ => hdue⟩
    simp [outstanding, hdue, hawaits]
  · have hpre := h.got_of_preliminary buf (not_le.mp hc)
    -- it is the greeting that is announced
    have hgreet : q = none := by
      cases q with
      | none => rfl
      | some c =>
        rw [hq] at hA
        have hm := h.matched
        rw [hq, Finds, hp] at hm
        have hdata : c.owner.isSome = true := hA (not_le.mp hc)
        cases c <;> simp [Cmd.owner, Cmd.HandledBy] at hdata hm
    have hdue : due (s.got code buf).log = [none] := by
      rw [got, Session.emit, due, if_neg hc, hq, hgreet]
    exact ⟨⟨hpre.orderly, hpre.one, hpre.matched, hpre.closed, hpre.login, fun _ => by
      simp [outstanding, hdue, hawaits]⟩, fun hc' => absurd hc' hc⟩

theorem Core.reply {code : Int} {buf : Bytes} (h : Core 0 s) (hr : Reply code buf s s')
    (hctl : s.ctl = true ∨ s.cproc = some .active) (hA : Always Conforms s'.log) : Core 0 s' := by
  have hans : Answers code (due s.log) := (hA.suffix hr.extends.event).1
  -- a reply to a handler that expects no preliminary one is final
  have hfinal : ∀ p, s.cproc = some p → (∀ r, p ≠ .list r) → (∀ t, p ≠ .xfer t) → 200 ≤ code := by
    intro p hp hl hx
    by_contra hc
    rcases h.handler_of_preliminary hans (not_le.mp hc) hp with ⟨r, rfl⟩ | ⟨t, rfl⟩
    exacts [hl r rfl, hx t rfl]
  have hgot : ∀ p, s.cproc = some p → (∀ r, p ≠ .list r) → (∀ t, p ≠ .xfer t) →
      due (s.got code buf).log = [] ∧ Core 1 (s.got code buf) := fun p hp hl hx =>
    h.got_of_final buf hans (hfinal p hp hl hx) (by simp [hp])
  have hopen : s.cproc = none → s.ctl = true := fun hn => hctl.resolve_right (by simp [hn])
  cases hr with
  | activeOk hp | pwd hp | cwdFail hp => exact (hgot _ hp (by simp) (by simp)).2.finish
  | activeFail hp => exact ((hgot _ hp (by simp) (by simp)).2.close 1).finish
  | pasvOpen hp =>
    have h₁ : Core 1 { s.got code buf with data := true } :=
      (hgot _ hp (by simp) (by simp)).2.congr rfl rfl rfl rfl
    exact (h₁.emit (e := .opened) (silent_of rfl)).finish
  | pasvFall sa hp =>
    obtain ⟨hd, hg⟩ := hgot _ hp (by simp) (by simp)
    have h₁ : Core 1 { s.got code buf with passive := false } := hg.congr rfl rfl rfl rfl
    exact (h₁.active hd sa).finish
  | cwdOk hp _ h₁ h₂ =>
    have hA₁ := hA.suffix (Extends.queue (.refl _) h₂).suffix
    have hg := (hgot _ hp (by simp) (by simp)).2
    exact ((hg.queue zero_le_one h₁ hA₁).queue zero_le_one h₂ hA).finish
  | listMore _ hc | xferMore _ hc => exact h.got_of_preliminary buf hc
  | @xferTotal t _ hc => exact (h.got_of_preliminary buf (by omega)).emit (silent_touch t)
  | listEnd hp hc | xferEnd hp hc => exact (h.got_of_final buf hans hc (by simp [hp])).2.finish
  | @xferFail t hp hc =>
    have hg := (h.got_of_final buf hans (by omega) (by simp [hp])).2
    exact ((hg.emit (silent_touch t)).emit (silent_done t)).finish
  | loginUser u hp hc =>
    obtain ⟨h₁, hd⟩ := h.got_login buf hans hp (hopen hp)
    exact h₁.send (hd (by omega)) hp rfl
  | loginPass w hp hc =>
    obtain ⟨h₁, hd⟩ := h.got_login buf hans hp (hopen hp)
    exact h₁.send (hd (by omega)) hp rfl
  | loginDone hp _ h₁ h₂ h₃ =>
    have hA₂ := hA.suffix (Extends.queue (.refl _) h₃).suffix
    have hA₁ := hA₂.suffix (Extends.queue (.refl _) h₂).suffix
    exact (((h.got_login buf hans hp (hopen hp)).1.queue le_rfl h₁ hA₁).queue le_rfl h₂ hA₂).queue
      le_rfl h₃ hA
  | loginOther hp => exact (h.got_login buf hans hp (hopen hp)).1

/-- In a wait, only the handlers of `PASV` and `PORT` get replies. -/
theorem Waiting.reply {code : Int} {buf : Bytes} (hw : Waiting s) (h : Core 0 s)
    (hA : Answers code (due s.log)) (hr : Reply code buf s s') : Waiting s' := by
  have hne : s.cproc ≠ none := by rcases hw.cproc with h | h <;> simp [h]
  have hnot : ∀ p, s.cproc = some p → p = .pasv ∨ p = .active := fun p hp => by
    rcases hw.cproc with h | h <;> simp_all
  have hdue : s.cproc = some .pasv ∨ s.cproc = some .active → due (s.got code buf).log = [] := by
    intro hp
    refine (h.got_of_final buf hA ?_ hne).1
    by_contra hc
    rcases hp with hp | hp <;>
      rcases h.handler_of_preliminary hA (not_le.mp hc) hp with ⟨r, hr⟩ | ⟨t, ht⟩ <;> simp_all
  cases hr with
  | activeOk hp => exact ⟨.inr hp, hw.awaits, fun _ _ => hdue (.inr hp)⟩
  | activeFail hp =>
    exact ⟨.inr hp, fun hf => by simp [Session.finish, Session.close] at hf,
      fun hf => by simp [Session.finish, Session.close] at hf⟩
  | pasvOpen hp => exact ⟨.inl hp, hw.awaits, fun _ _ => hdue (.inl hp)⟩
  | pasvFall sa hp =>
    rcases sa with - | ⟨a, p⟩
    · exact ⟨.inl hp, hw.awaits, fun _ hf => by simp [Session.finish, Session.active] at hf⟩
    · refine ⟨.inr rfl, fun hc => ?_, fun _ hf => ?_⟩
      · exact (awaitsData_send (c := .port a p) rfl _).trans (hw.awaits hc)
      · simp [Session.finish, Session.active, Session.send, Session.hook] at hf
  | loginUser _ hp | loginPass _ hp | loginDone hp | loginOther hp => exact absurd hp hne
  | pwd hp | cwdFail hp | cwdOk hp | listMore hp | listEnd hp | xferTotal hp | xferMore hp
  | xferEnd hp | xferFail hp => rcases hnot _ hp with h | h <;> cases h

theorem Core.chunk {b : Bytes} (h : Core k s) (hc : Chunk b s s') : Core k s' := by
  have hchunk : ∀ p, Silent (.chunk b p) := fun _ => silent_of rfl
  cases hc with
  | none => exact h.emit (hchunk _)
  | listFull => exact ((h.emit (hchunk _)).emit silent_outOfMemory).emit (silent_of rfl)
  | @list r =>
    have h₁ : Core k (s.storeBuf r b) := h.congr rfl rfl rfl rfl
    exact h₁.emit (hchunk _)
  | @file t f =>
    have h₁ : Core k (s.storeFile f b) := h.congr rfl rfl rfl rfl
    exact (h₁.emit (hchunk _)).emit (silent_touch t)
  | @mem t =>
    have h₁ : Core k (s.storeMem t b) := h.congr rfl rfl rfl rfl
    exact (h₁.emit (hchunk _)).emit (silent_touch t)
  | @stor t => exact (h.emit (hchunk _)).emit (silent_touch t)

/-- The end of the data for a handler. -/
theorem Core.eof (h : Core k s) (ha : awaitsData s.log = true) (p : DProc) (b : Int) :
    Core (k + 1) (s.emit (.dataEof (some p) b)) where
  orderly := ⟨trivial, h.orderly⟩
  one := h.one
  matched := h.matched
  closed := h.closed
  login _ _ := rfl
  busy hc := by
    have hb : s.busy = (due s.log).countP Option.isSome + (if awaitsData s.log then 1 else 0) + k :=
      h.busy hc
    have hbusy : (s.emit (.dataEof (some p) b)).busy = s.busy := rfl
    have hout : outstanding (s.emit (.dataEof (some p) b)).log =
        (due s.log).countP Option.isSome + 0 := rfl
    rw [hbusy, hb, hout, ha]
    simp
    omega

theorem Core.dataEof (h : Core 0 s) (hk : Known s) (he : DataEof s s')
    (hA : Always Conforms s'.log) : Core 0 s' := by
  have hev : Conforms s.log (.dataEof s.dproc s.busy) := (hA.suffix he.extends.event).1
  cases he with
  | none =>
    exact (h.emit (e := .dataEof Option.none s.busy) (silent_of rfl)).congr rfl rfl rfl rfl
  | @list r tail junk hp =>
    rw [hp] at hev
    exact (h.eof hev (.list r) s.busy).finish.congr rfl rfl rfl rfl
  | @xfer t hp =>
    rw [hp] at hev
    have h₁ : Core 0 (s.closeFile t) := h.congr rfl rfl rfl rfl
    exact (((h₁.eof hev (.xfer t) s.busy).emit (silent_touch t)).emit (silent_done t)).finish.congr
      rfl rfl rfl rfl
  | stor hp ho => exact absurd (hk.dproc _ hp).2 ho

theorem Act.inSync (ha : Act s s') (hk : Known s) (h : Core 0 s) (hw : Waits s)
    (hA : Always Conforms s'.log) : Core 0 s' ∧ Waits s' := by
  have haccept : ∀ op, Silent (.accept op) := fun _ => silent_of rfl
  have hadd : ∀ j, Core 0 (s.addJob j) := fun j =>
    have h₁ : Core 0 (s.emit (.made s.njob (j.fresh s.njob))) :=
      h.emit (silent_of rfl)
    h₁.congr rfl rfl rfl rfl
  cases ha with
  | badSelect =>
    refine ⟨h.emit (silent_of rfl), ?_⟩
    exact hw.imp id fun ⟨ho, hw⟩ => ⟨ho, ⟨hw.cproc, hw.awaits, hw.idle⟩⟩
  | assert hb =>
    -- only on a closed connection
    have hclosed : s.ctl = true → False := fun hc => by
      have := h.busy hc
      rw [outstanding] at this
      split at this <;> omega
    refine ⟨⟨⟨trivial, h.orderly⟩, h.one, h.matched, h.closed, h.login, fun hc => ?_⟩, ?_⟩
    · exact (hclosed hc).elim
    · exact hw.imp id fun ⟨ho, hw⟩ => ⟨ho, ⟨hw.cproc, hw.awaits, hw.idle⟩⟩
  | @next _ op ops hb hq hx =>
    have h₁ : Core 0 { s with queue := ops } := h.congr rfl rfl rfl rfl
    exact h₁.exec hb (hA.suffix hx.extends.suffix).1 hx
  | @resume s₂ op ops hs hst =>
    have hwake : Silent (.wake s.data) := silent_of rfl
    obtain ⟨⟨op', hop'⟩, hw⟩ := hw.resolve_left (by simp [hs])
    obtain ⟨-, rfl⟩ : op = op' ∧ ops = [] := by simpa using hs.symm.trans hop'
    have h₁ : Core 0 (s.emit (.wake s.data)) := h.emit hwake
    have hstack : stack (s₂.emit .ret).log = [] := by
      rw [Session.emit, stack, hst.stack_eq]
      exact congrArg List.tail hs
    refine ⟨Core.emit ?_ silent_ret, .inl hstack⟩
    cases hd : s.data with
    | false =>
      -- without a data connection, nothing is sent
      have hsame : s₂ = s.emit (.wake s.data) := by cases hst <;> simp_all [Session.emit]
      exact hsame ▸ h₁
    | true =>
      cases hc : s.ctl with
      | true => exact h₁.start (hw.idle hc hd) (fun _ => hw.awaits hc) hst
      | false => exact h₁.start (h.closed hc) (fun hf => absurd hf (by simp [Session.emit, hc])) hst
  | @append op hs =>
    have h₁ : Core 0 { s with queue := s.queue ++ [op] } := h.congr rfl rfl rfl rfl
    exact ⟨h₁.emit (haccept op), .inl hs⟩
  | @direct _ op _ _ hb _ hx =>
    exact (h.emit (haccept op)).exec hb (hA.suffix hx.extends.suffix).1 hx
  | refuse hs => exact ⟨h.emit silent_outOfMemory, .inl hs⟩
  | newJob j hs => exact ⟨(hadd j).emit silent_outOfMemory, .inl hs⟩
  | handOver j hs =>
    have h₁ : Core 0 { s.addJob j with queue := s.queue ++ [.xfer s.njob] } :=
      (hadd j).congr rfl rfl rfl rfl
    exact ⟨h₁.emit (haccept _), .inl hs⟩
  | handOverDirect j _ hb _ hx =>
    exact ((hadd j).emit (haccept _)).exec hb (hA.suffix hx.extends.suffix).1 hx
  | chunk b hs _ hc => exact ⟨h.chunk hc, .inl (hc.stack_eq.trans hs)⟩
  | dataEof hs _ he => exact ⟨h.dataEof hk he hA, .inl (he.stack_eq.trans hs)⟩
  | incoming hs =>
    have h₁ : Core 0 { s with data := true } := h.congr rfl rfl rfl rfl
    exact ⟨(h₁.emit (e := .incoming) (silent_of rfl)).emit (e := .opened) (silent_of rfl), .inl hs⟩

/-- **One step** keeps the client and the server in step. -/
theorem Step.inSync (hstep : Step s s') (hk : Known s) (h : Core 0 s) (hw : Waits s)
    (hA : Always Conforms s'.log) : Core 0 s' ∧ Waits s' := by
  have hsame : ∀ {s₁ : Session}, stack s₁.log = stack s.log → s₁.cproc = s.cproc →
      s₁.ctl = s.ctl → s₁.data = s.data → due s₁.log = due s.log →
      awaitsData s₁.log = awaitsData s.log → Waits s₁ := by
    intro s₁ hst hp hc hd hdue haw
    refine hw.imp (fun h => hst.trans h) fun ⟨⟨op, hop⟩, hw⟩ => ⟨⟨op, hst.trans hop⟩, ?_, ?_, ?_⟩
    · rw [hp]; exact hw.cproc
    · rw [hc, haw]; exact hw.awaits
    · rw [hc, hd, hdue]; exact hw.idle
  cases hstep with
  | recv b =>
    exact ⟨h.emit (silent_of rfl), hsame rfl rfl rfl rfl rfl rfl⟩
  | line buf =>
    exact ⟨h.emit (silent_of rfl), hsame rfl rfl rfl rfl rfl rfl⟩
  | carry c => exact ⟨h.congr rfl rfl rfl rfl, hsame rfl rfl rfl rfl rfl rfl⟩
  | reply code buf _ hctl hr =>
    refine ⟨h.reply hr hctl hA, hw.imp hr.stack_eq.trans fun ⟨⟨op, hop⟩, hw⟩ => ?_⟩
    exact ⟨⟨op, hr.stack_eq.trans hop⟩, hw.reply h (hA.suffix hr.extends.event).1 hr⟩
  | hangup =>
    refine ⟨h.close 0, hw.imp (stack_close s).trans fun ⟨⟨op, hop⟩, hw⟩ => ?_⟩
    exact ⟨⟨op, (stack_close s).trans hop⟩, hw.cproc, fun hf => by simp [Session.close] at hf,
      fun hf => by simp [Session.close] at hf⟩
  | act ha => exact ha.inSync hk h hw hA

theorem core_connected {α : Type} (ctl : Fd) (user pass : Option Bytes) (app : α) :
    Core 0 (World.connected ctl user pass app).view :=
  ⟨trivial, le_rfl, rfl, fun hf => by simp [World.view, World.connected] at hf, fun _ _ => rfl,
    fun _ => rfl⟩

/-- The invariant holds in every state of a run whose history conforms. -/
theorem inSync_run {α : Type} (ctl : Fd) (user pass : Option Bytes) (app : α)
    (inputs : List (Env × Input α))
    (h : Always Conforms ((World.connected ctl user pass app).run inputs).log) :
    Core 0 ((World.connected ctl user pass app).run inputs).view :=
  (run_invariant (I := fun s => Known s ∧ Core 0 s ∧ Waits s)
    (fun _ _ hstep hA hI =>
      ⟨hstep.known hI.1, hstep.inSync hI.1 hI.2.1 hI.2.2 hA⟩)
    ⟨known_connected ctl user pass app, core_connected ctl user pass app, .inl rfl⟩ inputs h).2.1

end Session

/-- **The dialogue.** In every run whose history conforms, a command is sent only when no reply is
owed, and every final reply finds the handler of the command it answers. -/
theorem orderly_run {α : Type} (ctl : Fd) (user pass : Option Bytes) (app : α)
    (inputs : List (Env × Input α))
    (h : Always Conforms ((World.connected ctl user pass app).run inputs).log) :
    Always Orderly ((World.connected ctl user pass app).run inputs).log :=
  (inSync_run ctl user pass app inputs h).orderly

/-! ### Sessions -/

/-- The server sends these bytes. -/
def Env.control (b : Bytes) : Env := { Env.quiet with ctlIn := [.data b] }

/-- The server sends these bytes, an operation is begun, and its `PASV` is answered. -/
def Env.passive (b : List Recv) : Env :=
  { Env.quiet with
    ctlIn := b ++ [.data (ascii "227 ok (127,0,0,1,4,1)\r\n")]
    selects := [.woke true 0]
    sockets := [some 4]
    connects := [true] }

/-- The server sends this over the data connection, and closes it. -/
def Env.dataEnd (b : Bytes) : Env := { Env.quiet with dataIn := [.data b, .eof] }

/-- A session from the greeting to the first listing, and then these calls. -/
def sessionRun (inputs : List (Env × Input Unit)) : World Unit :=
  (World.connected 3 none none ()).run
    ([(.control (ascii "220 ready\r\n"), .handle 3),
      (.control (ascii "331 password?\r\n"), .handle 3),
      (.control (ascii "230 welcome\r\n"), .handle 3),
      (.control (ascii "200 type is I\r\n"), .handle 3),
      (.passive [.data (ascii "257 \"/\"\r\n"), .again], .handle 3),
      (.control (ascii "150 here it comes\r\n"), .handle 3),
      (.dataEnd (ascii "-rw-r--r-- 1 u g 1 Jan 1 00:00 f\r\n"), .handle 4),
      (.control (ascii "226 done\r\n"), .handle 3)] ++ inputs)

theorem orderly_run_session : Always Orderly (sessionRun []).log :=
  orderly_run 3 none none () _ (by decide +kernel)

/-- A file to be fetched. -/
def fetch (rname : Bytes) : Input Unit :=
  .transfer ⟨⟨⟨.retr, rname, some 0, none⟩, 1, 0⟩, fun _ u => u⟩

/-- Three files are asked for at once. The first is fetched; with the reply that ends it, the second
is begun. -/
def threeFiles : List (Env × Input Unit) :=
  [(.passive [], fetch (ascii "f")),
    (.quiet, fetch (ascii "g")),
    (.quiet, fetch (ascii "h")),
    (.control (ascii "150 here it comes\r\n"), .handle 3),
    (.dataEnd (ascii "F"), .handle 4),
    (.passive [.data (ascii "226 done\r\n"), .again], .handle 3)]

/-- The third operation is begun in the wait of the second, and both send their command. -/
theorem not_orderly_of_three_files :
    Always Answering (sessionRun threeFiles).log ∧ ¬Always Orderly (sessionRun threeFiles).log := by
  decide +kernel

end Visftp
