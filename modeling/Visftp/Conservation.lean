import Visftp.Transfers

/-!
# No transfer is lost

A transfer that has been accepted waits in the queue until it is begun. It is then in flight, with
both handlers installed for it, until it is completed. Three things can come in between, and the
application hears of none of them: an operation that finds no data connection is given up, one
that is not a retrieval is forgotten, and the handlers are taken over by another operation.
`Provided` says of one transfer that nothing of this happens to it.

## Main definitions

* `inFlight` — `RETR` has been sent for the transfer, and it has not been completed
* `Provided` — what is asked of the history, for one transfer
* `Session.Holds` — the invariant

## Main results

* `Session.Step.holds` — one step
* `kept_run` — whole runs
-/

namespace Visftp

open CString Histories Session Relation

/-- `RETR` has been sent for the transfer, and it has not been completed. -/
def inFlight (t : ℕ) : List Event → Bool
  | [] => false
  | .sent (.retr u _) :: past => u == t || inFlight t past
  | .done u :: past => u != t && inFlight t past
  | _ :: past => inFlight t past

/-- The transfer was accepted while the control connection was open. -/
def acceptedOpen (t : ℕ) : List Event → Bool
  | [] => false
  | .accept (.xfer u) :: past => (u == t && !past.contains .hangup) || acceptedOpen t past
  | _ :: past => acceptedOpen t past

/-- The operations that install a reply handler. -/
def Op.hooks : Op → Bool
  | .pwd | .chdir _ | .cdup | .list | .xfer _ => true
  | _ => false

/-- What a transfer needs: it is a retrieval; when it is begun, the control connection is open, and
there is a data connection or passive mode; when it has waited, both connections are open; and while
it is in flight no other operation takes over the handlers. -/
def Provided (t : ℕ) (past : List Event) : Event → Prop
  | .made u j => u = t → j.op = .retr
  | .exec op isOpen isPassive =>
    (op.hooks = true → inFlight t past = false) ∧
      (op = .xfer t → .hangup ∉ past ∧ (isOpen = true ∨ isPassive = true))
  | .wake isOpen =>
    if (stack past).head? = some (.xfer t) then isOpen = true ∧ .hangup ∉ past
    else isOpen = true → inFlight t past = false
  | _ => True

instance (t : ℕ) (past : List Event) (e : Event) : Decidable (Provided t past e) := by
  induction e using Event.casesOn <;> (dsimp only [Provided]; infer_instance)

namespace Session

variable {s s' : Session} {op : Op} {t : ℕ} {e : Event} {P Q : Prop}

/-- An event that changes nothing about the transfer `t`. -/
structure Neutral (t : ℕ) (e : Event) : Prop where
  inFlight : ∀ past, inFlight t (e :: past) = Visftp.inFlight t past
  acceptedOpen : ∀ past, acceptedOpen t (e :: past) = Visftp.acceptedOpen t past
  stack : ∀ past, stack (e :: past) = Visftp.stack past
  hangup : e ≠ .hangup

theorem neutral_outOfMemory (t : ℕ) : Neutral t .outOfMemory :=
  ⟨fun _ => rfl, fun _ => rfl, fun _ => rfl, by simp⟩

theorem neutral_dropped (t r : ℕ) : Neutral t (.dropped r) :=
  ⟨fun _ => rfl, fun _ => rfl, fun _ => rfl, by simp⟩

/-- **Where a transfer is that the client has accepted.** It is in one of the four places, or `P`:
in the hands of the function that runs. -/
structure Holds (t : ℕ) (P : Prop) (s : Session) : Prop where
  retr : t < s.njob → (s.jobs t).op = .retr
  ctl : .hangup ∉ s.log → s.ctl = true
  flight : inFlight t s.log = true → s.cproc = some (.xfer t) ∧ s.dproc = some (.xfer t)
  kept : acceptedOpen t s.log = true → P ∨ .xfer t ∈ s.queue ∨ .xfer t ∈ stack s.log ∨
    inFlight t s.log = true ∨ .done t ∈ s.log

theorem Holds.mono (h : Holds t P s) (hPQ : P → Q) : Holds t Q s :=
  { h with kept := fun ha => (h.kept ha).imp_left hPQ }

theorem Holds.congr (h : Holds t P s)
    (hj : t < s'.njob → t < s.njob ∧ (s'.jobs t).op = (s.jobs t).op)
    (hc : s'.ctl = s.ctl) (hp : s'.cproc = s.cproc) (hd : s'.dproc = s.dproc)
    (hq : s'.queue = s.queue) (hl : s'.log = s.log) : Holds t P s' where
  retr ht := (hj ht).2.trans (h.retr (hj ht).1)
  ctl := by rw [hl, hc]; exact h.ctl
  flight := by rw [hl, hp, hd]; exact h.flight
  kept := by rw [hl, hq]; exact h.kept

/-! ### Actions -/

theorem Holds.emit (h : Holds t P s) (he : Neutral t e) : Holds t P (s.emit e) where
  retr := h.retr
  ctl hn := h.ctl fun hm => hn (List.mem_cons_of_mem e hm)
  flight hf := h.flight (he.inFlight s.log ▸ hf)
  kept ha := by
    have := h.kept (he.acceptedOpen s.log ▸ ha)
    rw [Session.emit, he.stack, he.inFlight]
    rcases this with h | h | h | h | h
    exacts [.inl h, .inr (.inl h), .inr (.inr (.inl h)), .inr (.inr (.inr (.inl h))),
      .inr (.inr (.inr (.inr (List.mem_cons_of_mem e h))))]

theorem neutral_sent {c : Cmd} (hc : ∀ n, c ≠ .retr t n) : Neutral t (.sent c) := by
  refine ⟨fun past => ?_, fun past => rfl, fun past => rfl, by simp⟩
  cases c with
  | retr u n =>
    have hu : u ≠ t := fun hu => hc n (by rw [hu])
    simp [Visftp.inFlight, hu]
  | _ => rfl

theorem neutral_hook (p : CProc) : Neutral t (.hook p) :=
  ⟨fun _ => rfl, fun _ => rfl, fun _ => rfl, by simp⟩

theorem Holds.send (h : Holds t P s) {c : Cmd} (hc : ∀ n, c ≠ .retr t n) :
    Holds t P (s.send c) := by
  rw [Session.send]
  cases hctl : s.ctl with
  | true =>
    have h₁ := h.emit (neutral_sent hc)
    exact ⟨h₁.retr, fun _ => rfl, h₁.flight, h₁.kept⟩
  | false => exact ⟨h.retr, fun hn => by simpa [hctl] using h.ctl hn, h.flight, h.kept⟩

/-- The handlers may be changed while the transfer is not in flight. -/
theorem Holds.hook (h : Holds t P s) (p : CProc) (hf : inFlight t s.log = false) :
    Holds t P (s.hook p) := by
  have h₁ := h.emit (neutral_hook p)
  exact ⟨h₁.retr, h₁.ctl, fun hf' => absurd (hf.symm.trans hf') (by simp), h₁.kept⟩

theorem Holds.close (h : Holds t P s) : Holds t P s.close := by
  rw [Session.close]
  cases hctl : s.ctl with
  | true =>
    refine ⟨h.retr, fun hn => absurd List.mem_cons_self hn, h.flight, fun ha => ?_⟩
    rcases h.kept ha with h | h | h | h | h
    exacts [.inl h, .inr (.inl h), .inr (.inr (.inl h)), .inr (.inr (.inr (.inl h))),
      .inr (.inr (.inr (.inr (List.mem_cons_of_mem _ h))))]
  | false => exact ⟨h.retr, fun hn => by simpa [hctl] using h.ctl hn, h.flight, h.kept⟩

theorem Holds.finish (h : Holds t P s) : Holds t P s.finish :=
  h.congr (fun ht => ⟨ht, rfl⟩) rfl rfl rfl rfl rfl

theorem Holds.dropData (h : Holds t P s) (d : Bool) : Holds t P { s with data := d } :=
  h.congr (fun ht => ⟨ht, rfl⟩) rfl rfl rfl rfl rfl

theorem inFlight_send {c : Cmd} (hc : ∀ n, c ≠ .retr t n) (s : Session) :
    inFlight t (s.send c).log = inFlight t s.log := by
  rw [Session.send]
  dsimp only
  split
  · exact (neutral_sent hc).inFlight _
  · rfl

/-- A command is sent and its reply handler installed. -/
theorem Holds.ask (h : Holds t P s) (hf : inFlight t s.log = false) {c : Cmd}
    (hc : ∀ n, c ≠ .retr t n) (p : CProc) : Holds t P ((s.send c).hook p) :=
  (h.send hc).hook p ((inFlight_send hc s).trans hf)

theorem Holds.active (h : Holds t P s) (hf : inFlight t s.log = false) (sa : Option (ℕ × ℕ)) :
    Holds t P (s.active sa) := by
  rcases sa with - | ⟨a, p⟩
  · exact h.dropData false
  · exact (h.dropData false).ask hf (by simp) .active

theorem Holds.enter (h : Holds t (op = .xfer t) s) : Holds t False (s.enter op) where
  retr := h.retr
  ctl hn := h.ctl fun hm => hn (List.mem_cons_of_mem _ hm)
  flight hf := h.flight hf
  kept ha := by
    rw [stack_enter]
    rcases h.kept ha with h | h | h | h | h
    · exact .inr (.inr (.inl (h ▸ List.mem_cons_self)))
    · exact .inr (.inl h)
    · exact .inr (.inr (.inl (List.mem_cons_of_mem op h)))
    · exact .inr (.inr (.inr (.inl h)))
    · exact .inr (.inr (.inr (.inr (List.mem_cons_of_mem _ h))))

/-- An operation returns. If it is the transfer, it is in flight by now. -/
theorem Holds.ret (h : Holds t P s) {ops : List Op} (hs : Visftp.stack s.log = op :: ops)
    (hop : op = .xfer t → inFlight t s.log = true) : Holds t P (s.emit .ret) where
  retr := h.retr
  ctl hn := h.ctl fun hm => hn (List.mem_cons_of_mem _ hm)
  flight hf := h.flight hf
  kept ha := by
    have hst : Visftp.stack (s.emit .ret).log = ops := by
      rw [Session.emit, Visftp.stack, hs, List.tail_cons]
    rw [hst]
    rcases h.kept ha with h | h | h | h | h
    · exact .inl h
    · exact .inr (.inl h)
    · rw [hs, List.mem_cons] at h
      rcases h with h | h
      · exact .inr (.inr (.inr (.inl (hop h.symm))))
      · exact .inr (.inr (.inl h))
    · exact .inr (.inr (.inr (.inl h)))
    · exact .inr (.inr (.inr (.inr (List.mem_cons_of_mem _ h))))

theorem Holds.simple (h : Holds t P s) (hf : op.hooks = true → inFlight t s.log = false) :
    Holds t P (s.simple op) := by
  cases op with
  | type arg =>
    unfold Session.simple
    dsimp only
    split
    · exact h
    · exact h.send (by simp)
  | pwd | cdup => exact h.ask (hf rfl) (by simp) _
  | chdir d =>
    refine h.ask (hf rfl) (fun n => ?_) .cwd
    split <;> simp
  | _ => exact h

/-- The data handler may be changed while the transfer is not in flight. -/
theorem Holds.setDproc (h : Holds t P s) (hf : inFlight t s.log = false) (p : Option DProc)
    (b : Int) : Holds t P { s with dproc := p, busy := b } :=
  ⟨h.retr, h.ctl, fun hf' => absurd (hf.symm.trans hf') (by simp), h.kept⟩

theorem Holds.startList (h : Holds t P s) (hf : inFlight t s.log = false) :
    Holds t P s.startList := by
  rw [Session.startList]
  set s₁ : Session := { s with bufs := Function.update s.bufs s.nbuf [], nbuf := s.nbuf + 1 }
  have h₁ : Holds t P s₁ := h.congr (fun ht => ⟨ht, rfl⟩) rfl rfl rfl rfl rfl
  have hc : ∀ n, Cmd.list s.nbuf ≠ .retr t n := by simp
  exact (h₁.ask hf hc (.list s.nbuf)).setDproc ((inFlight_send hc s₁).trans hf) _ _

theorem Holds.startTransfer_of_ne (h : Holds t P s) (hf : inFlight t s.log = false) {u : ℕ}
    (hu : u ≠ t) : Holds t P (s.startTransfer u) := by
  rw [Session.startTransfer]
  split
  · have hc : ∀ n, Cmd.retr u (s.jobs u).rname ≠ .retr t n := fun n hn => hu (Cmd.retr.inj hn).1
    exact (h.ask hf hc (.xfer u)).setDproc ((inFlight_send hc s).trans hf) _ _
  · exact h

/-- The transfer itself is begun on an open connection. -/
theorem Holds.startTransfer (h : Holds t P s) (ht : t < s.njob) (hctl : .hangup ∉ s.log) :
    Holds t P (s.startTransfer t) ∧ inFlight t (s.startTransfer t).log = true := by
  have hflight : inFlight t (s.startTransfer t).log = true := by
    simp [Session.startTransfer, h.retr ht, Session.send, h.ctl hctl, Session.hook, inFlight]
  refine ⟨⟨?_, ?_, ?_, ?_⟩, hflight⟩
  · rw [Session.startTransfer]
    split <;> exact h.retr
  · intro _
    simp [Session.startTransfer, h.retr ht, Session.hook, Session.send, h.ctl hctl]
  · exact fun _ => by simp [Session.startTransfer, h.retr ht, Session.hook]
  · exact fun _ => .inr (.inr (.inr (.inl hflight)))

/-- What becomes of an operation once it knows whether there is a data connection. -/
theorem Holds.start (h : Holds t P s) (hop : s.Knows op) (hs : Start op s s')
    (hmine : op = .xfer t → s.data = true ∧ .hangup ∉ s.log)
    (hother : op ≠ .xfer t → s.data = true → inFlight t s.log = false) :
    Holds t P s' ∧ (op = .xfer t → inFlight t s'.log = true) := by
  cases hs with
  | none hd => exact ⟨h, fun hop => by simp [(hmine hop).1] at hd⟩
  | noBuffer hd => exact ⟨h.emit (neutral_outOfMemory t), by simp⟩
  | list hd => exact ⟨h.startList (hother (by simp) hd), by simp⟩
  | @transfer u _ hd =>
    by_cases hu : u = t
    · subst hu
      have := h.startTransfer (hop u rfl) (hmine rfl).2
      exact ⟨this.1, fun _ => this.2⟩
    · have hne : Op.xfer u ≠ .xfer t := fun he => hu (Op.xfer.inj he)
      exact ⟨h.startTransfer_of_ne (hother hne hd) hu, fun he => absurd he hne⟩

/-- `exec_op` of an operation in hand. -/
theorem Holds.exec (h : Holds t (op = .xfer t) s) (hop : s.Knows op) (hs : Exec op s s')
    (hA : Provided t s.log (.exec op s.data s.passive)) : Holds t False s' := by
  have he := h.enter
  have hstack : Visftp.stack (s.enter op).log = op :: Visftp.stack s.log := rfl
  obtain ⟨hfree, hmine⟩ := hA
  cases hs with
  | simple hn =>
    have hne : op ≠ .xfer t := fun heq => by simp [heq, Op.needsData] at hn
    exact (he.simple hfree).ret ((stack_simple (s.enter op) op).trans hstack) fun heq =>
      absurd heq hne
  | atOnce hn hd hst =>
    have hhook : op.hooks = true := by cases op <;> simp_all [Op.needsData, Op.hooks]
    obtain ⟨h', hflight⟩ := he.start hop hst
      (fun heq => ⟨hd, List.not_mem_cons_of_ne_of_not_mem (by simp) (hmine heq).1⟩)
      fun _ _ => hfree hhook
    exact h'.ret (hst.stack_eq.trans hstack) hflight
  | noData sa hn hd hp =>
    have hhook : op.hooks = true := by cases op <;> simp_all [Op.needsData, Op.hooks]
    have hne : op ≠ .xfer t := fun heq => by simpa [hd, hp] using (hmine heq).2
    exact (he.active (hfree hhook) sa).ret ((stack_active (s.enter op) sa).trans hstack) fun heq =>
      absurd heq hne
  | wait hn hd hp =>
    have hhook : op.hooks = true := by cases op <;> simp_all [Op.needsData, Op.hooks]
    exact (he.dropData false).ask (hfree hhook) (by simp) .pasv

/-! ### Steps -/

/-- An operation that is not the transfer is appended, and may be begun at once. -/
theorem Holds.accept (h : Holds t P s) (op : Op) :
    Holds t (P ∨ op = .xfer t) (s.emit (.accept op)) where
  retr := h.retr
  ctl hn := h.ctl fun hm => hn (List.mem_cons_of_mem _ hm)
  flight hf := h.flight hf
  kept ha := by
    have hcase : op = .xfer t ∨ acceptedOpen t s.log = true := by
      cases op with
      | xfer u =>
        rcases Bool.or_eq_true_iff.mp ha with ha | ha
        · exact .inl (by simp_all)
        · exact .inr ha
      | _ => exact .inr ha
    rcases hcase with hop | ha
    · exact .inl (.inr hop)
    · rcases h.kept ha with h | h | h | h | h
      exacts [.inl (.inl h), .inr (.inl h), .inr (.inr (.inl h)), .inr (.inr (.inr (.inl h))),
        .inr (.inr (.inr (.inr (List.mem_cons_of_mem _ h))))]

theorem Holds.enqueue (h : Holds t P s) (op : Op) : Holds t P (s.enqueue op) := by
  have ha := h.accept op
  refine ⟨ha.retr, ha.ctl, ha.flight, fun hacc => ?_⟩
  rcases ha.kept hacc with (h | h) | h | h | h | h
  · exact .inl h
  · exact .inr (.inl (List.mem_append_right s.queue (h ▸ List.mem_singleton_self op)))
  · exact .inr (.inl (List.mem_append_left _ h))
  · exact .inr (.inr (.inl h))
  · exact .inr (.inr (.inr (.inl h)))
  · exact .inr (.inr (.inr (.inr h)))

theorem Queue.event (h : Queue op s s') :
    s' = s.emit .outOfMemory ∨ s' = s.enqueue op ∨
      (op.needsData = false ∧ s' = (s.emit (.accept op)).execSimple op ∧
        .exec op s.data s.passive :: .accept op :: s.log <:+ s'.log) := by
  cases h with
  | direct hb hq hn =>
    exact .inr (.inr ⟨hn, rfl, (Exec.simple (s := s.emit (.accept op)) hn).extends.suffix⟩)
  | append => exact .inr (.inl rfl)
  | full => exact .inl rfl

/-- An operation that a reply handler queues. -/
theorem Holds.queue (h : Holds t False s) (hop : op.transfer? = none) (hq : Queue op s s')
    (hA : Always (Provided t) s'.log) : Holds t False s' := by
  rcases hq.event with rfl | rfl | ⟨hn, rfl, hev⟩
  · exact h.emit (neutral_outOfMemory t)
  · exact h.enqueue op
  · have ha := (h.accept op).mono (Q := op = .xfer t) fun h => h.resolve_left id
    exact ha.exec (knows_of_transfer? hop _) (.simple hn) (hA.suffix hev).1

/-- The transfer, or another one, has been completed. -/
theorem Holds.done (h : Holds t P s) (u : ℕ) : Holds t P (s.emit (.done u)) := by
  by_cases hu : u = t
  · subst hu
    refine ⟨h.retr, fun hn => h.ctl fun hm => hn (List.mem_cons_of_mem _ hm), fun hf => ?_,
      fun _ => ?_⟩
    · simp [Session.emit, inFlight] at hf
    · exact .inr (.inr (.inr (.inr List.mem_cons_self)))
  · exact h.emit ⟨fun _ => by simp [inFlight, hu], fun _ => rfl, fun _ => rfl, by simp⟩

theorem neutral_reply (code : Int) (p : Option CProc) (b : Int) (buf : Bytes) :
    Neutral t (.reply code p b buf) :=
  ⟨fun _ => rfl, fun _ => rfl, fun _ => rfl, by simp⟩

theorem neutral_touch (u : ℕ) : Neutral t (.touch u) :=
  ⟨fun _ => rfl, fun _ => rfl, fun _ => rfl, by simp⟩

theorem Holds.reply {code : Int} {buf : Bytes} (h : Holds t False s) (hr : Reply code buf s s')
    (hA : Always (Provided t) s'.log) : Holds t False s' := by
  have hg : Holds t False (s.got code buf) := h.emit (neutral_reply _ _ _ _)
  have hset : ∀ b p, Holds t False { s.got code buf with busy := b, passive := p } := fun _ _ =>
    hg.congr (fun ht => ⟨ht, rfl⟩) rfl rfl rfl rfl rfl
  have hfree : s.cproc ≠ some (.xfer t) → inFlight t s.log = false := fun hne => by
    by_contra hf
    exact hne (h.flight (by simpa using hf)).1
  cases hr with
  | activeOk | pwd | cwdFail | listEnd | xferEnd => exact hg.finish
  | activeFail => exact hg.close.finish
  | pasvOpen =>
    have h₁ := (hg.dropData true).emit (e := .opened)
      ⟨fun _ => rfl, fun _ => rfl, fun _ => rfl, by simp⟩
    exact h₁.finish
  | pasvFall sa hp => exact ((hset s.busy false).active (hfree (by simp [hp])) sa).finish
  | cwdOk hp _ h₁ h₂ =>
    have hA₁ := hA.suffix (Extends.queue (.refl _) h₂).suffix
    exact ((hg.queue rfl h₁ hA₁).queue rfl h₂ hA).finish
  | listMore | xferMore => exact hg
  | @xferTotal u => exact hg.emit (neutral_touch u)
  | @xferFail u => exact ((hg.emit (neutral_touch u)).done u).finish
  | loginUser | loginPass => exact (hset 0 s.passive).send (by simp)
  | loginDone hp _ h₁ h₂ h₃ =>
    have hA₂ := hA.suffix (Extends.queue (.refl _) h₃).suffix
    have hA₁ := hA₂.suffix (Extends.queue (.refl _) h₂).suffix
    exact (((hset 0 s.passive).queue rfl h₁ hA₁).queue rfl h₂ hA₂).queue rfl h₃ hA
  | loginOther => exact hset 0 s.passive

/-- Writing to a transfer does not change what it is. -/
theorem Holds.setJob (h : Holds t P s) (u : ℕ) {j : Job} (hj : j.op = (s.jobs u).op) :
    Holds t P (s.setJob u j) := by
  refine h.congr (fun ht => ⟨ht, ?_⟩) rfl rfl rfl rfl rfl
  by_cases hu : t = u
  · subst hu
    simp [Session.setJob, hj]
  · simp [Session.setJob, hu]

theorem neutral_chunk (b : Bytes) (p : Option DProc) : Neutral t (.chunk b p) :=
  ⟨fun _ => rfl, fun _ => rfl, fun _ => rfl, by simp⟩

theorem neutral_dataEof (p : Option DProc) (b : Int) : Neutral t (.dataEof p b) :=
  ⟨fun _ => rfl, fun _ => rfl, fun _ => rfl, by simp⟩

theorem Holds.chunk {b : Bytes} (h : Holds t P s) (hc : Chunk b s s') : Holds t P s' := by
  have hsame : ∀ s₁ : Session, s₁.jobs = s.jobs → s₁.njob = s.njob → s₁.ctl = s.ctl →
      s₁.cproc = s.cproc → s₁.dproc = s.dproc → s₁.queue = s.queue → s₁.log = s.log →
      Holds t P s₁ := fun s₁ hj hn => h.congr fun ht => ⟨hn ▸ ht, by rw [hj]⟩
  cases hc with
  | none => exact h.emit (neutral_chunk _ _)
  | listFull =>
    exact ((h.emit (neutral_chunk _ _)).emit (neutral_outOfMemory t)).emit (neutral_dropped t _)
  | @list r =>
    exact (hsame (s.storeBuf r b) rfl rfl rfl rfl rfl rfl rfl).emit (neutral_chunk _ _)
  | @file u f =>
    exact ((hsame (s.storeFile f b) rfl rfl rfl rfl rfl rfl rfl).emit (neutral_chunk _ _)).emit
      (neutral_touch u)
  | @mem u =>
    have h₁ : Holds t P (s.storeMem u b) := h.setJob u rfl
    exact (h₁.emit (neutral_chunk _ _)).emit (neutral_touch u)
  | @stor u => exact (h.emit (neutral_chunk _ _)).emit (neutral_touch u)

theorem Holds.dataEof (h : Holds t P s) (he : DataEof s s') : Holds t P s' := by
  cases he with
  | none => exact (h.emit (neutral_dataEof _ _)).dropData false
  | @list r tail junk hp =>
    have hf : inFlight t s.log = false := by
      by_contra hf
      have := (h.flight (by simpa using hf)).2
      simp [hp] at this
    have h₁ := (h.emit (neutral_dataEof (some (.list r)) s.busy)).setDproc hf Option.none
      (s.busy - 1)
    exact h₁.congr (fun ht => ⟨ht, rfl⟩) rfl rfl rfl rfl rfl
  | @xfer u =>
    have h₁ : Holds t P (s.closeFile u) := h.setJob u rfl
    exact (((h₁.emit (neutral_dataEof _ _)).emit (neutral_touch u)).done u).finish.dropData false
  | @stor u => exact ((h.emit (neutral_dataEof _ _)).emit (neutral_touch u)).dropData false

theorem Holds.addJob (h : Holds t P s) {j : Job}
    (hA : Provided t s.log (.made s.njob (j.fresh s.njob))) : Holds t P (s.addJob j) where
  retr ht := by
    by_cases hn : t = s.njob
    · subst hn
      simpa [Session.addJob] using hA rfl
    · have hlt : t < s.njob := lt_of_le_of_ne (Nat.lt_succ_iff.mp ht) hn
      simpa [Session.addJob, hn] using h.retr hlt
  ctl hn := h.ctl fun hm => hn (List.mem_cons_of_mem _ hm)
  flight hf := h.flight hf
  kept ha := by
    rcases h.kept ha with h | h | h | h | h
    exacts [.inl h, .inr (.inl h), .inr (.inr (.inl h)), .inr (.inr (.inr (.inl h))),
      .inr (.inr (.inr (.inr (List.mem_cons_of_mem _ h))))]

theorem Act.holds (ha : Act s s') (hk : Known s) (h : Holds t False s)
    (hA : Always (Provided t) s'.log) : Holds t False s' := by
  have hneutral : ∀ e : Event, (∀ past, inFlight t (e :: past) = inFlight t past) →
      (∀ past, acceptedOpen t (e :: past) = acceptedOpen t past) →
      (∀ past, Visftp.stack (e :: past) = Visftp.stack past) → e ≠ .hangup → Neutral t e :=
    fun _ h₁ h₂ h₃ h₄ => ⟨h₁, h₂, h₃, h₄⟩
  cases ha with
  | badSelect => exact h.emit (hneutral _ (fun _ => rfl) (fun _ => rfl) (fun _ => rfl) (by simp))
  | assert =>
    have h₁ : Holds t False { s with busy := 0 } :=
      h.congr (fun ht => ⟨ht, rfl⟩) rfl rfl rfl rfl rfl
    exact h₁.emit (hneutral _ (fun _ => rfl) (fun _ => rfl) (fun _ => rfl) (by simp))
  | @next _ op ops hb hq hx =>
    have h₁ : Holds t (op = .xfer t) { s with queue := ops } := by
      refine ⟨h.retr, h.ctl, h.flight, fun hacc => ?_⟩
      rcases h.kept hacc with h | h | h
      · exact h.elim
      · rw [hq, List.mem_cons] at h
        rcases h with h | h
        exacts [.inl h.symm, .inr (.inl h)]
      · exact .inr (.inr h)
    exact h₁.exec (hk.queue op (hq ▸ List.mem_cons_self)) hx (hA.suffix hx.extends.suffix).1
  | @resume s₂ op ops hs hst =>
    have hw : .wake s.data :: s.log <:+ (s₂.emit .ret).log :=
      (Extends.start (.refl _) hst).suffix.trans (List.suffix_cons _ _)
    have hcond : Provided t s.log (.wake s.data) := (hA.suffix hw).1
    have h₁ := h.emit (e := .wake s.data) ⟨fun _ => rfl, fun _ => rfl, fun _ => rfl, by simp⟩
    have hstack : Visftp.stack (s.emit (.wake s.data)).log = op :: ops := hs
    simp only [Provided, hs, List.head?_cons, Option.some.injEq] at hcond
    obtain ⟨h₂, hflight⟩ := h₁.start (hk.stack op (hs ▸ List.mem_cons_self)) hst
      (fun heq => by
        rw [if_pos heq] at hcond
        exact ⟨hcond.1, List.not_mem_cons_of_ne_of_not_mem (by simp) hcond.2⟩)
      fun hne => by
        rw [if_neg hne] at hcond
        exact hcond
    exact h₂.ret (hst.stack_eq.trans hstack) hflight
  | @append op => exact h.enqueue op
  | @direct _ op _ hop _ _ hx =>
    have ha := (h.accept op).mono (Q := op = .xfer t) fun h => h.resolve_left id
    exact ha.exec (knows_of_transfer? hop _) hx (hA.suffix hx.extends.suffix).1
  | refuse => exact h.emit (neutral_outOfMemory t)
  | newJob j => exact (h.addJob hA.2.1).emit (neutral_outOfMemory t)
  | handOver j => exact (h.addJob hA.2.1).enqueue _
  | handOverDirect j _ _ _ hx =>
    have hA₁ := hA.suffix hx.extends.suffix
    have ha := ((h.addJob hA₁.2.2.1).accept (.xfer s.njob)).mono (Q := Op.xfer s.njob = .xfer t)
      fun h => h.resolve_left id
    exact ha.exec (hk.addJob j).2 hx hA₁.1
  | chunk b _ _ hc => exact h.chunk hc
  | dataEof _ _ he => exact h.dataEof he
  | incoming =>
    exact ((h.dropData true).emit (e := .incoming)
      (hneutral _ (fun _ => rfl) (fun _ => rfl) (fun _ => rfl) (by simp))).emit (e := .opened)
        (hneutral _ (fun _ => rfl) (fun _ => rfl) (fun _ => rfl) (by simp))

/-- **One step** keeps every transfer where it is, or moves it on. -/
theorem Step.holds (hstep : Step s s') (hk : Known s) (h : Holds t False s)
    (hA : Always (Provided t) s'.log) : Holds t False s' := by
  cases hstep with
  | recv b => exact h.emit ⟨fun _ => rfl, fun _ => rfl, fun _ => rfl, by simp⟩
  | line buf => exact h.emit ⟨fun _ => rfl, fun _ => rfl, fun _ => rfl, by simp⟩
  | carry c => exact h.congr (fun ht => ⟨ht, rfl⟩) rfl rfl rfl rfl rfl
  | reply code buf _ _ hr => exact h.reply hr hA
  | hangup => exact h.close
  | act ha => exact ha.holds hk h hA

theorem holds_connected {α : Type} (t : ℕ) (ctl : Fd) (user pass : Option Bytes) (app : α) :
    Holds t False (World.connected ctl user pass app).view :=
  ⟨fun ht => absurd ht (Nat.not_lt_zero t), fun _ => rfl,
    fun hf => by simp [World.view, World.connected, inFlight] at hf,
    fun ha => by simp [World.view, World.connected, acceptedOpen] at ha⟩

end Session

/-- **No transfer is lost.** In every run that provides for a transfer, after it has been accepted
on an open control connection it is in the queue, or it is in flight and both handlers are installed
for it, or it has been completed. -/
theorem kept_run {α : Type} (t : ℕ) (ctl : Fd) (user pass : Option Bytes) (app : α)
    (inputs : List (Env × Input α)) {w : World α}
    (hw : w = (World.connected ctl user pass app).run inputs) (hacc : acceptedOpen t w.log = true)
    (h : Always (Provided t) w.log) :
    .xfer t ∈ w.ftp.queue.toList ∨
      (inFlight t w.log = true ∧ w.ftp.cproc = some (.xfer t) ∧ w.ftp.dproc = some (.xfer t)) ∨
      .done t ∈ w.log := by
  subst hw
  have hI := (run_invariant (I := fun s => Known s ∧ Holds t False s)
    (fun _ _ hstep hA hI => ⟨hstep.known hI.1, hstep.holds hI.1 hI.2 hA⟩)
    ⟨known_connected ctl user pass app, holds_connected t ctl user pass app⟩ inputs h).2
  -- between two calls of the main loop, no operation is under way
  have hstack : stack ((World.connected ctl user pass app).run inputs).log = [] :=
    stack_run rfl inputs
  rcases hI.kept hacc with hin | hin | hin | hin | hin
  · exact hin.elim
  · exact .inl hin
  · have hnil : Op.xfer t ∈ ([] : List Op) := hstack ▸ hin
    simp at hnil
  · exact .inr (.inl ⟨hin, hI.flight hin⟩)
  · exact .inr (.inr hin)

/-- Two files are asked for, one after the other; the server answers `PASV` with the given line. -/
def twoFilesRun (answer : Bytes) : World Unit :=
  (World.connected 3 none none ()).run
    [({ Env.quiet with
        ctlIn := [.data answer]
        selects := [.woke true 0]
        sockets := [some 4]
        connects := [true] }, .transfer ⟨⟨⟨.retr, ascii "f", some 0, none⟩, 1, 0⟩, fun _ u => u⟩),
      (Env.quiet, .transfer ⟨⟨⟨.retr, ascii "g", some 0, none⟩, 1, 0⟩, fun _ u => u⟩),
      ({ Env.quiet with dataIn := [.data (ascii "x"), .eof] }, .handle 4)]

/-- The first of them is begun, and its data ends. -/
theorem kept_run_two_files :
    .xfer 0 ∈ (twoFilesRun (ascii "227 ok (127,0,0,1,4,1)\r\n")).ftp.queue.toList ∨
      (inFlight 0 (twoFilesRun (ascii "227 ok (127,0,0,1,4,1)\r\n")).log = true ∧
        (twoFilesRun (ascii "227 ok (127,0,0,1,4,1)\r\n")).ftp.cproc = some (.xfer 0) ∧
        (twoFilesRun (ascii "227 ok (127,0,0,1,4,1)\r\n")).ftp.dproc = some (.xfer 0)) ∨
      .done 0 ∈ (twoFilesRun (ascii "227 ok (127,0,0,1,4,1)\r\n")).log :=
  kept_run 0 3 none none () _ rfl (by decide) (by decide)

/-- When `PASV` is refused, the transfer that waits for it is forgotten: it is in none of the three
places. -/
theorem lost_of_pasv_refused :
    acceptedOpen 0 (twoFilesRun (ascii "502 Not implemented.\r\n")).log = true ∧
      (twoFilesRun (ascii "502 Not implemented.\r\n")).ftp.ctl = some 3 ∧
      .xfer 0 ∉ (twoFilesRun (ascii "502 Not implemented.\r\n")).ftp.queue.toList ∧
      inFlight 0 (twoFilesRun (ascii "502 Not implemented.\r\n")).log = false ∧
      .done 0 ∉ (twoFilesRun (ascii "502 Not implemented.\r\n")).log := by
  decide

end Visftp
