import Visftp.Dialogue

/-!
# The count of what is outstanding

`busy` is incremented for every command and every data transfer, and decremented for every reply
that a handler counts as an answer and at the end of the data. The client starts the next operation
when it is zero, and asserts that it is not less.

Nothing relates a reply to a command: a reply that answers none is counted as well. The count is
right as long as what is counted was owed (`Awaited`): it is then the number of the commands without
a final reply and of the listings and transfers without an end of their data, in any order, and also
when operations are begun inside the waits of others.

## Main definitions

* `dataDue`, `owing` — what is outstanding, read off the history
* `Awaited`, `Counted` — what is asked of the history, and what follows
* `Session.Ledger`, `Session.Greeted` — the invariant

## Main results

* `Session.Step.ledger` — one step
* `busy_nonneg_run` — whole runs
-/

namespace Visftp

open CString Histories Session Relation

/-- Whether a handler counts a reply as the answer to a command. -/
def CProc.counts : CProc → Int → Bool
  | .list _, code | .xfer _, code => decide (200 ≤ code)
  | _, _ => true

/-- How many listings and transfers have been begun, without an end of their data. -/
def dataDue : List Event → ℕ
  | [] => 0
  | .hook (.list _) :: past | .hook (.xfer _) :: past => dataDue past + 1
  | .dataEof (some _) _ :: past => dataDue past - 1
  | _ :: past => dataDue past

/-- How much is outstanding: replies to commands, and ends of data. -/
def owing (past : List Event) : ℤ := (due past).countP Option.isSome + dataDue past

/-- **What is counted is owed.** A reply that its handler counts is a final one, and some command
is without one. In the login dialogue a preliminary reply only comes before the greeting. No
operation is begun before the greeting. The data ends of a listing or a transfer that was begun. -/
def Awaited (past : List Event) : Event → Prop
  | .reply code none _ _ => 200 ≤ code ∨ due past = [none]
  | .reply code (some p) _ _ => p.counts code = true → 200 ≤ code ∧ due past ≠ []
  | .exec .. => none ∉ due past
  | .dataEof (some _) _ => 0 < dataDue past
  | _ => True

instance (past : List Event) : Decidable (none ∉ due past) :=
  decidable_of_iff ((due past).all Option.isSome) <| by
    rw [List.all_eq_true]
    exact ⟨fun h hmem => Bool.false_ne_true (h none hmem),
      fun h c hc => Option.isSome_iff_ne_none.mpr fun hnone => h (hnone ▸ hc)⟩

instance (past : List Event) (e : Event) : Decidable (Awaited past e) := by
  induction e using Event.casesOn with
  | reply code p busy buf =>
    induction p using Option.casesOn <;> (dsimp only [Awaited]; infer_instance)
  | dataEof p busy => induction p using Option.casesOn <;> (dsimp only [Awaited]; infer_instance)
  | _ => dsimp only [Awaited]; infer_instance

/-- `busy` is not negative wherever the history shows it, and the assertion of `ftp_handle` does
not fail. -/
def Counted (_ : List Event) : Event → Prop
  | .reply _ _ busy _ | .dataEof _ busy => 0 ≤ busy
  | .assertFailed => False
  | _ => True

instance (past : List Event) (e : Event) : Decidable (Counted past e) := by
  induction e using Event.casesOn <;> (dsimp only [Counted]; infer_instance)

/-- The greeting is owed from the beginning, and never again. -/
theorem none_mem_due_of_suffix {past log : List Event} (h : past <:+ log) (hg : none ∈ due log) :
    none ∈ due past := by
  obtain ⟨new, rfl⟩ := h
  induction new with
  | nil => exact hg
  | cons e new ih =>
    refine ih ?_
    rw [List.cons_append] at hg
    cases e with
    | sent c => simpa [due] using hg
    | reply code p busy buf =>
      rw [due] at hg
      split at hg
      · exact List.mem_of_mem_tail hg
      · exact hg
    | hangup => simp [due] at hg
    | _ => exact hg

namespace Session

variable {s s' : Session} {op : Op} {k k' : ℤ} {code : Int} {buf : Bytes}

/-- **The books**: `busy` is what is outstanding, and `k` more: a handler that runs has not been
counted off yet. On a closed connection, replies that will not come may stay counted. Before the
first handler is installed, one reply is owed at most. -/
structure Ledger (k : ℤ) (s : Session) : Prop where
  owing_le : owing s.log + k ≤ s.busy
  busy_eq : s.ctl = true → s.busy = owing s.log + k
  closed : s.ctl = false → due s.log = []
  login : s.cproc = none → (due s.log).length ≤ 1 ∧ dataDue s.log = 0

/-- **The greeting comes first**: no handler is installed before it, and no operation waits before
one is. -/
structure Greeted (s : Session) : Prop where
  cproc : none ∈ due s.log → s.cproc = none
  stack : s.cproc = none → stack s.log = []

theorem owing_nonneg (past : List Event) : 0 ≤ owing past := by
  rw [owing]
  omega

/-! ### Actions -/

namespace Ledger

theorem emit (h : Ledger k s) {e : Event} (hdue : due (e :: s.log) = due s.log)
    (hdata : dataDue (e :: s.log) = dataDue s.log) : Ledger k (s.emit e) where
  owing_le := by rw [Session.emit, owing, hdue, hdata]; exact h.owing_le
  busy_eq := by rw [Session.emit, owing, hdue, hdata]; exact h.busy_eq
  closed := by rw [Session.emit, hdue]; exact h.closed
  login := by rw [Session.emit, hdue, hdata]; exact h.login

theorem congr (h : Ledger k s) (hl : s'.log = s.log) (hc : s'.ctl = s.ctl)
    (hp : s'.cproc = s.cproc) (hb : s'.busy = s.busy) : Ledger k s' where
  owing_le := by rw [hl, hb]; exact h.owing_le
  busy_eq := by rw [hl, hc, hb]; exact h.busy_eq
  closed := by rw [hl, hc]; exact h.closed
  login := by rw [hl, hp]; exact h.login

theorem finish (h : Ledger k s) : Ledger (k - 1) s.finish where
  owing_le := by
    have := h.owing_le
    simp only [Session.finish]
    omega
  busy_eq hc := by
    have := h.busy_eq hc
    simp only [Session.finish]
    omega
  closed := h.closed
  login := h.login

/-- What was owed on the control connection is not owed any more. -/
theorem close (h : Ledger k s) : Ledger k s.close := by
  rw [Session.close]
  cases hc : s.ctl with
  | true =>
    refine ⟨?_, fun hf => by simp at hf, fun _ => rfl, fun hp => ⟨Nat.zero_le 1, (h.login hp).2⟩⟩
    have hle := h.owing_le
    have hdata : owing (.hangup :: s.log) = dataDue s.log := Int.zero_add _
    simp only [if_true, hdata]
    rw [owing] at hle
    omega
  | false =>
    exact ⟨h.owing_le, fun hf => by simp at hf, fun _ => h.closed hc, h.login⟩

/-- A command is owed a reply. -/
theorem send (h : Ledger k s) (c : Cmd) (hd : s.cproc = none → due s.log = []) :
    Ledger k (s.send c) := by
  rw [Session.send]
  cases hc : s.ctl with
  | false => exact h.congr rfl hc.symm rfl rfl
  | true =>
    have hdata : dataDue (.sent c :: s.log) = dataDue s.log := rfl
    have howing : owing (.sent c :: s.log) = owing s.log + 1 := by
      rw [owing, due, List.countP_append, hdata, owing]
      simp
      omega
    have hle := h.owing_le
    have heq := h.busy_eq hc
    refine ⟨?_, fun _ => ?_, fun hf => by simp at hf, fun hp => ?_⟩
    · simp only [if_true, howing]
      omega
    · simp only [if_true, howing]
      omega
    · have hdue : due (.sent c :: s.log) = [some c] := by rw [due, hd hp, List.nil_append]
      simp only [if_true, hdue]
      exact ⟨le_rfl, (h.login hp).2⟩

/-- A command is sent, and its handler is installed. -/
theorem ask (h : Ledger k s) (hd : s.cproc = none → due s.log = []) (c : Cmd) {p : CProc}
    (hp : dataDue (.hook p :: (s.send c).log) = dataDue (s.send c).log) :
    Ledger k ((s.send c).hook p) := by
  have hsent := h.send c hd
  refine ⟨?_, ?_, hsent.closed, fun hf => by simp [Session.hook] at hf⟩
  · rw [Session.hook, owing, hp]
    exact hsent.owing_le
  · rw [Session.hook, owing, hp]
    exact hsent.busy_eq

/-- A command is sent whose data is to come, and its handlers are installed. -/
theorem startData (h : Ledger k s) (hd : s.cproc = none → due s.log = []) (c : Cmd) {p : CProc}
    (hp : dataDue (.hook p :: (s.send c).log) = dataDue (s.send c).log + 1) (d : Option DProc) :
    Ledger k { (s.send c).hook p with dproc := d, busy := ((s.send c).hook p).busy + 1 } := by
  have hsent := h.send c hd
  have hle := hsent.owing_le
  have howing : owing (.hook p :: (s.send c).log) = owing (s.send c).log + 1 := by
    have hdue : due (.hook p :: (s.send c).log) = due (s.send c).log := rfl
    rw [owing, hp, owing, hdue]
    push_cast
    omega
  refine ⟨?_, fun hc => ?_, hsent.closed, fun hf => by simp [Session.hook] at hf⟩
  · simp only [Session.hook, howing]
    omega
  · have heq := hsent.busy_eq hc
    simp only [Session.hook, howing]
    omega

theorem active (h : Ledger k s) (hd : s.cproc = none → due s.log = []) (r : Option (ℕ × ℕ)) :
    Ledger k (s.active r) := by
  have h₁ : Ledger k { s with data := false } := h.congr rfl rfl rfl rfl
  rcases r with - | ⟨a, p⟩
  · exact h₁
  · exact h₁.ask hd (.port a p) (p := .active) rfl

theorem simple (h : Ledger k s) (hd : s.cproc = none → due s.log = []) (op : Op) :
    Ledger k (s.simple op) := by
  cases op with
  | type arg =>
    unfold Session.simple
    dsimp only
    split
    · exact h
    · exact h.send _ hd
  | pwd => exact h.ask hd .pwd (p := .pwd) rfl
  | cdup => exact h.ask hd .cdup (p := .cwd) rfl
  | chdir d => exact h.ask hd (if d = ascii ".." then .cdup else .cwd d) (p := .cwd) rfl
  | _ => exact h

theorem start (h : Ledger k s) (hd : s.cproc = none → due s.log = []) (hs : Start op s s') :
    Ledger k s' := by
  cases hs with
  | none => exact h
  | noBuffer => exact h.emit rfl rfl
  | list =>
    have h₁ : Ledger k { s with bufs := Function.update s.bufs s.nbuf [], nbuf := s.nbuf + 1 } :=
      h.congr rfl rfl rfl rfl
    exact h₁.startData hd (.list s.nbuf) (p := .list s.nbuf) rfl _
  | @transfer t =>
    rw [startTransfer]
    split
    · exact h.startData hd (.retr t (s.jobs t).rname) (p := .xfer t) rfl _
    · exact h

/-- When `busy` is zero and the greeting is not owed, no reply is. -/
theorem idle (h : Ledger k s) (hk : 0 ≤ k) (hb : s.busy = 0) (hg : none ∉ due s.log) :
    due s.log = [] := by
  have hle := h.owing_le
  rw [hb, owing] at hle
  have hcount : (due s.log).countP Option.isSome = 0 := by omega
  refine List.eq_nil_iff_forall_not_mem.mpr fun q hq => ?_
  have hnone : q = none := by simpa using List.countP_eq_zero.mp hcount q hq
  exact hg (hnone ▸ hq)

/-- `exec_op` while nothing is outstanding. -/
theorem exec (h : Ledger k s) (hk : 0 ≤ k) (hb : s.busy = 0)
    (hA : Awaited s.log (.exec op s.data s.passive)) (hx : Exec op s s') : Ledger k s' := by
  have hd := h.idle hk hb hA
  have he : Ledger k (s.enter op) := h.emit rfl rfl
  cases hx with
  | simple => exact (he.simple (fun _ => hd) op).emit rfl rfl
  | atOnce _ _ hs => exact (he.start (fun _ => hd) hs).emit rfl rfl
  | noData r => exact (he.active (fun _ => hd) r).emit rfl rfl
  | wait =>
    have h₁ : Ledger k { s.enter op with data := false } := he.congr rfl rfl rfl rfl
    exact h₁.ask (fun _ => hd) .pasv (p := .pasv) rfl

/-- An operation that a reply handler queues. -/
theorem queue (h : Ledger k s) (hk : 0 ≤ k) (hq : Queue op s s') (hA : Always Awaited s'.log) :
    Ledger k s' := by
  have hcongr : ∀ q, Ledger k { s with queue := q } := fun _ => h.congr rfl rfl rfl rfl
  cases hq with
  | append => exact (hcongr _).emit rfl rfl
  | full => exact h.emit rfl rfl
  | direct hb _ hn =>
    have hx : Exec op (s.emit (.accept op)) ((s.emit (.accept op)).execSimple op) := .simple hn
    have he : Ledger k (s.emit (.accept op)) := h.emit rfl rfl
    exact he.exec hk hb (hA.suffix hx.extends.suffix).1 hx

/-! ### Replies -/

/-- A reply that a handler counts is taken off the list; `busy` follows later. -/
theorem got_of_counts (h : Ledger 0 s) (hg : none ∉ due s.log) (hc : 200 ≤ code)
    (hd : due s.log ≠ []) (hp : s.cproc ≠ none) : Ledger 1 (s.got code buf) := by
  obtain ⟨q, rest, hq⟩ := List.exists_cons_of_ne_nil hd
  have hsome : q.isSome = true := by
    refine Option.isSome_iff_ne_none.mpr ?_
    rintro rfl
    exact hg (by simp [hq])
  have hdue : due (s.got code buf).log = rest := by
    rw [got, Session.emit, due, if_pos hc, hq, List.tail_cons]
  have howing : owing (s.got code buf).log + 1 = owing s.log := by
    have hdata : dataDue (s.got code buf).log = dataDue s.log := rfl
    rw [owing, owing, hdue, hdata, hq, List.countP_cons_of_pos hsome]
    push_cast
    omega
  have hopen : s.ctl = true := by
    by_contra hctl
    exact hd (h.closed (by simpa using hctl))
  have heq := h.busy_eq hopen
  have hbusy : (s.got code buf).busy = s.busy := rfl
  refine ⟨by omega, fun _ => by omega, fun hf => ?_, fun hf => absurd hf hp⟩
  exact absurd (hopen.symm.trans hf) (by decide)

/-- A preliminary reply changes nothing. -/
theorem got_of_preliminary (h : Ledger k s) (hc : code < 200) : Ledger k (s.got code buf) := by
  refine h.emit ?_ rfl
  rw [due, if_neg (not_le.mpr hc)]

/-- A reply to the login dialogue, which clears `busy`. -/
theorem got_login (h : Ledger 0 s) (hp : s.cproc = none) (hctl : s.ctl = true)
    (hA : 200 ≤ code ∨ due s.log = [none]) :
    Ledger 0 { s.got code buf with busy := 0 } ∧
      (200 ≤ code → due (s.got code buf).log = []) := by
  obtain ⟨hlen, hdata⟩ := h.login hp
  have hdata' : dataDue (s.got code buf).log = 0 := hdata
  have hdue : (200 ≤ code → due (s.got code buf).log = []) ∧
      (due (s.got code buf).log = [] ∨ due (s.got code buf).log = [none]) := by
    rw [got, Session.emit, due]
    split
    · have htail : (due s.log).tail = [] := by
        rw [← List.length_eq_zero_iff, List.length_tail]
        omega
      exact ⟨fun _ => htail, .inl htail⟩
    · next hc => exact ⟨fun h200 => absurd h200 hc, .inr (hA.resolve_left hc)⟩
  have howing : owing (s.got code buf).log = 0 := by
    rw [owing, hdata']
    rcases hdue.2 with hnil | hnone
    · simp [hnil]
    · simp [hnone]
  have hctl' : s.ctl = false → False := fun hf => absurd (hctl.symm.trans hf) (by decide)
  refine ⟨⟨?_, fun _ => ?_, fun hf => (hctl' hf).elim, fun _ => ⟨?_, hdata'⟩⟩, hdue.1⟩
  · exact (Int.add_zero _).trans howing |>.le
  · exact ((Int.add_zero _).trans howing).symm
  · show (due (s.got code buf).log).length ≤ 1
    rcases hdue.2 with hnil | hnone
    · simp [hnil]
    · simp [hnone]

/-- **A reply.** -/
theorem reply (h : Ledger 0 s) (hg : Greeted s) (hr : Reply code buf s s')
    (hctl : s.ctl = true ∨ s.cproc = some .active) (hA : Always Awaited s'.log) : Ledger 0 s' := by
  have hev : Awaited s.log (.reply code s.cproc s.busy buf) := (hA.suffix hr.extends.event).1
  have hgreeted : ∀ p, s.cproc = some p → none ∉ due s.log := fun p hp hmem => by
    simp [hg.cproc hmem] at hp
  -- nothing was counted, or a final reply to a command
  have hcounts : ∀ p, s.cproc = some p → p.counts code = true → Ledger 1 (s.got code buf) := by
    intro p hp hcount
    rw [hp] at hev
    obtain ⟨hc, hd⟩ := hev hcount
    exact h.got_of_counts (hgreeted p hp) hc hd (by simp [hp])
  have hlogin : s.cproc = none → Ledger 0 { s.got code buf with busy := 0 } ∧
      (200 ≤ code → due (s.got code buf).log = []) := by
    intro hp
    rw [hp] at hev
    exact h.got_login hp (hctl.resolve_right (by simp [hp])) hev
  cases hr with
  | activeOk hp | pwd hp | cwdFail hp => exact (hcounts _ hp rfl).finish
  | activeFail hp => exact (hcounts _ hp rfl).close.finish
  | pasvOpen hp =>
    have h₁ : Ledger 1 { s.got code buf with data := true } :=
      (hcounts _ hp rfl).congr rfl rfl rfl rfl
    exact (h₁.emit (e := .opened) rfl rfl).finish
  | pasvFall r hp =>
    have h₁ : Ledger 1 { s.got code buf with passive := false } :=
      (hcounts _ hp rfl).congr rfl rfl rfl rfl
    exact (h₁.active (fun hf => by simp [got, Session.emit, hp] at hf) r).finish
  | cwdOk hp _ h₁ h₂ =>
    have hA₁ := hA.suffix (Extends.queue (.refl _) h₂).suffix
    exact (((hcounts _ hp rfl).queue zero_le_one h₁ hA₁).queue zero_le_one h₂ hA).finish
  | listMore _ hc | xferMore _ hc => exact h.got_of_preliminary hc
  | xferTotal _ hc => exact (h.got_of_preliminary (by omega)).emit rfl rfl
  | listEnd hp hc | xferEnd hp hc => exact (hcounts _ hp (decide_eq_true hc)).finish
  | xferFail hp hc =>
    exact (((hcounts _ hp (decide_eq_true (by omega))).emit rfl rfl).emit rfl rfl).finish
  | loginUser u hp hc =>
    obtain ⟨h₁, hd⟩ := hlogin hp
    exact h₁.send (.user u) fun _ => hd (by omega)
  | loginPass w hp hc =>
    obtain ⟨h₁, hd⟩ := hlogin hp
    exact h₁.send (.pass w) fun _ => hd (by omega)
  | loginDone hp _ h₁ h₂ h₃ =>
    have hA₂ := hA.suffix (Extends.queue (.refl _) h₃).suffix
    have hA₁ := hA₂.suffix (Extends.queue (.refl _) h₂).suffix
    exact (((hlogin hp).1.queue le_rfl h₁ hA₁).queue le_rfl h₂ hA₂).queue le_rfl h₃ hA
  | loginOther hp => exact (hlogin hp).1

/-! ### Data -/

theorem chunk {b : Bytes} (h : Ledger k s) (hc : Chunk b s s') : Ledger k s' := by
  cases hc with
  | none => exact h.emit rfl rfl
  | listFull => exact ((h.emit rfl rfl).emit rfl rfl).emit rfl rfl
  | @list r =>
    have h₁ : Ledger k (s.storeBuf r b) := h.congr rfl rfl rfl rfl
    exact h₁.emit rfl rfl
  | @file t f =>
    have h₁ : Ledger k (s.storeFile f b) := h.congr rfl rfl rfl rfl
    exact (h₁.emit rfl rfl).emit rfl rfl
  | @mem t =>
    have h₁ : Ledger k (s.storeMem t b) := h.congr rfl rfl rfl rfl
    exact (h₁.emit rfl rfl).emit rfl rfl
  | @stor t => exact (h.emit rfl rfl).emit rfl rfl

/-- The end of data that was due. -/
theorem eof (h : Ledger k s) (hd : 0 < dataDue s.log) (p : DProc) (b : Int) :
    Ledger (k + 1) (s.emit (.dataEof (some p) b)) := by
  have howing : owing (s.emit (.dataEof (some p) b)).log + 1 = owing s.log := by
    have hdue : due (s.emit (.dataEof (some p) b)).log = due s.log := rfl
    have hdata : dataDue (s.emit (.dataEof (some p) b)).log = dataDue s.log - 1 := rfl
    rw [owing, owing, hdue, hdata]
    omega
  have hle := h.owing_le
  have hbusy : (s.emit (.dataEof (some p) b)).busy = s.busy := rfl
  refine ⟨by omega, fun hc => ?_, h.closed, fun hp => ?_⟩
  · have heq := h.busy_eq hc
    omega
  · have hnone := (h.login hp).2
    omega

theorem dataEof (h : Ledger 0 s) (hk : Known s) (he : DataEof s s') (hA : Always Awaited s'.log) :
    Ledger 0 s' := by
  have hev : Awaited s.log (.dataEof s.dproc s.busy) := (hA.suffix he.extends.event).1
  cases he with
  | none =>
    have h₁ : Ledger 0 (s.emit (.dataEof Option.none s.busy)) := h.emit rfl rfl
    exact h₁.congr rfl rfl rfl rfl
  | @list r tail junk hp =>
    rw [hp] at hev
    exact (h.eof hev (.list r) s.busy).finish.congr rfl rfl rfl rfl
  | @xfer t hp =>
    rw [hp] at hev
    have h₁ : Ledger 0 (s.closeFile t) := h.congr rfl rfl rfl rfl
    have h₂ := (h₁.eof hev (.xfer t) s.busy).emit (e := .touch t) rfl rfl
    exact (h₂.emit (e := .done t) rfl rfl).finish.congr rfl rfl rfl rfl
  | stor hp ho => exact absurd (hk.dproc _ hp).2 ho

/-! ### Steps -/

theorem act (h : Ledger 0 s) (hg : Greeted s) (hk : Known s) (ha : Act s s')
    (hA : Always Awaited s'.log) : Ledger 0 s' := by
  have hadd : ∀ j, Ledger 0 (s.addJob j) := fun j =>
    have h₁ : Ledger 0 (s.emit (.made s.njob (j.fresh s.njob))) := h.emit rfl rfl
    h₁.congr rfl rfl rfl rfl
  cases ha with
  | badSelect => exact h.emit rfl rfl
  | assert hb =>
    have hle := h.owing_le
    have hpos := owing_nonneg s.log
    omega
  | @next _ op ops hb hq hx =>
    have h₁ : Ledger 0 { s with queue := ops } := h.congr rfl rfl rfl rfl
    exact h₁.exec le_rfl hb (hA.suffix hx.extends.suffix).1 hx
  | @resume s₂ op ops hs hst =>
    have h₁ : Ledger 0 (s.emit (.wake s.data)) := h.emit rfl rfl
    refine (h₁.start (fun hp => ?_) hst).emit rfl rfl
    simp [hg.stack hp] at hs
  | append =>
    have h₁ : ∀ q, Ledger 0 { s with queue := q } := fun _ => h.congr rfl rfl rfl rfl
    exact (h₁ _).emit rfl rfl
  | @direct _ op _ _ hb _ hx =>
    have h₁ : Ledger 0 (s.emit (.accept op)) := h.emit rfl rfl
    exact h₁.exec le_rfl hb (hA.suffix hx.extends.suffix).1 hx
  | refuse => exact h.emit rfl rfl
  | newJob j => exact (hadd j).emit rfl rfl
  | handOver j =>
    have h₁ : Ledger 0 { s.addJob j with queue := s.queue ++ [.xfer s.njob] } :=
      (hadd j).congr rfl rfl rfl rfl
    exact h₁.emit rfl rfl
  | handOverDirect j _ hb _ hx =>
    have h₁ : Ledger 0 ((s.addJob j).emit (.accept (.xfer s.njob))) := (hadd j).emit rfl rfl
    exact h₁.exec le_rfl hb (hA.suffix hx.extends.suffix).1 hx
  | chunk b _ _ hc => exact h.chunk hc
  | dataEof _ _ he => exact h.dataEof hk he hA
  | incoming =>
    have h₁ : Ledger 0 { s with data := true } := h.congr rfl rfl rfl rfl
    exact (h₁.emit (e := .incoming) rfl rfl).emit (e := .opened) rfl rfl

end Ledger

/-! ### Handlers and waits -/

theorem cproc_simple (op : Op) (h : (s.simple op).cproc = none) : s.cproc = none := by
  cases op with
  | type arg =>
    unfold simple at h
    dsimp only at h
    split at h <;> exact h
  | pwd | cdup | chdir => simp [simple, hook] at h
  | _ => exact h

theorem cproc_active (r : Option (ℕ × ℕ)) (h : (s.active r).cproc = none) : s.cproc = none := by
  rcases r with - | ⟨a, p⟩
  · exact h
  · simp [active, hook] at h

theorem Start.cproc_eq_none (hs : Start op s s') (h : s'.cproc = .none) : s.cproc = .none := by
  cases hs with
  | none | noBuffer => exact h
  | list => simp [startList, hook] at h
  | transfer =>
    rw [startTransfer] at h
    split at h
    · simp [hook] at h
    · exact h

/-- No handler is taken away, and without one no operation waits. -/
theorem Exec.cproc_eq_none (hx : Exec op s s') (h : s'.cproc = none) :
    s.cproc = none ∧ stack s'.log = stack s.log := by
  cases hx with
  | simple => exact ⟨cproc_simple (s := s.enter op) op h, stack_execSimple s op⟩
  | atOnce _ _ hs =>
    refine ⟨hs.cproc_eq_none h, ?_⟩
    rw [emit, stack, hs.stack_eq]
    rfl
  | noData r =>
    refine ⟨cproc_active (s := s.enter op) r h, ?_⟩
    rw [emit, stack, stack_active]
    rfl
  | wait => simp [askPasv, hook] at h

theorem Queue.cproc_eq_none (hq : Queue op s s') (h : s'.cproc = none) : s.cproc = none := by
  cases hq with
  | direct => exact cproc_simple (s := (s.emit (.accept op)).enter op) op h
  | append | full => exact h

theorem Reply.cproc_eq_none (hr : Reply code buf s s') (h : s'.cproc = none) :
    s.cproc = none := by
  cases hr with
  | pasvFall r => exact cproc_active (s := { s.got code buf with passive := false }) r h
  | cwdOk _ _ h₁ h₂ => exact h₁.cproc_eq_none (h₂.cproc_eq_none h)
  | loginUser _ hp | loginPass _ hp | loginDone hp => exact hp
  | _ => exact h

namespace Greeted

theorem congr (h : Greeted s) (hl : s.log <:+ s'.log) (hp : s'.cproc = s.cproc)
    (hs : Visftp.stack s'.log = Visftp.stack s.log) : Greeted s' where
  cproc hmem := hp.trans (h.cproc (none_mem_due_of_suffix hl hmem))
  stack hc := hs.trans (h.stack (hp.symm.trans hc))

/-- `exec_op` behind the greeting. -/
theorem exec (h : Greeted s) (hx : Exec op s s') (hA : Always Awaited s'.log) : Greeted s' where
  cproc hmem := absurd (none_mem_due_of_suffix ((Extends.refl s).exec hx).suffix hmem)
    (hA.suffix hx.extends.suffix).1
  stack hp := (hx.cproc_eq_none hp).2.trans (h.stack (hx.cproc_eq_none hp).1)

theorem reply (h : Greeted s) (hl : Ledger 0 s) (hr : Reply code buf s s') : Greeted s' where
  cproc hmem := by
    have hp := h.cproc (none_mem_due_of_suffix
      ((List.suffix_cons _ _).trans hr.extends.event) hmem)
    cases hr with
    | loginUser | loginPass | loginOther => exact hp
    | loginDone _ hc h₁ h₂ h₃ =>
      -- the greeting is not owed behind the reply
      have hgot := none_mem_due_of_suffix (Extends.queue (Extends.queue (Extends.queue (.refl _) h₁)
        h₂) h₃).suffix hmem
      have hlen := (hl.login hp).1
      simp only [got, Session.emit] at hgot
      rw [due, if_pos (by omega)] at hgot
      have hpos := List.length_pos_of_mem hgot
      rw [List.length_tail] at hpos
      omega
    | _ => simp_all
  stack hp := hr.stack_eq.trans (h.stack (hr.cproc_eq_none hp))

theorem act (h : Greeted s) (ha : Act s s') (hA : Always Awaited s'.log) : Greeted s' := by
  have hgrow : s.log <:+ s'.log := (Step.act ha).suffix
  cases ha with
  | @next _ op ops hb hq hx =>
    have h₁ : Greeted { s with queue := ops } := ⟨h.cproc, h.stack⟩
    exact h₁.exec hx hA
  | @direct _ op _ _ _ _ hx =>
    have h₁ : Greeted (s.emit (.accept op)) := h.congr (List.suffix_cons _ _) rfl rfl
    exact h₁.exec hx hA
  | handOverDirect j _ _ _ hx =>
    have h₁ : Greeted ((s.addJob j).emit (.accept (.xfer s.njob))) :=
      h.congr ⟨[_, _], rfl⟩ rfl rfl
    exact h₁.exec hx hA
  | resume hs hst =>
    have hwaits : s.cproc ≠ none := fun hp => by simp [h.stack hp] at hs
    refine ⟨fun hmem => absurd (h.cproc (none_mem_due_of_suffix hgrow hmem)) hwaits, fun hp => ?_⟩
    exact absurd (hst.cproc_eq_none hp) hwaits
  | chunk b _ _ hc =>
    refine h.congr hgrow ?_ hc.stack_eq
    cases hc <;> rfl
  | dataEof _ _ he =>
    refine h.congr hgrow ?_ he.stack_eq
    cases he <;> rfl
  | _ => exact h.congr hgrow rfl rfl

end Greeted

/-! ### Steps -/

/-- **One step**: as long as what is counted is owed, the books are right. -/
theorem Step.ledger (hstep : Step s s') (hk : Known s) (h : Ledger 0 s) (hg : Greeted s)
    (hA : Always Awaited s'.log) : Ledger 0 s' ∧ Greeted s' := by
  have hgrow := hstep.suffix
  cases hstep with
  | recv | line => exact ⟨h.emit rfl rfl, hg.congr hgrow rfl rfl⟩
  | carry => exact ⟨h.congr rfl rfl rfl rfl, hg.congr hgrow rfl rfl⟩
  | reply code buf _ hctl hr => exact ⟨h.reply hg hr hctl hA, hg.reply h hr⟩
  | hangup => exact ⟨h.close, hg.congr hgrow rfl (stack_close s)⟩
  | act ha => exact ⟨h.act hg hk ha hA, hg.act ha hA⟩

/-- What a step meets while the count is not negative. -/
theorem Step.counted (h : Step s s') (hs : 0 ≤ s.busy) (hG : Always Counted s.log) :
    Always Counted s'.log := by
  have hinner : ∀ h e, Event.inner e = true → Counted h e := by
    intro h e he
    cases e <;> first | exact trivial | cases he
  rcases h.extends with h | ⟨e, he, h⟩
  · exact h.always hinner hG
  · refine h.always hinner (always_meet (fun _ _ => ⟨trivial, trivial⟩) ?_ hG)
    cases e with
    | reply code p busy buf => exact he.2.2 ▸ hs
    | dataEof p busy => exact he.2.2.2 ▸ hs
    | assertFailed => exact absurd he (not_lt.mpr hs)
    | _ => trivial

theorem Ledger.busy_nonneg (h : Ledger 0 s) : 0 ≤ s.busy := by
  have hle := h.owing_le
  have hpos := owing_nonneg s.log
  omega

end Session

/-- **The assertion of `ftp_handle`.** In every run in which whatever is counted is owed, `busy` is
what is outstanding while the connection is open, it is never negative, and the assertion holds. -/
theorem busy_nonneg_run {α : Type} (ctl : Fd) (user pass : Option Bytes) (app : α)
    (inputs : List (Env × Input α))
    (h : Always Awaited ((World.connected ctl user pass app).run inputs).log) :
    let w := (World.connected ctl user pass app).run inputs
    (w.ftp.ctl ≠ none → w.ftp.busy = owing w.log) ∧ 0 ≤ w.ftp.busy ∧ Always Counted w.log := by
  obtain ⟨⟨-, hl, -⟩, hcounted⟩ := run_assume_guarantee
    (I := fun s => Known s ∧ Ledger 0 s ∧ Greeted s)
    (fun _ _ hstep hA hI hG => ⟨⟨hstep.known hI.1, hstep.ledger hI.1 hI.2.1 hI.2.2 hA⟩,
      hstep.counted hI.2.1.busy_nonneg hG⟩)
    ⟨known_connected ctl user pass app,
      ⟨le_rfl, fun _ => rfl, fun hf => by simp [World.view, World.connected] at hf,
        fun _ => ⟨le_rfl, rfl⟩⟩, ⟨fun _ => rfl, fun _ => rfl⟩⟩ inputs h
  refine ⟨fun hctl => ?_, hl.busy_nonneg, hcounted⟩
  exact (hl.busy_eq (view_ctl_of_ne_none hctl)).trans (Int.add_zero _)

/-- A session up to the first listing, the directory is asked for and named, and the connection
times out later. -/
def timeoutRun (notice : Bytes) : World Unit :=
  sessionRun [(Env.quiet, .queue .pwd rfl), (.control (ascii "257 \"/\"\r\n"), .handle 3),
    (.control notice, .handle 3)]

theorem busy_nonneg_run_without_notice :
    let w := timeoutRun (ascii "200-still here\r\n")
    (w.ftp.ctl ≠ none → w.ftp.busy = owing w.log) ∧ 0 ≤ w.ftp.busy ∧ Always Counted w.log :=
  busy_nonneg_run 3 none none () _ (by decide +kernel)

/-- A `421` notice while nothing is outstanding is counted as an answer. -/
theorem assertFailed_of_notice :
    Event.assertFailed ∈ (timeoutRun (ascii "421 Timeout.\r\n")).log ∧
      ¬Always Counted (timeoutRun (ascii "421 Timeout.\r\n")).log := by
  decide +kernel

end Visftp
