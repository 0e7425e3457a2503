import Visftp.Growth

/-!
# Transfers that the client knows

A transfer is made by the application, waits in the queue, is begun, and is then the argument of
the two handlers. Wherever the client holds its address, the transfer has been made, and where a
handler holds it, it is one that fetches a file: `ftp_transfer` does nothing for any other. And it
is begun once: it waits in one place only, and no longer when the data handler is installed for it.

## Main definitions

* `Session.Known` — every transfer that the client holds has been made
* `Session.Once` — every transfer is begun once

## Main results

* `Session.Step.known`, `Session.Step.once` — every step keeps them
-/

namespace Visftp

open CString Histories

namespace Session

variable {s s' : Session} {op : Op}

/-- If the operation is a transfer, it has been made. -/
def Knows (s : Session) (op : Op) : Prop := ∀ t, op.transfer? = some t → t < s.njob

/-- The transfer has been made, and it fetches a file. -/
def Fetches (s : Session) (t : ℕ) : Prop := t < s.njob ∧ (s.jobs t).op = .retr

/-- **Every transfer that the client holds has been made.** -/
structure Known (s : Session) : Prop where
  queue : ∀ op ∈ s.queue, s.Knows op
  stack : ∀ op ∈ stack s.log, s.Knows op
  cproc : ∀ t, s.cproc = some (.xfer t) → s.Fetches t
  dproc : ∀ t, s.dproc = some (.xfer t) → s.Fetches t

/-- `s'` has the transfers of `s`, and perhaps more. -/
structure Inherits (s s' : Session) : Prop where
  njob : s.njob ≤ s'.njob
  op : ∀ t < s.njob, (s'.jobs t).op = (s.jobs t).op

theorem Inherits.of_eq (hj : s'.jobs = s.jobs) (hn : s'.njob = s.njob) : Inherits s s' :=
  ⟨hn.ge, fun _ _ => by rw [hj]⟩

theorem Inherits.knows (h : Inherits s s') (hk : s.Knows op) : s'.Knows op :=
  fun t ht => (hk t ht).trans_le h.njob

theorem Inherits.fetches {t : ℕ} (h : Inherits s s') (hf : s.Fetches t) : s'.Fetches t :=
  ⟨hf.1.trans_le h.njob, (h.op t hf.1).trans hf.2⟩

theorem knows_of_transfer? (h : op.transfer? = none) (s : Session) : s.Knows op :=
  fun t ht => by simp [h] at ht

/-- The general step: nothing new in the four places, or no transfer. -/
theorem Known.congr (h : Known s) (hi : Inherits s s')
    (hq : ∀ op ∈ s'.queue, op ∈ s.queue ∨ op.transfer? = none)
    (hst : ∀ op ∈ Visftp.stack s'.log, op ∈ Visftp.stack s.log ∨ op.transfer? = none)
    (hc : s'.cproc = s.cproc ∨ ∀ t, s'.cproc ≠ some (.xfer t))
    (hd : s'.dproc = s.dproc ∨ ∀ t, s'.dproc ≠ some (.xfer t)) : Known s' where
  queue op hop := (hq op hop).elim (fun hop => hi.knows (h.queue op hop)) (knows_of_transfer? · s')
  stack op hop := (hst op hop).elim (fun hop => hi.knows (h.stack op hop)) (knows_of_transfer? · s')
  cproc t ht := hc.elim (fun hc => hi.fetches (h.cproc t (hc ▸ ht))) fun hc => absurd ht (hc t)
  dproc t ht := hd.elim (fun hd => hi.fetches (h.dproc t (hd ▸ ht))) fun hd => absurd ht (hd t)

/-- The usual step: the queue, the handlers and the operations under way stay as they are. -/
theorem Known.of_eq (h : Known s) (hi : Inherits s s') (hq : s'.queue = s.queue)
    (hst : Visftp.stack s'.log = Visftp.stack s.log) (hc : s'.cproc = s.cproc)
    (hd : s'.dproc = s.dproc) : Known s' :=
  h.congr hi (fun _ hop => .inl (hq ▸ hop)) (fun _ hop => .inl (hst ▸ hop)) (.inl hc) (.inl hd)

/-! ### Actions -/

theorem Known.send (h : Known s) (c : Cmd) : Known (s.send c) :=
  h.of_eq (.of_eq rfl rfl) rfl (stack_send s c) rfl rfl

theorem Known.hook (h : Known s) {p : CProc} (hp : ∀ t, p = .xfer t → s.Fetches t) :
    Known (s.hook p) where
  queue := h.queue
  stack := h.stack
  cproc t ht := hp t (Option.some.inj ht)
  dproc := h.dproc

theorem Known.close (h : Known s) : Known s.close :=
  h.of_eq (.of_eq rfl rfl) rfl (stack_close s) rfl rfl

theorem Known.finish (h : Known s) : Known s.finish :=
  h.of_eq (.of_eq rfl rfl) rfl rfl rfl rfl

theorem Known.dropData (h : Known s) (d : Bool) : Known { s with data := d } :=
  h.of_eq (.of_eq rfl rfl) rfl rfl rfl rfl

theorem Known.active (h : Known s) (sa : Option (ℕ × ℕ)) : Known (s.active sa) := by
  rcases sa with - | ⟨a, p⟩
  · exact h.dropData false
  · exact ((h.dropData false).send _).hook (by simp)

theorem Known.emit (h : Known s) {e : Event} (he : Visftp.stack (e :: s.log) = Visftp.stack s.log) :
    Known (s.emit e) :=
  h.of_eq (.of_eq rfl rfl) rfl he rfl rfl

theorem Known.ret (h : Known s) : Known (s.emit .ret) where
  queue := h.queue
  stack op hop := h.stack op (List.mem_of_mem_tail hop)
  cproc := h.cproc
  dproc := h.dproc

theorem Known.enter (h : Known s) (hop : s.Knows op) : Known (s.enter op) where
  queue := h.queue
  stack op' hop' := by
    rcases List.mem_cons.mp hop' with rfl | hop'
    exacts [hop, h.stack op' hop']
  cproc := h.cproc
  dproc := h.dproc

theorem Known.simple (h : Known s) (op : Op) : Known (s.simple op) := by
  cases op with
  | type arg =>
    unfold Session.simple
    dsimp only
    split
    · exact h
    · exact h.send _
  | pwd | chdir | cdup => exact (h.send _).hook (by simp)
  | _ => exact h

theorem Known.execSimple (h : Known s) (hop : s.Knows op) : Known (s.execSimple op) :=
  ((h.enter hop).simple op).ret

theorem Known.start (h : Known s) (hop : s.Knows op) (hs : Start op s s') : Known s' := by
  cases hs with
  | none => exact h
  | noBuffer => exact h.emit rfl
  | list hd =>
    rw [startList]
    set s₁ : Session := { s with bufs := Function.update s.bufs s.nbuf [], nbuf := s.nbuf + 1 }
    have h₁ : Known s₁ := h.of_eq (.of_eq rfl rfl) rfl rfl rfl rfl
    have h₂ : Known ((s₁.send (.list s.nbuf)).hook (.list s.nbuf)) := (h₁.send _).hook (by simp)
    exact h₂.congr (.of_eq rfl rfl) (fun _ => .inl) (fun _ => .inl) (.inl rfl) (.inr (by simp))
  | @transfer t _ hd =>
    rw [startTransfer]
    split
    · next ho =>
      have hf : s.Fetches t := ⟨hop t rfl, ho⟩
      set s₁ := s.send (.retr t (s.jobs t).rname) with hs₁
      have h₁ : Known (s₁.hook (.xfer t)) := by
        refine (h.send _).hook fun u hu => ?_
        obtain rfl : t = u := CProc.xfer.inj hu
        exact hf
      exact ⟨h₁.queue, h₁.stack, h₁.cproc, fun u hu => by
        obtain rfl : t = u := DProc.xfer.inj (Option.some.inj hu)
        exact hf⟩
    · exact h

theorem Known.exec (h : Known s) (hop : s.Knows op) (hs : Exec op s s') : Known s' := by
  cases hs with
  | simple => exact h.execSimple hop
  | atOnce _ _ hs => exact ((h.enter hop).start hop hs).ret
  | noData sa => exact ((h.enter hop).active sa).ret
  | wait => exact (((h.enter hop).dropData false).send _).hook (by simp)

theorem Known.enqueue (h : Known s) (hop : s.Knows op) : Known (s.enqueue op) where
  queue op' hop' := by
    rcases List.mem_append.mp hop' with hop' | hop'
    · exact h.queue op' hop'
    · exact List.mem_singleton.mp hop' ▸ hop
  stack := h.stack
  cproc := h.cproc
  dproc := h.dproc

theorem Known.queueOp (h : Known s) (hop : op.transfer? = Option.none) (hs : Queue op s s') :
    Known s' := by
  have hk := knows_of_transfer? hop s
  cases hs with
  | direct => exact (h.emit (e := .accept op) rfl).execSimple hk
  | append => exact h.enqueue hk
  | full => exact h.emit rfl

/-- A new transfer is known. -/
theorem Known.addJob (h : Known s) (j : Job) :
    Known (s.addJob j) ∧ (s.addJob j).Knows (.xfer s.njob) := by
  have hi : Inherits s (s.addJob j) :=
    ⟨Nat.le_succ _, fun t ht => congrArg Job.op (Function.update_of_ne ht.ne _ _)⟩
  refine ⟨h.of_eq hi rfl rfl rfl rfl, fun t ht => ?_⟩
  obtain rfl : s.njob = t := Option.some.inj ht
  exact Nat.lt_succ_self _

/-- Writing to a transfer does not change what it is. -/
theorem Known.setJob (h : Known s) (t : ℕ) {j : Job} (hj : j.op = (s.jobs t).op) :
    Known (s.setJob t j) := by
  refine h.of_eq ⟨le_rfl, fun u _ => ?_⟩ rfl rfl rfl rfl
  by_cases hu : u = t
  · subst hu
    simp [Session.setJob, hj]
  · simp [Session.setJob, hu]

/-! ### Steps -/

theorem Known.got (h : Known s) (code : Int) (buf : Bytes) : Known (s.got code buf) := h.emit rfl

theorem Known.reply {code : Int} {buf : Bytes} (h : Known s) (hr : Reply code buf s s') :
    Known s' := by
  have hg := h.got code buf
  have hset : ∀ b p, Known { s.got code buf with busy := b, passive := p } := fun _ _ =>
    hg.of_eq (.of_eq rfl rfl) rfl rfl rfl rfl
  cases hr with
  | activeOk | pwd | cwdFail | listEnd | xferEnd => exact hg.finish
  | activeFail => exact hg.close.finish
  | pasvOpen => exact ((hg.dropData true).emit (e := .opened) rfl).finish
  | pasvFall sa => exact ((hset s.busy false).active sa).finish
  | cwdOk _ _ h₁ h₂ => exact ((hg.queueOp rfl h₁).queueOp rfl h₂).finish
  | listMore | xferMore => exact hg
  | xferTotal => exact hg.emit rfl
  | @xferFail t => exact ((hg.emit (e := .touch t) rfl).emit (e := .done t) rfl).finish
  | loginUser | loginPass => exact (hset 0 s.passive).send _
  | loginDone _ _ h₁ h₂ h₃ =>
    exact (((hset 0 s.passive).queueOp rfl h₁).queueOp rfl h₂).queueOp rfl h₃
  | loginOther => exact hset 0 s.passive

theorem Known.chunk {b : Bytes} (h : Known s) (hc : Chunk b s s') : Known s' := by
  cases hc with
  | none => exact h.emit rfl
  | @listFull r => exact ((h.emit (e := .chunk b (some (.list r))) rfl).emit rfl).emit rfl
  | @list r =>
    have h₁ : Known (s.storeBuf r b) := h.of_eq (.of_eq rfl rfl) rfl rfl rfl rfl
    exact h₁.emit rfl
  | @file t f =>
    have h₁ : Known (s.storeFile f b) := h.of_eq (.of_eq rfl rfl) rfl rfl rfl rfl
    exact (h₁.emit (e := .chunk b (some (.xfer t))) rfl).emit rfl
  | @mem t =>
    have h₁ : Known (s.storeMem t b) := h.setJob t rfl
    exact (h₁.emit (e := .chunk b (some (.xfer t))) rfl).emit rfl
  | @stor t => exact (h.emit (e := .chunk b (some (.xfer t))) rfl).emit rfl

theorem Known.dataEof (h : Known s) (he : DataEof s s') : Known s' := by
  cases he with
  | none => exact (h.emit (e := .dataEof Option.none s.busy) rfl).dropData false
  | @list r tail junk =>
    have h₁ := (h.emit (e := .dataEof (some (.list r)) s.busy) rfl).finish
    exact h₁.congr (.of_eq rfl rfl) (fun _ => .inl) (fun _ => .inl) (.inl rfl) (.inr (by simp))
  | @xfer t =>
    have h₁ : Known (s.closeFile t) := h.setJob t rfl
    have h₂ := h₁.emit (e := .dataEof (some (.xfer t)) s.busy) rfl
    exact ((h₂.emit (e := .touch t) rfl).emit (e := .done t) rfl).finish.dropData false
  | @stor t =>
    have h₁ := h.emit (e := .dataEof (some (.xfer t)) s.busy) rfl
    exact (h₁.emit (e := .touch t) rfl).dropData false

theorem Act.known (ha : Act s s') (h : Known s) : Known s' := by
  cases ha with
  | badSelect => exact h.emit rfl
  | assert =>
    have h₁ : Known { s with busy := 0 } := h.of_eq (.of_eq rfl rfl) rfl rfl rfl rfl
    exact h₁.emit rfl
  | @next _ op ops hb hq hx =>
    have hops : ∀ op' ∈ ops, op' ∈ s.queue := fun op' hop' => hq ▸ List.mem_cons_of_mem op hop'
    have h₁ : Known { s with queue := ops } :=
      h.congr (.of_eq rfl rfl) (fun op' hop' => .inl (hops op' hop')) (fun _ => .inl) (.inl rfl)
        (.inl rfl)
    exact h₁.exec (h.queue op (hq ▸ List.mem_cons_self)) hx
  | resume hs hst =>
    have hop := h.stack _ (hs ▸ List.mem_cons_self)
    exact ((h.emit (e := .wake s.data) rfl).start hop hst).ret
  | append _ hop => exact h.enqueue (knows_of_transfer? hop s)
  | @direct _ op _ hop _ _ hx =>
    exact (h.emit (e := .accept op) rfl).exec (knows_of_transfer? hop s) hx
  | refuse => exact h.emit rfl
  | newJob j => exact (h.addJob j).1.emit rfl
  | handOver j => exact (h.addJob j).1.enqueue (h.addJob j).2
  | handOverDirect j _ _ _ hx =>
    exact ((h.addJob j).1.emit (e := .accept (.xfer s.njob)) rfl).exec (h.addJob j).2 hx
  | chunk b _ _ hc => exact h.chunk hc
  | dataEof _ _ he => exact h.dataEof he
  | incoming => exact ((h.dropData true).emit (e := .incoming) rfl).emit (e := .opened) rfl

theorem Step.known (hstep : Step s s') (h : Known s) : Known s' := by
  cases hstep with
  | recv b => exact h.emit rfl
  | line buf => exact h.emit rfl
  | carry c => exact h.of_eq (.of_eq rfl rfl) rfl rfl rfl rfl
  | reply code buf _ _ hr => exact h.reply hr
  | hangup => exact h.close
  | act ha => exact ha.known h

theorem known_connected {α : Type} (ctl : Fd) (user pass : Option Bytes) (app : α) :
    Known (World.connected ctl user pass app).view :=
  ⟨fun op hop => by simp [World.view, World.connected] at hop,
    fun op hop => by simp [World.view, World.connected, Visftp.stack] at hop,
    fun t ht => by simp [World.view, World.connected] at ht,
    fun t ht => by simp [World.view, World.connected] at ht⟩

/-! ### Every transfer is begun once -/

/-- The transfers that have not been begun, or wait for their data connection. -/
def pending (s : Session) : List ℕ := (s.queue ++ Visftp.stack s.log).filterMap Op.transfer?

/-- **A transfer waits in one place**, and not while the data handler is installed for it. -/
structure Once (s : Session) : Prop where
  nodup : (pending s).Nodup
  dproc : ∀ t, s.dproc = some (.xfer t) → t ∉ pending s

theorem Known.lt_of_mem_pending (h : Known s) {t : ℕ} (ht : t ∈ pending s) : t < s.njob := by
  obtain ⟨op, hop, hop'⟩ := List.mem_filterMap.mp ht
  rcases List.mem_append.mp hop with hop | hop
  exacts [h.queue op hop t hop', h.stack op hop t hop']

theorem pending_of_eq (hq : s'.queue = s.queue)
    (hst : Visftp.stack s'.log = Visftp.stack s.log) : pending s' = pending s := by
  rw [pending, pending, hq, hst]

theorem Once.of_subset (h : Once s) (hn : (pending s').Nodup) (hs : pending s' ⊆ pending s)
    (hd : ∀ t, s'.dproc = some (.xfer t) → s.dproc = some (.xfer t)) : Once s' :=
  ⟨hn, fun t ht hmem => h.dproc t (hd t ht) (hs hmem)⟩

theorem Once.of_eq (h : Once s) (hp : pending s' = pending s)
    (hd : ∀ t, s'.dproc = some (.xfer t) → s.dproc = some (.xfer t)) : Once s' :=
  h.of_subset (hp ▸ h.nodup) (fun _ ht => hp ▸ ht) hd

theorem pending_ret_subset (s : Session) : (pending (s.emit .ret)).Sublist (pending s) :=
  ((List.Sublist.refl _).append (List.tail_sublist _)).filterMap _

theorem Once.ret (h : Once s) : Once (s.emit .ret) :=
  have hsub := pending_ret_subset s
  h.of_subset (hsub.nodup h.nodup) hsub.subset fun _ => id

/-- The transfer that returns from its wait does not wait any more. -/
theorem Once.startRet (h : Once s) {ops : List Op} (hst : Visftp.stack s.log = op :: ops)
    (hs : Start op s s') : Once (s'.emit .ret) := by
  have hqueue : s'.queue = s.queue := by
    cases hs with
    | none | noBuffer | list => rfl
    | transfer =>
      rw [startTransfer]
      split <;> rfl
  have hp' : pending s' = pending s := pending_of_eq hqueue hs.stack_eq
  cases hs with
  | none => exact h.ret
  | noBuffer =>
    have h₁ : Once (s.emit .outOfMemory) := h.of_eq hp' fun _ => id
    exact h₁.ret
  | list => exact (h.of_eq hp' (by simp [Session.startList])).ret
  | @transfer t =>
    have hperm : (pending s).Perm (t :: pending (s.emit .ret)) := by
      have htail : pending (s.emit .ret) = (s.queue ++ ops).filterMap Op.transfer? := by
        simp [pending, Session.emit, Visftp.stack, hst]
      rw [htail, pending, hst]
      exact List.perm_middle.filterMap _
    have hret : pending ((s.startTransfer t).emit .ret) = pending (s.emit .ret) := by
      refine pending_of_eq hqueue ?_
      simp only [Session.emit, Visftp.stack, stack_startTransfer]
    have hnodup := List.nodup_cons.mp (hperm.nodup h.nodup)
    refine ⟨hret ▸ hnodup.2, fun u hu => ?_⟩
    rw [hret]
    rw [Session.startTransfer] at hu
    split at hu
    · obtain rfl : t = u := DProc.xfer.inj (Option.some.inj hu)
      exact hnodup.1
    · exact fun hmem => h.dproc u hu (hperm.symm.subset (List.mem_cons_of_mem t hmem))

/-- `exec_op`, from the state in which the operation has just been entered. -/
theorem Once.exec (h : Once (s.enter op)) (hs : Exec op s s') : Once s' := by
  have hsame : ∀ {s₁ : Session}, s₁.queue = s.queue →
      Visftp.stack s₁.log = op :: Visftp.stack s.log →
      (∀ t, s₁.dproc = some (.xfer t) → s.dproc = some (.xfer t)) → Once s₁ :=
    fun hq hst hd => h.of_eq (pending_of_eq hq hst) hd
  cases hs with
  | simple =>
    refine Once.ret (hsame ?_ (stack_simple (s.enter op) op) ?_)
    all_goals cases op with
      | type arg =>
        unfold Session.simple
        dsimp only
        split <;> first | rfl | exact fun _ => id
      | _ => first | rfl | exact fun _ => id
  | atOnce _ _ hst => exact h.startRet rfl hst
  | noData sa =>
    refine Once.ret (hsame ?_ (stack_active (s.enter op) sa) ?_)
    · rcases sa with - | ⟨a, p⟩ <;> rfl
    · rcases sa with - | ⟨a, p⟩ <;> exact fun _ => id
  | wait => exact hsame rfl (stack_askPasv (s.enter op)) fun _ => id

theorem pending_enqueue (hop : op.transfer? = Option.none) (s : Session) :
    pending (s.enqueue op) = pending s := by
  simp [pending, Session.enqueue, Session.emit, Visftp.stack, hop]

theorem pending_enter (hop : op.transfer? = Option.none) (s : Session) :
    pending (s.enter op) = pending s := by
  simp [pending, Session.enter, Session.emit, Visftp.stack, hop]

/-- An operation that is no transfer, whatever else it does. -/
theorem Once.queueOp (h : Once s) (hop : op.transfer? = Option.none) (hs : Queue op s s') :
    Once s' := by
  cases hs with
  | direct _ _ hn =>
    have h₁ : Once ((s.emit (.accept op)).enter op) :=
      h.of_eq ((pending_enter hop _).trans (pending_of_eq rfl rfl)) fun _ => id
    exact h₁.exec (.simple hn)
  | append => exact h.of_eq (pending_enqueue hop s) fun _ => id
  | full => exact h.of_eq (pending_of_eq rfl rfl) fun _ => id

/-- A transfer that has just been made waits in one place. -/
theorem Once.addJob (h : Once s) (hk : Known s)
    (hq : (pending s').Perm (s.njob :: pending s)) (hd : s'.dproc = s.dproc) : Once s' := by
  have hnew : s.njob ∉ pending s := fun hmem => lt_irrefl _ (hk.lt_of_mem_pending hmem)
  refine ⟨hq.nodup_iff.mpr (List.nodup_cons.mpr ⟨hnew, h.nodup⟩), fun t ht hmem => ?_⟩
  rw [hd] at ht
  rcases List.mem_cons.mp (hq.subset hmem) with rfl | hmem
  exacts [lt_irrefl _ (hk.dproc _ ht).1, h.dproc t ht hmem]

theorem Once.reply {code : Int} {buf : Bytes} (h : Once s) (hr : Reply code buf s s') :
    Once s' := by
  have hg : ∀ b p, Once { s.got code buf with busy := b, passive := p } := fun _ _ =>
    h.of_eq (pending_of_eq rfl rfl) fun _ => id
  cases hr with
  | activeOk | pwd | cwdFail | listEnd | xferEnd | listMore | xferMore =>
    exact (hg s.busy s.passive).of_eq (pending_of_eq rfl rfl) fun _ => id
  | xferTotal | xferFail | pasvOpen =>
    dsimp only [Session.finish, Session.emit]
    exact (hg s.busy s.passive).of_eq (pending_of_eq rfl rfl) fun _ => id
  | activeFail => exact (hg s.busy s.passive).of_eq (pending_of_eq rfl (stack_close _)) fun _ => id
  | pasvFall sa =>
    refine (hg s.busy false).of_eq (pending_of_eq ?_ (stack_active _ sa)) ?_
    · rcases sa with - | ⟨a, p⟩ <;> rfl
    · rcases sa with - | ⟨a, p⟩ <;> exact fun _ => id
  | cwdOk _ _ h₁ h₂ =>
    exact (((hg s.busy s.passive).queueOp rfl h₁).queueOp rfl h₂).of_eq (pending_of_eq rfl rfl)
      fun _ => id
  | loginUser | loginPass =>
    exact (hg 0 s.passive).of_eq (pending_of_eq rfl (stack_send _ _)) fun _ => id
  | loginDone _ _ h₁ h₂ h₃ =>
    exact (((hg 0 s.passive).queueOp rfl h₁).queueOp rfl h₂).queueOp rfl h₃
  | loginOther => exact hg 0 s.passive

theorem Act.once (ha : Act s s') (hk : Known s) (h : Once s) : Once s' := by
  cases ha with
  | badSelect | assert | refuse | newJob | incoming =>
    exact h.of_eq (pending_of_eq rfl rfl) fun _ => id
  | @next _ op ops hb hq hx =>
    -- the operation moves from the queue to the stack
    have hperm : (pending (enter op { s with queue := ops })).Perm (pending s) := by
      rw [pending, pending, hq]
      exact List.perm_middle.filterMap _
    have h₁ : Once (enter op { s with queue := ops }) :=
      h.of_subset (hperm.symm.nodup h.nodup) hperm.subset fun _ => id
    exact h₁.exec hx
  | resume hs hst =>
    have h₁ : Once (s.emit (.wake s.data)) := h.of_eq (pending_of_eq rfl rfl) fun _ => id
    exact h₁.startRet hs hst
  | append _ hop => exact h.of_eq (pending_enqueue hop s) fun _ => id
  | @direct _ op _ hop _ _ hx =>
    have h₁ : Once ((s.emit (.accept op)).enter op) :=
      h.of_eq ((pending_enter hop _).trans (pending_of_eq rfl rfl)) fun _ => id
    exact h₁.exec hx
  | handOver j =>
    refine h.addJob hk ?_ rfl
    have hp : pending ((s.addJob j).enqueue (.xfer s.njob)) =
        (s.queue ++ .xfer s.njob :: Visftp.stack s.log).filterMap Op.transfer? := by
      simp [pending, Session.enqueue, Session.emit, Session.addJob, Visftp.stack]
    rw [hp]
    exact List.perm_middle.filterMap _
  | handOverDirect j _ _ _ hx =>
    set s₁ := (s.addJob j).emit (.accept (.xfer s.njob)) with hs₁
    have hperm : (pending (s₁.enter (.xfer s.njob))).Perm (s.njob :: pending s) :=
      List.perm_middle.filterMap _
    have h₁ : Once (s₁.enter (.xfer s.njob)) := h.addJob hk hperm rfl
    exact h₁.exec hx
  | chunk b _ _ hc =>
    have hq : s'.queue = s.queue ∧ s'.dproc = s.dproc := by
      cases hc <;> dsimp only [emit, storeFile, storeMem, storeBuf, Session.setJob] <;>
        exact ⟨rfl, rfl⟩
    exact h.of_eq (pending_of_eq hq.1 hc.stack_eq) fun t ht => hq.2 ▸ ht
  | dataEof _ _ he =>
    have hq : s'.queue = s.queue ∧ (s'.dproc = s.dproc ∨ s'.dproc = none) := by
      cases he <;> dsimp only [emit, Session.finish, closeFile, Session.setJob] <;> simp
    refine h.of_eq (pending_of_eq hq.1 he.stack_eq) fun t ht => ?_
    rcases hq.2 with hd | hd
    exacts [hd ▸ ht, by simp [hd] at ht]

theorem Step.once (hstep : Step s s') (hk : Known s) (h : Once s) : Once s' := by
  cases hstep with
  | recv | line | carry => exact h.of_eq (pending_of_eq rfl rfl) fun _ => id
  | reply code buf _ _ hr => exact h.reply hr
  | hangup => exact h.of_eq (pending_of_eq rfl (stack_close s)) fun _ => id
  | act ha => exact ha.once hk h

end Session

end Visftp
