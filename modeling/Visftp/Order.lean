import Visftp.Growth

/-!
# The order of operations

An operation is accepted in one of two ways: it is carried out at once, or a node for it is linked
to the queue. Operations leave the queue one by one, also while another one waits for its data
connection. Whatever the nesting, operations are begun in the order in which they are accepted.

## Main definitions

* `accepted`, `begun` — the operations of a history, oldest first
* `Session.InOrder` — the invariant
* `World.Fifo` — what is promised of the queue

## Main results

* `Session.Step.inOrder` — one step
* `fifo_run` — whole runs
-/

namespace Visftp

open CString Histories Session

/-- The operation that an event accepts. -/
def Event.accept? : Event → Option Op
  | .accept op => some op
  | _ => none

/-- The operation that an event begins. -/
def Event.exec? : Event → Option Op
  | .exec op _ _ => some op
  | _ => none

/-- The operations accepted so far, in order. -/
def accepted (h : List Event) : List Op := h.reverse.filterMap Event.accept?

/-- The operations that `exec_op` was called for so far, in order. -/
def begun (h : List Event) : List Op := h.reverse.filterMap Event.exec?

theorem accepted_cons (e : Event) (h : List Event) :
    accepted (e :: h) = accepted h ++ e.accept?.toList := by
  rw [accepted, List.reverse_cons, List.filterMap_append]
  cases he : e.accept? <;> simp [accepted, he]

theorem begun_cons (e : Event) (h : List Event) :
    begun (e :: h) = begun h ++ e.exec?.toList := by
  rw [begun, List.reverse_cons, List.filterMap_append]
  cases he : e.exec? <;> simp [begun, he]

namespace Session

variable {s s' : Session} {op : Op}

/-- What has been begun and what is queued make up what has been accepted. -/
def InOrder (s : Session) : Prop := begun s.log ++ s.queue = accepted s.log

/-! ### Actions -/

theorem InOrder.congr (h : InOrder s) (hl : s'.log = s.log) (hq : s'.queue = s.queue) :
    InOrder s' := by
  rw [InOrder, hl, hq]
  exact h

/-- An event that neither accepts nor begins an operation. -/
theorem InOrder.emit {e : Event} (h : InOrder s) (ha : e.accept? = none) (he : e.exec? = none) :
    InOrder (s.emit e) := by
  rw [InOrder, Session.emit, accepted_cons, begun_cons, ha, he]
  simpa [InOrder] using h

theorem InOrder.send (h : InOrder s) (c : Cmd) : InOrder (s.send c) := by
  cases hc : s.ctl with
  | true =>
    exact (h.emit (e := .sent c) rfl rfl).congr (by simp [Session.send, Session.emit, hc]) rfl
  | false => exact h.congr (by simp [Session.send, hc]) rfl

theorem InOrder.hook (h : InOrder s) (p : CProc) : InOrder (s.hook p) :=
  (h.emit (e := .hook p) rfl rfl).congr rfl rfl

theorem InOrder.close (h : InOrder s) : InOrder s.close := by
  cases hc : s.ctl with
  | true =>
    exact (h.emit (e := .hangup) rfl rfl).congr (by simp [Session.close, Session.emit, hc]) rfl
  | false => exact h.congr (by simp [Session.close, hc]) rfl

theorem InOrder.finish (h : InOrder s) : InOrder s.finish := h.congr rfl rfl

theorem InOrder.active (h : InOrder s) (sa : Option (ℕ × ℕ)) : InOrder (s.active sa) := by
  have h₁ : InOrder { s with data := false } := h.congr rfl rfl
  rcases sa with - | ⟨a, p⟩
  exacts [h₁, (h₁.send _).hook _]

theorem InOrder.simple (h : InOrder s) (op : Op) : InOrder (s.simple op) := by
  cases op with
  | type arg =>
    rw [Session.simple]
    split
    exacts [h, h.send _]
  | pwd | chdir | cdup => exact (h.send _).hook _
  | _ => exact h

theorem InOrder.start (h : InOrder s) (hs : Start op s s') : InOrder s' := by
  cases hs with
  | none => exact h
  | noBuffer => exact h.emit rfl rfl
  | list =>
    have h₁ : InOrder { s with bufs := Function.update s.bufs s.nbuf [], nbuf := s.nbuf + 1 } :=
      h.congr rfl rfl
    exact ((h₁.send (.list s.nbuf)).hook (.list s.nbuf)).congr rfl rfl
  | @transfer t =>
    rw [startTransfer]
    split
    · exact ((h.send _).hook (.xfer t)).congr rfl rfl
    · exact h

/-- `exec_op` of an operation that has just been entered. -/
theorem InOrder.exec (h : InOrder (s.enter op)) (hs : Exec op s s') : InOrder s' := by
  cases hs with
  | simple => exact (h.simple op).emit rfl rfl
  | atOnce hop hd hs => exact (h.start hs).emit rfl rfl
  | noData sa => exact (h.active sa).emit rfl rfl
  | wait =>
    have h₁ : InOrder { s.enter op with data := false } := h.congr rfl rfl
    exact (h₁.send .pasv).hook .pasv

/-- An operation that is accepted while nothing is queued is the next one to be begun. -/
theorem InOrder.direct (h : InOrder s) (hq : s.queue = []) :
    InOrder ((s.emit (.accept op)).enter op) := by
  have h' : begun s.log = accepted s.log := by
    rw [InOrder, hq, List.append_nil] at h
    exact h
  change begun (.exec op s.data s.passive :: .accept op :: s.log) ++ s.queue =
    accepted (.exec op s.data s.passive :: .accept op :: s.log)
  simp [begun_cons, accepted_cons, Event.accept?, Event.exec?, h', hq]

/-- The first queued operation is the next one to be begun. -/
theorem InOrder.next {ops : List Op} (h : InOrder s) (hq : s.queue = op :: ops) :
    InOrder ({ s with queue := ops }.enter op) := by
  rw [InOrder, hq] at h
  change begun (.exec op s.data s.passive :: s.log) ++ ops =
    accepted (.exec op s.data s.passive :: s.log)
  rw [begun_cons, accepted_cons]
  simpa [Event.accept?, Event.exec?] using h

theorem InOrder.enqueue (h : InOrder s) (op : Op) : InOrder (s.enqueue op) := by
  change begun (.accept op :: s.log) ++ (s.queue ++ [op]) = accepted (.accept op :: s.log)
  rw [begun_cons, accepted_cons, ← h]
  simp [Event.accept?, Event.exec?]

theorem InOrder.queueOp (h : InOrder s) (hs : Queue op s s') : InOrder s' := by
  cases hs with
  | direct hb hq hop => exact ((h.direct hq).simple op).emit rfl rfl
  | append => exact h.enqueue op
  | full => exact h.emit rfl rfl

theorem InOrder.addJob (h : InOrder s) (j : Job) : InOrder (s.addJob j) :=
  (h.emit (e := .made s.njob (j.fresh s.njob)) rfl rfl).congr rfl rfl

/-! ### Steps -/

theorem InOrder.reply {code : Int} {buf : Bytes} (h : InOrder s) (hr : Reply code buf s s') :
    InOrder s' := by
  have hg : InOrder (s.got code buf) := h.emit rfl rfl
  have hlogin : InOrder { s.got code buf with busy := 0 } := hg.congr rfl rfl
  cases hr with
  | activeOk | pwd | cwdFail | listEnd | xferEnd => exact hg.finish
  | listMore | xferMore => exact hg
  | activeFail => exact hg.close.finish
  | pasvOpen =>
    have h₁ : InOrder { s.got code buf with data := true } := hg.congr rfl rfl
    exact (h₁.emit rfl rfl).finish
  | pasvFall sa =>
    have h₁ : InOrder { s.got code buf with passive := false } := hg.congr rfl rfl
    exact (h₁.active sa).finish
  | cwdOk _ _ h₁ h₂ => exact ((hg.queueOp h₁).queueOp h₂).finish
  | xferTotal => exact hg.emit rfl rfl
  | xferFail => exact ((hg.emit rfl rfl).emit rfl rfl).finish
  | loginUser | loginPass => exact hlogin.send _
  | loginDone _ _ h₁ h₂ h₃ => exact ((hlogin.queueOp h₁).queueOp h₂).queueOp h₃
  | loginOther => exact hlogin

theorem InOrder.chunk {b : Bytes} (h : InOrder s) (hc : Chunk b s s') : InOrder s' := by
  have hstore : ∀ s₁ : Session, s₁.log = s.log → s₁.queue = s.queue →
      InOrder (s₁.emit (.chunk b s.dproc)) := fun s₁ hl hq => (h.congr hl hq).emit rfl rfl
  cases hc with
  | none hp => exact hp ▸ hstore s rfl rfl
  | listFull hp => exact ((hp ▸ hstore s rfl rfl).emit rfl rfl).emit rfl rfl
  | @list r hp => exact hp ▸ hstore (s.storeBuf r b) rfl rfl
  | @file t f hp => exact (hp ▸ hstore (s.storeFile f b) rfl rfl).emit rfl rfl
  | @mem t hp => exact (hp ▸ hstore (s.storeMem t b) rfl rfl).emit rfl rfl
  | @stor t hp => exact (hp ▸ hstore s rfl rfl).emit rfl rfl

theorem InOrder.dataEof (h : InOrder s) (hd : DataEof s s') : InOrder s' := by
  cases hd with
  | none hp => exact (h.emit (e := .dataEof none s.busy) rfl rfl).congr rfl rfl
  | @list r tail junk hp =>
    exact (h.emit (e := .dataEof (some (.list r)) s.busy) rfl rfl).congr rfl rfl
  | @xfer t hp ho =>
    have h₀ : InOrder (s.closeFile t) := h.congr rfl rfl
    have h₁ : InOrder ((s.closeFile t).emit (.dataEof (some (.xfer t)) s.busy)) := h₀.emit rfl rfl
    have h₂ := (h₁.emit (e := .touch t) rfl rfl).emit (e := .done t) rfl rfl
    exact h₂.finish.congr rfl rfl
  | @stor t hp ho =>
    have h₁ := h.emit (e := .dataEof (some (.xfer t)) s.busy) rfl rfl
    exact (h₁.emit (e := .touch t) rfl rfl).congr rfl rfl

theorem Act.inOrder (h : Act s s') (hs : InOrder s) : InOrder s' := by
  cases h with
  | badSelect => exact hs.emit rfl rfl
  | assert => exact (hs.emit (e := .assertFailed) rfl rfl).congr rfl rfl
  | next hb hq h => exact (hs.next hq).exec h
  | resume _ h => exact ((hs.emit rfl rfl).start h).emit rfl rfl
  | append => exact hs.enqueue _
  | direct _ _ hb hq h => exact (hs.direct hq).exec h
  | refuse => exact hs.emit rfl rfl
  | newJob j => exact (hs.addJob j).emit rfl rfl
  | handOver j => exact (hs.addJob j).enqueue _
  | handOverDirect j _ hb hq h => exact ((hs.addJob j).direct hq).exec h
  | chunk b _ _ h => exact hs.chunk h
  | dataEof _ _ h => exact hs.dataEof h
  | incoming =>
    have h₁ : InOrder { s with data := true } := hs.congr rfl rfl
    exact (h₁.emit rfl rfl).emit rfl rfl

/-- **One step** keeps the order. -/
theorem Step.inOrder (h : Step s s') (hs : InOrder s) : InOrder s' := by
  cases h with
  | recv b => exact hs.emit rfl rfl
  | line buf => exact hs.emit rfl rfl
  | carry c => exact hs.congr rfl rfl
  | reply _ _ _ _ hr => exact hs.reply hr
  | hangup => exact hs.close
  | act h => exact h.inOrder hs

theorem InOrder.steps (hs : InOrder s) (h : Relation.ReflTransGen Step s s') : InOrder s' := by
  induction h with
  | refl => exact hs
  | tail _ hstep ih => exact hstep.inOrder ih

end Session

/-- The invariant in every state of a run. -/
theorem inOrder_run {α : Type} (ctl : Fd) (user pass : Option Bytes) (app : α)
    (inputs : List (Env × Input α)) :
    ((World.connected ctl user pass app).run inputs).view.InOrder :=
  run_invariant (A := fun _ _ => True) (fun _ _ h _ hs => h.inOrder hs) rfl inputs
    (always_of_forall (fun _ _ => trivial) _)

/-- The queue of operations: as the history has it, and as the pointers have it. -/
structure World.Fifo {α : Type} (w : World α) : Prop where
  /-- What `exec_op` was called for and what is queued make up what was accepted. -/
  order : begun w.log ++ w.ftp.queue.toList = accepted w.log
  /-- `qhead` and `qtail` are null together. -/
  null : w.ftp.queue.head = none ↔ w.ftp.queue.tail = none
  /-- The nodes from `qhead` on. -/
  path : LinkedFifo.IsPath w.ftp.queue.cells w.ftp.queue.head w.ftp.queue.path
  /-- The last of them is `qtail`. -/
  last : w.ftp.queue.tail = w.ftp.queue.path.getLast?

/-- **The queue is first-in first-out.** In every run, the operations that `exec_op` was called for,
followed by the queued ones from `qhead` on, are the accepted operations in the order of their
acceptance. The queue is the list of nodes from `qhead` on, which ends at `qtail`; both pointers are
null together. -/
theorem fifo_run {α : Type} (ctl : Fd) (user pass : Option Bytes) (app : α)
    (inputs : List (Env × Input α)) : ((World.connected ctl user pass app).run inputs).Fifo where
  order := inOrder_run ctl user pass app inputs
  null := LinkedFifo.head_eq_none_iff_tail _
  path := LinkedFifo.isPath _
  last := LinkedFifo.tail_eq _

end Visftp
