import Visftp.Lib.Histories
import Visftp.Moves

/-!
# How the history of a session grows

A step adds events at the front of the history and changes nothing behind them. At most one of them
is a `Trigger`, something that comes from outside and records the state it meets. A trigger for a
transfer has the handler touch it, or complete it (`Session.response`). All other events are
`inner`: commands and handlers, and what becomes of operations.

## Main results

* `Act.extends`, `Reply.extends` — the kinds of step
* `Step.extends`, `Step.suffix` — all steps
* `Extends.always` — properties of the history that inner events have
* `run_assume_guarantee` — the run rule for sessions
-/

namespace Visftp

open Histories

/-- What the client does by itself. -/
def Event.inner : Event → Bool
  | .sent _ | .hook _ | .made .. | .accept _ | .exec .. | .ret | .wake _ | .opened => true
  | .hangup | .outOfMemory | .dropped _ => true
  | _ => false

/-- Events of the control connection. -/
def Event.control : Event → Bool
  | .recv _ | .line _ | .reply .. => true
  | _ => false

namespace Session

variable {s s' s'' : Session} {op : Op}

/-- What a session may meet, and what is recorded of its state. -/
def Trigger (s : Session) : Event → Prop
  | .recv _ | .line _ | .badSelect => True
  | .reply code p busy _ => 0 < code ∧ p = s.cproc ∧ busy = s.busy
  | .assertFailed => s.busy < 0
  | .chunk _ p => stack s.log = [] ∧ s.data = true ∧ p = s.dproc
  | .dataEof p busy => stack s.log = [] ∧ s.data = true ∧ p = s.dproc ∧ busy = s.busy
  | .incoming => stack s.log = [] ∧ s.data = false
  | _ => False

/-- What a handler does to a transfer. -/
def response (s : Session) : Event → List Event
  | .chunk _ (some (.xfer t)) => [.touch t]
  | .dataEof (some (.xfer t)) _ => if (s.jobs t).op = .retr then [.done t, .touch t] else [.touch t]
  | .reply code (some (.xfer t)) _ buf =>
    if 400 ≤ code then [.done t, .touch t]
    else if code = 150 ∧ xferTotal buf ≠ none then [.touch t]
    else []
  | _ => []

/-- The session after something met and the response to it, as far as the history goes. -/
def meet (e : Event) (s : Session) : Session := { s with log := s.response e ++ e :: s.log }

/-- A handler only touches or completes the transfer. -/
theorem eq_of_mem_response {e e' : Event} (h : e' ∈ s.response e) :
    ∃ t, e' = .touch t ∨ e' = .done t := by
  have hboth : ∀ t, e' ∈ [Event.done t, .touch t] → ∃ t, e' = .touch t ∨ e' = .done t := by
    intro t ht
    rcases List.mem_cons.mp ht with rfl | ht
    exacts [⟨t, .inr rfl⟩, ⟨t, .inl (List.mem_singleton.mp ht)⟩]
  unfold response at h
  split at h
  · exact ⟨_, .inl (List.mem_singleton.mp h)⟩
  · split at h
    · exact hboth _ h
    · exact ⟨_, .inl (List.mem_singleton.mp h)⟩
  · split at h
    · exact hboth _ h
    · split at h
      · exact ⟨_, .inl (List.mem_singleton.mp h)⟩
      · simp at h
  · simp at h

theorem control_of_mem_response {e e' : Event} (h : e' ∈ s.response e) : e'.control = false := by
  obtain ⟨t, rfl | rfl⟩ := eq_of_mem_response h <;> rfl

theorem always_meet {P : List Event → Event → Prop} {e : Event}
    (hP : ∀ h t, P h (.touch t) ∧ P h (.done t)) (he : P s.log e) (hs : Always P s.log) :
    Always P (s.meet e).log := by
  refine Always.append (show Always P (e :: s.log) from ⟨he, hs⟩) fun e' he' h => ?_
  obtain ⟨t, rfl | rfl⟩ := eq_of_mem_response he'
  exacts [(hP h t).1, (hP h t).2]

theorem suffix_meet (e : Event) (s : Session) : e :: s.log <:+ (s.meet e).log :=
  List.suffix_append _ _

/-- The history of `s'` is that of `s` with inner events added. -/
def Extends (s s' : Session) : Prop := ∃ new, s'.log = new ++ s.log ∧ ∀ e ∈ new, e.inner = true

theorem Extends.of_log_eq (h : s'.log = s.log) : Extends s s' := ⟨[], h, by simp⟩

theorem Extends.of_cons {e : Event} (h : s'.log = e :: s.log) (he : e.inner = true) :
    Extends s s' := ⟨[e], h, by simpa using he⟩

theorem Extends.trans (h : Extends s s') (h' : Extends s' s'') : Extends s s'' := by
  obtain ⟨new, hlog, hnew⟩ := h
  obtain ⟨new', hlog', hnew'⟩ := h'
  refine ⟨new' ++ new, by rw [hlog', hlog, List.append_assoc], fun e he => ?_⟩
  rcases List.mem_append.mp he with he | he
  exacts [hnew' e he, hnew e he]

theorem Extends.suffix (h : Extends s s') : s.log <:+ s'.log := by
  obtain ⟨new, hlog, -⟩ := h
  exact hlog ▸ List.suffix_append new s.log

theorem Extends.emit {e : Event} (h : Extends s s') (he : e.inner = true) :
    Extends s (s'.emit e) := h.trans (.of_cons rfl he)

theorem Extends.send (h : Extends s s') (c : Cmd) : Extends s (s'.send c) := by
  refine h.trans ?_
  rw [Session.send]
  cases hc : s'.ctl with
  | true => exact .of_cons (e := .sent c) (by simp) rfl
  | false => exact .of_log_eq (by simp)

theorem Extends.hook (h : Extends s s') (p : CProc) : Extends s (s'.hook p) :=
  h.trans (.of_cons (e := .hook p) rfl rfl)

theorem Extends.congr (h : Extends s s') (hlog : s''.log = s'.log) : Extends s s'' :=
  h.trans (.of_log_eq hlog)

theorem Extends.refl (s : Session) : Extends s s := .of_log_eq rfl

theorem Extends.close (h : Extends s s') : Extends s s'.close := by
  refine h.trans ?_
  rw [Session.close]
  cases hc : s'.ctl with
  | true => exact .of_cons (e := .hangup) (by simp) rfl
  | false => exact .of_log_eq (by simp)

theorem Extends.addJob (h : Extends s s') (j : Job) : Extends s (s'.addJob j) :=
  h.trans (.of_cons (e := .made s'.njob (j.fresh s'.njob)) rfl rfl)

theorem Extends.active (h : Extends s s') (sa : Option (ℕ × ℕ)) : Extends s (s'.active sa) := by
  rcases sa with - | ⟨a, p⟩
  · exact h.congr rfl
  · have hd : Extends s { s' with data := false } := h.congr rfl
    exact (hd.send _).hook _

theorem Extends.simple (h : Extends s s') (op : Op) : Extends s (s'.simple op) := by
  cases op with
  | type arg =>
    unfold Session.simple
    dsimp only
    split
    · exact h
    · exact h.send _
  | pwd | chdir | cdup => exact (h.send _).hook _
  | _ => exact h

theorem Extends.execSimple (h : Extends s s') (op : Op) : Extends s (s'.execSimple op) :=
  ((h.emit (e := .exec op s'.data s'.passive) rfl).simple op).emit rfl

theorem Extends.start (h : Extends s s') (hs : Start op s' s'') : Extends s s'' := by
  cases hs with
  | none => exact h
  | noBuffer => exact h.emit rfl
  | list hd =>
    rw [startList]
    set s₁ : Session := { s' with bufs := Function.update s'.bufs s'.nbuf [], nbuf := s'.nbuf + 1 }
    have h₁ : Extends s s₁ := h.congr rfl
    exact ((h₁.send _).hook _).congr rfl
  | @transfer t _ hd =>
    rw [startTransfer]
    split
    · exact ((h.send _).hook _).congr rfl
    · exact h

/-- What `exec_op` does once it has been called. -/
theorem Exec.extends (hs : Exec op s s') : Extends (s.enter op) s' := by
  have he := Extends.refl (s.enter op)
  cases hs with
  | simple => exact (he.simple op).emit rfl
  | atOnce hop hd hs => exact (he.start hs).emit rfl
  | noData sa => exact (he.active sa).emit rfl
  | wait =>
    rw [askPasv]
    have h₁ : Extends (s.enter op) { s.enter op with data := false } := he.congr rfl
    exact (h₁.send _).hook _

theorem Extends.exec (h : Extends s s') (hs : Exec op s' s'') : Extends s s'' :=
  (h.emit (e := .exec op s'.data s'.passive) rfl).trans hs.extends

theorem Extends.queue (h : Extends s s') (hs : Queue op s' s'') : Extends s s'' := by
  cases hs with
  | direct => exact (h.emit (e := .accept op) rfl).execSimple op
  | append => exact h.trans (.of_cons (e := .accept op) rfl rfl)
  | full => exact h.emit rfl

theorem Extends.of_meet {e : Event} (h : s'.log = s.response e ++ e :: s.log) :
    Extends (s.meet e) s' := .of_log_eq h

/-- What a reply does once it has been received. -/
theorem Reply.extends {code : Int} {buf : Bytes} (h : Reply code buf s s') :
    Extends (s.meet (.reply code s.cproc s.busy buf)) s' := by
  -- a reply to anyone but a transfer touches none
  have hgot : (∀ t, s.cproc ≠ some (.xfer t)) →
      Extends (s.meet (.reply code s.cproc s.busy buf)) (s.got code buf) := by
    intro hne
    refine .of_meet ?_
    have hnil : s.response (.reply code s.cproc s.busy buf) = [] := by
      unfold response
      split <;> first | rfl | simp_all
    rw [hnil]
    rfl
  cases h with
  | activeOk h | pwd h | cwdFail h | listMore h | listEnd h | loginOther h =>
    exact (hgot (by simp [h])).congr rfl
  | activeFail h => exact (hgot (by simp [h])).close.congr rfl
  | pasvOpen h => exact ((hgot (by simp [h])).emit (e := .opened) rfl).congr rfl
  | pasvFall sa h =>
    have h₁ : Extends (s.meet (.reply code s.cproc s.busy buf))
        { s.got code buf with passive := false } := (hgot (by simp [h])).congr rfl
    exact (h₁.active sa).congr rfl
  | cwdOk h _ h₁ h₂ => exact (((hgot (by simp [h])).queue h₁).queue h₂).congr rfl
  | xferTotal h hc hx => exact .of_meet (by simp [response, h, hc, hx, got, emit])
  | xferMore h hc hx =>
    refine .of_meet ?_
    have hcode : ¬(400 ≤ code) := by omega
    have hnot : ¬(code = 150 ∧ Visftp.xferTotal buf ≠ none) := fun h => h.2 (hx h.1)
    rw [h, response, if_neg hcode, if_neg hnot, got, h]
    rfl
  | xferEnd h hc hc' =>
    refine .of_meet ?_
    rw [h, response, if_neg (not_le.mpr hc'), if_neg fun h150 => by omega]
    simp [finish, got, emit, h]
  | @xferFail t h hc =>
    refine .of_meet ?_
    rw [h, response, if_pos hc]
    simp only [finish, got, emit, h]
    rfl
  | loginUser _ h | loginPass _ h =>
    have h₁ : Extends (s.meet (.reply code s.cproc s.busy buf))
        { s.got code buf with busy := 0 } := (hgot (by simp [h])).congr rfl
    exact h₁.send _
  | loginDone h _ h₁ h₂ h₃ =>
    have h₀ : Extends (s.meet (.reply code s.cproc s.busy buf))
        { s.got code buf with busy := 0 } := (hgot (by simp [h])).congr rfl
    exact ((h₀.queue h₁).queue h₂).queue h₃

theorem Chunk.extends {b : Bytes} (h : Chunk b s s') :
    Extends (s.meet (.chunk b s.dproc)) s' := by
  cases h with
  | none h | list h | file h | mem h | stor h =>
    rw [h]
    exact .of_meet rfl
  | listFull h =>
    rw [h]
    exact ((Extends.of_meet rfl).emit (e := .outOfMemory) rfl).emit rfl

theorem DataEof.extends (h : DataEof s s') : Extends (s.meet (.dataEof s.dproc s.busy)) s' := by
  cases h with
  | none h | list _ _ h =>
    rw [h]
    exact .of_meet rfl
  | @xfer t h ho =>
    refine .of_meet ?_
    rw [h, response, if_pos ho]
    rfl
  | stor h ho =>
    refine .of_meet ?_
    rw [h, response, if_neg ho]
    rfl

/-- What happens apart from the control connection. -/
theorem Act.extends (h : Act s s') :
    Extends s s' ∨ ∃ e, s.Trigger e ∧ e.control = false ∧ Extends (s.meet e) s' := by
  have hr := Extends.refl s
  cases h with
  | badSelect => exact .inr ⟨.badSelect, trivial, rfl, .of_meet rfl⟩
  | assert h => exact .inr ⟨.assertFailed, h, rfl, .of_meet rfl⟩
  | @next _ op ops hb hq h =>
    have h₁ : Extends s { s with queue := ops } := hr.congr rfl
    exact .inl (h₁.exec h)
  | resume hs h => exact .inl (((hr.emit (e := .wake s.data) rfl).start h).emit rfl)
  | @append op => exact .inl (.of_cons (e := .accept op) rfl rfl)
  | @direct _ op hs hop hb hq h => exact .inl ((hr.emit (e := .accept op) rfl).exec h)
  | refuse => exact .inl (hr.emit (e := .outOfMemory) rfl)
  | newJob j => exact .inl ((hr.addJob j).emit (e := .outOfMemory) rfl)
  | handOver j =>
    exact .inl ((hr.addJob j).trans (.of_cons (e := .accept (.xfer s.njob)) rfl rfl))
  | handOverDirect j hs hb hq h =>
    have h₁ : Extends s (s.addJob j) := hr.addJob j
    exact .inl ((h₁.emit (e := .accept (.xfer s.njob)) rfl).exec h)
  | chunk b hs hd h => exact .inr ⟨.chunk b s.dproc, ⟨hs, hd, rfl⟩, rfl, h.extends⟩
  | dataEof hs hd h => exact .inr ⟨.dataEof s.dproc s.busy, ⟨hs, hd, rfl, rfl⟩, rfl, h.extends⟩
  | incoming hs hd => exact .inr ⟨.incoming, ⟨hs, hd⟩, rfl, .of_cons (e := .opened) rfl rfl⟩

/-- **What a step adds to the history.** -/
theorem Step.extends (h : Step s s') :
    Extends s s' ∨ ∃ e, s.Trigger e ∧ Extends (s.meet e) s' := by
  cases h with
  | recv b => exact .inr ⟨.recv b, trivial, .of_meet rfl⟩
  | line buf => exact .inr ⟨.line buf, trivial, .of_meet rfl⟩
  | carry c => exact .inl (.of_log_eq rfl)
  | reply code buf hc hs hr =>
    exact .inr ⟨.reply code s.cproc s.busy buf, ⟨hc, rfl, rfl⟩, hr.extends⟩
  | hangup => exact .inl (Extends.refl s).close
  | act h =>
    rcases h.extends with h | ⟨e, he, -, h⟩
    exacts [.inl h, .inr ⟨e, he, h⟩]

theorem Step.suffix (h : Step s s') : s.log <:+ s'.log := by
  rcases h.extends with h | ⟨e, -, h⟩
  exacts [h.suffix, ((List.suffix_cons _ _).trans (suffix_meet e s)).trans h.suffix]

theorem Step.suffix_of_steps (h : Relation.ReflTransGen Step s s') : s.log <:+ s'.log := by
  induction h with
  | refl => exact List.suffix_rfl
  | tail _ hstep ih => exact ih.trans hstep.suffix

/-- What a step meets is part of the history after it. -/
theorem Extends.event {e : Event} (h : Extends (s.meet e) s') : e :: s.log <:+ s'.log :=
  (suffix_meet e s).trans h.suffix

theorem Extends.always {P : List Event → Event → Prop} (hP : ∀ h e, e.inner = true → P h e)
    (h : Extends s s') (hs : Always P s.log) : Always P s'.log := by
  obtain ⟨new, hlog, hnew⟩ := h
  rw [hlog]
  exact hs.append fun e he h => hP h e (hnew e he)

end Session

/-- A sequence of moves is one of steps. -/
theorem Runs.steps {α : Type} {w w' : World α} (h : Runs w w') :
    Relation.ReflTransGen Session.Step w.view w'.view := by
  obtain ⟨hmoves, -⟩ := h
  induction hmoves with
  | refl => exact .refl
  | tail _ hm ih => exact ih.trans hm.steps

theorem Runs.suffix {α : Type} {w w' : World α} (h : Runs w w') : w.log <:+ w'.log :=
  Session.Step.suffix_of_steps h.steps

/-- **The run rule for sessions**: an invariant `I` and a guarantee `G` that every step keeps, as
long as the history meets the assumption `A`, hold of every run whose history meets it. -/
theorem run_assume_guarantee {α : Type} {A G : List Event → Event → Prop} {I : Session → Prop}
    (keep : ∀ ⦃s s'⦄, Session.Step s s' → Always A s'.log → I s → Always G s.log →
      I s' ∧ Always G s'.log)
    {ctl : Fd} {user pass : Option Bytes} {app : α}
    (h₀ : I (World.connected ctl user pass app).view) (inputs : List (Env × Input α))
    (hA : Always A ((World.connected ctl user pass app).run inputs).log) :
    I ((World.connected ctl user pass app).run inputs).view ∧
      Always G ((World.connected ctl user pass app).run inputs).log :=
  have hG : Always G (World.connected ctl user pass app).view.log := trivial
  (steps_run rfl inputs).assume_guarantee (fun _ _ h => h.suffix) keep h₀ hG hA

/-- The run rule without a guarantee. -/
theorem run_invariant {α : Type} {A : List Event → Event → Prop} {I : Session → Prop}
    (keep : ∀ ⦃s s'⦄, Session.Step s s' → Always A s'.log → I s → I s')
    {ctl : Fd} {user pass : Option Bytes} {app : α}
    (h₀ : I (World.connected ctl user pass app).view) (inputs : List (Env × Input α))
    (hA : Always A ((World.connected ctl user pass app).run inputs).log) :
    I ((World.connected ctl user pass app).run inputs).view :=
  (run_assume_guarantee (G := fun _ _ => True)
    (fun _ s' h hA hI _ => ⟨keep h hA hI, always_of_forall (fun _ _ => trivial) s'.log⟩)
    h₀ inputs hA).1

end Visftp
