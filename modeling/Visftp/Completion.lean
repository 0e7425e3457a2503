import Visftp.Transfers

/-!
# The completion of a transfer

A transfer is completed by a reply that says it has failed, or by the end of the data; the
application frees it then. Both handlers keep its address, and nothing tells them. So a transfer is
completed once, and left alone from then on, exactly as long as nothing arrives for it any more
(`Timely`): no bytes and no end of the data while its data handler is installed, and no reply that
its reply handler acts on.

## Main results

* `Session.Step.settled` — one step
* `untouched_run_iff` — whole runs
-/

namespace Visftp

open CString Histories Session Relation

/-- The transfer that is completed by an event. -/
def Event.ends : Event → Option ℕ
  | .dataEof (some (.xfer t)) _ => some t
  | .reply code (some (.xfer t)) _ _ => if 400 ≤ code then some t else none
  | _ => none

/-- The transfer that an event is for: bytes and the end of the data are for the one whose data
handler is installed, a failure and a size are for the one whose reply handler is. -/
def Event.concerns : Event → Option ℕ
  | .chunk _ (some (.xfer t)) => some t
  | .dataEof (some (.xfer t)) _ => some t
  | .reply code (some (.xfer t)) _ buf =>
    if 400 ≤ code ∨ (code = 150 ∧ xferTotal buf ≠ none) then some t else none
  | _ => none

/-- Nothing arrives for a transfer once something has arrived that completes it. -/
def Timely (past : List Event) (e : Event) : Prop :=
  ∀ t, e.concerns = some t → ∀ e' ∈ past, e'.ends ≠ some t

/-- A transfer is not completed again, nor read or written, once it has been completed. -/
def Untouched (past : List Event) : Event → Prop
  | .touch t | .done t => .done t ∉ past
  | _ => True

instance (past : List Event) (e : Event) : Decidable (Untouched past e) := by
  induction e using Event.casesOn <;> (dsimp only [Untouched]; infer_instance)

theorem untouched_of_inner {e : Event} (he : e.inner = true) (past : List Event) :
    Untouched past e := by
  cases e <;> first | exact trivial | cases he

theorem concerns_of_inner {e : Event} (he : e.inner = true) : e.concerns = none := by
  cases e <;> first | rfl | cases he

theorem ends_of_inner {e : Event} (he : e.inner = true) : e.ends = none := by
  cases e <;> first | rfl | cases he

theorem timely_of_inner {e : Event} (he : e.inner = true) (past : List Event) : Timely past e :=
  fun t ht => by simp [concerns_of_inner he] at ht

theorem Event.concerns_of_ends {e : Event} {t : ℕ} (h : e.ends = some t) : e.concerns = some t := by
  unfold Event.ends at h
  unfold Event.concerns
  split at h
  · exact h
  · split at h
    · next hc => simpa [hc] using h
    · simp at h
  · simp at h

namespace Session

variable {s s' : Session} {e : Event}

/-- What a handler does with the transfer an event is for: it uses it, and perhaps completes it. -/
def settles (e : Event) : List Event :=
  match e.concerns with
  | some t => if e.ends = some t then [.done t, .touch t] else [.touch t]
  | none => []

theorem Known.response_eq (h : Known s) (he : s.Trigger e) : s.response e = settles e := by
  rw [settles]
  cases e with
  | reply code p busy buf =>
    rcases p with - | p
    · rfl
    cases p with
    | xfer t =>
      by_cases h400 : 400 ≤ code
      · simp [response, Event.concerns, Event.ends, h400]
      · by_cases h150 : code = 150 ∧ xferTotal buf ≠ none
        · simp [response, Event.concerns, Event.ends, h150]
        · simp [response, Event.concerns, h400, h150]
    | _ => rfl
  | chunk b p =>
    rcases p with - | p
    · rfl
    cases p <;> rfl
  | dataEof p busy =>
    rcases p with - | p
    · rfl
    cases p with
    | xfer t =>
      have ho : (s.jobs t).op = .retr := (h.dproc t he.2.2.1.symm).2
      simp [response, Event.concerns, Event.ends, ho]
    | list r => rfl
  | _ => rfl

/-- A trigger is not itself the completion or the use of a transfer. -/
theorem Trigger.untouched (he : s.Trigger e) (past : List Event) : Untouched past e := by
  cases e <;> first | exact trivial | exact he.elim

theorem Trigger.not_done (he : s.Trigger e) (t : ℕ) : e ≠ .done t := by
  rintro rfl
  exact he.elim

theorem always_untouched_settles (he : s.Trigger e) (past : List Event) :
    Always Untouched (settles e ++ e :: past) ↔
      (∀ t, e.concerns = some t → .done t ∉ past) ∧ Always Untouched past := by
  have hpast : Always Untouched (e :: past) ↔ Always Untouched past :=
    ⟨And.right, fun h => ⟨he.untouched past, h⟩⟩
  rw [settles]
  cases hc : e.concerns with
  | none => simpa using hpast
  | some t =>
    have hmem : Event.done t ∈ e :: past ↔ Event.done t ∈ past := by
      rw [List.mem_cons, or_iff_right (he.not_done t).symm]
    have htouch : Always Untouched (.touch t :: e :: past) ↔
        .done t ∉ past ∧ Always Untouched past := by
      rw [always_cons, hpast, Untouched, hmem]
    have hboth : Always Untouched (.done t :: .touch t :: e :: past) ↔
        .done t ∉ past ∧ Always Untouched past := by
      rw [always_cons, htouch, Untouched]
      simp only [List.mem_cons, reduceCtorEq, false_or, hmem]
      exact ⟨And.right, fun h => ⟨h.1, h⟩⟩
    have hgoal : (∀ u, some t = some u → Event.done u ∉ past) ↔ Event.done t ∉ past := by simp
    rw [hgoal]
    dsimp only
    split
    · exact hboth
    · exact htouch

/-- What is recorded of a completion is that it was called for, and the other way round. -/
theorem done_mem_settles {t : ℕ} : .done t ∈ settles e ↔ e.ends = some t := by
  rw [settles]
  cases hc : e.concerns with
  | none =>
    simp only [List.not_mem_nil, false_iff]
    intro h
    simp [Event.concerns_of_ends h] at hc
  | some u =>
    dsimp only
    split
    · next hu => simp [hu, eq_comm]
    · next hu =>
      simp only [List.mem_singleton, reduceCtorEq, false_iff]
      intro h
      have := Event.concerns_of_ends h
      exact hu (by rw [h, ← this, hc])

theorem ends_of_mem_settles {e' : Event} (h : e' ∈ settles e) :
    e'.ends = none ∧ ∀ past, Timely past e' := by
  have hboth : ∀ t, e' = .touch t ∨ e' = .done t → e'.ends = none ∧ ∀ past, Timely past e' := by
    rintro t (rfl | rfl) <;> exact ⟨rfl, fun _ _ h => by cases h⟩
  rw [settles] at h
  split at h
  · next t _ =>
    split at h
    · simp only [List.mem_cons, List.not_mem_nil, or_false] at h
      exact hboth t h.symm
    · exact hboth t (.inl (List.mem_singleton.mp h))
  · simp at h

/-- **The invariant**: a transfer has been completed if something has arrived that completes it, and
what has been asked of the past is what has been done. -/
structure Settled (s : Session) : Prop where
  done : ∀ t, .done t ∈ s.log ↔ ∃ e ∈ s.log, e.ends = some t
  agree : Always Untouched s.log ↔ Always Timely s.log

/-- Inner events make no difference. -/
theorem Settled.extends (h : Settled s) (hx : Extends s s') : Settled s' := by
  obtain ⟨new, hlog, hnew⟩ := hx
  refine ⟨fun t => ?_, ?_⟩
  · have hdone : .done t ∉ new := fun hmem => by cases hnew _ hmem
    have hends : ∀ e ∈ new, e.ends ≠ some t := fun e he => by simp [ends_of_inner (hnew e he)]
    rw [hlog, List.mem_append, or_iff_right hdone, h.done t]
    constructor
    · rintro ⟨e, he, het⟩
      exact ⟨e, List.mem_append_right new he, het⟩
    · rintro ⟨e, he, het⟩
      exact ⟨e, (List.mem_append.mp he).resolve_left fun he => hends e he het, het⟩
  · rw [hlog, always_append_iff fun e he => untouched_of_inner (hnew e he),
      always_append_iff fun e he => timely_of_inner (hnew e he)]
    exact h.agree

/-- What is met makes the same difference to what is asked and to what is done. -/
theorem Settled.meet (h : Settled s) (hk : Known s) (he : s.Trigger e) : Settled (s.meet e) := by
  have hlog : (s.meet e).log = settles e ++ e :: s.log := by
    rw [Session.meet, hk.response_eq he]
  refine ⟨fun t => ?_, ?_⟩
  · rw [hlog, List.mem_append, List.mem_cons, or_iff_right (he.not_done t).symm, done_mem_settles,
      h.done t]
    constructor
    · rintro (het | ⟨e', he', het⟩)
      · exact ⟨e, by simp, het⟩
      · exact ⟨e', by simp [he'], het⟩
    · rintro ⟨e', he', het⟩
      rcases List.mem_append.mp he' with he' | he'
      · simp [(ends_of_mem_settles he').1] at het
      · rcases List.mem_cons.mp he' with rfl | he'
        · exact .inl het
        · exact .inr ⟨e', he', het⟩
  · rw [hlog, always_untouched_settles he,
      always_append_iff fun e' he' past => (ends_of_mem_settles he').2 past, always_cons, h.agree]
    refine and_congr_left fun _ => forall₂_congr fun t _ => ?_
    rw [h.done t]
    simp

/-- **One step.** -/
theorem Step.settled (hstep : Step s s') (hk : Known s) (h : Settled s) : Settled s' := by
  rcases hstep.extends with hx | ⟨e, he, hx⟩
  exacts [h.extends hx, (h.meet hk he).extends hx]

end Session

/-- **At most one completion.** In every run, a transfer is completed at most once and left alone
from then on, if and only if nothing arrives for a transfer after what completes it. -/
theorem untouched_run_iff {α : Type} (ctl : Fd) (user pass : Option Bytes) (app : α)
    (inputs : List (Env × Input α)) :
    Always Untouched ((World.connected ctl user pass app).run inputs).log ↔
      Always Timely ((World.connected ctl user pass app).run inputs).log := by
  have hrun : ∀ s, ReflTransGen Step (World.connected ctl user pass app).view s →
      Known s ∧ Settled s := by
    intro s hs
    induction hs with
    | refl =>
      exact ⟨known_connected ctl user pass app, fun t => by simp [World.view, World.connected],
        Iff.rfl⟩
    | tail _ hstep ih => exact ⟨hstep.known ih.1, hstep.settled ih.1 ih.2⟩
  exact (hrun _ (steps_run rfl inputs)).2.agree

/-- A file is asked for over a passive connection, the server refuses it, and closes the data
connection. -/
def refusedRun : World ℕ :=
  (World.connected 3 none none 0).run
    [({ Env.quiet with
        ctlIn := [.data (ascii "227 ok (127,0,0,1,4,1)\r\n")]
        selects := [.woke true 0]
        sockets := [some 4]
        connects := [true] },
      .transfer ⟨⟨⟨.retr, ascii "f", some 0, none⟩, 1, 0⟩, fun _ n => n + 1⟩),
      ({ Env.quiet with ctlIn := [.data (ascii "550 No such file.\r\n")] }, .handle 3),
      ({ Env.quiet with dataIn := [.eof] }, .handle 4)]

/-- A refused transfer is completed twice: by the refusal, and at the end of the data. -/
theorem not_untouched_of_refused : refusedRun.app = 2 ∧ ¬Always Untouched refusedRun.log := by
  decide

end Visftp
