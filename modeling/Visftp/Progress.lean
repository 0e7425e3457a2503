import Visftp.Order

/-!
# Queued operations get their turn

`ftp_handle` starts one queued operation at a time, when nothing is outstanding. The operation sends
a command, and the event that answers it starts the next one. An operation that sends nothing, such
as one that is not implemented, breaks the chain: it returns at once, and nothing is outstanding
while the rest of the queue waits.

Inside a wait the chain may be broken without harm, when the operation that waits goes on to send
its own command. `idle` tells from the history whether that is so.

## Main definitions

* `idle` — the last operation has returned and nothing was sent
* `Lively` — what is asked of the operations
* `Session.Awake` — the invariant of every return from `ftp_handle`

## Main results

* `awake_runQueue`, `awake_execOp` — the end of `ftp_handle`, one operation
* `not_stuck_run` — whole runs
-/

namespace Visftp

open CString Histories Session

/-- The last operation has returned with nothing sent: directly after it was begun, or after a wait
in which the last operation was idle as well. It may have run out of memory. -/
def idle : List Event → Bool
  | .ret :: .exec .. :: _ => true
  | .ret :: .outOfMemory :: .exec .. :: _ => true
  | .ret :: .wake _ :: h => idle h
  | .ret :: .outOfMemory :: .wake _ :: h => idle h
  | _ => false

/-- The operations that have been accepted and not been begun. -/
def waiting (h : List Event) : List Op := (accepted h).drop (begun h).length

/-- An operation that returns to the caller of the client has started something, or nothing is
waiting behind it. -/
def Lively (past : List Event) : Event → Prop
  | .ret => stack (.ret :: past) = [] → idle (.ret :: past) = true → waiting past = []
  | _ => True

instance (past : List Event) (e : Event) : Decidable (Lively past e) := by
  induction e using Event.casesOn <;> (dsimp only [Lively]; infer_instance)

namespace Session

variable {s s' : Session} {op : Op}

/-- As long as the control connection is open: something is outstanding when an operation is queued,
or the last operation was idle. -/
def Awake (s : Session) : Prop :=
  s.ctl = true → 0 ≤ s.busy ∧ (s.queue ≠ [] → 0 < s.busy ∨ idle s.log = true)

theorem Awake.of_pos (h : s.ctl = true → 0 < s.busy) : Awake s :=
  fun hctl => ⟨(h hctl).le, fun _ => .inl (h hctl)⟩

theorem Awake.of_closed (h : s.ctl = false) : Awake s := fun hctl => by simp [h] at hctl

theorem Awake.of_idle (hb : 0 ≤ s.busy) (h : idle s.log = true) : Awake s :=
  fun _ => ⟨hb, fun _ => .inr h⟩

/-- A command that is sent is outstanding. -/
theorem busy_send_pos (c : Cmd) (hb : 0 ≤ s.busy) :
    (s.send c).ctl = true → 0 < (s.send c).busy := by
  intro hctl
  have hopen : s.ctl = true := hctl
  simp only [Session.send, if_pos hopen]
  omega

/-- An operation that needs no data connection sends its command, or returns at once. -/
theorem awake_execSimple (op : Op) (hb : 0 ≤ s.busy) : Awake (s.execSimple op) := by
  have hsend : ∀ c, Awake ((((s.enter op).send c)).emit .ret) := fun c =>
    .of_pos (busy_send_pos (s := s.enter op) c hb)
  have hret : Awake ((s.enter op).emit .ret) := .of_idle hb rfl
  cases op with
  | type arg =>
    simp only [execSimple, Session.simple]
    split
    exacts [hret, hsend _]
  | pwd => exact .of_pos (busy_send_pos (s := s.enter .pwd) .pwd hb)
  | chdir d =>
    exact .of_pos (busy_send_pos (s := s.enter (.chdir d))
      (if d = ascii ".." then .cdup else .cwd d) hb)
  | cdup => exact .of_pos (busy_send_pos (s := s.enter .cdup) .cdup hb)
  | _ => exact hret

/-- An operation that has its data connection sends its command, or does nothing. -/
theorem Start.busy_pos (h : Start op s s') (hb : 0 ≤ s.busy) :
    s' = s ∨ s' = s.emit .outOfMemory ∨ (s'.ctl = true → 0 < s'.busy) := by
  cases h with
  | none => exact .inl rfl
  | noBuffer => exact .inr (.inl rfl)
  | list =>
    refine .inr (.inr fun hctl => ?_)
    have hpos := busy_send_pos (s := s) (.list s.nbuf) hb hctl
    simp only [startList, Session.hook]
    exact hpos.trans (Int.lt_succ _)
  | @transfer t =>
    rw [startTransfer]
    split
    · refine .inr (.inr fun hctl => ?_)
      have hpos := busy_send_pos (s := s) (.retr t (s.jobs t).rname) hb hctl
      simp only [Session.hook]
      exact hpos.trans (Int.lt_succ _)
    · exact .inl rfl

/-- `exec_op`, when it does not wait. -/
theorem Exec.awake (h : Exec op s s') (hb : 0 ≤ s.busy) : Awake s' := by
  cases h with
  | simple => exact awake_execSimple op hb
  | atOnce hop hd hs =>
    rcases hs.busy_pos (s := s.enter op) hb with rfl | rfl | hpos
    · exact .of_idle hb rfl
    · exact .of_idle hb rfl
    · exact .of_pos hpos
  | noData sa =>
    rcases sa with - | ⟨a, p⟩
    · exact .of_idle hb rfl
    · exact .of_pos (busy_send_pos (s := { s.enter op with data := false }) (.port a p) hb)
  | wait => exact .of_pos (busy_send_pos (s := { s.enter op with data := false }) .pasv hb)

/-- An operation that is resumed after its wait. -/
theorem Awake.resume (h : Awake s) (hs : Start op (s.emit (.wake s.data)) s') :
    Awake (s'.emit .ret) := by
  intro hctl
  have hopen : s.ctl = true := hs.frame.1.symm.trans hctl
  obtain ⟨hb, hq⟩ := h hopen
  rcases hs.busy_pos hb with rfl | rfl | hpos
  · exact ⟨hb, hq⟩
  · exact ⟨hb, hq⟩
  · exact Awake.of_pos (s := s'.emit .ret) hpos hctl

end Session

variable {α : Type} {w : World α} {wait : Int → World α → Int × World α}

section Wait

variable (hwait : ∀ t (w : World α), w.view.Awake → (wait t w).2.view.Awake)

include hwait

/-- `exec_op` -/
theorem awake_execOp (op : Op) (hb : 0 ≤ w.ftp.busy) : (execOp wait op w).view.Awake := by
  by_cases hn : op.needsData = true → w.ftp.data ≠ none ∨ w.ftp.passive = false
  · exact (exec_execOp hn).awake hb
  · obtain ⟨hop, hn⟩ := Classical.not_imp.mp hn
    obtain ⟨hd, hp⟩ := not_or.mp hn
    rw [not_not] at hd
    rw [Bool.not_eq_false] at hp
    have hasked : (ftpPassive (w.enter op)).view.Awake := by
      rw [view_ftpPassive]
      exact .of_pos (busy_send_pos (s := { w.view.enter op with data := false }) .pasv hb)
    obtain ⟨w₃, hexec, hstart⟩ := start_execOp wait hop hd hp rfl
    rw [hexec]
    exact (hwait timeout _ hasked).resume hstart

/-- `exec_queued` -/
theorem awake_execQueued (hb : w.view.busy = 0) : (execQueued wait w).view.Awake := by
  rw [execQueued]
  cases hl : w.ftp.queue.toList with
  | nil =>
    rw [LinkedFifo.pop_of_toList_nil hl]
    exact fun _ => ⟨hb.ge, fun hq => absurd hl hq⟩
  | cons op ops =>
    obtain ⟨q, hq, -⟩ := LinkedFifo.pop_of_toList_cons hl
    rw [hq]
    exact awake_execOp hwait op (w := w.mapFtp fun f => { f with queue := q }) hb.ge

/-- The end of `ftp_handle`, whatever came before it. -/
theorem awake_runQueue (w : World α) : (runQueue wait w).view.Awake := by
  rw [runQueue]
  split
  · exact awake_execQueued hwait rfl
  · next hpos => exact .of_pos fun _ => not_le.mp hpos

omit hwait in
/-- `handle_control` gives `-1` when it has closed the connection. -/
theorem ctl_handleControlLoop (fuel : ℕ) (h : (handleControlLoop wait fuel w).1 = -1) :
    (handleControlLoop wait fuel w).2.view.ctl = false := by
  induction fuel generalizing w with
  | zero => simp [handleControlLoop] at h
  | succ fuel ih =>
    rw [handleControlLoop] at h ⊢
    generalize recvCtl _ _ = r at h ⊢
    rcases r with ⟨a, w'⟩
    cases a with
    | data b => exact ih h
    | eof =>
      change (ftpClose w').view.ctl = false
      rw [view_ftpClose]
      rfl
    | again => simp at h
    | intr => exact ih h

/-- `ftp_handle` of the control connection. -/
theorem awake_ftpHandleWith_ctl (w : World α) :
    (ftpHandleWith wait w.ftp.ctl w).view.Awake := by
  rw [ftpHandleWith, if_pos rfl]
  dsimp only
  split
  · next h => exact .of_closed (ctl_handleControlLoop _ h)
  · exact awake_runQueue hwait _

/-- `ftp_handle` -/
theorem awake_ftpHandleWith (fd : Option Fd) (w : World α) :
    (ftpHandleWith wait fd w).view.Awake := by
  by_cases hctl : fd = w.ftp.ctl
  · rw [hctl]
    exact awake_ftpHandleWith_ctl hwait w
  rw [ftpHandleWith, if_neg hctl]
  split
  · exact awake_runQueue hwait _
  split <;> exact awake_runQueue hwait _

end Wait

/-- **The wait** keeps the invariant, with every wait inside it. -/
theorem awake_waitLoop (n : ℕ) (t : Int) (w : World α) (h : w.view.Awake) :
    (waitLoop n t w).2.view.Awake := by
  induction n generalizing t w with
  | zero => exact h
  | succ n ih =>
    rw [waitLoop]
    have hfirst : (if w.ftp.ctl = none then w.emit .badSelect else w).view.Awake := by
      split
      · next hc =>
        exact .of_closed (Option.isSome_eq_false_iff.mpr (Option.isNone_iff_eq_none.mpr hc))
      · exact h
    generalize (if w.ftp.ctl = none then w.emit .badSelect else w) = w₁ at hfirst ⊢
    dsimp only
    generalize hr : World.ask _ _ _ w₁ = r
    have hasked : r.2.view.Awake := hr ▸ hfirst
    split
    · exact ih t r.2 hasked
    · next ready elapsed hres =>
      have hwait : ∀ t (w : World α), w.view.Awake →
          (waitLoop n t (w.mapFtp fun f => { f with lastResp := -1 })).2.view.Awake := by
        intro t w hw
        have hreset : (w.mapFtp fun f => { f with lastResp := -1 }).view = w.view := rfl
        exact ih t _ (hreset ▸ hw)
      set w₂ := if ready then ftpHandleWith
          (fun t w => waitLoop n t (w.mapFtp fun f => { f with lastResp := -1 })) r.2.ftp.ctl
          (r.2.mapFtp fun f => { f with lastResp := -1 }) else r.2 with hw₂
      have hhandle : w₂.view.Awake := by
        rw [hw₂]
        split
        · exact awake_ftpHandleWith_ctl hwait (r.2.mapFtp fun f => { f with lastResp := -1 })
        · exact hasked
      split
      · exact hhandle
      split
      · split
        · exact hhandle
        · exact ih _ _ hhandle
      · exact ih t w₂ hhandle

/-! ### The ways in -/

/-- No operation is stuck. -/
def Session.Live (s : Session) : Prop := s.ctl = true → 0 ≤ s.busy ∧ (s.queue ≠ [] → 0 < s.busy)

/-- The common part of `ftp_queue` and `ftp_queue_transfer`. -/
theorem awake_submit {alloc : World α → Bool × World α}
    (hwait : ∀ t (w : World α), w.view.Awake → (wait t w).2.view.Awake)
    (halloc : Allocates alloc) (op : Op) (h : w.view.Live) :
    (submit wait alloc op w).2.view.Awake := by
  by_cases hq : w.view.busy = 0 ∧ w.view.queue = []
  · rw [submit_of_idle hq]
    exact awake_execOp hwait op (w := w.emit (.accept op)) hq.1.ge
  · have hpos : w.view.ctl = true → 0 < w.view.busy := by
      intro hctl
      obtain ⟨hb, hlive⟩ := h hctl
      by_contra hle
      have hzero : w.view.busy = 0 := le_antisymm (not_lt.mp hle) hb
      exact hq ⟨hzero, by_contra fun hne => hle (hlive hne)⟩
    rcases view_submit_of_blocked wait halloc op hq with h' | h' <;> rw [h']
    · exact .of_pos hpos
    · exact .of_pos hpos

theorem awake_ftpWaitresp (n : ℕ) (t : Int) (w : World α) (h : w.view.Awake) :
    (ftpWaitresp n t w).2.view.Awake := by
  have hreset : (w.mapFtp fun f => { f with lastResp := -1 }).view = w.view := rfl
  exact awake_waitLoop n t _ (hreset ▸ h)

/-- **One call** of the main loop. -/
theorem awake_step (env : Env) (i : Input α) (h : w.view.Live) : (w.step env i).view.Awake := by
  have hwait := awake_ftpWaitresp (α := α) env.selects.length
  have henv : ({ w with env := env } : World α).view.Live := h
  cases i with
  | queue op hop => exact awake_submit hwait (allocates_alloc op) op henv
  | transfer x =>
    have hnew : (({ w with env := env } : World α).newXfer x).view.Live := by
      rw [view_newXfer]
      exact h
    exact awake_submit hwait view_malloc (.xfer w.nxfer) hnew
  | handle fd => exact awake_ftpHandleWith hwait (some fd) _

/-- What waits according to the history is what is queued. -/
theorem Session.InOrder.waiting_eq {s : Session} (h : InOrder s) : waiting s.log = s.queue := by
  rw [waiting, ← h, List.drop_left]

/-- When the history is lively, an idle operation leaves nothing behind. -/
theorem Session.Awake.live {s : Session} (h : Awake s) (hord : InOrder s)
    (hst : stack s.log = []) (hA : Always Lively s.log) : Live s := by
  intro hctl
  obtain ⟨hb, hq⟩ := h hctl
  refine ⟨hb, fun hne => (hq hne).resolve_right fun hidle => hne ?_⟩
  have hwaiting := hord.waiting_eq
  cases hlog : s.log with
  | nil => simp [hlog, idle] at hidle
  | cons e past =>
    rw [hlog] at hidle hst hA hwaiting
    cases e with
    | ret =>
      have hpast : waiting (.ret :: past) = waiting past := by
        simp [waiting, accepted_cons, begun_cons, Event.accept?, Event.exec?]
      rw [← hwaiting, hpast]
      exact hA.1 hst hidle
    | _ => simp [idle] at hidle

/-- Between two calls no operation is stuck, as long as the history is lively. -/
theorem live_run {w : World α} (inputs : List (Env × Input α)) (h : w.view.Live)
    (hord : w.view.InOrder) (hst : stack w.log = [])
    (hA : Always Lively (w.run inputs).log) : (w.run inputs).view.Live := by
  induction inputs generalizing w with
  | nil => exact h
  | cons i inputs ih =>
    have hst' : stack (w.step i.1 i.2).log = [] := (runs_step i.1 i.2 hst).2.trans hst
    have hord' : (w.step i.1 i.2).view.InOrder := hord.steps (steps_run hst [i])
    have hsuffix : (w.step i.1 i.2).log <:+ ((w.step i.1 i.2).run inputs).log :=
      Step.suffix_of_steps (steps_run hst' inputs)
    refine ih ?_ hord' hst' hA
    exact (awake_step i.1 i.2 h).live hord' hst' (hA.suffix hsuffix)

/-- **No stuck queue.** In every run whose operations all start something, or leave nothing behind
that waits, every return to the main loop with the control connection open and an operation queued
leaves something outstanding. -/
theorem not_stuck_run (ctl : Fd) (user pass : Option Bytes) (app : α)
    (inputs : List (Env × Input α))
    (hA : Always Lively ((World.connected ctl user pass app).run inputs).log)
    (hctl : ((World.connected ctl user pass app).run inputs).ftp.ctl ≠ none)
    (hq : ((World.connected ctl user pass app).run inputs).ftp.queue.toList ≠ []) :
    0 < ((World.connected ctl user pass app).run inputs).ftp.busy := by
  have h₀ : (World.connected ctl user pass app).view.Live := fun _ =>
    ⟨le_rfl, fun hne => absurd rfl hne⟩
  exact (live_run inputs h₀ rfl rfl hA (view_ctl_of_ne_none hctl)).2 hq

/-- A login during which two operations are queued. -/
def loginWith (op₁ op₂ : Op) (h₁ : op₁.transfer? = none) (h₂ : op₂.transfer? = none) : World Unit :=
  (World.connected 3 none none ()).run
    [({ Env.quiet with ctlIn := [.data (ascii "220 ready\r\n")] }, .handle 3),
      (Env.quiet, .queue op₁ h₁), (Env.quiet, .queue op₂ h₂),
      ({ Env.quiet with ctlIn := [.data (ascii "331 password\r\n")] }, .handle 3),
      ({ Env.quiet with ctlIn := [.data (ascii "230 logged in\r\n")] }, .handle 3)]

theorem not_stuck_run_login : 0 < (loginWith (.chdir (ascii "d")) .pwd rfl rfl).ftp.busy :=
  not_stuck_run 3 none none () _ (by decide) (by decide) (by decide)

/-- `FTP_MKDIR` is not implemented. It returns at once, and the rest of the queue waits for an
event that nobody owes. -/
theorem stuck_of_mkdir :
    (loginWith (.mkdir (ascii "d")) .pwd rfl rfl).ftp.ctl ≠ none ∧
      (loginWith (.mkdir (ascii "d")) .pwd rfl rfl).ftp.queue.toList ≠ [] ∧
      ¬0 < (loginWith (.mkdir (ascii "d")) .pwd rfl rfl).ftp.busy := by
  decide

end Visftp
