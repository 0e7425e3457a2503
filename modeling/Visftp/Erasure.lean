import Visftp.Likeness

/-!
# The history is never read

The history of a `World` is ghost state, and the log file is written but not read. So nothing that
happens depends on them: two states that differ in them at most still do so after any call into the
client, whatever the call, and every result is the same.

## Main definitions

* `World.bare`, `Agree`, `AgreeOn` — states without their history, and what they have in common

## Main results

* `agree_iff` — they differ in hidden parts only
* `agree_execQueued`, `agree_ftpHandleWith` — the next operation, and the event handler
* `blind_ftpWaitresp` — the wait
* `agree_step`, `agree_run` — calls, and whole runs
-/

namespace Visftp

open CString

variable {α : Type}

/-- The state without its history and its log file. -/
def World.bare (w : World α) : World α := { w with logfile := [], log := [] }

/-- Two states that differ in their history and log file at most. -/
def Agree (w w' : World α) : Prop := w.bare = w'.bare

/-- The same result, and states that agree. -/
def AgreeOn {β : Type} (r r' : β × World α) : Prop := r.1 = r'.1 ∧ Agree r.2 r'.2

variable {w w' w'' : World α}

namespace Agree

theorem refl (w : World α) : Agree w w := rfl

theorem trans (h : Agree w w') (h' : Agree w' w'') : Agree w w'' := Eq.trans h h'

theorem exists_eq (h : Agree w w') : ∃ m l, w' = { w with logfile := m, log := l } := by
  refine ⟨w'.logfile, w'.log, ?_⟩
  cases w
  cases w'
  simp only [Agree, World.bare, World.mk.injEq] at h
  obtain ⟨rfl, rfl, rfl, rfl, rfl, rfl, rfl, rfl, -, -⟩ := h
  rfl

theorem ftp_eq (h : Agree w w') : w'.ftp = w.ftp := (congrArg World.ftp h).symm

theorem xfers_eq (h : Agree w w') : w'.xfers = w.xfers := (congrArg World.xfers h).symm

theorem rbufs_eq (h : Agree w w') : w'.rbufs = w.rbufs := (congrArg World.rbufs h).symm

theorem mapFtp (h : Agree w w') (f : Ftp → Ftp) : Agree (w.mapFtp f) (w'.mapFtp f) := by
  obtain ⟨m, l, rfl⟩ := h.exists_eq
  rfl

theorem setEnv (h : Agree w w') (env : Env) :
    Agree { w with env := env } { w' with env := env } := by
  obtain ⟨m, l, rfl⟩ := h.exists_eq
  rfl

end Agree

/-! ### Hidden parts -/

/-- The queue and the last reply are the same. -/
def Hidden.SameFtp (h h' : Hidden) : Prop := h'.lastResp = h.lastResp ∧ h'.queue = h.queue

theorem kin_sameFtp : Kin Hidden.SameFtp where
  toList_eq h := congrArg LinkedFifo.toList h.2
  emit _ h := h
  message _ h := h
  setLastResp _ h := ⟨rfl, h.2⟩
  enqueue op h := ⟨h.1, congrArg (fun q => q.enqueue op) h.2⟩
  pop := by
    rintro h h' op q q' ⟨hresp, hqueue⟩ hpop hpop'
    have hq := (hqueue ▸ hpop').symm.trans hpop
    exact ⟨hresp, (Prod.mk.inj (Option.some.inj hq)).2⟩

/-- **States that agree** differ in hidden parts, and not in those of `struct ftp`. -/
theorem agree_iff : Agree w w' ↔ Like Hidden.SameFtp w w' := by
  constructor
  · intro h
    obtain ⟨m, l, rfl⟩ := h.exists_eq
    exact ⟨⟨w.ftp.lastResp, w.ftp.queue, m, l⟩, ⟨rfl, rfl⟩, rfl⟩
  · rintro ⟨⟨c, q, m, l⟩, ⟨hresp, hqueue⟩, rfl⟩
    obtain rfl : c = w.ftp.lastResp := hresp
    obtain rfl : q = w.ftp.queue := hqueue
    rfl

theorem agreeOn_iff {β : Type} {r r' : β × World α} :
    AgreeOn r r' ↔ LikeOn Hidden.SameFtp r r' := and_congr_right fun _ => agree_iff

/-- A wait that does not read the history either. -/
def Blind (wait : Int → World α → Int × World α) : Prop :=
  ∀ timeout w w', Agree w w' → AgreeOn (wait timeout w) (wait timeout w')

section Wait

variable {wait : Int → World α → Int × World α}

theorem Blind.unseeing (hw : Blind wait) : Unseeing Hidden.SameFtp wait :=
  fun timeout w w' h => agreeOn_iff.mp (hw timeout w w' (agree_iff.mpr h))

/-- **The next operation** of the queue. -/
theorem agree_execQueued (hw : Blind wait) (h : Agree w w') :
    Agree (execQueued wait w) (execQueued wait w') :=
  agree_iff.mpr (like_execQueued kin_sameFtp hw.unseeing (agree_iff.mp h))

/-- **The event handler.** -/
theorem agree_ftpHandleWith (hw : Blind wait) (s : Option Fd) (h : Agree w w') :
    Agree (ftpHandleWith wait s w) (ftpHandleWith wait s w') :=
  agree_iff.mpr (like_ftpHandleWith kin_sameFtp hw.unseeing s (agree_iff.mp h))

end Wait

theorem agree_dprocList (r : ℕ) (buf : Bytes) (h : Agree w w') :
    Agree (dprocList r buf w) (dprocList r buf w') :=
  agree_iff.mpr (like_dprocList kin_sameFtp r buf (agree_iff.mp h))

theorem agree_dprocXfer (t : ℕ) (buf : Bytes) (h : Agree w w') :
    Agree (dprocXfer t buf w) (dprocXfer t buf w') :=
  agree_iff.mpr (like_dprocXfer kin_sameFtp t buf (agree_iff.mp h))

theorem unseeing_sameFtp (n : ℕ) : Unseeing Hidden.SameFtp (ftpWaitresp n (α := α)) :=
  unseeing_ftpWaitresp kin_sameFtp (fun _ _ h => h.1) (fun _ _ h => ⟨rfl, h.2⟩) (fun _ _ h => h) n

/-- **The wait.** -/
theorem blind_ftpWaitresp (n : ℕ) : Blind (ftpWaitresp n (α := α)) :=
  fun timeout w w' h => agreeOn_iff.mpr (unseeing_sameFtp n timeout w w' (agree_iff.mp h))

/-- **Every call**, whatever it is. -/
theorem agree_step (env : Env) (i : Input α) (h : Agree w w') :
    Agree (w.step env i) (w'.step env i) :=
  agree_iff.mpr (like_step kin_sameFtp unseeing_sameFtp env i (agree_iff.mp h))

/-- **Whole runs.** -/
theorem agree_run (inputs : List (Env × Input α)) (h : Agree w w') :
    Agree (w.run inputs) (w'.run inputs) :=
  agree_iff.mpr (like_run kin_sameFtp unseeing_sameFtp inputs (agree_iff.mp h))

end Visftp
