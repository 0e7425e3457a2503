import Visftp.Growth

/-!
# When the entries of the remote directory change

`dproc_list` writes `ftp->dirent` when all data of a listing has been received, and nothing else
does. So the entries are what they were at any earlier time unless a listing has ended since, and
the call of the main loop that receives its end reads them from the receive buffer as it is then.

## Main definitions

* `Event.endsListing` — a listing has ended
* `Session.SameEntries` — when the entries are the same
* `Session.ReadsEntries` — what they are read from

## Main results

* `Session.Step.entries` — the step that writes the entries
* `entries_step` — the calls of the main loop that write them
-/

namespace Visftp

/-- The end of a listing's data. -/
def Event.endsListing : Event → Bool
  | .dataEof (some (.list _)) _ => true
  | _ => false

namespace Session

variable {s s' s'' : Session} {op : Op}

/-- The entries are written: they are those of the listing that has ended. -/
def Rewritten (s s' : Session) : Prop :=
  ∃ tail junk r, s'.dirent = listing tail junk (s.bufs r) ∧
    s'.log = .dataEof (some (.list r)) s.busy :: s.log

theorem DataEof.entries (h : DataEof s s') : s'.dirent = s.dirent ∨ Rewritten s s' := by
  cases h with
  | none => exact .inl rfl
  | @list r tail junk h => exact .inr ⟨tail, junk, r, rfl, rfl⟩
  | xfer => exact .inl rfl
  | stor => exact .inl rfl

/-- **One step** leaves the entries alone, or ends a listing. -/
theorem Step.entries (h : Step s s') : s'.dirent = s.dirent ∨ Rewritten s s' := by
  cases h with
  | reply code buf hc hctl hr => exact .inl hr.dirent_eq
  | act h =>
    cases h with
    | next hb hq h => exact .inl h.dirent_eq
    | resume hst h => exact .inl h.dirent_eq
    | direct hst hop hb hq h => exact .inl h.dirent_eq
    | handOverDirect j hst hb hq h => exact .inl h.dirent_eq
    | chunk b hst hd h => exact .inl h.dirent_eq
    | dataEof hst hd h => exact h.entries
    | _ => exact .inl rfl
  | _ => exact .inl rfl

/-! ### Runs -/

/-- The history has grown, and the entries are the same unless a listing has ended. -/
def SameEntries (s s' : Session) : Prop :=
  ∃ new, s'.log = new ++ s.log ∧ ((∃ e ∈ new, e.endsListing = true) ∨ s'.dirent = s.dirent)

theorem SameEntries.steps (hsteps : Relation.ReflTransGen Step s s') : SameEntries s s' := by
  induction hsteps with
  | refl => exact ⟨[], rfl, .inr rfl⟩
  | @tail s₁ s₂ _ hstep ih =>
    obtain ⟨new, hlog, hnew⟩ := ih
    rcases hstep.entries with hstay | ⟨-, -, r, -, hend⟩
    · obtain ⟨more, hmore⟩ := hstep.suffix
      refine ⟨more ++ new, by rw [← hmore, hlog, List.append_assoc], ?_⟩
      rcases hnew with ⟨e, he, hends⟩ | hsame
      · exact .inl ⟨e, List.mem_append_right more he, hends⟩
      · exact .inr (hstay.trans hsame)
    · refine ⟨.dataEof (some (.list r)) s₁.busy :: new, by rw [hend, hlog]; rfl, .inl ?_⟩
      exact ⟨_, List.mem_cons_self, rfl⟩

/-- **The entries are read**: behind `s` a listing has ended, and these are the entries of what was
in its receive buffer then. `heap` is what `dproc_list` may meet beyond that: the memory behind the
buffer, and the size on its stack. -/
def ReadsEntries (s : Session) (heap : Bytes × Int) (log : List Event) (ents : List Dirent) :
    Prop :=
  ∃ s₁ r, Relation.ReflTransGen Step s s₁ ∧
    .dataEof (some (.list r)) s₁.busy :: s₁.log <:+ log ∧
    ents = listing heap.1 heap.2 (s₁.bufs r)

end Session

/-! ### The calls that write the entries -/

variable {α : Type} {w : World α}

/-- What lies beyond what was received. -/
def Env.heap (e : Env) : Bytes × Int := (e.heapTail, e.junk)

theorem heap_allocate (possible : Bool) (w : World α) :
    (allocate possible w).2.env.heap = w.env.heap := by
  rw [allocate]
  split <;> rfl

/-- A data handler changes nothing there. -/
theorem heap_callDproc (b : Bytes) (w : World α) : (callDproc b w).env.heap = w.env.heap := by
  cases hp : w.ftp.dproc with
  | none => rw [callDproc_of_none hp]
  | some p =>
    rw [callDproc_of_some hp]
    cases p with
    | list r =>
      rw [DProc.run, dprocList]
      dsimp only
      split
      · rfl
      · split
        · split <;> exact heap_allocate _ w
        · rfl
    | xfer t =>
      rw [DProc.run, dprocXfer]
      dsimp only
      split
      · split
        · rfl
        · rw [storeBytes]
          split <;> rfl
      · rfl

/-- The end of the data, for another handler, leaves the entries alone. -/
theorem dirent_dprocXfer (t : ℕ) (b : Bytes) (w : World α) :
    (dprocXfer t b w).ftp.dirent = w.ftp.dirent := by
  rw [dprocXfer]
  dsimp only
  split
  · split
    · rfl
    · rw [storeBytes]
      split <;> rfl
  · rfl

open Session Relation

theorem entries_handleDataLoop (n : ℕ) (hs : stack w.log = []) (hd : w.view.data = true) :
    (handleDataLoop n w).ftp.dirent = w.ftp.dirent ∨
      w.view.ReadsEntries w.env.heap (handleDataLoop n w).log (handleDataLoop n w).ftp.dirent := by
  induction n generalizing w with
  | zero => exact .inl rfl
  | succ n ih =>
    rw [handleDataLoop]
    set r := recvData 256 w with hr
    have hrv : r.2.view = w.view := view_recvData _ _
    have hheap : r.2.env.heap = w.env.heap := rfl
    split
    · rw [← hrv, ← hheap]
      exact ih (w := r.2) hs hd
    · exact .inl rfl
    · cases hp : r.2.ftp.dproc with
      | none =>
        exact .inl (congrArg (fun w => w.ftp.dirent) (callDproc_of_none (w := r.2.emit _) hp))
      | some p =>
        rw [callDproc_of_some (w := r.2.emit _) hp]
        cases p with
        | list l =>
          refine .inr ⟨r.2.view, l, hrv ▸ .refl, List.suffix_rfl, ?_⟩
          rw [← hheap]
          rfl
        | xfer t => exact .inl (dirent_dprocXfer t [] (r.2.emit _))
    · next b hdata =>
      have hstep := chunk_callDproc (Recv.of_clip_eq_data hdata).1 r.2
      set w₁ := callDproc b (r.2.emit (.chunk b r.2.ftp.dproc)) with hw₁
      have hdirent : w₁.ftp.dirent = w.ftp.dirent := hstep.dirent_eq
      have hheap₁ : w₁.env.heap = w.env.heap := heap_callDproc b (r.2.emit _)
      have hact : Step w.view w₁.view := hrv ▸ .act (.chunk b hs hd hstep)
      rcases ih (w := w₁) (hstep.stack_eq.trans hs) (hstep.data_eq.trans hd) with hsame | hread
      · exact .inl (hsame.trans hdirent)
      · obtain ⟨s₁, l, hsteps, hlog, hents⟩ := hread
        exact .inr ⟨s₁, l, .head hact hsteps, hlog, hheap₁ ▸ hents⟩

/-- **A call of the main loop** leaves the entries alone, or it receives the end of a listing and
reads them, with what lies on the heap in this call. -/
theorem entries_step (env : Env) (i : Input α) (hs : stack w.log = []) :
    (w.step env i).ftp.dirent = w.ftp.dirent ∨ (∃ fd, i = .handle fd) ∧
      w.view.ReadsEntries env.heap (w.step env i).log (w.step env i).ftp.dirent := by
  rcases keeps_or_handleData env i hs with h | ⟨hi, -, h⟩
  · exact .inl h.dirent_eq
  rw [h.dirent_eq]
  by_cases hd : w.ftp.data = none
  · refine .inl ?_
    rw [handleData, if_pos hd]
  · have hloop := entries_handleDataLoop (w := { w with env := env }) 4 hs
      (Option.isSome_iff_ne_none.mpr hd)
    rw [← show handleData { w with env := env } = _ from if_neg hd] at hloop
    rcases hloop with hsame | hread
    · exact .inl hsame
    · obtain ⟨s₁, r, hsteps, hlog, hents⟩ := hread
      exact .inr ⟨hi, s₁, r, hsteps, hlog.trans h.runs.suffix, hents⟩

end Visftp
