import Visftp.MultiLine

/-!
# What an event completes

When the control connection becomes readable, `ftp_handle` receives until `recv` has nothing more.
What the bytes complete is said here without the state of the client (`answers`): a reply, or the
connection.

While a data connection is being set up, one such event has three outcomes for whoever waits for
it. It has left everything to the next event (`Unanswered`), it has processed a reply whose code is
now `last_resp` (`Answered`), or the connection is closed (`HungUp`). A reply to `PASV` leaves
nothing that would make the next operation wait in turn, so no other event gets in between.

## Main definitions

* `completed`, `answers` — the bytes of an event
* `World.mark` — `last_resp`, and the results of `select` to come
* `Unanswered`, `Answered`, `HungUp` — the outcomes

## Main results

* `mark_runQueue` — what begins no wait leaves `last_resp` alone
* `unanswered_ftpHandleWith`, `answered_ftpHandleWith` — one event
-/

namespace Visftp

open CString Lines Session

variable {α : Type}

/-! ### Events -/

/-- The codes of the replies that end in the bytes `b`, behind the unfinished line `cur`. -/
def completed (cur b : Bytes) : List Int := ((feed ([], cur) b).1.map cstr).filterMap replyCode?

/-- **An event answers the wait**: the results of `recv`, up to the first that has nothing more,
complete a reply or end the connection. `cur` is what is left in the line buffer. -/
def answers : Bytes → List Recv → Bool
  | _, [] => false
  | cur, r :: rs =>
    let cur := if crecvSize ≤ cur.length then [] else cur
    match r.clip (crecvSize - cur.length) with
    | .intr => answers cur rs
    | .again => false
    | .eof => true
    | .data b => decide (completed cur b ≠ []) || answers (feed ([], cur) b).2 rs

/-! ### What leaves `last_resp` alone -/

/-- What a wait inside would change: the last reply, and the results of `select` to come. -/
def World.mark (w : World α) : Int × List Sel := (w.ftp.lastResp, w.env.selects)

section Mark

variable {w : World α} {wait : Int → World α → Int × World α}

@[simp] theorem mark_sendcmd (c : Cmd) (w : World α) : (sendcmd c w).mark = w.mark := by
  rw [sendcmd]
  split
  · rfl
  · dsimp only
    split <;> rfl

@[simp] theorem mark_setCproc (p : CProc) (w : World α) : (setCproc p w).mark = w.mark := rfl

@[simp] theorem mark_ftpClose (w : World α) : (ftpClose w).mark = w.mark := by
  unfold ftpClose
  dsimp only
  split <;> rfl

@[simp] theorem mark_malloc (w : World α) : (malloc w).2.mark = w.mark := by
  unfold malloc allocate
  dsimp only
  split <;> rfl

@[simp] theorem mark_ftpActive (w : World α) : (ftpActive w).2.mark = w.mark := by
  rw [ftpActive]
  dsimp only
  split
  · rfl
  split
  · rfl
  split
  · rfl
  · rw [mark_setCproc, mark_sendcmd]
    rfl

@[simp] theorem mark_ftpPassive (w : World α) : (ftpPassive w).mark = w.mark := by
  rw [ftpPassive]
  rw [mark_setCproc, mark_sendcmd]
  rfl

theorem mark_startList (w : World α) : (startList w).mark = w.mark := by
  rw [startList]
  dsimp only
  split
  · exact mark_malloc w
  split
  · exact (mark_malloc _).trans (mark_malloc w)
  · have hsend := mark_sendcmd (.list (malloc (malloc w).2).2.nrbuf)
      { (malloc (malloc w).2).2 with
        rbufs := Function.update (malloc (malloc w).2).2.rbufs (malloc (malloc w).2).2.nrbuf
          ⟨[], 1024⟩
        nrbuf := (malloc (malloc w).2).2.nrbuf + 1 }
    exact hsend.trans ((mark_malloc _).trans (mark_malloc w))

theorem mark_startTransfer (t : ℕ) (w : World α) : (startTransfer t w).mark = w.mark := by
  rw [startTransfer]
  split
  · exact mark_sendcmd _ w
  · rfl

/-- Without a wait, `prepare_data` has a data connection or asks for one. -/
theorem mark_prepareData (h : w.ftp.data ≠ none ∨ w.ftp.passive = false) :
    (prepareData wait w).2.mark = w.mark := by
  rw [prepareData]
  split
  · rfl
  · next hdata =>
    rw [if_neg (by simp [h.resolve_left hdata])]
    dsimp only
    split <;> exact mark_ftpActive w

/-- **`exec_op`, when it does not wait.** -/
theorem mark_execOp {op : Op}
    (h : op.needsData = true → w.ftp.data ≠ none ∨ w.ftp.passive = false) :
    (execOp wait op w).mark = w.mark := by
  have hchdir : ∀ d (w : World α), (ftpChdir d w).mark = w.mark := fun d w => by
    rw [ftpChdir]
    split <;> simp
  have hlist : ∀ w : World α, w.ftp.data ≠ none ∨ w.ftp.passive = false →
      (ftpList wait w).mark = w.mark := fun w hw => by
    unfold ftpList
    dsimp only
    split
    · exact mark_prepareData hw
    · exact (mark_startList _).trans (mark_prepareData hw)
  have hxfer : ∀ t (w : World α), w.ftp.data ≠ none ∨ w.ftp.passive = false →
      (ftpTransfer wait t w).mark = w.mark := fun t w hw => by
    unfold ftpTransfer
    dsimp only
    split
    · exact mark_prepareData hw
    · exact (mark_startTransfer t _).trans (mark_prepareData hw)
  unfold execOp
  cases op with
  | type arg =>
    have htype : (ftpType arg (w.enter (.type arg))).mark = w.mark := by
      unfold ftpType
      dsimp only
      split
      · rfl
      · exact mark_sendcmd _ _
    exact htype
  | pwd => exact mark_sendcmd .pwd (w.enter .pwd)
  | chdir d => exact hchdir d (w.enter (.chdir d))
  | cdup => exact hchdir _ (w.enter .cdup)
  | list => exact hlist (w.enter .list) (h rfl)
  | xfer t => exact hxfer t (w.enter (.xfer t)) (h rfl)
  | _ => rfl

/-- The end of `ftp_handle`, when the next operation does not wait. -/
theorem mark_runQueue (h : w.ftp.data ≠ none ∨ w.ftp.passive = false) :
    (runQueue wait w).mark = w.mark := by
  have hqueue : ∀ w : World α, w.ftp.data ≠ none ∨ w.ftp.passive = false →
      (execQueued wait w).mark = w.mark := fun w hw => by
    rw [execQueued]
    split
    · rfl
    · next op q _ =>
      exact mark_execOp (w := w.mapFtp fun f => { f with queue := q }) fun _ => hw
  rw [runQueue]
  split
  · dsimp only
    split
    · exact hqueue _ h
    · exact hqueue _ h
  · rfl

end Mark

/-! ### Bytes that complete no reply -/

theorem completed_cr (cur bs : Bytes) : completed cur (cr :: bs) = completed (cur ++ [nul]) bs := by
  have hnul : nulled (cr :: bs) = nul :: nulled bs := by simp [nulled]
  simp [completed, feed, hnul, splitFrom_cons_of_ne (show nul ≠ lf by decide)]

theorem completed_lf (cur bs : Bytes) :
    completed cur (lf :: bs) = (replyCode? (cstr cur)).toList ++ completed [] bs := by
  have hlf : nulled (lf :: bs) = lf :: nulled bs := by simp [nulled, show lf ≠ cr by decide]
  cases h : replyCode? (cstr cur) <;> simp [completed, feed, hlf, splitFrom_cons_self, h]

theorem completed_cons {b : Byte} (hcr : b ≠ cr) (hlf : b ≠ lf) (cur bs : Bytes) :
    completed cur (b :: bs) = completed (cur ++ [b]) bs := by
  have hkeep : nulled (b :: bs) = b :: nulled bs := by simp [nulled, hcr]
  simp [completed, feed, hkeep, splitFrom_cons_of_ne hlf]

/-- A line that is no reply only writes the log file. -/
theorem procControl_of_none (wait : Int → World α → Int × World α) {buf : Bytes} {w : World α}
    (h : replyCode? buf = none) :
    (procControl wait buf w).ftp = w.ftp ∧ (procControl wait buf w).env = w.env ∧
      (procControl wait buf w).log = w.log := by
  have hle : respcode (replyText buf) ≤ 0 := by
    by_contra hpos
    simp [replyCode?, not_le.mp hpos] at h
  unfold procControl
  dsimp only
  split
  · exact ⟨rfl, rfl, rfl⟩
  · next h0 =>
    rw [if_pos (by omega)]
    exact ⟨rfl, rfl, rfl⟩

/-- Of what the wait looks at, only the line buffer has changed. -/
structure Unanswered (w w' : World α) : Prop where
  ftp_eq : w'.ftp = { w.ftp with crecv := w'.ftp.crecv }
  selects_eq : w'.env.selects = w.env.selects
  delivered_eq : delivered w'.log = delivered w.log

section Unanswered

variable {w w₀ w₁ w₂ : World α} (wait : Int → World α → Int × World α)

theorem Unanswered.refl (w : World α) : Unanswered w w := ⟨rfl, rfl, rfl⟩

theorem Unanswered.trans (h : Unanswered w₀ w₁) (h' : Unanswered w₁ w₂) : Unanswered w₀ w₂ where
  ftp_eq := by
    rw [h'.ftp_eq, h.ftp_eq]
  selects_eq := h'.selects_eq.trans h.selects_eq
  delivered_eq := h'.delivered_eq.trans h.delivered_eq

theorem Unanswered.lastResp_eq (h : Unanswered w₀ w) : w.ftp.lastResp = w₀.ftp.lastResp := by
  rw [h.ftp_eq]

theorem Unanswered.ctl_eq (h : Unanswered w₀ w) : w.ftp.ctl = w₀.ftp.ctl := by rw [h.ftp_eq]

theorem Unanswered.cproc_eq (h : Unanswered w₀ w) : w.ftp.cproc = w₀.ftp.cproc := by rw [h.ftp_eq]

theorem Unanswered.busy_eq (h : Unanswered w₀ w) : w.ftp.busy = w₀.ftp.busy := by rw [h.ftp_eq]

theorem unanswered_line {cur : Bytes} (h : replyCode? (cstr cur) = none) (w : World α) :
    Unanswered w (procControl wait (cstr cur) (w.emit (.line cur))) ∧
      (procControl wait (cstr cur) (w.emit (.line cur))).env = w.env := by
  obtain ⟨hftp, henv, hlog⟩ := procControl_of_none wait (w := w.emit (.line cur)) h
  refine ⟨⟨by rw [hftp]; rfl, congrArg Env.selects henv, ?_⟩, henv⟩
  rw [hlog]
  rfl

theorem unanswered_scanBytes (bs cur : Bytes) (seen : Bool) (w : World α)
    (h : completed cur bs = []) :
    Unanswered w (scanBytes wait bs cur seen w) ∧ (scanBytes wait bs cur seen w).env = w.env := by
  induction bs generalizing cur seen w with
  | nil => exact ⟨⟨rfl, rfl, rfl⟩, rfl⟩
  | cons b bs ih =>
    rw [scanBytes]
    split
    · next hcr =>
      rw [hcr, completed_cr] at h
      exact ih _ _ _ h
    split
    · next hcr hlf =>
      rw [hlf, completed_lf] at h
      obtain ⟨hline, hrest⟩ := List.append_eq_nil_iff.mp h
      obtain ⟨hnow, henv⟩ := unanswered_line wait (Option.toList_eq_nil_iff.mp hline) w
      obtain ⟨hlater, henv'⟩ := ih [] true _ hrest
      exact ⟨hnow.trans hlater, henv'.trans henv⟩
    · next hcr hlf =>
      rw [completed_cons hcr hlf] at h
      exact ih _ _ _ h

end Unanswered

/-! ### Replies -/

/-- The reply handlers of a data connection that is being set up. In passive mode there is one
already, so that no operation of the queue would wait for it. -/
def Session.Connecting (s : Session) : Prop :=
  (s.passive = false ∧ (s.cproc = some .pasv ∨ s.cproc = some .active)) ∨
    (s.data = true ∧ s.cproc = some .pasv)

theorem Session.connecting_active (s : Session) (sa : Option (ℕ × ℕ)) (hp : s.passive = false)
    (h : s.cproc = some .pasv) : Connecting (s.active sa) := by
  rcases sa with - | ⟨a, p⟩
  · exact .inl ⟨hp, .inl h⟩
  · exact .inl ⟨hp, .inr rfl⟩

/-- The first reply to `PASV` sets a data connection up, and the next ones leave it to that. -/
theorem Session.Reply.connecting {code : Int} {buf : Bytes} {s s' : Session}
    (hr : Reply code buf s s') (hs : s.cproc = some .pasv ∨ Connecting s) : Connecting s' := by
  have hproc : s.cproc = some .pasv ∨ s.passive = false ∧ s.cproc = some .active := by
    rcases hs with h | ⟨hp, h | h⟩ | ⟨-, h⟩
    · exact .inl h
    · exact .inl h
    · exact .inr ⟨hp, h⟩
    · exact .inl h
  cases hr with
  | activeOk h | activeFail h =>
    exact .inl ⟨(hproc.resolve_left (by simp [h])).1, .inr h⟩
  | pasvOpen h => exact .inr ⟨rfl, h⟩
  | pasvFall sa h => exact connecting_active { s.got code buf with passive := false } sa rfl h
  | cwdOk h | loginDone h | pwd h | cwdFail h | listMore h | listEnd h | xferTotal h | xferMore h
  | xferEnd h | xferFail h => simp [h] at hproc
  | loginUser _ h | loginPass _ h | loginOther h => simp [h] at hproc

/-- A reply has been processed, and its code is the last one. -/
structure Answered (w w' : World α) : Prop where
  pos : 0 < w'.ftp.lastResp
  selects_eq : w'.env.selects = w.env.selects
  exists_codes : ∃ codes, delivered w'.log = delivered w.log ++ codes ∧ w'.ftp.lastResp ∈ codes

section Answered

variable {w w₀ w₁ w₂ : World α} (wait : Int → World α → Int × World α)

theorem mark_noPasv (w : World α) : (noPasv w).2.mark = w.mark := mark_ftpActive _

theorem mark_cprocPasv (code : Int) (buf : Bytes) (w : World α) :
    (cprocPasv code buf w).2.mark = w.mark := by
  rw [cprocPasv]
  split
  · exact mark_noPasv _
  split
  · exact mark_noPasv _
  dsimp only
  split
  · exact mark_noPasv _
  split
  · exact mark_noPasv _
  · rfl

theorem mark_cprocActive (code : Int) (w : World α) : (cprocActive code w).2.mark = w.mark := by
  rw [cprocActive]
  split
  · exact mark_ftpClose _
  · rfl

/-- What a reply does to `last_resp` while a data connection is being set up. -/
theorem mark_procControl {buf : Bytes} {code : Int} (hcode : replyCode? buf = some code)
    (hp : w.ftp.cproc = some .pasv ∨ w.ftp.cproc = some .active) :
    (procControl wait buf w).mark = (code, w.env.selects) := by
  obtain ⟨hpos, hcode⟩ : 0 < respcode (replyText buf) ∧ respcode (replyText buf) = code := by
    simpa [replyCode?] using hcode
  subst hcode
  have hsettle : ∀ r : Int × World α, (settle r).mark = r.2.mark := fun r => by
    rw [settle]
    split <;> rfl
  unfold procControl deliver
  dsimp only
  rw [if_neg (by omega), if_neg (by omega)]
  rcases hp with hp | hp
  · have hproc : (infomsg (ascii "recv: " ++ replyText buf ++ ascii "\n") w).ftp.cproc =
        some .pasv := hp
    simp only [World.mapFtp, World.emit, hproc, hsettle, CProc.run, mark_cprocPasv]
    rfl
  · have hproc : (infomsg (ascii "recv: " ++ replyText buf ++ ascii "\n") w).ftp.cproc =
        some .active := hp
    simp only [World.mapFtp, World.emit, hproc, hsettle, CProc.run, mark_cprocActive]
    rfl

/-- A line that is a reply. -/
theorem answered_line {cur : Bytes} {code : Int} {codes : List Int}
    (hcode : replyCode? (cstr cur) = some code)
    (hctl : w.view.ctl = true ∨ w.view.cproc = some .active)
    (hp : w.ftp.cproc = some .pasv ∨ Connecting w.view)
    (hsel : w.env.selects = w₀.env.selects)
    (hdel : delivered w.log = delivered w₀.log ++ codes) :
    Answered w₀ (procControl wait (cstr cur) (w.emit (.line cur))) ∧
      Connecting (procControl wait (cstr cur) (w.emit (.line cur))).view := by
  set g := w.emit (.line cur) with hg
  obtain ⟨hpos, hval⟩ : 0 < respcode (replyText (cstr cur)) ∧
      respcode (replyText (cstr cur)) = code := by
    simpa [replyCode?] using hcode
  have hproc : g.ftp.cproc = some .pasv ∨ g.ftp.cproc = some .active := by
    rcases hp with h | ⟨-, h⟩ | ⟨-, h⟩
    · exact .inl h
    · exact h
    · exact .inl h
  have hmark := mark_procControl wait (w := g) hcode hproc
  have hlast : (procControl wait (cstr cur) g).ftp.lastResp = code := congrArg Prod.fst hmark
  rcases reply_procControl wait (cstr cur) (w := g) hctl with ⟨hle, -⟩ | ⟨-, hr⟩
  · omega
  refine ⟨⟨by omega, (congrArg Prod.snd hmark).trans hsel, codes ++ [code], ?_, by simp [hlast]⟩,
    hr.connecting hp⟩
  have hnew : delivered (procControl wait (cstr cur) g).log = delivered w.log ++ [code] := by
    rw [← hval]
    exact hr.delivered_eq
  rw [hnew, hdel, List.append_assoc]

/-- Behind a reply, the scan goes on. -/
theorem Answered.scanBytes (h : Answered w₀ w) (hp : Connecting w.view) (bs cur : Bytes)
    (seen : Bool) (hctl : w.view.ctl = true ∨ w.view.cproc = some .active) :
    Answered w₀ (scanBytes wait bs cur seen w) ∧
      Connecting (scanBytes wait bs cur seen w).view := by
  refine scanBytes_induction wait (I := fun w => Answered w₀ w ∧ Connecting w.view) ?_ ?_ bs cur
    seen hctl ⟨h, hp⟩
  · rintro w cur hctl ⟨h, hp⟩
    cases hcode : replyCode? (cstr cur) with
    | none =>
      obtain ⟨hftp, henv, hlog⟩ := procControl_of_none wait (w := w.emit (.line cur)) hcode
      refine ⟨⟨by rw [hftp]; exact h.pos, by rw [henv]; exact h.selects_eq, ?_⟩, ?_⟩
      · rw [hftp, hlog]
        exact h.exists_codes
      · rw [Connecting, World.view] at hp ⊢
        rw [hftp]
        exact hp
    | some code =>
      obtain ⟨codes, hdel, -⟩ := h.exists_codes
      exact answered_line wait hcode hctl (.inr hp) h.selects_eq hdel
  · rintro w c ⟨h, hp⟩
    exact ⟨⟨h.pos, h.selects_eq, h.exists_codes⟩, hp⟩

/-- **Bytes that complete a reply.** -/
theorem answered_scanBytes (bs cur : Bytes) (seen : Bool) (h : Unanswered w₀ w)
    (hctl : w₀.ftp.ctl ≠ none) (hp : w₀.ftp.cproc = some .pasv) (hc : completed cur bs ≠ []) :
    Answered w₀ (scanBytes wait bs cur seen w) ∧
      Connecting (scanBytes wait bs cur seen w).view := by
  induction bs generalizing cur seen w with
  | nil => exact absurd rfl hc
  | cons b bs ih =>
    rw [Visftp.scanBytes]
    split
    · next hcr =>
      rw [hcr, completed_cr] at hc
      exact ih _ _ h hc
    split
    · next hcr hlf =>
      rw [hlf, completed_lf] at hc
      have hopen : w.view.ctl = true := view_ctl_of_ne_none (h.ctl_eq ▸ hctl)
      cases hcode : replyCode? (cstr cur) with
      | none =>
        rw [hcode] at hc
        exact ih [] true (h.trans (unanswered_line wait hcode w).1) hc
      | some code =>
        obtain ⟨hans, hconn⟩ := answered_line wait hcode (.inl hopen)
          (.inl (h.cproc_eq.trans hp)) h.selects_eq (h.delivered_eq.trans (List.append_nil _).symm)
        refine hans.scanBytes wait hconn bs [] true ?_
        rcases reply_procControl wait (cstr cur) (w := w.emit (.line cur)) (.inl hopen) with
          ⟨-, hv⟩ | ⟨-, hr⟩
        · rw [hv]
          exact .inl hopen
        · exact hr.keeps_open (.inl hopen)
    · next hcr hlf =>
      rw [completed_cons hcr hlf] at hc
      exact ih _ _ h hc

end Answered

/-! ### One event -/

/-- A round of `handle_control`, before the answer of `recv` is looked at: a full line buffer has
been emptied. -/
def World.asked (w : World α) : World α :=
  { (if crecvSize ≤ w.ftp.crecv.length then
      warnmsg (ascii "discard buffer\n") (w.mapFtp fun f => { f with crecv := [] })
    else w) with env := { w.env with ctlIn := w.env.ctlIn.tail } }

/-- The answer. -/
def World.answer (w : World α) : Recv :=
  (w.env.ctlIn.headD .again).clip (crecvSize - w.asked.ftp.crecv.length)

section Event

variable {w w₀ : World α} (wait : Int → World α → Int × World α)

theorem unanswered_asked (w : World α) : Unanswered w w.asked := by
  rw [World.asked]
  split <;> exact ⟨rfl, rfl, rfl⟩

theorem handleControlLoop_succ (fuel : ℕ) (hctl : w.ftp.ctl ≠ none) :
    handleControlLoop wait (fuel + 1) w =
      match w.answer with
      | .intr => handleControlLoop wait fuel w.asked
      | .again => (0, w.asked)
      | .eof => (-1, ftpClose w.asked)
      | .data b => handleControlLoop wait fuel
          (scanBytes wait b w.asked.ftp.crecv false (w.asked.emit (.recv b))) := by
  rw [handleControlLoop]
  rw [World.answer, World.asked]
  by_cases hfull : crecvSize ≤ w.ftp.crecv.length
  · simp only [hfull, if_true]
    rw [recvCtl, if_neg (by exact hctl)]
    rfl
  · simp only [hfull, if_false]
    rw [recvCtl, if_neg hctl]
    rfl

theorem answers_eq (w : World α) :
    answers w.ftp.crecv w.env.ctlIn =
      match w.answer with
      | .intr => answers w.asked.ftp.crecv w.asked.env.ctlIn
      | .again => false
      | .eof => true
      | .data b => decide (completed w.asked.ftp.crecv b ≠ []) ||
          answers (feed ([], w.asked.ftp.crecv) b).2 w.asked.env.ctlIn := by
  have hcrecv : w.asked.ftp.crecv =
      if crecvSize ≤ w.ftp.crecv.length then [] else w.ftp.crecv := by
    rw [World.asked]
    split <;> rfl
  rw [World.answer, hcrecv]
  cases hin : w.env.ctlIn with
  | nil => rfl
  | cons r rs =>
    have htail : w.asked.env.ctlIn = rs := by
      rw [World.asked]
      rw [hin]
      rfl
    rw [htail, answers]
    rfl

/-- The scan of received bytes that complete no reply. -/
theorem unanswered_data {b : Bytes} (hctl : w.ftp.ctl ≠ none) (h : completed w.ftp.crecv b = []) :
    let w' := scanBytes wait b w.ftp.crecv false (w.emit (.recv b))
    Unanswered w w' ∧ w'.ftp.crecv = (feed ([], w.ftp.crecv) b).2 ∧ w'.env = w.env := by
  obtain ⟨hscan, henv⟩ := unanswered_scanBytes wait b w.ftp.crecv false
    (w.emit (.recv b)) h
  obtain ⟨-, -, hcrecv⟩ := scanBytes_spec wait b w.ftp.crecv false (w := w.emit (.recv b))
    (.inl (view_ctl_of_ne_none hctl))
  have hrecv : Unanswered w (w.emit (.recv b)) := ⟨rfl, rfl, rfl⟩
  refine ⟨hrecv.trans hscan, ?_, henv⟩
  rw [hcrecv]
  simp [feed]

/-- **An event that completes no reply** leaves everything to the next. -/
theorem unanswered_handleControlLoop (fuel : ℕ) (hctl : w.ftp.ctl ≠ none)
    (h : answers w.ftp.crecv w.env.ctlIn = false) :
    (handleControlLoop wait fuel w).1 = 0 ∧ Unanswered w (handleControlLoop wait fuel w).2 := by
  induction fuel generalizing w with
  | zero => exact ⟨rfl, .refl w⟩
  | succ fuel ih =>
    have hasked := unanswered_asked w
    have hctl' : w.asked.ftp.ctl ≠ none := hasked.ctl_eq ▸ hctl
    rw [handleControlLoop_succ wait fuel hctl]
    rw [answers_eq] at h
    cases hr : w.answer with
    | intr =>
      simp only [hr] at h
      obtain ⟨hzero, hrest⟩ := ih hctl' h
      exact ⟨hzero, hasked.trans hrest⟩
    | again => exact ⟨rfl, hasked⟩
    | eof => simp [hr] at h
    | data b =>
      simp only [hr, Bool.or_eq_false_iff, decide_eq_false_iff_not, not_not] at h
      obtain ⟨hscan, hcrecv, henv⟩ := unanswered_data wait hctl' h.1
      obtain ⟨hzero, hrest⟩ := ih (hscan.ctl_eq ▸ hctl') (by rw [hcrecv, henv]; exact h.2)
      exact ⟨hzero, (hasked.trans hscan).trans hrest⟩

theorem delivered_ftpClose (w : World α) : delivered (ftpClose w).log = delivered w.log := by
  have hlog : (ftpClose w).log = w.view.close.log := congrArg Session.log (view_ftpClose w)
  rw [hlog, (Extends.refl w.view).close.delivered_eq]
  rfl

/-- Behind a reply, the event goes on. -/
theorem Answered.handleControlLoop (fuel : ℕ) (h : Answered w₀ w) (hp : Connecting w.view) :
    Answered w₀ (handleControlLoop wait fuel w).2 ∧
      ((Visftp.handleControlLoop wait fuel w).1 ≠ -1 →
        Connecting (Visftp.handleControlLoop wait fuel w).2.view) := by
  induction fuel generalizing w with
  | zero => exact ⟨h, fun _ => hp⟩
  | succ fuel ih =>
    rw [Visftp.handleControlLoop]
    set w₁ := if crecvSize ≤ w.ftp.crecv.length then
        warnmsg (ascii "discard buffer\n") (w.mapFtp fun f => { f with crecv := [] })
      else w with hw₁
    have hroom : Answered w₀ w₁ ∧ Connecting w₁.view := by
      rw [hw₁]
      split
      · exact ⟨⟨h.pos, h.selects_eq, h.exists_codes⟩, hp⟩
      · exact ⟨h, hp⟩
    set r := recvCtl (crecvSize - w₁.ftp.crecv.length) w₁ with hr
    have hasked : Answered w₀ r.2 ∧ Connecting r.2.view := by
      rw [hr]
      rw [recvCtl]
      split
      · exact hroom
      · exact ⟨⟨hroom.1.pos, hroom.1.selects_eq, hroom.1.exists_codes⟩, hroom.2⟩
    split
    · exact ih hasked.1 hasked.2
    · exact ⟨hasked.1, fun _ => hasked.2⟩
    · have hmark := mark_ftpClose r.2
      have hlast : (ftpClose r.2).ftp.lastResp = r.2.ftp.lastResp := congrArg Prod.fst hmark
      refine ⟨⟨?_, (congrArg Prod.snd hmark).trans hasked.1.selects_eq, ?_⟩,
        fun hne => absurd rfl hne⟩
      · exact hlast ▸ hasked.1.pos
      · rw [hlast, delivered_ftpClose]
        exact hasked.1.exists_codes
    · next b hdata =>
      obtain ⟨hctl, -⟩ := recvCtl_spec (hr ▸ hdata) (by simp)
      have hrecv : Answered w₀ (r.2.emit (.recv b)) :=
        ⟨hasked.1.pos, hasked.1.selects_eq, hasked.1.exists_codes⟩
      obtain ⟨hans, hconn⟩ := hrecv.scanBytes wait hasked.2 b r.2.ftp.crecv false
        (.inl (view_ctl_of_ne_none hctl))
      exact ih hans hconn

/-- The server has closed the connection, before any reply. -/
structure HungUp (w w' : World α) : Prop where
  ctl_eq : w'.ftp.ctl = none
  mark_eq : w'.mark = w.mark
  delivered_eq : delivered w'.log = delivered w.log

theorem Unanswered.hungUp (h : Unanswered w₀ w) : HungUp w₀ (ftpClose w) where
  ctl_eq := by
    unfold ftpClose
    dsimp only
    split
    · assumption
    · rfl
  mark_eq := by
    rw [mark_ftpClose]
    exact Prod.ext h.lastResp_eq h.selects_eq
  delivered_eq := (delivered_ftpClose w).trans h.delivered_eq

/-- **An event that answers the wait.** -/
theorem answered_handleControlLoop (fuel : ℕ) (hfuel : w.env.ctlIn.length < fuel)
    (hctl : w.ftp.ctl ≠ none) (hp : w.ftp.cproc = some .pasv)
    (h : answers w.ftp.crecv w.env.ctlIn = true) :
    Answered w (handleControlLoop wait fuel w).2 ∧ ((handleControlLoop wait fuel w).1 ≠ -1 →
        Connecting (handleControlLoop wait fuel w).2.view) ∨
      (handleControlLoop wait fuel w).1 = -1 ∧ HungUp w (handleControlLoop wait fuel w).2 := by
  suffices hall : ∀ w', Unanswered w w' → w'.env.ctlIn.length < fuel →
      answers w'.ftp.crecv w'.env.ctlIn = true →
      Answered w (handleControlLoop wait fuel w').2 ∧ ((handleControlLoop wait fuel w').1 ≠ -1 →
          Connecting (handleControlLoop wait fuel w').2.view) ∨
        (handleControlLoop wait fuel w').1 = -1 ∧ HungUp w (handleControlLoop wait fuel w').2 from
    hall w (.refl w) hfuel h
  clear hfuel h
  intro w' hw hfuel h
  induction fuel generalizing w' with
  | zero => omega
  | succ fuel ih =>
    have hctl' : w'.ftp.ctl ≠ none := hw.ctl_eq ▸ hctl
    have hasked : Unanswered w w'.asked := hw.trans (unanswered_asked w')
    have hin : w'.asked.env.ctlIn = w'.env.ctlIn.tail := rfl
    have hcons : w'.env.ctlIn ≠ [] := fun hnil => by simp [hnil, answers] at h
    have hlen : w'.asked.env.ctlIn.length < fuel := by
      rw [hin, List.length_tail]
      have := List.length_pos_iff.mpr hcons
      omega
    rw [handleControlLoop_succ wait fuel hctl']
    rw [answers_eq] at h
    cases hr : w'.answer with
    | intr =>
      simp only [hr] at h
      exact ih _ hasked hlen h
    | again => simp [hr] at h
    | eof => exact .inr ⟨rfl, hasked.hungUp⟩
    | data b =>
      simp only [hr, Bool.or_eq_true, decide_eq_true_eq] at h
      by_cases hc : completed w'.asked.ftp.crecv b = []
      · have hopen : w'.asked.ftp.ctl ≠ none := hasked.ctl_eq ▸ hctl
        obtain ⟨hscan, hcrecv, henv⟩ := unanswered_data wait hopen hc
        refine ih _ (hasked.trans hscan) (henv ▸ hlen) ?_
        rw [hcrecv, henv]
        exact h.resolve_left fun hne => hne hc
      · have hrecv : Unanswered w (w'.asked.emit (.recv b)) :=
          hasked.trans ⟨rfl, rfl, rfl⟩
        obtain ⟨hans, hconn⟩ := answered_scanBytes wait b w'.asked.ftp.crecv false hrecv hctl hp hc
        exact .inl (hans.handleControlLoop wait fuel hconn)

theorem Session.Connecting.no_wait (h : Connecting w.view) :
    w.ftp.data ≠ none ∨ w.ftp.passive = false := by
  rcases h with ⟨hp, -⟩ | ⟨hd, -⟩
  · exact .inr hp
  · exact .inl (Option.isSome_iff_ne_none.mp hd)

/-- The end of `ftp_handle` processes no reply, when the next operation does not wait. -/
theorem delivered_runQueue (h : w.ftp.data ≠ none ∨ w.ftp.passive = false) :
    delivered (runQueue wait w).log = delivered w.log := by
  have hqueue : ∀ w : World α, w.ftp.data ≠ none ∨ w.ftp.passive = false →
      delivered (execQueued wait w).log = delivered w.log := fun w hw => by
    rw [execQueued]
    split
    · rfl
    · next op q _ =>
      have hexec : Exec op (w.mapFtp fun f => { f with queue := q }).view
          (execOp wait op (w.mapFtp fun f => { f with queue := q })).view := exec_execOp fun _ => hw
      exact ((Extends.refl _).exec hexec).delivered_eq
  rw [runQueue]
  split
  · dsimp only
    split
    · exact hqueue _ h
    · exact hqueue _ h
  · rfl

/-- **`ftp_handle` of an event that completes no reply.** -/
theorem unanswered_ftpHandleWith (hctl : w.ftp.ctl ≠ none) (hb : 0 < w.ftp.busy)
    (h : answers w.ftp.crecv w.env.ctlIn = false) :
    Unanswered w (ftpHandleWith wait w.ftp.ctl w) := by
  obtain ⟨hzero, hrest⟩ := unanswered_handleControlLoop wait (w.env.ctlIn.length + 1)
    hctl h
  rw [ftpHandleWith, if_pos rfl]
  dsimp only [handleControl]
  rw [if_neg (by omega), runQueue, if_neg (by rw [hrest.busy_eq]; omega)]
  exact hrest

/-- **`ftp_handle` of an event that answers the wait.** -/
theorem answered_ftpHandleWith (hctl : w.ftp.ctl ≠ none) (hp : w.ftp.cproc = some .pasv)
    (h : answers w.ftp.crecv w.env.ctlIn = true) :
    Answered w (ftpHandleWith wait w.ftp.ctl w) ∨ HungUp w (ftpHandleWith wait w.ftp.ctl w) := by
  have hevent : Answered w (handleControl wait w).2 ∧ ((handleControl wait w).1 ≠ -1 →
        Connecting (handleControl wait w).2.view) ∨
      (handleControl wait w).1 = -1 ∧ HungUp w (handleControl wait w).2 :=
    answered_handleControlLoop wait (w.env.ctlIn.length + 1) (Nat.lt_succ_self _) hctl hp h
  rw [ftpHandleWith, if_pos rfl]
  dsimp only
  rcases hevent with ⟨hans, hconn⟩ | ⟨hclosed, hhung⟩
  · split
    · exact .inl hans
    · next hopen =>
      have hfree := (hconn hopen).no_wait
      have hmark : (runQueue wait (handleControl wait w).2).mark = (handleControl wait w).2.mark :=
        mark_runQueue hfree
      have hlast : (runQueue wait (handleControl wait w).2).ftp.lastResp =
          (handleControl wait w).2.ftp.lastResp := congrArg Prod.fst hmark
      refine .inl ⟨?_, (congrArg Prod.snd hmark).trans hans.selects_eq, ?_⟩
      · rw [hlast]
        exact hans.pos
      · rw [hlast, delivered_runQueue wait hfree]
        exact hans.exists_codes
  · rw [if_pos hclosed]
    exact .inr hhung

end Event

end Visftp
