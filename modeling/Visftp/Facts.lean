import Mathlib.Logic.Relation
import Visftp.Refinement

/-!
# What a session does not show

The fields of `struct ftp` that the application reads, with those that decide who writes to them.
Most of them are written in one place. The directory is written by `cproc_pwd`, the status by the
handlers that wait for a data connection and by a failed login, and the entries by `dproc_list`; a
data handler is installed behind a reply handler, and passive mode is given up by one. Until a
reply handler has been installed, none of this happens.

A `Facts.Step` is one of these assignments. `leads_run` says that a run of the client makes no
others, whatever else it does. What every step keeps is then a property of every run.

## Main definitions

* `told`, `named` — what the history has of it
* `Facts`, `Facts.Step`, `Leads` — the facts, and how they change

## Main results

* `Leads.ftpHandleWith`, `leads_waitLoop` — the event handler, and the wait
* `leads_run` — whole runs
-/

namespace Visftp

open CString Relation

/-- The directory in the last reply that `cproc_pwd` could read. -/
def told : List Event → Option Bytes
  | [] => none
  | .reply code p _ buf :: past =>
    if code = 257 ∧ p = some .pwd then (getQuotedText buf).or (told past) else told past
  | _ :: past => told past

/-- The names of the `USER` commands, the last one first. -/
def named : List Event → List Bytes
  | [] => []
  | .sent (.user name) :: past => name :: named past
  | _ :: past => named past

/-- What a session does not show. -/
structure Facts where
  cproc : Option CProc
  dproc : Option DProc
  passive : Bool
  status : Status
  curdir : Option Bytes
  dirent : List Dirent
  modified : Bool
  told : Option Bytes
  named : List Bytes

/-- The facts about a client. -/
def World.facts {α : Type} (w : World α) : Facts where
  cproc := w.ftp.cproc
  dproc := w.ftp.dproc
  passive := w.ftp.passive
  status := w.ftp.status
  curdir := w.ftp.curdir
  dirent := w.ftp.dirent
  modified := w.ftp.modified
  told := Visftp.told w.log
  named := Visftp.named w.log

/-- **How the facts change.** -/
inductive Facts.Step : Facts → Facts → Prop
  /-- A reply handler is installed. -/
  | hook {f} (p : CProc) : Step f { f with cproc := some p }
  /-- A data handler is installed behind it. -/
  | expect {f} (p : DProc) (h : f.cproc ≠ none) : Step f { f with dproc := some p }
  /-- A listing is complete. -/
  | listed {f} (dirent : List Dirent) (h : f.dproc ≠ none) :
      Step f { f with dirent, modified := true, dproc := none }
  /-- The server has refused `PASV`. -/
  | fallBack {f} (h : f.cproc ≠ none) : Step f { f with passive := false }
  /-- A handler or a failed login sets the status. -/
  | connected {f} (status : Status) (h : f.cproc = none → status = .disc) :
      Step f { f with status }
  /-- The server has told the directory. -/
  | moved {f} (d : Bytes) (h : f.cproc ≠ none) :
      Step f { f with curdir := some d, told := some d, modified := true }
  /-- `USER` is sent, on a reply that nobody waits for. -/
  | greeted {f} (name : Bytes) (h : f.cproc = none) : Step f { f with named := name :: f.named }

variable {α : Type} {m : Facts} {w w' : World α} {wait : Int → World α → Int × World α}

/-- The facts about a client come from others. -/
def Leads (m : Facts) (w : World α) : Prop := ReflTransGen Facts.Step m w.facts

/-- `ftp_waitresp` makes no other changes either. -/
def WaitLeads (m : Facts) (wait : Int → World α → Int × World α) : Prop :=
  ∀ t w, Leads m w → Leads m (wait t w).2

namespace Leads

theorem congr (h : Leads m w) (hw : w'.facts = w.facts) : Leads m w' := by
  rw [Leads, hw]
  exact h

theorem step (h : Leads m w) (hw : Facts.Step w.facts w'.facts) : Leads m w' := h.tail hw

/-! ### Commands -/

theorem sendcmd (h : Leads m w) {c : Cmd} (hc : ∀ name, c ≠ .user name) :
    Leads m (Visftp.sendcmd c w) := by
  have hnamed : named (.sent c :: w.log) = named w.log := by
    cases c with
    | user name => exact absurd rfl (hc name)
    | _ => rfl
  rw [Visftp.sendcmd]
  split
  · exact h
  · refine h.congr ?_
    dsimp only
    split
    · exact congrArg (fun n => { w.facts with named := n }) hnamed
    · exact congrArg (fun n => { w.facts with named := n }) hnamed

theorem setCproc (h : Leads m w) (p : CProc) : Leads m (Visftp.setCproc p w) :=
  h.step (.hook p)

theorem ask (h : Leads m w) {c : Cmd} (hc : ∀ name, c ≠ .user name) (p : CProc) :
    Leads m (Visftp.setCproc p (Visftp.sendcmd c w)) :=
  (h.sendcmd hc).setCproc p

/-- A command is sent, and handlers are installed for its reply and for its data. -/
theorem askData (h : Leads m w) {c : Cmd} (hc : ∀ name, c ≠ .user name) (p : CProc) (d : DProc) :
    Leads m ((Visftp.setCproc p (Visftp.sendcmd c w)).mapFtp fun f =>
      { f with dproc := some d, busy := f.busy + 1 }) :=
  (h.ask hc p).step (.expect d (by exact Option.some_ne_none p))

theorem ftpClose (h : Leads m w) : Leads m (Visftp.ftpClose w) := by
  rw [Visftp.ftpClose]
  split
  · exact h
  · exact h

theorem allocate (h : Leads m w) (possible : Bool) :
    Leads m (Visftp.allocate possible w).2 := by
  rw [Visftp.allocate]
  split
  · exact h
  · exact h

theorem malloc (h : Leads m w) : Leads m (Visftp.malloc w).2 := h.allocate true

theorem ftpActive (h : Leads m w) : Leads m (Visftp.ftpActive w).2 := by
  rw [Visftp.ftpActive]
  dsimp only
  split
  · exact h
  split
  · exact h
  split
  · exact h
  · exact ask (by exact h) (by simp) _

theorem ftpPassive (h : Leads m w) : Leads m (Visftp.ftpPassive w) :=
  ask (by exact h) (by simp) _

theorem ftpType (h : Leads m w) (type : Bytes) : Leads m (Visftp.ftpType type w) := by
  rw [Visftp.ftpType]
  split
  · exact h
  · exact h.sendcmd (by simp)

theorem ftpChdir (h : Leads m w) (dirname : Bytes) : Leads m (Visftp.ftpChdir dirname w) := by
  rw [Visftp.ftpChdir]
  split
  · exact h.ask (by simp) _
  · exact h.ask (by simp) _

theorem startList (h : Leads m w) : Leads m (Visftp.startList w) := by
  rw [Visftp.startList]
  dsimp only
  split
  · exact h.malloc
  split
  · exact h.malloc.malloc
  · exact askData (by exact h.malloc.malloc) (by simp) _ _

theorem startTransfer (h : Leads m w) (t : ℕ) : Leads m (Visftp.startTransfer t w) := by
  rw [Visftp.startTransfer]
  split
  · exact h.askData (by simp) _ _
  · exact h

/-! ### Operations -/

theorem prepareData (h : Leads m w) (hwait : WaitLeads m wait) :
    Leads m (Visftp.prepareData wait w).2 := by
  rw [Visftp.prepareData]
  split
  · exact h
  split
  · exact hwait _ _ h.ftpPassive
  · dsimp only
    split
    · exact h.ftpActive
    · exact h.ftpActive

theorem ftpList (h : Leads m w) (hwait : WaitLeads m wait) :
    Leads m (Visftp.ftpList wait w) := by
  rw [Visftp.ftpList]
  split
  · exact h.prepareData hwait
  · exact (h.prepareData hwait).startList

theorem ftpTransfer (h : Leads m w) (hwait : WaitLeads m wait) (t : ℕ) :
    Leads m (Visftp.ftpTransfer wait t w) := by
  rw [Visftp.ftpTransfer]
  split
  · exact h.prepareData hwait
  · exact (h.prepareData hwait).startTransfer t

theorem execOp (h : Leads m w) (hwait : WaitLeads m wait) (op : Op) :
    Leads m (Visftp.execOp wait op w) := by
  have henter : Leads m (w.enter op) := h
  cases op with
  | type arg => exact henter.ftpType arg
  | pwd => exact henter.ask (by simp) _
  | chdir d => exact henter.ftpChdir d
  | cdup => exact henter.ftpChdir _
  | list => exact henter.ftpList hwait
  | xfer t => exact henter.ftpTransfer hwait t
  | _ => exact h

theorem execQueued (h : Leads m w) (hwait : WaitLeads m wait) :
    Leads m (Visftp.execQueued wait w) := by
  rw [Visftp.execQueued]
  split
  · exact h
  · exact execOp (by exact h) hwait _

theorem submit (h : Leads m w) (hwait : WaitLeads m wait) {alloc : World α → Bool × World α}
    (halloc : Leads m (alloc w).2) (op : Op) : Leads m (Visftp.submit wait alloc op w).2 := by
  rw [Visftp.submit]
  split
  · exact execOp (by exact h) hwait op
  · dsimp only
    split
    · exact halloc
    · exact halloc

theorem ftpQueue (h : Leads m w) (hwait : WaitLeads m wait) (op : Op) :
    Leads m (Visftp.ftpQueue wait op w).2 := by
  refine h.submit hwait ?_ op
  dsimp only
  split
  · exact h.malloc.malloc
  · exact h.malloc

theorem ftpQueueTransfer (h : Leads m w) (hwait : WaitLeads m wait) (t : ℕ) :
    Leads m (Visftp.ftpQueueTransfer wait t w).2 :=
  h.submit hwait h.malloc _

/-! ### Data -/

theorem dprocList (h : Leads m w) {r : ℕ} (hd : w.ftp.dproc = some (.list r)) (buf : Bytes) :
    Leads m (Visftp.dprocList r buf w) := by
  rw [Visftp.dprocList]
  dsimp only
  split
  · have hne : w.ftp.dproc ≠ none := by rw [hd]; exact Option.some_ne_none _
    exact h.step (.listed _ hne)
  split
  · split
    · exact h.allocate _
    · exact h.allocate _
  · exact h

theorem dprocXfer (h : Leads m w) (t : ℕ) (buf : Bytes) :
    Leads m (Visftp.dprocXfer t buf w) := by
  have hstore : Leads m (Visftp.storeBytes t buf (w.emit (.touch t))) := by
    rw [Visftp.storeBytes]
    split
    · exact h
    · exact h
  rw [Visftp.dprocXfer]
  dsimp only
  split
  · split
    · exact h
    · exact hstore
  · exact h

theorem callDproc (h : Leads m w) (buf : Bytes) : Leads m (Visftp.callDproc buf w) := by
  rw [Visftp.callDproc]
  split
  · exact h
  · next p hd =>
    cases p with
    | list r => exact h.dprocList hd buf
    | xfer t => exact h.dprocXfer t buf

/-! ### Replies -/

theorem setStatus (h : Leads m w) {st : Status} (hst : w.ftp.cproc = none → st = .disc) :
    Leads m (w.mapFtp fun f => { f with status := st }) :=
  h.step (.connected st hst)

theorem cprocActive (h : Leads m w) (hp : w.ftp.cproc ≠ none) (code : Int) :
    Leads m (Visftp.cprocActive code w).2 := by
  rw [Visftp.cprocActive]
  split
  · exact ftpClose (by exact h)
  · exact h.setStatus fun hnone => absurd hnone hp

theorem cprocPasv (h : Leads m w) (hp : w.ftp.cproc ≠ none) (code : Int) (buf : Bytes) :
    Leads m (Visftp.cprocPasv code buf w).2 := by
  have hno : ∀ w : World α, Leads m w → w.ftp.cproc ≠ none → Leads m (noPasv w).2 :=
    fun w h hp => ftpActive (h.step (.fallBack hp))
  rw [Visftp.cprocPasv]
  split
  · exact hno _ h hp
  split
  · exact hno _ h hp
  · dsimp only
    split
    · exact hno _ h hp
    split
    · exact hno _ h hp
    · exact setStatus (by exact h) fun hnone => absurd hnone hp

theorem cprocPwd (h : Leads m w) {code : Int} {buf : Bytes}
    (hother : code ≠ 257 ∨ getQuotedText buf = none) : Leads m (Visftp.cprocPwd code buf w).2 := by
  rw [Visftp.cprocPwd]
  split
  · exact h
  · next hcode =>
    rw [hother.resolve_left hcode]
    exact h

theorem cprocCwd (h : Leads m w) (hwait : WaitLeads m wait) (code : Int) :
    Leads m (Visftp.cprocCwd wait code w).2 := by
  rw [Visftp.cprocCwd]
  split
  · exact h
  · exact (h.ftpQueue hwait .pwd).ftpQueue hwait .list

theorem cprocList (h : Leads m w) (code : Int) : Leads m (Visftp.cprocList code w).2 := by
  rw [Visftp.cprocList]
  split
  · exact h
  split
  · exact h
  · exact h

theorem cprocXfer (h : Leads m w) (t : ℕ) (code : Int) (buf : Bytes) :
    Leads m (Visftp.cprocXfer t code buf w).2 := by
  rw [Visftp.cprocXfer]
  split
  · split
    · exact h
    · exact h
  split
  · exact h
  · exact h

theorem login (h : Leads m w) (hp : w.ftp.cproc = none) (hwait : WaitLeads m wait)
    (code : Int) : Leads m (Visftp.login wait code w) := by
  rw [Visftp.login]
  split
  · rw [Visftp.sendcmd]
    split
    · exact h
    · refine h.step ?_
      dsimp only
      split
      · exact .greeted _ hp
      · exact .greeted _ hp
  split
  · exact sendcmd (by exact h) (by simp)
  split
  · have hstart : Leads m (infomsg (ascii "login successful\n")
        (w.mapFtp fun f => { f with busy := 0 })) := h
    exact ((hstart.ftpQueue hwait _).ftpQueue hwait _).ftpQueue hwait _
  split
  · exact setStatus (by exact h) fun _ => rfl
  · exact h

theorem settle {r : Int × World α} (h : Leads m r.2) : Leads m (Visftp.settle r) := by
  rw [Visftp.settle]
  split
  · exact h
  · exact h

/-- A reply that is passed on. For `cproc_pwd` it may tell a directory. -/
theorem deliver (h : Leads m w) (hwait : WaitLeads m wait) (code : Int) (buf : Bytes) :
    Leads m (Visftp.deliver wait code buf w) := by
  set got := (w.mapFtp fun f => { f with lastResp := code }).emit
    (.reply code w.ftp.cproc w.ftp.busy buf)
  have hsame : told got.log = told w.log → Leads m got := fun htold =>
    h.congr (congrArg (fun d => { w.facts with told := d }) htold)
  have hother : w.ftp.cproc ≠ some .pwd → Leads m got := fun hne =>
    hsame (if_neg fun hpwd => hne hpwd.2)
  cases hp : w.ftp.cproc with
  | none =>
    rw [deliver_of_none hp]
    exact (hother (by simp [hp])).login hp hwait code
  | some p =>
    have hne : w.ftp.cproc ≠ none := by simp [hp]
    rw [deliver_of_some hp]
    refine settle ?_
    cases p with
    | pwd =>
      by_cases htells : code ≠ 257 ∨ getQuotedText buf = none
      · refine cprocPwd (hsame ?_) htells
        by_cases hcode : code = 257
        · have hbuf := htells.resolve_left (not_not.mpr hcode)
          refine (if_pos ⟨hcode, hp⟩).trans ?_
          rw [hbuf, Option.none_or]
          rfl
        · exact if_neg fun hpwd => hcode hpwd.1
      · obtain ⟨hcode, hbuf⟩ := not_or.mp htells
        obtain ⟨d, hd⟩ := Option.ne_none_iff_exists'.mp hbuf
        have htold : told got.log = some d := by
          refine (if_pos ⟨not_not.mp hcode, hp⟩).trans ?_
          rw [hd, Option.some_or]
        have hfacts : (got.mapFtp fun f => { f with curdir := some d, modified := true }).facts =
            { w.facts with curdir := some d, told := some d, modified := true } :=
          congrArg (fun t => { w.facts with curdir := some d, told := t, modified := true }) htold
        show Leads m (Visftp.cprocPwd code buf got).2
        rw [Visftp.cprocPwd, if_neg hcode, hd]
        refine h.step ?_
        rw [hfacts]
        exact .moved d hne
    | active => exact (hother (by simp [hp])).cprocActive hne code
    | pasv => exact (hother (by simp [hp])).cprocPasv hne code buf
    | cwd => exact (hother (by simp [hp])).cprocCwd hwait code
    | list r => exact (hother (by simp [hp])).cprocList code
    | xfer t => exact (hother (by simp [hp])).cprocXfer t code buf

theorem procControl (h : Leads m w) (hwait : WaitLeads m wait) (buf : Bytes) :
    Leads m (Visftp.procControl wait buf w) := by
  rw [Visftp.procControl]
  split
  · exact h
  split
  · exact h
  · exact deliver (by exact h) hwait _ _

/-! ### Events -/

theorem scanBytes (h : Leads m w) (hwait : WaitLeads m wait) (bs cur : Bytes) (seen : Bool) :
    Leads m (Visftp.scanBytes wait bs cur seen w) := by
  induction bs generalizing cur seen w with
  | nil => exact h
  | cons b bs ih =>
    rw [Visftp.scanBytes]
    split
    · exact ih h _ _
    split
    · exact ih (procControl (by exact h) hwait _) _ _
    · exact ih h _ _

theorem recvCtl (h : Leads m w) (sz : ℕ) : Leads m (Visftp.recvCtl sz w).2 := by
  rw [Visftp.recvCtl]
  split
  · exact h
  · exact h

theorem handleControlLoop (h : Leads m w) (hwait : WaitLeads m wait) (fuel : ℕ) :
    Leads m (Visftp.handleControlLoop wait fuel w).2 := by
  induction fuel generalizing w with
  | zero => exact h
  | succ fuel ih =>
    rw [Visftp.handleControlLoop]
    have hroom : Leads m (if crecvSize ≤ w.ftp.crecv.length then
        warnmsg (ascii "discard buffer\n") (w.mapFtp fun f => { f with crecv := [] })
      else w) := by
      split
      · exact h
      · exact h
    split
    · exact ih (hroom.recvCtl _)
    · exact hroom.recvCtl _
    · exact (hroom.recvCtl _).ftpClose
    · exact ih (scanBytes (by exact hroom.recvCtl _) hwait _ _ _)

theorem handleDataLoop (h : Leads m w) (n : ℕ) : Leads m (Visftp.handleDataLoop n w) := by
  induction n generalizing w with
  | zero => exact h
  | succ n ih =>
    rw [Visftp.handleDataLoop]
    dsimp only
    split
    · exact ih (by exact h)
    · exact h
    · exact callDproc (by exact h) _
    · exact ih (callDproc (by exact h) _)

theorem handleData (h : Leads m w) : Leads m (Visftp.handleData w) := by
  rw [Visftp.handleData]
  split
  · exact h
  · exact h.handleDataLoop 4

theorem acceptData (h : Leads m w) : Leads m (Visftp.acceptData w) := by
  rw [Visftp.acceptData]
  dsimp only
  split
  · exact h
  split
  · exact h
  · exact h

theorem runQueue (h : Leads m w) (hwait : WaitLeads m wait) : Leads m (Visftp.runQueue wait w) := by
  rw [Visftp.runQueue]
  split
  · dsimp only
    split
    · exact execQueued (by exact h) hwait
    · exact execQueued (by exact h) hwait
  · exact h

theorem ftpHandleWith (h : Leads m w) (hwait : WaitLeads m wait) (fd : Option Fd) :
    Leads m (Visftp.ftpHandleWith wait fd w) := by
  rw [Visftp.ftpHandleWith]
  split
  · have hcontrol : Leads m (handleControl wait w).2 := h.handleControlLoop hwait _
    dsimp only
    split
    · exact hcontrol
    · exact hcontrol.runQueue hwait
  split
  · exact h.handleData.runQueue hwait
  split
  · exact h.acceptData.runQueue hwait
  · exact h.runQueue hwait

end Leads

theorem waitLeads_waitLoop (n : ℕ) : WaitLeads m (waitLoop n : Int → World α → Int × World α) := by
  induction n with
  | zero => exact fun _ _ h => h
  | succ n ih =>
    intro t w h
    rw [waitLoop]
    set w₁ := if w.ftp.ctl = none then w.emit .badSelect else w with hw₁
    have hselect : Leads m w₁ := by
      rw [hw₁]
      split
      · exact h
      · exact h
    dsimp only
    set r := w₁.ask Env.selects (fun l e => { e with selects := l }) (.woke false t.toNat)
    have hasked : Leads m r.2 := hselect
    split
    · exact ih t r.2 hasked
    · next ready elapsed _ =>
      have hwait : WaitLeads m fun t (w : World α) =>
          waitLoop n t (w.mapFtp fun f => { f with lastResp := -1 }) := fun t w h => ih t _ h
      set w₂ := if ready then ftpHandleWith
          (fun t w => waitLoop n t (w.mapFtp fun f => { f with lastResp := -1 })) r.2.ftp.ctl
          (r.2.mapFtp fun f => { f with lastResp := -1 }) else r.2 with hw₂
      have hhandled : Leads m w₂ := by
        rw [hw₂]
        split
        · exact Leads.ftpHandleWith (by exact hasked) hwait _
        · exact hasked
      split
      · exact hhandled
      split
      · split
        · exact hhandled
        · exact ih _ _ hhandled
      · exact ih _ _ hhandled

theorem Leads.worldStep (h : Leads m w) (env : Env) (i : Input α) : Leads m (w.step env i) := by
  have henv : Leads m { w with env := env } := h
  have hwait : WaitLeads m (ftpWaitresp env.selects.length : Int → World α → Int × World α) :=
    fun t w h => waitLeads_waitLoop _ t _ h
  cases i with
  | queue op hop => exact henv.ftpQueue hwait op
  | transfer x =>
    have hnew : Leads m (World.newXfer x { w with env := env }) := h
    exact hnew.ftpQueueTransfer hwait _
  | handle fd => exact henv.ftpHandleWith hwait (some fd)

/-- **In a run the facts change by these steps only.** -/
theorem leads_run (w : World α) (inputs : List (Env × Input α)) : Leads w.facts (w.run inputs) := by
  suffices ∀ w' : World α, Leads w.facts w' → Leads w.facts (w'.run inputs) from this w .refl
  induction inputs with
  | nil => exact fun _ h => h
  | cons i inputs ih => exact fun w' h => ih _ (h.worldStep i.1 i.2)

/-- What every step keeps is kept. -/
theorem Leads.keeps {I : Facts → Prop} (h : Leads m w)
    (hstep : ∀ ⦃f f'⦄, Facts.Step f f' → I f → I f') (hm : I m) : I w.facts := by
  suffices ∀ f, ReflTransGen Facts.Step m f → I f from this _ h
  intro f hrun
  induction hrun with
  | refl => exact hm
  | tail _ hs ih => exact hstep hs ih

end Visftp
