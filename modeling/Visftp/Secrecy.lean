import Visftp.Client

/-!
# The password

The client keeps the password in `struct ftp` and sends it in one command. `World.mask` hides it:
the field is cleared, and every password in the history is replaced by `foobar`, which is what is
sent without one. Every function of the client commutes with the mask, so the password reaches
neither the log file nor any other part of the state.

## Main definitions

* `Cmd.mask`, `Event.mask`, `World.mask` — the client without its password

## Main results

* `mask_step` — one call of the main loop
* `secret_run` — whole runs
-/

namespace Visftp

open CString

variable {α : Type}

/-- A command, with the password hidden. -/
def Cmd.mask : Cmd → Cmd
  | .pass _ => .pass (ascii "foobar")
  | c => c

/-- An event, with the password hidden. -/
def Event.mask : Event → Event
  | .sent c => .sent c.mask
  | e => e

/-- The client without its password, and without the password in its history. -/
def World.mask (w : World α) : World α :=
  { w with ftp := { w.ftp with pass := none }, log := w.log.map Event.mask }

/-- A function with a result gives the same behind the mask. -/
def Masks {β : Type} (f : World α → β × World α) : Prop :=
  ∀ w, (f w.mask).1 = (f w).1 ∧ (f w.mask).2 = (f w).2.mask

/-- Assignments to other fields than the password. -/
theorem mask_mapFtp {f : Ftp → Ftp}
    (hf : ∀ g : Ftp, { f g with pass := none } = f { g with pass := none }) (w : World α) :
    (w.mapFtp f).mask = w.mask.mapFtp f := by
  simp only [World.mask, World.mapFtp, hf]

/-! ### Commands -/

/-- `sendcmd` knows the command by its text. -/
theorem prefix_line_pass (word : Bytes) : ascii "pass " <+: (Cmd.pass word).line :=
  List.prefix_take_iff.mpr ⟨List.prefix_append _ _, by simp [ascii]⟩

theorem mask_sendcmd (c : Cmd) (w : World α) : (sendcmd c w).mask = sendcmd c.mask w.mask := by
  have hctl : w.mask.ftp.ctl = w.ftp.ctl := rfl
  rw [sendcmd, sendcmd, hctl]
  split
  · rfl
  by_cases hc : ∃ word, c = .pass word
  · obtain ⟨word, rfl⟩ := hc
    simp only [Cmd.mask, if_pos (prefix_line_pass _)]
    rfl
  · have hmask : c.mask = c := by
      cases c with
      | pass word => exact absurd ⟨word, rfl⟩ hc
      | _ => rfl
    rw [hmask]
    dsimp only
    split_ifs <;> simp [World.mask, World.emit, Event.mask, hmask, infomsg, World.message,
      World.mapFtp]

theorem mask_ftpClose (w : World α) : (ftpClose w).mask = ftpClose w.mask := by
  have hctl : w.mask.ftp.ctl = w.ftp.ctl := rfl
  rw [ftpClose, ftpClose, hctl]
  split <;> rfl

theorem mask_setCproc (p : CProc) (w : World α) : (setCproc p w).mask = setCproc p w.mask := rfl

theorem masks_socket : Masks (α := α) socket := fun _ => ⟨rfl, rfl⟩

theorem masks_bind : Masks (α := α) bind := fun _ => ⟨rfl, rfl⟩

theorem masks_getsockname : Masks (α := α) getsockname := fun _ => ⟨rfl, rfl⟩

theorem masks_accept : Masks (α := α) accept := fun _ => ⟨rfl, rfl⟩

theorem masks_connect : Masks (α := α) connect := fun _ => ⟨rfl, rfl⟩

theorem masks_recvData (sz : ℕ) : Masks (α := α) (recvData sz) := fun _ => ⟨rfl, rfl⟩

theorem masks_recvCtl (sz : ℕ) : Masks (α := α) (recvCtl sz) := by
  intro w
  have hctl : w.mask.ftp.ctl = w.ftp.ctl := rfl
  rw [recvCtl, recvCtl, hctl]
  split <;> exact ⟨rfl, rfl⟩

theorem masks_allocate (possible : Bool) : Masks (α := α) (allocate possible) := by
  intro w
  unfold allocate
  generalize hr : w.ask Env.allocs (fun l e => { e with allocs := l }) true = r
  have hask : w.mask.ask Env.allocs (fun l e => { e with allocs := l }) true = (r.1, r.2.mask) :=
    hr ▸ rfl
  rw [hask]
  dsimp only
  split <;> exact ⟨rfl, rfl⟩

theorem masks_malloc : Masks (α := α) malloc := masks_allocate true

theorem masks_ftpActive : Masks (α := α) ftpActive := by
  intro w
  unfold ftpActive
  dsimp only
  set w₁ := w.mapFtp fun f => { f with lis := none, data := none } with hw₁
  have h₁ : w.mask.mapFtp (fun f => { f with lis := none, data := none }) = w₁.mask := rfl
  rw [h₁]
  obtain ⟨hs, hs'⟩ := masks_socket w₁
  rw [hs, hs']
  generalize socket w₁ = r
  obtain ⟨lis, w₂⟩ := r
  dsimp only
  set w₃ := w₂.mapFtp fun f => { f with lis := lis } with hw₃
  have h₃ : w₂.mask.mapFtp (fun f => { f with lis := lis }) = w₃.mask := rfl
  rw [h₃]
  split
  · exact ⟨rfl, rfl⟩
  obtain ⟨hb, hb'⟩ := masks_bind w₃
  rw [hb, hb']
  generalize bind w₃ = r
  split
  · exact ⟨rfl, rfl⟩
  obtain ⟨hg, hg'⟩ := masks_getsockname r.2
  rw [hg, hg']
  generalize getsockname r.2 = r
  obtain ⟨sa, w₄⟩ := r
  cases sa with
  | none => exact ⟨rfl, rfl⟩
  | some sa =>
    refine ⟨rfl, ?_⟩
    dsimp only
    rw [mask_setCproc, mask_sendcmd]
    rfl

theorem mask_ftpPassive (w : World α) : (ftpPassive w).mask = ftpPassive w.mask := by
  rw [ftpPassive, ftpPassive, mask_setCproc, mask_sendcmd]
  rfl

theorem mask_ftpType (arg : Bytes) (w : World α) : (ftpType arg w).mask = ftpType arg w.mask := by
  rw [ftpType, ftpType]
  split
  · rfl
  · exact mask_sendcmd _ w

theorem mask_ftpPwd (w : World α) : (ftpPwd w).mask = ftpPwd w.mask := by
  rw [ftpPwd, ftpPwd, mask_setCproc, mask_sendcmd]
  rfl

theorem mask_ftpChdir (d : Bytes) (w : World α) : (ftpChdir d w).mask = ftpChdir d w.mask := by
  rw [ftpChdir, ftpChdir, mask_setCproc]
  split <;> exact congrArg (setCproc .cwd) (mask_sendcmd _ w)

/-! ### Operations -/

theorem mask_startList (w : World α) : (startList w).mask = startList w.mask := by
  unfold startList
  dsimp only
  obtain ⟨h₁, h₁'⟩ := masks_malloc w
  rw [h₁, h₁']
  generalize malloc w = r
  split
  · rfl
  obtain ⟨h₂, h₂'⟩ := masks_malloc r.2
  rw [h₂, h₂']
  generalize malloc r.2 = r
  split
  · rfl
  rw [mask_mapFtp fun _ => rfl, mask_setCproc, mask_sendcmd]
  rfl

theorem mask_startTransfer (t : ℕ) (w : World α) :
    (startTransfer t w).mask = startTransfer t w.mask := by
  rw [startTransfer]
  change World.mask (if (w.xfers t).op = .retr then _ else _) =
    if (w.xfers t).op = .retr then _ else _
  split
  · dsimp only
    rw [mask_mapFtp fun _ => rfl, mask_setCproc, mask_sendcmd]
    rfl
  · rfl

section Wait

variable {wait : Int → World α → Int × World α} (hwait : ∀ t, Masks (wait t))

include hwait

theorem masks_prepareData : Masks (prepareData wait) := by
  intro w
  unfold prepareData
  have hdata : w.mask.ftp.data = w.ftp.data := rfl
  have hpassive : w.mask.ftp.passive = w.ftp.passive := rfl
  rw [hdata, hpassive]
  split
  · exact ⟨rfl, rfl⟩
  split
  · obtain ⟨-, h⟩ := hwait timeout (ftpPassive w)
    rw [← mask_ftpPassive, h]
    exact ⟨rfl, rfl⟩
  · obtain ⟨h, h'⟩ := masks_ftpActive w
    dsimp only
    rw [h, h']
    split <;> exact ⟨rfl, rfl⟩

theorem mask_ftpList (w : World α) : (ftpList wait w).mask = ftpList wait w.mask := by
  obtain ⟨h, h'⟩ := masks_prepareData hwait w
  rw [ftpList, ftpList, h, h']
  split
  · rfl
  · exact mask_startList _

theorem mask_ftpTransfer (t : ℕ) (w : World α) :
    (ftpTransfer wait t w).mask = ftpTransfer wait t w.mask := by
  obtain ⟨h, h'⟩ := masks_prepareData hwait w
  rw [ftpTransfer, ftpTransfer, h, h']
  split
  · rfl
  · exact mask_startTransfer t _

theorem mask_execOp (op : Op) (w : World α) : (execOp wait op w).mask = execOp wait op w.mask := by
  have henter : (w.enter op).mask = w.mask.enter op := rfl
  have hret : ∀ w₁ w₂ : World α, w₁.mask = w₂ → (w₁.emit .ret).mask = w₂.emit .ret := by
    rintro w₁ _ rfl
    rfl
  cases op with
  | type arg => exact hret _ _ ((mask_ftpType arg _).trans (congrArg (ftpType arg) henter))
  | pwd => exact hret _ _ ((mask_ftpPwd _).trans (congrArg ftpPwd henter))
  | chdir d => exact hret _ _ ((mask_ftpChdir d _).trans (congrArg (ftpChdir d) henter))
  | cdup => exact hret _ _ ((mask_ftpChdir _ _).trans (congrArg (ftpChdir _) henter))
  | list => exact hret _ _ ((mask_ftpList hwait _).trans (congrArg (ftpList wait) henter))
  | xfer t => exact hret _ _ ((mask_ftpTransfer hwait t _).trans (congrArg _ henter))
  | mkdir | rmdir | del | retr | store => exact hret _ _ henter

theorem mask_execQueued (w : World α) : (execQueued wait w).mask = execQueued wait w.mask := by
  have hqueue : w.mask.ftp.queue = w.ftp.queue := rfl
  rw [execQueued, execQueued, hqueue]
  cases w.ftp.queue.pop with
  | none => rfl
  | some r => exact (mask_execOp hwait r.1 _).trans rfl

theorem masks_submit {alloc : World α → Bool × World α} (halloc : Masks alloc) (op : Op) :
    Masks (submit wait alloc op) := by
  intro w
  unfold submit
  change Prod.fst (if w.ftp.busy = 0 ∧ w.ftp.queue.head = none then _ else _) = _ ∧
    Prod.snd (if w.ftp.busy = 0 ∧ w.ftp.queue.head = none then _ else _) = _
  split
  · exact ⟨rfl, (mask_execOp hwait op (w.emit (.accept op))).symm⟩
  · obtain ⟨h, h'⟩ := halloc w
    dsimp only
    rw [h, h']
    split <;> exact ⟨rfl, rfl⟩

theorem masks_ftpQueue (op : Op) : Masks (ftpQueue wait op) := by
  refine masks_submit hwait (fun w => ?_) op
  dsimp only
  obtain ⟨h, h'⟩ := masks_malloc w
  rw [h, h']
  split
  · exact masks_malloc _
  · exact ⟨h, h'⟩

theorem masks_ftpQueueTransfer (t : ℕ) : Masks (ftpQueueTransfer wait t) :=
  masks_submit hwait masks_malloc (.xfer t)

end Wait

/-! ### Handlers -/

theorem mask_callDone (t : ℕ) (w : World α) : (callDone t w).mask = callDone t w.mask := rfl

theorem mask_dprocList (r : ℕ) (buf : Bytes) (w : World α) :
    (dprocList r buf w).mask = dprocList r buf w.mask := by
  unfold dprocList
  have hrbufs : w.mask.rbufs = w.rbufs := rfl
  rw [hrbufs]
  dsimp only
  split
  · exact mask_mapFtp (fun _ => rfl) w
  split
  · generalize decide (0 ≤ (2 * (w.rbufs r).bufsz : Int).bmod (2 ^ 32)) = possible
    obtain ⟨h, h'⟩ := masks_allocate possible w
    rw [h, h']
    split <;> rfl
  · rfl

theorem mask_storeBytes (t : ℕ) (buf : Bytes) (w : World α) :
    (storeBytes t buf w).mask = storeBytes t buf w.mask := by
  have hxfers : w.mask.xfers = w.xfers := rfl
  unfold storeBytes
  rw [hxfers]
  split <;> rfl

theorem mask_dprocXfer (t : ℕ) (buf : Bytes) (w : World α) :
    (dprocXfer t buf w).mask = dprocXfer t buf w.mask := by
  unfold dprocXfer
  have htouch : (w.emit (.touch t)).mask = w.mask.emit (.touch t) := rfl
  have hxfers : ((w.mask.emit (.touch t)).xfers t).op = ((w.emit (.touch t)).xfers t).op := rfl
  dsimp only
  rw [hxfers]
  split
  · split
    · rw [mask_mapFtp fun _ => rfl, mask_callDone]
      rfl
    · rw [← htouch, ← mask_storeBytes]
      rfl
  · rfl

theorem mask_runDproc (p : DProc) (buf : Bytes) (w : World α) :
    (p.run buf w).mask = p.run buf w.mask := by
  cases p with
  | list r => exact mask_dprocList r buf w
  | xfer t => exact mask_dprocXfer t buf w

theorem masks_cprocActive (code : Int) : Masks (α := α) (cprocActive code) := by
  intro w
  unfold cprocActive
  split
  · exact ⟨rfl, (mask_ftpClose (errmsg (ascii "ftp_active failed\n") w)).symm⟩
  · exact ⟨rfl, rfl⟩

theorem masks_noPasv : Masks (α := α) noPasv := fun w =>
  ⟨rfl, (masks_ftpActive (w.mapFtp fun f => { f with passive := false })).2⟩

theorem masks_cprocPasv (code : Int) (buf : Bytes) : Masks (α := α) (cprocPasv code buf) := by
  intro w
  unfold cprocPasv
  split
  · exact masks_noPasv _
  split
  · exact masks_noPasv _
  · next addr port _ =>
    dsimp only
    obtain ⟨hs, hs'⟩ := masks_socket w
    rw [hs, hs']
    generalize socket w = r
    split
    · exact masks_noPasv (r.2.mapFtp fun f => { f with data := r.1 })
    have hinfo : ∀ text, infomsg text (r.2.mask.mapFtp fun f => { f with data := r.1 }) =
        (infomsg text (r.2.mapFtp fun f => { f with data := r.1 })).mask := fun _ => rfl
    rw [hinfo]
    generalize infomsg _ (r.2.mapFtp fun f => { f with data := r.1 }) = w₁
    obtain ⟨hc, hc'⟩ := masks_connect w₁
    rw [hc, hc']
    generalize connect w₁ = r
    split
    · exact masks_noPasv _
    · exact ⟨rfl, rfl⟩

theorem masks_cprocPwd (code : Int) (buf : Bytes) : Masks (α := α) (cprocPwd code buf) := by
  intro w
  unfold cprocPwd
  split
  · exact ⟨rfl, rfl⟩
  split <;> exact ⟨rfl, rfl⟩

theorem masks_cprocList (code : Int) : Masks (α := α) (cprocList code) := by
  intro w
  unfold cprocList
  split
  · exact ⟨rfl, rfl⟩
  split <;> exact ⟨rfl, rfl⟩

theorem masks_cprocXfer (t : ℕ) (code : Int) (buf : Bytes) :
    Masks (α := α) (cprocXfer t code buf) := by
  intro w
  unfold cprocXfer
  split
  · split <;> exact ⟨rfl, rfl⟩
  split <;> exact ⟨rfl, rfl⟩

section Wait

variable {wait : Int → World α → Int × World α} (hwait : ∀ t, Masks (wait t))

include hwait

theorem masks_cprocCwd (code : Int) : Masks (cprocCwd wait code) := by
  intro w
  unfold cprocCwd
  split
  · exact ⟨rfl, rfl⟩
  · rw [(masks_ftpQueue hwait .pwd w).2]
    exact ⟨rfl, (masks_ftpQueue hwait .list _).2⟩

theorem masks_runCproc (p : CProc) (code : Int) (buf : Bytes) : Masks (p.run wait code buf) := by
  cases p with
  | active => exact masks_cprocActive code
  | pasv => exact masks_cprocPasv code buf
  | pwd => exact masks_cprocPwd code buf
  | cwd => exact masks_cprocCwd hwait code
  | list r => exact masks_cprocList code
  | xfer t => exact masks_cprocXfer t code buf

theorem mask_newconn (w : World α) : (newconn wait w).mask = newconn wait w.mask := by
  unfold newconn
  dsimp only
  rw [(masks_ftpQueue hwait (.type (ascii "I")) w).2, (masks_ftpQueue hwait .pwd _).2,
    (masks_ftpQueue hwait .list _).2]

/-- The login dialogue: the only place that reads the password. -/
theorem mask_login (code : Int) (w : World α) :
    (login wait code w).mask = login wait code w.mask := by
  unfold login
  have hbusy : (w.mapFtp fun f => { f with busy := 0 }).mask =
      w.mask.mapFtp fun f => { f with busy := 0 } := rfl
  dsimp only
  rw [← hbusy]
  generalize (w.mapFtp fun f => { f with busy := 0 }) = w₁
  split
  · exact mask_sendcmd _ w₁
  split
  · -- behind the mask, the password is the one that is sent without any
    exact mask_sendcmd _ w₁
  split
  · exact mask_newconn hwait _
  split <;> rfl

omit hwait in
theorem mask_settle (r : Int × World α) : (settle r).mask = settle (r.1, r.2.mask) := by
  unfold settle
  dsimp only
  split <;> rfl

theorem mask_deliver (code : Int) (buf : Bytes) (w : World α) :
    (deliver wait code buf w).mask = deliver wait code buf w.mask := by
  unfold deliver
  generalize hg : (w.mapFtp fun f => { f with lastResp := code }) = w₁
  have hg' : (w.mask.mapFtp fun f => { f with lastResp := code }) = w₁.mask := hg ▸ rfl
  rw [hg']
  dsimp only
  generalize hg : w₁.emit (.reply code w₁.ftp.cproc w₁.ftp.busy buf) = w₂
  have hg' : w₁.mask.emit (.reply code w₁.mask.ftp.cproc w₁.mask.ftp.busy buf) = w₂.mask := hg ▸ rfl
  rw [hg']
  have hcproc : w₂.mask.ftp.cproc = w₂.ftp.cproc := rfl
  rw [hcproc]
  cases w₂.ftp.cproc with
  | none => exact mask_login hwait code w₂
  | some p =>
    obtain ⟨h, h'⟩ := masks_runCproc hwait p code buf w₂
    rw [mask_settle, ← h, ← h']

theorem mask_procControl (buf : Bytes) (w : World α) :
    (procControl wait buf w).mask = procControl wait buf w.mask := by
  unfold procControl
  dsimp only
  split
  · rfl
  split
  · rfl
  · exact mask_deliver hwait _ _ _

/-! ### Events -/

theorem mask_scanBytes (bs cur : Bytes) (seen : Bool) (w : World α) :
    (scanBytes wait bs cur seen w).mask = scanBytes wait bs cur seen w.mask := by
  induction bs generalizing cur seen w with
  | nil => rfl
  | cons b bs ih =>
    rw [scanBytes, scanBytes]
    split
    · exact ih _ _ w
    split
    · rw [ih, mask_procControl hwait]
      rfl
    · exact ih _ _ w

theorem masks_handleControlLoop (fuel : ℕ) : Masks (handleControlLoop wait fuel) := by
  induction fuel with
  | zero => exact fun w => ⟨rfl, rfl⟩
  | succ fuel ih =>
    intro w
    rw [handleControlLoop, handleControlLoop]
    generalize hg : (if crecvSize ≤ w.ftp.crecv.length then
        warnmsg (ascii "discard buffer\n") (w.mapFtp fun f => { f with crecv := [] })
      else w) = w₁
    have hg' : (if crecvSize ≤ w.mask.ftp.crecv.length then
        warnmsg (ascii "discard buffer\n") (w.mask.mapFtp fun f => { f with crecv := [] })
      else w.mask) = w₁.mask := by
      rw [← hg]
      change (if crecvSize ≤ w.ftp.crecv.length then _ else _) = _
      split <;> rfl
    rw [hg']
    have hcrecv : w₁.mask.ftp.crecv = w₁.ftp.crecv := rfl
    rw [hcrecv]
    obtain ⟨hr, hr'⟩ := masks_recvCtl (crecvSize - w₁.ftp.crecv.length) w₁
    rw [hr, hr']
    generalize recvCtl (crecvSize - w₁.ftp.crecv.length) w₁ = r
    split
    · exact ih r.2
    · exact ⟨rfl, rfl⟩
    · exact ⟨rfl, (mask_ftpClose r.2).symm⟩
    · next b _ =>
      have hscan := mask_scanBytes hwait b r.2.ftp.crecv false (r.2.emit (.recv b))
      have hrecv : r.2.mask.emit (.recv b) = (r.2.emit (.recv b)).mask := rfl
      have hcrecv : r.2.mask.ftp.crecv = r.2.ftp.crecv := rfl
      rw [hrecv, hcrecv, ← hscan]
      exact ih _

theorem masks_handleControl : Masks (handleControl wait) := fun w =>
  masks_handleControlLoop hwait (w.env.ctlIn.length + 1) w

omit hwait in
theorem mask_callDproc (buf : Bytes) (w : World α) :
    (callDproc buf w).mask = callDproc buf w.mask := by
  unfold callDproc
  have hdproc : w.mask.ftp.dproc = w.ftp.dproc := rfl
  rw [hdproc]
  cases w.ftp.dproc with
  | none => rfl
  | some p => exact mask_runDproc p buf w

omit hwait in
theorem mask_handleDataLoop (n : ℕ) (w : World α) :
    (handleDataLoop n w).mask = handleDataLoop n w.mask := by
  induction n generalizing w with
  | zero => rfl
  | succ n ih =>
    rw [handleDataLoop, handleDataLoop]
    dsimp only
    obtain ⟨hr, hr'⟩ := masks_recvData 256 w
    rw [hr, hr']
    generalize recvData 256 w = r
    split
    · exact ih r.2
    · rfl
    · rw [mask_mapFtp fun _ => rfl, mask_callDproc]
      rfl
    · rw [ih, mask_callDproc]
      rfl

omit hwait in
theorem mask_handleData (w : World α) : (handleData w).mask = handleData w.mask := by
  rw [handleData]
  change World.mask (if w.ftp.data = none then _ else _) = if w.ftp.data = none then _ else _
  split
  · rfl
  · exact mask_handleDataLoop 4 w

omit hwait in
theorem mask_acceptData (w : World α) : (acceptData w).mask = acceptData w.mask := by
  unfold acceptData
  obtain ⟨ha, ha'⟩ := masks_accept w
  dsimp only
  rw [ha, ha']
  change World.mask (if w.ftp.data ≠ none then _ else _) = if w.ftp.data ≠ none then _ else _
  split
  · rfl
  split <;> rfl

theorem mask_runQueue (w : World α) : (runQueue wait w).mask = runQueue wait w.mask := by
  unfold runQueue
  have hbusy : w.mask.ftp.busy = w.ftp.busy := rfl
  dsimp only
  rw [hbusy]
  split
  · split <;> exact (mask_execQueued hwait _).trans rfl
  · rfl

theorem mask_ftpHandleWith (s : Option Fd) (w : World α) :
    (ftpHandleWith wait s w).mask = ftpHandleWith wait s w.mask := by
  unfold ftpHandleWith
  have hctl : w.mask.ftp.ctl = w.ftp.ctl := rfl
  have hdata : w.mask.ftp.data = w.ftp.data := rfl
  have hlis : w.mask.ftp.lis = w.ftp.lis := rfl
  obtain ⟨hc, hc'⟩ := masks_handleControl hwait w
  dsimp only
  rw [hctl, hdata, hlis, hc, hc', ← mask_handleData, ← mask_acceptData]
  split_ifs
  · rfl
  all_goals exact mask_runQueue hwait _

end Wait

/-- **The wait**, with every wait inside it. -/
theorem masks_waitLoop (n : ℕ) (t : Int) : Masks (α := α) (waitLoop n t) := by
  induction n generalizing t with
  | zero => exact fun w => ⟨rfl, rfl⟩
  | succ n ih =>
    intro w
    rw [waitLoop, waitLoop]
    generalize hg : (if w.ftp.ctl = none then w.emit .badSelect else w) = w₁
    have hg' : (if w.mask.ftp.ctl = none then w.mask.emit .badSelect else w.mask) = w₁.mask := by
      rw [← hg]
      change (if w.ftp.ctl = none then _ else _) = _
      split <;> rfl
    rw [hg']
    generalize hr : w₁.ask Env.selects (fun l e => { e with selects := l })
      (.woke false t.toNat) = r
    have hr' : w₁.mask.ask Env.selects (fun l e => { e with selects := l })
        (.woke false t.toNat) = (r.1, r.2.mask) := hr ▸ rfl
    rw [hr']
    dsimp only
    split
    · exact ih t r.2
    · next ready elapsed _ =>
      have hwait : ∀ t, Masks (α := α) fun w =>
          waitLoop n t (w.mapFtp fun f => { f with lastResp := -1 }) := fun t w =>
        ih t (w.mapFtp fun f => { f with lastResp := -1 })
      have hhandle := mask_ftpHandleWith hwait r.2.ftp.ctl
        (r.2.mapFtp fun f => { f with lastResp := -1 })
      generalize hw : (if ready = true then ftpHandleWith
          (fun t w => waitLoop n t (w.mapFtp fun f => { f with lastResp := -1 })) r.2.ftp.ctl
          (r.2.mapFtp fun f => { f with lastResp := -1 }) else r.2) = w₂
      have hw' : (if ready = true then ftpHandleWith
          (fun t w => waitLoop n t (w.mapFtp fun f => { f with lastResp := -1 })) r.2.mask.ftp.ctl
          (r.2.mask.mapFtp fun f => { f with lastResp := -1 }) else r.2.mask) = w₂.mask := by
        rw [← hw]
        split
        · exact hhandle.symm
        · rfl
      rw [hw']
      have hlast : w₂.mask.ftp.lastResp = w₂.ftp.lastResp := rfl
      rw [hlast]
      split
      · exact ⟨rfl, rfl⟩
      split
      · split
        · exact ⟨rfl, rfl⟩
        · exact ih _ _
      · exact ih t w₂

theorem masks_ftpWaitresp (n : ℕ) (t : Int) : Masks (α := α) (ftpWaitresp n t) :=
  fun w => masks_waitLoop n t (w.mapFtp fun f => { f with lastResp := -1 })

/-- **One call** of the main loop. -/
theorem mask_step (env : Env) (i : Input α) (w : World α) :
    (w.step env i).mask = w.mask.step env i := by
  have hwait := fun t => masks_ftpWaitresp (α := α) env.selects.length t
  cases i with
  | queue op hop => exact (masks_ftpQueue hwait op _).2.symm
  | transfer x => exact (masks_ftpQueueTransfer hwait w.nxfer _).2.symm
  | handle s => exact mask_ftpHandleWith hwait (some s) _

/-! ### Runs -/

/-- What a client does behind the mask is what it does, behind the mask. -/
theorem mask_run (w : World α) (inputs : List (Env × Input α)) :
    (w.run inputs).mask = w.mask.run inputs := by
  induction inputs generalizing w with
  | nil => rfl
  | cons i inputs ih => exact (ih (w.step i.1 i.2)).trans (by rw [mask_step]; rfl)

/-- The client with another password. -/
def World.withPass (pass : Option Bytes) (w : World α) : World α :=
  w.mapFtp fun f => { f with pass := pass }

/-- **The password stays a secret.** Two clients in the same state apart from the password, with the
same calls and the same answers of the system, write the same log file and stay in the same state.
Their histories are the same but for the argument of the `PASS` command. -/
theorem secret_run (w : World α) (pass pass' : Option Bytes) (inputs : List (Env × Input α)) :
    ((w.withPass pass).run inputs).logfile = ((w.withPass pass').run inputs).logfile ∧
      ((w.withPass pass).run inputs).mask = ((w.withPass pass').run inputs).mask := by
  have hmask : ((w.withPass pass).run inputs).mask = ((w.withPass pass').run inputs).mask := by
    rw [mask_run, mask_run]
    rfl
  have hlogfile : ∀ v : World α, v.mask.logfile = v.logfile := fun _ => rfl
  refine ⟨?_, hmask⟩
  rw [← hlogfile, hmask, hlogfile]

end Visftp
