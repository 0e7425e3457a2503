import Visftp.ControlBuffer

/-!
# Calls from inside the scan

`handle_control` scans `crecv` while `proc_control` runs on each line that it finds there. A handler
that listed a directory or transferred a file would wait, and the wait would call `handle_control`
again, for the same buffer. The handlers only queue these operations, and always behind a command
that is still unanswered, so they are carried out when the scan is over.

What a handler can do to the buffer is to close the connection, which empties it: `cproc_active`
does when the server refuses `PORT`.

## Main definitions

* `begunData` — the operations that wait for a data connection

## Main results

* `procControl_eq`, `scanIn_eq` — `ftp_waitresp` is not called
* `scanIn_frame` — none of these operations is begun during a scan, and what becomes of `crecv`
-/

namespace Visftp

open CString Session Buffers

/-- The operations that need a data connection and have been begun, newest first. -/
def begunData (log : List Event) : List Op := log.filterMap fun
  | .exec op _ _ => if op.needsData then some op else none
  | _ => none

variable {α : Type} {w w' : World α} {op : Op} {s s' : Session}

/-! ### The handlers do not wait -/

section Wait

variable (wait wait' : Int → World α → Int × World α)

theorem execOp_eq (h : op.needsData = false) (w : World α) :
    execOp wait op w = execOp wait' op w := by
  cases op with
  | list => simp [Op.needsData] at h
  | xfer t => simp [Op.needsData] at h
  | _ => rfl

/-- `ftp_queue` only waits where nothing is outstanding. -/
theorem ftpQueue_eq (op : Op) {w : World α}
    (h : op.needsData = true → ¬(w.view.busy = 0 ∧ w.view.queue = [])) :
    ftpQueue wait op w = ftpQueue wait' op w := by
  rw [ftpQueue, ftpQueue, submit, submit]
  split
  · next hidle =>
    have hn : op.needsData = false := by
      cases hn : op.needsData with
      | false => rfl
      | true => exact absurd ⟨hidle.1, view_queue_eq_nil.mpr hidle.2⟩ (h hn)
    rw [execOp_eq wait wait' hn]
  · rfl

/-- A listing that is queued behind a command waits for it. -/
theorem ftpQueue_list_eq (hctl : w.view.ctl = true) (hop : op = .pwd ∨ op = .type (ascii "I")) :
    (ftpQueue wait op w).2.view.ctl = true ∧
      ftpQueue wait .list (ftpQueue wait op w).2 =
        ftpQueue wait' .list (ftpQueue wait' op w).2 := by
  have hn : op.needsData = false := by rcases hop with rfl | rfl <;> rfl
  have hqueue : Queue op w.view (ftpQueue wait op w).2.view := queue_ftpQueue (by simp [hn])
  have hblock := hqueue.blocked hctl hop
  refine ⟨hblock.1, ?_⟩
  rw [← ftpQueue_eq wait wait' op (by simp [hn])]
  exact ftpQueue_eq wait wait' .list fun _ => hblock.2

theorem newconn_eq (hctl : w.view.ctl = true) : newconn wait w = newconn wait' w := by
  rw [newconn, newconn]
  have htype := (ftpQueue_list_eq wait wait' hctl (.inr rfl)).1
  rw [← ftpQueue_eq wait wait' (.type (ascii "I")) (by simp [Op.needsData])]
  exact congrArg Prod.snd (ftpQueue_list_eq wait wait' htype (.inl rfl)).2

theorem deliver_eq (code : Int) (buf : Bytes)
    (hopen : w.view.ctl = true ∨ w.view.cproc = some .active) :
    deliver wait code buf w = deliver wait' code buf w := by
  set g := (w.mapFtp fun f => { f with lastResp := code }).emit
    (.reply code w.ftp.cproc w.ftp.busy buf) with hg
  have hctl : w.ftp.cproc ≠ some .active → g.view.ctl = true := fun hne => hopen.resolve_right hne
  cases hp : w.ftp.cproc with
  | none =>
    rw [deliver_of_none hp, deliver_of_none hp, ← hg, login, login]
    split
    · rfl
    split
    · rfl
    split
    · exact newconn_eq wait wait' (hctl (by simp [hp]))
    · rfl
  | some p =>
    rw [deliver_of_some hp, deliver_of_some hp, ← hg]
    cases p with
    | cwd =>
      refine congrArg settle ?_
      show cprocCwd wait code g = cprocCwd wait' code g
      rw [cprocCwd, cprocCwd]
      split
      · rfl
      · refine congrArg (Prod.mk 0) (congrArg Prod.snd ?_)
        exact (ftpQueue_list_eq wait wait' (hctl (by simp [hp])) (.inl rfl)).2
    | _ => rfl

/-- **No handler waits**: `proc_control` does the same, whatever `ftp_waitresp` would do. -/
theorem procControl_eq (buf : Bytes) (hopen : w.view.ctl = true ∨ w.view.cproc = some .active) :
    procControl wait buf w = procControl wait' buf w := by
  rw [procControl, procControl]
  split
  · rfl
  split
  · rfl
  · exact deliver_eq wait wait' _ _ hopen

end Wait

/-! ### What the handlers do -/

/-- No operation that needs a data connection is begun, and the control connection is left alone. -/
structure Session.Leaves (s s' : Session) : Prop where
  begun_eq : begunData s'.log = begunData s.log
  ctl_eq : s'.ctl = s.ctl
  crecv_eq : s'.crecv = s.crecv

namespace Session

theorem Leaves.refl (s : Session) : Leaves s s := ⟨rfl, rfl, rfl⟩

theorem Leaves.trans {s'' : Session} (h : Leaves s s') (h' : Leaves s' s'') : Leaves s s'' :=
  ⟨h'.begun_eq.trans h.begun_eq, h'.ctl_eq.trans h.ctl_eq, h'.crecv_eq.trans h.crecv_eq⟩

theorem Leaves.of_cons {e : Event} (he : begunData [e] = []) (hlog : s'.log = e :: s.log)
    (hctl : s'.ctl = s.ctl) (hcrecv : s'.crecv = s.crecv) : Leaves s s' := by
  refine ⟨?_, hctl, hcrecv⟩
  rw [hlog, begunData, List.filterMap_cons]
  rw [begunData, List.filterMap_cons] at he
  split at he
  · rfl
  · simp at he

theorem Leaves.emit {e : Event} (h : Leaves s s') (he : begunData [e] = []) :
    Leaves s (s'.emit e) :=
  h.trans (.of_cons he rfl rfl rfl)

theorem Leaves.congr {s'' : Session} (h : Leaves s s') (hlog : s''.log = s'.log)
    (hctl : s''.ctl = s'.ctl) (hcrecv : s''.crecv = s'.crecv) : Leaves s s'' :=
  h.trans ⟨by rw [hlog], hctl, hcrecv⟩

theorem Leaves.send (h : Leaves s s') (c : Cmd) : Leaves s (s'.send c) := by
  refine h.trans ?_
  cases hctl : s'.ctl with
  | true => exact .of_cons (e := .sent c) rfl (by simp [Session.send, hctl]) rfl rfl
  | false => exact ⟨by simp [Session.send, hctl], rfl, rfl⟩

theorem Leaves.hook (h : Leaves s s') (p : CProc) : Leaves s (s'.hook p) :=
  h.trans (.of_cons (e := .hook p) rfl rfl rfl rfl)

theorem Leaves.simple (h : Leaves s s') (op : Op) : Leaves s (s'.simple op) := by
  cases op with
  | type arg =>
    rw [Session.simple]
    split
    · exact h
    · exact h.send _
  | pwd | chdir | cdup => exact (h.send _).hook _
  | _ => exact h

theorem Leaves.active (h : Leaves s s') (sa : Option (ℕ × ℕ)) : Leaves s (s'.active sa) := by
  rcases sa with - | ⟨a, p⟩
  · exact h.congr rfl rfl rfl
  · have hd : Leaves s { s' with data := false } := h.congr rfl rfl rfl
    exact (hd.send _).hook _

/-- Queueing an operation begins it only if it needs no data connection. -/
theorem Leaves.queue {s'' : Session} (h : Leaves s s') (hq : Queue op s' s'') : Leaves s s'' := by
  cases hq with
  | direct hb hq hn =>
    have haccept := h.emit (e := .accept op) rfl
    have henter := haccept.emit (e := .exec op s'.data s'.passive) (by simp [begunData, hn])
    exact (henter.simple op).emit (e := .ret) rfl
  | append => exact h.trans (.of_cons (e := .accept op) rfl rfl rfl rfl)
  | full => exact h.emit (e := .outOfMemory) rfl

/-- Nothing changes for the scan, or the connection is closed. -/
def Spares (s s' : Session) : Prop :=
  begunData s'.log = begunData s.log ∧
    (s'.ctl = s.ctl ∧ s'.crecv = s.crecv ∨ s'.ctl = false ∧ s'.crecv = [])

theorem Spares.trans {s'' : Session} (h : Spares s s') (h' : Spares s' s'') : Spares s s'' := by
  refine ⟨h'.1.trans h.1, ?_⟩
  rcases h'.2 with ⟨hctl', hcrecv'⟩ | hclosed
  · rcases h.2 with ⟨hctl, hcrecv⟩ | ⟨hctl, hcrecv⟩
    · exact .inl ⟨hctl'.trans hctl, hcrecv'.trans hcrecv⟩
    · exact .inr ⟨hctl'.trans hctl, hcrecv'.trans hcrecv⟩
  · exact .inr hclosed

/-- **A reply begins no such operation**, and can only close the connection. -/
theorem Reply.spares {code : Int} {buf : Bytes} (h : Reply code buf s s') : Spares s s' := by
  have hgot : Leaves s (s.got code buf) := (Leaves.refl s).emit rfl
  have hzero : Leaves s { s.got code buf with busy := 0 } := hgot.congr rfl rfl rfl
  have hleaves : ∀ {s₁ : Session}, Leaves s s₁ → Spares s s₁ := fun h =>
    ⟨h.begun_eq, .inl ⟨h.ctl_eq, h.crecv_eq⟩⟩
  cases h with
  | activeFail h hc =>
    cases hctl : s.ctl with
    | true =>
      have hclose : (s.got code buf).close.finish.log = .hangup :: (s.got code buf).log := by
        simp [finish, close, got, Session.emit, hctl]
      refine ⟨?_, .inr ⟨rfl, by simp [finish, close, got, Session.emit, hctl]⟩⟩
      rw [hclose]
      exact hgot.begun_eq
    | false =>
      refine hleaves (hgot.congr ?_ ?_ ?_)
      · simp [finish, close, got, Session.emit, hctl]
      · simp [finish, close, got, Session.emit, hctl]
      · simp [finish, close, got, Session.emit, hctl]
  | activeOk | pwd | cwdFail | listMore | listEnd | xferMore | xferEnd =>
    exact hleaves (hgot.congr rfl rfl rfl)
  | loginOther => exact hleaves hzero
  | pasvOpen => exact hleaves ((hgot.emit (e := .opened) rfl).congr rfl rfl rfl)
  | pasvFall sa =>
    have hpass : Leaves s { s.got code buf with passive := false } := hgot.congr rfl rfl rfl
    exact hleaves ((hpass.active sa).congr rfl rfl rfl)
  | cwdOk h hc h₁ h₂ => exact hleaves (((hgot.queue h₁).queue h₂).congr rfl rfl rfl)
  | @xferTotal t => exact hleaves (hgot.emit (e := .touch t) rfl)
  | @xferFail t =>
    have htouch : Leaves s ((s.got code buf).emit (.touch t)) := hgot.emit rfl
    exact hleaves ((htouch.emit (e := .done t) rfl).congr rfl rfl rfl)
  | loginUser | loginPass => exact hleaves (hzero.send _)
  | loginDone h hc h₁ h₂ h₃ => exact hleaves (((hzero.queue h₁).queue h₂).queue h₃)

end Session

/-! ### The scan -/

theorem spares_procControl (wait : Int → World α → Int × World α) (buf : Bytes)
    (hopen : w.view.ctl = true ∨ w.view.cproc = some .active) :
    Spares w.view (procControl wait buf w).view ∧
      ((procControl wait buf w).view.ctl = true ∨
        (procControl wait buf w).view.cproc = some .active) := by
  rcases reply_procControl wait buf hopen with ⟨-, hv⟩ | ⟨-, hr⟩
  · rw [hv]
    exact ⟨⟨rfl, .inl ⟨rfl, rfl⟩⟩, hopen⟩
  · exact ⟨hr.spares, hr.keeps_open hopen⟩

/-- **The scan is not disturbed**: at every point of it. -/
theorem scanIn_spares (wait wait' : Int → World α → Int × World α) (start n i buf : ℕ) (mem : Bytes)
    (hopen : w.view.ctl = true ∨ w.view.cproc = some .active) :
    scanIn wait start n i buf mem w = scanIn wait' start n i buf mem w ∧
      ∀ buf' mem' w', scanIn wait start n i buf mem w = some (buf', mem', w') →
        Spares w.view w'.view := by
  induction n generalizing i buf mem w with
  | zero =>
    refine ⟨rfl, fun buf' mem' w' h => ?_⟩
    obtain ⟨-, -, rfl⟩ : buf = buf' ∧ mem = mem' ∧ w = w' := by simpa [scanIn] using h
    exact ⟨rfl, .inl ⟨rfl, rfl⟩⟩
  | succ n ih =>
    rw [scanIn, scanIn]
    simp only [Option.bind_eq_bind]
    cases load mem (start + i) with
    | none => exact ⟨by simp only [Option.bind_none], fun buf' mem' w' h => by simp at h⟩
    | some c =>
      simp only [Option.bind_some]
      split
      · cases store mem (start + i) nul with
        | none => exact ⟨by simp only [Option.bind_none], fun buf' mem' w' h => by simp at h⟩
        | some mem₁ => exact ih (i + 1) buf mem₁ hopen
      split
      · cases store mem (start + i) nul with
        | none => exact ⟨by simp only [Option.bind_none], fun buf' mem' w' h => by simp at h⟩
        | some mem₁ =>
          simp only [Option.bind_some]
          cases stringAt mem₁ buf with
          | none => exact ⟨by simp only [Option.bind_none], fun buf' mem' w' h => by simp at h⟩
          | some line =>
            simp only [Option.bind_some]
            set w₁ := w.emit (.line ((mem₁.drop buf).take (start + i - buf)))
            have hemit : Spares w.view w₁.view := ⟨rfl, .inl ⟨rfl, rfl⟩⟩
            obtain ⟨hspares, hopen₁⟩ := spares_procControl wait line (w := w₁) hopen
            obtain ⟨heq, hrest⟩ := ih (i + 1) (start + i + 1) mem₁ hopen₁
            refine ⟨?_, fun buf' mem' w' h => (hemit.trans hspares).trans (hrest _ _ _ h)⟩
            rw [← procControl_eq wait wait' line (w := w₁) hopen]
            exact heq
      · exact ih (i + 1) buf mem hopen

/-- **Nothing disturbs the scan of `crecv`.** When `handle_control` has received something, then at
every point of its loop `ftp_waitresp` has not been called, so that what it would do makes no
difference; no listing and no transfer has been begun; and what `crecv` held is still there, unless
`ftp_close` has closed the connection. -/
theorem scanIn_undisturbed (wait wait' : Int → World α → Int × World α) (start n i buf : ℕ)
    (mem : Bytes) (hctl : w.ftp.ctl ≠ none) :
    scanIn wait start n i buf mem w = scanIn wait' start n i buf mem w ∧
      ∀ buf' mem' w', scanIn wait start n i buf mem w = some (buf', mem', w') →
        begunData w'.log = begunData w.log ∧
          (w'.ftp.crecv = w.ftp.crecv ∨ w'.ftp.ctl = none ∧ w'.ftp.crecv = []) := by
  obtain ⟨heq, hspares⟩ := scanIn_spares wait wait' start n i buf mem
    (.inl (view_ctl_of_ne_none hctl))
  refine ⟨heq, fun buf' mem' w' h => ?_⟩
  obtain ⟨hbegun, ⟨-, hcrecv⟩ | ⟨hclosed, hcrecv⟩⟩ := hspares buf' mem' w' h
  · exact ⟨hbegun, .inl hcrecv⟩
  · exact ⟨hbegun, .inr ⟨by simpa [World.view] using hclosed, hcrecv⟩⟩

theorem scanBytes_eq (wait wait' : Int → World α → Int × World α) (bs cur : Bytes) (seen : Bool)
    (hopen : w.view.ctl = true ∨ w.view.cproc = some .active) :
    scanBytes wait bs cur seen w = scanBytes wait' bs cur seen w := by
  induction bs generalizing cur seen w with
  | nil => rfl
  | cons b bs ih =>
    rw [scanBytes, scanBytes]
    split
    · exact ih _ _ hopen
    split
    · have hopen₁ := (spares_procControl wait (cstr cur) (w := w.emit (.line cur)) hopen).2
      rw [← procControl_eq wait wait' (cstr cur) (w := w.emit (.line cur)) hopen]
      exact ih _ _ hopen₁
    · exact ih _ _ hopen

/-- In `handle_control`, over all its rounds, `ftp_waitresp` is not called. -/
theorem handleControl_eq (wait wait' : Int → World α → Int × World α) (w : World α) :
    handleControl wait w = handleControl wait' w := by
  rw [handleControl, handleControl]
  generalize w.env.ctlIn.length + 1 = fuel
  induction fuel generalizing w with
  | zero => rfl
  | succ fuel ih =>
    rw [handleControlLoop, handleControlLoop]
    set w₁ := if crecvSize ≤ w.ftp.crecv.length then
        warnmsg (ascii "discard buffer\n") (w.mapFtp fun f => { f with crecv := [] })
      else w
    set r := recvCtl (crecvSize - w₁.ftp.crecv.length) w₁ with hr
    cases hdata : r.1 with
    | intr => exact ih r.2
    | again => rfl
    | eof => rfl
    | data b =>
      obtain ⟨hctl, -⟩ := recvCtl_spec (hr ▸ hdata) (by simp)
      have hopen : (r.2.emit (.recv b)).view.ctl = true := view_ctl_of_ne_none hctl
      have hscan := scanBytes_eq wait wait' b r.2.ftp.crecv false (.inl hopen)
      show handleControlLoop wait fuel _ = handleControlLoop wait' fuel _
      rw [hscan]
      exact ih _

/-- A line and the beginning of another. -/
theorem scanIn_undisturbed_greeting :
    scanIn (fun _ w => (0, w)) 0 8 0 0 (ascii "220 hi\r\n3") (World.connected 3 none none ()) =
        scanIn (fun _ w => (-1, ftpClose w)) 0 8 0 0 (ascii "220 hi\r\n3")
          (World.connected 3 none none ()) ∧
      ∀ buf' mem' w', scanIn (fun _ w => (0, w)) 0 8 0 0 (ascii "220 hi\r\n3")
          (World.connected 3 none none ()) = some (buf', mem', w') →
        begunData w'.log = begunData (World.connected 3 none none ()).log ∧
          (w'.ftp.crecv = (World.connected 3 none none ()).ftp.crecv ∨
            w'.ftp.ctl = none ∧ w'.ftp.crecv = []) :=
  scanIn_undisturbed _ _ 0 8 0 0 _ (by decide)

/-- `PASV` is refused, in a packet that ends with the first byte of the reply to `PORT`; then that
reply arrives, which refuses `PORT`. This is the client when it has received it. -/
def refusedTwice : World Unit :=
  let w := (World.connected 3 none none ()).run
    [({ Env.quiet with
        ctlIn := [.data (ascii "502 no\r\n5")]
        selects := [.woke true 0]
        sockets := [some 4]
        binds := [true]
        names := [some (2130706433, 1025)] }, .queue .list rfl)]
  (recvCtl 255 { w with env := { Env.quiet with ctlIn := [.data (ascii "00 no\r\n")] } }).2.emit
    (.recv (ascii "00 no\r\n"))

/-- While the loop runs over the received bytes, `num_crecv` becomes zero. -/
theorem crecv_changed_refused :
    refusedTwice.ftp.ctl = some 3 ∧ refusedTwice.ftp.crecv = ascii "5" ∧
      (scanIn (fun _ w => (-1, w)) 1 7 0 0 (ascii "500 no\r\n") refusedTwice).map
        (fun r => (r.2.2.ftp.ctl, r.2.2.ftp.crecv)) = some (none, []) := by
  decide

end Visftp
