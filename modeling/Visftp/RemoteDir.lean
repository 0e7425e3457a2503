import Visftp.CurrentDir
import Visftp.ReplyTexts
import Visftp.Serving

/-!
# The directory on both sides

The server keeps a working directory, and the client keeps what it knows of it: `ftp->curdir` from
the replies to `PWD`, and `ftp->dirent` from the data of the listings. Both are asked for again by
`cproc_cwd` when the directory has changed, so that they are right again when all is quiet. But
`cproc_cwd` takes a `250` only, and a server answers `CDUP` with `200`.

A run is followed with what is still to come: as long as what the client knows is out of date, a
`PWD` or a `LIST` is in the queue, under way or asked for.

## Main definitions

* `DirServer`, `DirServer.wd` — a server, and its working directory
* `DirServer.Follows` — it keeps to the table of replies
* `DirServer.Plain` — what is asked of the run
* `Session.Gathers`, `DirServer.Current` — the invariants

## Main results

* `current_run` — whole runs
-/

namespace Visftp

open CString Histories Session Relation

/-- **A server that keeps a working directory.** -/
structure DirServer where
  /-- Where a session begins. -/
  home : Bytes
  /-- Where `CWD` leads from a directory, if it is not refused. -/
  enter : Bytes → Bytes → Option Bytes
  /-- Where `CDUP` leads from a directory, if it is not refused. -/
  leave : Bytes → Option Bytes
  /-- The entries of a directory. -/
  lines : Bytes → List UnixLine

namespace DirServer

variable (srv : DirServer)

/-- The directory after a command. -/
def after (dir : Bytes) : Option Cmd → Bytes
  | some (.cwd d) => (srv.enter dir d).getD dir
  | some .cdup => (srv.leave dir).getD dir
  | _ => dir

/-- **The working directory**, after the commands that the server has answered. -/
def wd : List Event → Bytes
  | [] => srv.home
  | .reply code _ _ _ :: past =>
    if 200 ≤ code then srv.after (wd past) (due past).head?.join else wd past
  | _ :: past => wd past

/-- The table of replies, for a command that is given in the directory `dir`. -/
def Replies (dir : Bytes) (code : Int) (buf : Bytes) : Option Cmd → Prop
  | some (.cwd d) => if (srv.enter dir d).isSome then code = 250 else 400 ≤ code
  | some .cdup => if (srv.leave dir).isSome then code = 200 else 400 ≤ code
  | some .pwd => code = 257 ∧ ascii "257 " ++ quoted dir <+: buf
  | some (.list _) => code = 150 ∨ code = 226
  | some (.type _) => code = 200 ∨ 400 ≤ code
  | _ => True

instance (dir : Bytes) (code : Int) (buf : Bytes) (c : Option Cmd) :
    Decidable (srv.Replies dir code buf c) := by
  induction c using Option.casesOn with
  | none => dsimp only [Replies]; infer_instance
  | some c => induction c using Cmd.casesOn <;> (dsimp only [Replies]; infer_instance)

/-- What `LIST` sends in a directory. -/
def listingOf (dir : Bytes) : Bytes := crlf ((srv.lines dir).map UnixLine.text)

/-- **The server follows the table.** It answers what it owes, with a preliminary reply only for a
data command. What it sends is for a data command, and it ends when all of it has been sent. It does
not close the control connection. Its replies, and what it sends, are what the client reads. -/
def Follows (past : List Event) : Event → Prop
  | .reply code _ _ buf =>
    Answers code (due past) ∧ srv.Replies (srv.wd past) code buf (due past).head?.join
  | .chunk .. => (serving past).isSome = true
  | .dataEof (some (.list r)) _ =>
    awaitsData past = true ∧ (sentFor (.list r) past).flatten = srv.listingOf (srv.wd past)
  | .dataEof (some (.xfer _)) _ => awaitsData past = true
  | .hangup => False
  | _ => True

instance (past : List Event) (e : Event) : Decidable (srv.Follows past e) := by
  induction e using Event.casesOn with
  | dataEof p busy =>
    induction p using Option.casesOn with
    | none => dsimp only [Follows]; infer_instance
    | some p => induction p using DProc.casesOn <;> (dsimp only [Follows]; infer_instance)
  | _ => dsimp only [Follows]; infer_instance

/-- What the client can tell from a reply: not that `CDUP` has led to another directory, and only a
name without a double quote. -/
def Tells (dir : Bytes) : Option Cmd → Prop
  | some .cdup => srv.after dir (some .cdup) = dir
  | some .pwd => 34 ∉ dir
  | _ => True

instance (dir : Bytes) (c : Option Cmd) : Decidable (srv.Tells dir c) := by
  induction c using Option.casesOn with
  | none => dsimp only [Tells]; infer_instance
  | some c => induction c using Cmd.casesOn <;> (dsimp only [Tells]; infer_instance)

/-- **What is asked of the run.** No `CDUP` leads to another directory. No operation is begun before
the greeting or while another one waits; a listing has a data connection or passive mode when it is
begun, and a data connection when its wait is over; no allocation fails. The names of directories
have no double quote in them, and the lines of their listings are those that `parse_dirent` is made
for. -/
def Plain (past : List Event) : Event → Prop
  | .exec op isOpen isPassive => Conforms past (.exec op isOpen isPassive) ∧
    (op = .list → isOpen = true ∨ isPassive = true)
  | .wake isOpen => .list ∈ stack past → isOpen = true
  | .outOfMemory => False
  | .reply .. => srv.Tells (srv.wd past) (due past).head?.join
  | .dataEof (some (.list _)) _ => ∀ u ∈ srv.lines (srv.wd past), u.Fits
  | _ => True

instance (past : List Event) (e : Event) : Decidable (srv.Plain past e) := by
  induction e using Event.casesOn with
  | dataEof p busy =>
    induction p using Option.casesOn with
    | none => dsimp only [Plain]; infer_instance
    | some p => induction p using DProc.casesOn <;> (dsimp only [Plain]; infer_instance)
  | _ => dsimp only [Plain]; infer_instance

/-- The entries are those of the directory. -/
def Shows (dirent : List Dirent) (dir : Bytes) : Prop :=
  (dirent.map Dirent.key).Perm ((srv.lines dir).map UnixLine.key)

end DirServer

/-- The login is over: the server has answered the login dialogue with `230`. -/
def loggedIn : List Event → Bool
  | [] => false
  | .reply code p _ _ :: past => (code == 230 && p == none) || loggedIn past
  | _ :: past => loggedIn past

/-! ### The data of a listing -/

namespace Session

variable {s s' : Session} {op : Op} {e : Event}

/-- **What has been sent for a listing is in its receive buffer.** -/
structure Gathers (s : Session) : Prop where
  served : ∀ c, serving s.log = some c → s.dproc = c.owner
  bufs : ∀ r, s.bufs r = (sentFor (.list r) s.log).flatten
  asked : ∀ r, .sent (.list r) ∈ s.log → r < s.nbuf

/-- The usual step: no data, and at most a new data connection. -/
theorem Gathers.of_same (h : Gathers s)
    (hs : serving s'.log = serving s.log ∨ serving s'.log = none)
    (hf : ∀ r, sentFor (.list r) s'.log = sentFor (.list r) s.log)
    (ha : ∀ r, .sent (.list r) ∈ s'.log → .sent (.list r) ∈ s.log)
    (hd : s'.dproc = s.dproc) (hb : s'.bufs = s.bufs) (hn : s'.nbuf = s.nbuf) : Gathers s' where
  served c hc := by
    rcases hs with hs | hs
    · rw [hd]
      exact h.served c (hs ▸ hc)
    · simp [hs] at hc
  bufs r := by rw [hb, hf, h.bufs]
  asked r hr := hn ▸ h.asked r (ha r hr)

theorem Gathers.congr (h : Gathers s) (hl : s'.log = s.log) (hd : s'.dproc = s.dproc)
    (hb : s'.bufs = s.bufs) (hn : s'.nbuf = s.nbuf) : Gathers s' :=
  h.of_same (.inl (by rw [hl])) (fun r => by rw [hl]) (fun r hr => hl ▸ hr) hd hb hn

theorem Gathers.emit_dry (h : Gathers s) (he : Dry e) (hne : ∀ r, e ≠ .sent (.list r)) :
    Gathers (s.emit e) :=
  h.of_same (.inl (he.serving s.log)) (fun r => he.sentFor (.list r) s.log)
    (fun r hr => (List.mem_cons.mp hr).resolve_left (hne r).symm) rfl rfl rfl

theorem Gathers.emit (h : Gathers s) (he : e.dry = true) : Gathers (s.emit e) :=
  h.emit_dry (dry_of he) fun r hr => by simp [hr, Event.dry] at he

theorem Gathers.send (h : Gathers s) {c : Cmd} (hc : c.owner = none) : Gathers (s.send c) := by
  rw [Session.send]
  split
  · refine (h.emit_dry (dry_sent hc) fun r hr => ?_).congr rfl rfl rfl rfl
    obtain rfl := Event.sent.inj hr
    simp [Cmd.owner] at hc
  · exact h.congr rfl rfl rfl rfl

theorem Gathers.ask (h : Gathers s) {c : Cmd} (hc : c.owner = none) (p : CProc) :
    Gathers ((s.send c).hook p) :=
  ((h.send hc).emit (e := .hook p) rfl).congr rfl rfl rfl rfl

theorem Gathers.opened (h : Gathers s) : Gathers ({ s with data := true }.emit .opened) :=
  h.of_same (.inr rfl) (fun _ => rfl) (fun r hr => by simpa [Session.emit] using hr) rfl rfl rfl

theorem Gathers.active (h : Gathers s) (sa : Option (ℕ × ℕ)) : Gathers (s.active sa) := by
  have hdrop : Gathers { s with data := false } := h.congr rfl rfl rfl rfl
  rcases sa with - | ⟨a, p⟩
  · exact hdrop
  · exact hdrop.ask (c := .port a p) rfl .active

theorem Gathers.simple (h : Gathers s) (op : Op) : Gathers (s.simple op) := by
  cases op with
  | type arg =>
    rw [Session.simple]
    split
    · exact h
    · exact h.send rfl
  | pwd => exact h.ask (c := .pwd) rfl .pwd
  | cdup => exact h.ask (c := .cdup) rfl .cwd
  | chdir d =>
    refine h.ask (c := if d = ascii ".." then .cdup else .cwd d) ?_ .cwd
    split <;> rfl
  | _ => exact h

/-- A data command is sent on an idle connection, together with its handler. -/
theorem Gathers.startData (h : Gathers s) (hidle : serving s.log = none) {c : Cmd} (p : CProc)
    (hn : c.owner.isSome = true) (hc : ∀ r, c = .list r → r < s.nbuf) :
    Gathers { (s.send c).hook p with dproc := c.owner, busy := ((s.send c).hook p).busy + 1 } := by
  rw [Session.send]
  cases hctl : s.ctl with
  | false =>
    refine ⟨fun c' hs => ?_, h.bufs, fun r hr => ?_⟩
    · exact absurd (hidle.symm.trans hs) (by simp)
    · exact h.asked r ((List.mem_cons.mp hr).resolve_left (by simp))
  | true =>
    have hserving : serving (.hook p :: .sent c :: s.log) = some c := by
      simp [serving, hidle, hn]
    refine ⟨fun c' hs => ?_, h.bufs, fun r hr => ?_⟩
    · rw [← Option.some.inj (hserving.symm.trans hs)]
    · rcases List.mem_cons.mp ((List.mem_cons.mp hr).resolve_left (by simp)) with hr | hr
      · exact hc r (Event.sent.inj hr).symm
      · exact h.asked r hr

theorem Gathers.start (h : Gathers s) (hidle : s.data = true → serving s.log = none)
    (hs : Start op s s') : Gathers s' := by
  cases hs with
  | none => exact h
  | noBuffer => exact h.emit (e := .outOfMemory) rfl
  | list hd =>
    rw [startList]
    set s₁ : Session := { s with bufs := Function.update s.bufs s.nbuf [], nbuf := s.nbuf + 1 }
    have h₁ : Gathers s₁ := by
      refine ⟨h.served, fun r => ?_, fun r hr => (h.asked r hr).trans (Nat.lt_succ_self _)⟩
      by_cases hr : r = s.nbuf
      · have hnone : .sent (.list s.nbuf) ∉ s.log := fun hsent =>
          lt_irrefl _ (h.asked s.nbuf hsent)
        simp [s₁, hr, sentFor_eq_nil hnone]
      · simpa [s₁, hr] using h.bufs r
    exact h₁.startData (hidle hd) (c := .list s.nbuf) (.list s.nbuf) rfl fun r hr => by
      cases hr
      exact Nat.lt_succ_self _
  | @transfer t _ hd =>
    rw [startTransfer]
    split
    · exact h.startData (hidle hd) (c := .retr t (s.jobs t).rname) (.xfer t) rfl fun r hr => by
        cases hr
    · exact h

theorem Gathers.enter (h : Gathers s) (op : Op) : Gathers (s.enter op) :=
  h.emit rfl

theorem Gathers.ret (h : Gathers s) : Gathers (s.emit .ret) :=
  h.emit rfl

theorem Gathers.exec (h : Gathers s) (hidle : s.data = true → serving s.log = none)
    (hs : Exec op s s') : Gathers s' := by
  cases hs with
  | simple => exact ((h.enter op).simple op).ret
  | atOnce _ _ hst => exact ((h.enter op).start hidle hst).ret
  | noData sa => exact ((h.enter op).active sa).ret
  | wait =>
    have hdrop : Gathers { s.enter op with data := false } := (h.enter op).congr rfl rfl rfl rfl
    exact hdrop.ask (c := .pasv) rfl .pasv

theorem Gathers.queueOp (h : Gathers s) (hs : Queue op s s') : Gathers s' := by
  have haccept : Gathers (s.emit (.accept op)) := h.emit rfl
  cases hs with
  | direct => exact ((haccept.enter op).simple op).ret
  | append => exact haccept.congr rfl rfl rfl rfl
  | full => exact h.emit (e := .outOfMemory) rfl

theorem Gathers.reply {code : Int} {buf : Bytes} (h : Gathers s) (hr : Reply code buf s s') :
    Gathers s' := by
  have hg : Gathers (s.got code buf) :=
    h.emit rfl
  have hset : ∀ b p, Gathers { s.got code buf with busy := b, passive := p } := fun _ _ =>
    hg.congr rfl rfl rfl rfl
  have hfinish : ∀ {s : Session}, Gathers s → Gathers s.finish := fun h => h.congr rfl rfl rfl rfl
  cases hr with
  | activeOk | pwd | cwdFail | listEnd | xferEnd => exact hfinish hg
  | activeFail =>
    refine hfinish ?_
    rw [Session.close]
    split
    · exact (hg.emit (e := .hangup) rfl).congr rfl rfl rfl rfl
    · exact hg.congr rfl rfl rfl rfl
  | pasvOpen => exact hfinish hg.opened
  | pasvFall sa => exact hfinish ((hset s.busy false).active sa)
  | cwdOk _ _ h₁ h₂ => exact hfinish ((hg.queueOp h₁).queueOp h₂)
  | listMore | xferMore => exact hg
  | @xferTotal t => exact hg.emit (e := .touch t) rfl
  | @xferFail t =>
    exact hfinish ((hg.emit (e := .touch t) rfl).emit (e := .done t) rfl)
  | loginUser u => exact (hset 0 s.passive).send (c := .user u) rfl
  | loginPass p => exact (hset 0 s.passive).send (c := .pass p) rfl
  | loginDone _ _ h₁ h₂ h₃ => exact (((hset 0 s.passive).queueOp h₁).queueOp h₂).queueOp h₃
  | loginOther => exact hset 0 s.passive

/-- A chunk for the command that is served. -/
theorem Gathers.store (h : Gathers s) {c : Cmd} (hs : serving s.log = some c) {b : Bytes}
    {bufs : ℕ → Bytes} (hbufs : ∀ r, bufs r = if .list r = c then s.bufs r ++ b else s.bufs r) :
    Gathers { s with bufs := bufs, log := .chunk b s.dproc :: s.log } where
  served := h.served
  bufs r := by
    dsimp only
    rw [hbufs, sentFor_chunk hs, h.bufs]
    split
    · next hr => simp [hr]
    · rfl
  asked r hr := h.asked r ((List.mem_cons.mp hr).resolve_left (by simp))

theorem Gathers.chunk {b : Bytes} (h : Gathers s) (hserve : (serving s.log).isSome = true)
    (hmem : .outOfMemory ∉ s'.log) (hc : Chunk b s s') : Gathers s' := by
  obtain ⟨c, hs⟩ := Option.isSome_iff_exists.mp hserve
  have howner := h.served c hs
  have hlist : ∀ {r}, s.dproc = some (.list r) → c = .list r := fun hp => by
    cases c <;> simp_all [Cmd.owner]
  have hxfer : ∀ {t}, s.dproc = some (.xfer t) → Gathers (s.emit (.chunk b s.dproc)) := fun hp =>
    h.store hs fun r => by
      rw [if_neg]
      rintro rfl
      simp [howner, Cmd.owner] at hp
  have htouch : ∀ {s : Session} {t}, Gathers s → Gathers (s.emit (.touch t)) := fun h =>
    h.emit rfl
  cases hc with
  | none hp =>
    have hsome := isSome_owner_of_serving hs
    rw [← howner, hp] at hsome
    simp at hsome
  | @list r hp =>
    obtain rfl := hlist hp
    have hbufs : ∀ r', Function.update s.bufs r (s.bufs r ++ b) r' =
        if Cmd.list r' = .list r then s.bufs r' ++ b else s.bufs r' := fun r' => by
      rcases eq_or_ne r' r with rfl | hr
      · simp
      · simp [hr]
    exact hp ▸ h.store hs hbufs
  | listFull => exact absurd (List.mem_cons_of_mem _ List.mem_cons_self) hmem
  | @file t f hp =>
    have hchunk := hxfer hp
    rw [hp] at hchunk
    exact htouch (hchunk.congr rfl rfl rfl rfl)
  | @mem t hp =>
    have hchunk := hxfer hp
    rw [hp] at hchunk
    exact htouch (hchunk.congr rfl rfl rfl rfl)
  | @stor t hp =>
    have hchunk := hxfer hp
    rw [hp] at hchunk
    exact htouch hchunk

/-- Once the data has ended, nothing is served. -/
theorem Gathers.dataEof (h : Gathers s) (he : DataEof s s') : Gathers s' := by
  have heof : ∀ p b, Gathers (s.emit (.dataEof p b)) := fun p b =>
    h.of_same (.inr rfl) (fun _ => rfl) (fun r hr => by simpa [Session.emit] using hr) rfl rfl rfl
  cases he with
  | none => exact (heof none s.busy).congr rfl rfl rfl rfl
  | @list r tail junk =>
    have hlist := heof (some (.list r)) s.busy
    refine ⟨fun c hc => ?_, hlist.bufs, hlist.asked⟩
    simp [Session.emit, Session.finish, serving] at hc
  | @xfer t =>
    have hxfer := heof (some (.xfer t)) s.busy
    exact ((hxfer.emit (e := .touch t) rfl).emit (e := .done t) rfl).congr rfl rfl rfl rfl
  | @stor t =>
    have hstor := heof (some (.xfer t)) s.busy
    exact (hstor.emit (e := .touch t) rfl).congr rfl rfl rfl rfl

theorem Act.gathers {srv : DirServer} (ha : Act s s') (h : Gathers s) (hc : Core 0 s) (hw : Waits s)
    (hctl : s.ctl = true) (hF : Always srv.Follows s'.log) (hP : Always srv.Plain s'.log) :
    Gathers s' := by
  -- an operation is begun while nothing is outstanding
  have hidle : s.busy = 0 → none ∉ due s.log → s.data = true → serving s.log = none :=
    fun hb hg _ => serving_of_not_awaits ((hc.idle le_rfl hb hg).2 hctl)
  have haccept : ∀ op, Gathers (s.emit (.accept op)) := fun op => h.emit rfl
  have hadd : ∀ j, Gathers (s.addJob j) := fun j =>
    h.of_same (.inl rfl) (fun _ => rfl) (fun r hr => by simpa [Session.addJob] using hr) rfl rfl rfl
  cases ha with
  | badSelect => exact h.emit rfl
  | assert =>
    exact (h.emit (e := .assertFailed) rfl).congr rfl rfl rfl rfl
  | @next _ op ops hb hq hx =>
    have hrest : Gathers { s with queue := ops } := h.congr rfl rfl rfl rfl
    exact hrest.exec (hidle hb (hP.suffix hx.extends.suffix).1.1.1) hx
  | @resume s₂ op ops hs hst =>
    have hwake : Gathers (s.emit (.wake s.data)) :=
      h.emit rfl
    have hwaiting := (hw.resolve_left (by simp [hs])).2
    exact (hwake.start (fun _ => serving_of_not_awaits (hwaiting.awaits hctl)) hst).ret
  | @append op => exact (haccept op).congr rfl rfl rfl rfl
  | refuse => exact h.emit (e := .outOfMemory) rfl
  | @direct _ op _ _ hb _ hx =>
    exact (haccept op).exec (hidle hb (hP.suffix hx.extends.suffix).1.1.1) hx
  | newJob j => exact (hadd j).emit (e := .outOfMemory) rfl
  | handOver j =>
    exact ((hadd j).emit (e := .accept (.xfer s.njob)) rfl).congr rfl rfl rfl rfl
  | handOverDirect j _ hb _ hx =>
    exact ((hadd j).emit (e := .accept (.xfer s.njob)) rfl).exec
      (hidle hb (hP.suffix hx.extends.suffix).1.1.1) hx
  | chunk b _ _ hch =>
    refine h.chunk (hF.suffix hch.extends.event).1 (fun hmem => ?_) hch
    exact (hP.exists_of_mem hmem).elim fun _ hfull => hfull
  | dataEof _ _ he => exact h.dataEof he
  | incoming =>
    have hincoming : Gathers ({ s with data := true }.emit .incoming) :=
      h.of_same (.inl rfl) (fun _ => rfl) (fun r hr => by simpa [Session.emit] using hr) rfl rfl rfl
    exact hincoming.of_same (.inr rfl) (fun _ => rfl)
      (fun r hr => by simpa [Session.emit] using hr) rfl rfl rfl

end Session

/-! ### What is still to come -/

namespace Session

/-- A `PWD` is in the queue, or asked for. -/
def PwdAhead (s : Session) : Prop := .pwd ∈ s.queue ∨ some .pwd ∈ due s.log

/-- The data of a listing is awaited. -/
def AwaitsList (s : Session) : Prop :=
  (∃ r, s.dproc = some (.list r)) ∧ awaitsData s.log = true

/-- A `LIST` is in the queue, under way or asked for. -/
def ListAhead (s : Session) : Prop := .list ∈ s.queue ∨ .list ∈ stack s.log ∨ s.AwaitsList

end Session

/-- The kinds of events that are none of the directories, nor of what is to come. -/
def Event.aside : Event → Bool
  | .exec .. | .ret => false
  | e => e.silent

namespace DirServer

variable {srv : DirServer} {s s' : Session} {op : Op} {P Q : Prop}

/-- **What the client knows is right, or it will be asked for.** `P` and `Q` say the same of an
operation that has been taken from the queue: that it is a `PWD`, and that it is a `LIST`. -/
structure Current (srv : DirServer) (P Q : Prop) (s : Session) : Prop where
  dir : loggedIn s.log = true → told s.log = some (srv.wd s.log) ∨ P ∨ s.PwdAhead
  entries : loggedIn s.log = true → srv.Shows s.dirent (srv.wd s.log) ∨ Q ∨ s.ListAhead

/-- The usual step: nothing is known anew, the directory is the same, and nothing is dropped. -/
theorem Current.of (h : srv.Current P Q s) (hi : loggedIn s'.log = true → loggedIn s.log = true)
    (ht : told s'.log = told s.log) (hw : srv.wd s'.log = srv.wd s.log) (hd : s'.dirent = s.dirent)
    (hp : s.PwdAhead → P ∨ s'.PwdAhead) (hl : s.ListAhead → Q ∨ s'.ListAhead) :
    srv.Current P Q s' where
  dir hlog := by
    rw [ht, hw]
    exact (h.dir (hi hlog)).imp_right fun hahead => hahead.elim .inl hp
  entries hlog := by
    rw [hw, hd]
    exact (h.entries (hi hlog)).imp_right fun hahead => hahead.elim .inl hl

theorem Current.congr (h : srv.Current P Q s) (hl : s'.log = s.log) (hq : s'.queue = s.queue)
    (hd : s'.dirent = s.dirent) (hp : s'.dproc = s.dproc) : srv.Current P Q s' := by
  refine h.of (fun hlog => hl ▸ hlog) (by rw [hl]) (by rw [hl]) hd (fun hahead => .inr ?_)
    fun hahead => .inr ?_
  · rw [PwdAhead, hq, hl]
    exact hahead
  · rw [ListAhead, AwaitsList, hq, hl, hp]
    exact hahead

/-- An event that is none of the directories. -/
structure Aside (srv : DirServer) (e : Event) : Prop where
  loggedIn : ∀ past, Visftp.loggedIn (e :: past) = Visftp.loggedIn past
  told : ∀ past, Visftp.told (e :: past) = Visftp.told past
  wd : ∀ past, srv.wd (e :: past) = srv.wd past
  due : ∀ past, due (e :: past) = Visftp.due past
  stack : ∀ past, stack (e :: past) = Visftp.stack past
  awaits : ∀ past, awaitsData (e :: past) = awaitsData past

theorem aside_of {e : Event} (he : e.aside = true) : srv.Aside e := by
  cases e with
  | sent | reply | exec | ret | hangup => simp [Event.aside, Event.silent] at he
  | dataEof p b =>
    cases p with
    | none =>
      exact ⟨fun _ => rfl, fun _ => rfl, fun _ => rfl, fun _ => rfl, fun _ => rfl, fun _ => rfl⟩
    | some p => simp [Event.aside, Event.silent] at he
  | _ => exact ⟨fun _ => rfl, fun _ => rfl, fun _ => rfl, fun _ => rfl, fun _ => rfl, fun _ => rfl⟩

theorem Current.emit (h : srv.Current P Q s) {e : Event} (hk : e.aside = true) :
    srv.Current P Q (s.emit e) := by
  have he : srv.Aside e := aside_of hk
  refine h.of (fun hlog => (he.loggedIn s.log).symm.trans hlog) (he.told s.log) (he.wd s.log) rfl
    (fun hahead => .inr ?_) fun hahead => .inr ?_
  · rw [PwdAhead, Session.emit, he.due]
    exact hahead
  · rw [ListAhead, AwaitsList, Session.emit, he.stack, he.awaits]
    exact hahead

theorem Current.send (h : srv.Current P Q s) (c : Cmd) : srv.Current P Q (s.send c) := by
  rw [Session.send]
  split
  · refine h.of id rfl rfl rfl (fun hahead => .inr ?_) fun hahead => .inr ?_
    · exact hahead.imp_right (List.mem_append_left _)
    · refine hahead.imp_right fun hahead => hahead.imp_right fun hlist => ⟨hlist.1, ?_⟩
      rw [awaitsData, hlist.2, Bool.or_true]
  · exact h.congr rfl rfl rfl rfl

theorem Current.ask (h : srv.Current P Q s) (c : Cmd) (p : CProc) :
    srv.Current P Q ((s.send c).hook p) :=
  ((h.send c).emit (e := .hook p) rfl).congr rfl rfl rfl rfl

theorem Current.active (h : srv.Current P Q s) (sa : Option (ℕ × ℕ)) :
    srv.Current P Q (s.active sa) := by
  have hdrop : srv.Current P Q { s with data := false } := h.congr rfl rfl rfl rfl
  rcases sa with - | ⟨a, p⟩
  · exact hdrop
  · exact hdrop.ask _ _

theorem Current.simple (h : srv.Current P Q s) (op : Op) : srv.Current P Q (s.simple op) := by
  cases op with
  | type arg =>
    rw [Session.simple]
    split
    · exact h
    · exact h.send _
  | pwd => exact h.ask _ _
  | cdup => exact h.ask _ _
  | chdir d => exact h.ask _ _
  | _ => exact h

theorem Current.enter (h : srv.Current P Q s) (op : Op) : srv.Current P Q (s.enter op) :=
  h.of id rfl rfl rfl .inr fun hahead =>
    .inr (hahead.imp_right fun hahead => hahead.imp_left (List.mem_cons_of_mem op))

/-- An operation returns. If it was a listing, that is accounted for. -/
theorem Current.ret (h : srv.Current P Q s) (hst : .list ∈ stack s.log → Q) :
    srv.Current P Q (s.emit .ret) :=
  h.of id rfl rfl rfl .inr fun hahead => by
    rcases hahead with hahead | hahead | hahead
    · exact .inr (.inl hahead)
    · exact .inl (hst hahead)
    · exact .inr (.inr (.inr hahead))

/-- What was taken from the queue has been asked for. -/
theorem Current.close (h : srv.Current P Q s) (hP : P → s.PwdAhead) (hQ : Q → s.ListAhead) :
    srv.Current False False s where
  dir hlog := (h.dir hlog).imp_right fun hahead => .inr (hahead.elim hP id)
  entries hlog := (h.entries hlog).imp_right fun hahead => .inr (hahead.elim hQ id)

theorem Current.weaken (h : srv.Current False False s) (P Q : Prop) : srv.Current P Q s where
  dir hlog := (h.dir hlog).imp_right fun hahead => .inr (hahead.resolve_left not_false)
  entries hlog := (h.entries hlog).imp_right fun hahead => .inr (hahead.resolve_left not_false)

/-! ### Steps -/

/-- A data command is sent while nothing is outstanding. -/
theorem Current.start (h : srv.Current P Q s) (hctl : s.ctl = true)
    (ha : awaitsData s.log = false) (hop : op = .list → s.data = true)
    (hmem : .outOfMemory ∉ s'.log) (hs : Start op s s') :
    srv.Current P Q s' ∧ (op = .list → s'.AwaitsList) := by
  have hawaits : ¬s.AwaitsList := fun hlist => by simp [hlist.2] at ha
  cases hs with
  | none hd => exact ⟨h, fun hlist => absurd (hop hlist) (by simp [hd])⟩
  | noBuffer => exact absurd List.mem_cons_self hmem
  | list =>
    rw [Session.startList]
    set s₁ : Session := { s with bufs := Function.update s.bufs s.nbuf [], nbuf := s.nbuf + 1 }
    have h₁ : srv.Current P Q ((s₁.send (.list s.nbuf)).hook (.list s.nbuf)) :=
      Current.ask (s := s₁) (h.congr rfl rfl rfl rfl) _ _
    have hsent : awaitsData ((s₁.send (.list s.nbuf)).hook (.list s.nbuf)).log = true := by
      have hctl₁ : s₁.ctl = true := hctl
      simp [Session.send, Session.hook, hctl₁, awaitsData, Cmd.owner]
    refine ⟨h₁.of id rfl rfl rfl .inr fun hahead => ?_, fun _ => ⟨⟨_, rfl⟩, hsent⟩⟩
    exact .inr (hahead.imp_right fun hahead => hahead.imp_right fun _ => ⟨⟨_, rfl⟩, hsent⟩)
  | @transfer t _ hd =>
    refine ⟨?_, fun hlist => by cases hlist⟩
    rw [Session.startTransfer]
    split
    · have hlog : ∀ c : Cmd, (s.send c).log = .sent c :: s.log := fun c => by
        simp [Session.send, hctl]
      set c : Cmd := .retr t (s.jobs t).rname
      refine h.of (fun hlog' => ?_) ?_ ?_ rfl (fun hahead => .inr ?_) fun hahead => .inr ?_
      · simpa [Session.hook, hlog, loggedIn] using hlog'
      · simp [Session.hook, hlog, told]
      · simp [Session.hook, hlog, wd]
      · refine hahead.imp id fun hdue => ?_
        simpa [Session.hook, hlog, due, c] using hdue
      · rcases hahead with hahead | hahead | hahead
        · exact .inl hahead
        · exact .inr (.inl (by simpa [Session.hook, hlog, stack] using hahead))
        · exact absurd hahead hawaits
    · exact h

/-- `exec_op` of an operation that has been taken from the queue. -/
theorem Current.exec (h : srv.Current (op = .pwd) (op = .list) s) (hctl : s.ctl = true)
    (ha : awaitsData s.log = false) (hst : stack s.log = [])
    (hop : op = .list → s.data = true ∨ s.passive = true) (hmem : .outOfMemory ∉ s'.log)
    (hs : Exec op s s') : srv.Current False False s' := by
  have hmine : ∀ {s₁ : Session}, stack s₁.log = [op] → .list ∈ stack s₁.log → op = .list :=
    fun hstack hlist => by
      rw [hstack] at hlist
      exact (List.mem_singleton.mp hlist).symm
  have hentered : stack (s.enter op).log = [op] := by rw [stack_enter, hst]
  cases hs with
  | simple hn =>
    have hstack : stack ((s.enter op).simple op).log = [op] := (stack_simple _ op).trans hentered
    refine (((h.enter op).simple op).ret (hmine hstack)).close ?_ ?_
    · rintro rfl
      refine .inr ?_
      have hlog : ((s.enter .pwd).simple .pwd).log =
          .hook .pwd :: .sent .pwd :: (s.enter .pwd).log := by
        have hctl₁ : (s.enter .pwd).ctl = true := hctl
        simp [Session.simple, Session.send, Session.hook, hctl₁]
      rw [Session.emit, hlog]
      exact List.mem_append_right _ List.mem_cons_self
    · rintro rfl
      exact absurd hn (by decide)
  | atOnce hn hd hstart =>
    obtain ⟨h₁, hlist⟩ := (h.enter op).start hctl ha (fun _ => hd)
      (fun hm => hmem (List.mem_cons_of_mem _ hm)) hstart
    refine (h₁.ret (hmine (hstart.stack_eq.trans hentered))).close ?_ ?_
    · rintro rfl
      exact absurd hn (by decide)
    · exact fun hop => .inr (.inr (hlist hop))
  | noData sa hn hd hp =>
    have hstack : stack ((s.enter op).active sa).log = [op] := (stack_active _ sa).trans hentered
    refine (((h.enter op).active sa).ret (hmine hstack)).close ?_ ?_
    · rintro rfl
      exact absurd hn (by decide)
    · intro hlist
      rcases hop hlist with hopen | hpassive
      · exact absurd hopen (by simp [hd])
      · exact absurd hpassive (by simp [hp])
  | wait hn =>
    have hdrop : srv.Current (op = .pwd) (op = .list) { s.enter op with data := false } :=
      (h.enter op).congr rfl rfl rfl rfl
    refine (hdrop.ask .pasv .pasv).close ?_ ?_
    · rintro rfl
      exact absurd hn (by decide)
    · rintro rfl
      refine .inr (.inl ?_)
      have hstack : stack (s.enter .list).askPasv.log = [.list] :=
        (stack_askPasv _).trans hentered
      exact hstack ▸ List.mem_cons_self

/-- An operation that cannot be begun at once is appended to the queue. -/
theorem Current.enqueue (h : srv.Current P Q s) (op : Op) : srv.Current P Q (s.enqueue op) :=
  h.of id rfl rfl rfl (fun hahead => .inr (hahead.imp_left (List.mem_append_left _)))
    fun hahead => .inr (hahead.imp_left (List.mem_append_left _))

/-- **A reply.** Only a directory that was entered, and the end of the login, put what the client
knows out of date; and a `PWD` that was asked for brings it up to date. -/
theorem Current.got {code : Int} {buf : Bytes} (h : srv.Current P Q s) (hc : Core 0 s)
    (hF : srv.Follows s.log (.reply code s.cproc s.busy buf))
    (hP : srv.Plain s.log (.reply code s.cproc s.busy buf)) :
    (s.cproc = some .cwd ∧ code = 250) ∨ (s.cproc = none ∧ code = 230) ∨
      srv.Current P Q (s.got code buf) := by
  obtain ⟨hans, hreply⟩ := hF
  obtain ⟨q, hq⟩ := hc.due_eq_singleton hans
  have htells : srv.Tells (srv.wd s.log) (due s.log).head?.join := hP
  have hmatched := hc.matched
  rw [hq] at hreply htells hmatched
  by_cases hlogin : s.cproc = none ∧ code = 230
  · exact .inr (.inl hlogin)
  have hlogged : loggedIn (s.got code buf).log = true → loggedIn s.log = true := by
    intro hlog
    rw [Session.got, Session.emit, loggedIn, Bool.or_eq_true, Bool.and_eq_true, beq_iff_eq,
      beq_iff_eq] at hlog
    exact hlog.resolve_left fun hnew => hlogin ⟨hnew.2, hnew.1⟩
  have hlist : s.ListAhead → Q ∨ (s.got code buf).ListAhead := .inr
  have hwd : srv.wd (s.got code buf).log =
      if 200 ≤ code then srv.after (srv.wd s.log) q else srv.wd s.log := by
    rw [Session.got, Session.emit, wd, hq]
    rfl
  have htold : told (s.got code buf).log = if code = 257 ∧ s.cproc = some .pwd then
      (getQuotedText buf).or (told s.log) else told s.log := rfl
  rcases q with - | c
  · -- the greeting
    have hnone : s.cproc = none := hmatched
    refine .inr (.inr (h.of hlogged ?_ ?_ rfl (fun hahead => ?_) hlist))
    · rw [htold, if_neg (by simp [hnone])]
    · rw [hwd]
      exact ite_id _
    · exact .inr (hahead.imp_right fun hdue => by simp [hq] at hdue)
  by_cases hpwd : c = .pwd
  · -- the directory is told
    subst hpwd
    obtain ⟨rfl, hprefix⟩ := hreply
    have hproc : s.cproc = some .pwd := hmatched
    rw [if_pos (by decide)] at hwd
    rw [if_pos ⟨rfl, hproc⟩, getQuotedText_of_prefix hprefix,
      (takeWhile_eq_self_iff_notMem _).mpr htells, Option.some_or] at htold
    refine .inr (.inr ⟨fun _ => .inl (htold.trans (congrArg some hwd.symm)), fun hlog => ?_⟩)
    rw [hwd]
    exact (h.entries (hlogged hlog)).imp_right fun hahead => hahead.imp_right id
  · have hsame : told (s.got code buf).log = told s.log := by
      rw [htold, if_neg]
      rintro ⟨rfl, hproc⟩
      rw [Finds, hproc] at hmatched
      cases c <;> simp_all [Cmd.HandledBy, Replies]
    have hahead : s.PwdAhead → P ∨ (s.got code buf).PwdAhead := fun hahead =>
      .inr (hahead.imp_right fun hdue => by
        rw [hq, List.mem_singleton] at hdue
        exact absurd (Option.some.inj hdue).symm hpwd)
    by_cases hcwd : s.cproc = some .cwd ∧ code = 250
    · exact .inl hcwd
    refine .inr (.inr (h.of hlogged hsame ?_ rfl hahead hlist))
    rw [hwd]
    cases c with
    | cdup =>
      have hstays : srv.after (srv.wd s.log) (some .cdup) = srv.wd s.log := htells
      rw [hstays]
      exact ite_id _
    | cwd d =>
      -- it was refused
      have hproc : s.cproc = some .cwd := hmatched
      have hnone : srv.enter (srv.wd s.log) d = none := by
        by_contra hsome
        have hcode : code = 250 := by
          simpa [Replies, Option.isSome_iff_ne_none.mpr hsome] using hreply
        exact hcwd ⟨hproc, hcode⟩
      rw [after, hnone, Option.getD_none]
      exact ite_id _
    | _ => exact ite_id _

theorem Current.finish (h : srv.Current P Q s) : srv.Current P Q s.finish := h.congr rfl rfl rfl rfl

/-- While there is memory, an operation that cannot be begun at once is in the queue. -/
theorem queue_of_blocked (hq : Queue op s s') (hb : ¬(s.busy = 0 ∧ s.queue = []))
    (hmem : .outOfMemory ∉ s'.log) : s' = s.enqueue op := by
  cases hq with
  | direct hb' hq' => exact absurd ⟨hb', hq'⟩ hb
  | append => rfl
  | full => exact absurd List.mem_cons_self hmem

/-- A `PWD` and a `LIST` are queued. -/
theorem current_of_queue {s₁ s₂ : Session} (hb : ¬(s.busy = 0 ∧ s.queue = []))
    (h₁ : Queue .pwd s s₁) (h₂ : Queue .list s₁ s₂) (hmem : .outOfMemory ∉ s₂.log) :
    srv.Current False False s₂ := by
  have hmem₁ : .outOfMemory ∉ s₁.log := fun hm =>
    hmem ((Extends.queue (.refl s₁) h₂).suffix.subset hm)
  obtain rfl := queue_of_blocked h₁ hb hmem₁
  obtain rfl := queue_of_blocked h₂ (by simp [Session.enqueue, Session.emit]) hmem
  have hqueued : .pwd ∈ ((s.enqueue .pwd).enqueue .list).queue ∧
      .list ∈ ((s.enqueue .pwd).enqueue .list).queue := by
    simp [Session.enqueue, Session.emit]
  exact ⟨fun _ => .inr (.inr (.inl hqueued.1)), fun _ => .inr (.inr (.inl hqueued.2))⟩

theorem Current.reply {code : Int} {buf : Bytes} (h : srv.Current False False s) (hc : Core 0 s)
    (hctl : s.ctl = true) (hr : Reply code buf s s') (hF : Always srv.Follows s'.log)
    (hP : Always srv.Plain s'.log) : srv.Current False False s' := by
  have hev : srv.Follows s.log (.reply code s.cproc s.busy buf) := (hF.suffix hr.extends.event).1
  have hmem : .outOfMemory ∉ s'.log := fun hm => (hP.exists_of_mem hm).elim fun _ hfull => hfull
  -- apart from the two cases that queue something
  have hgot : (s.cproc = some .cwd → code ≠ 250) → (s.cproc = none → code ≠ 230) →
      srv.Current False False (s.got code buf) := fun hcwd hlogin => by
    rcases h.got hc hev (hP.suffix hr.extends.event).1 with ⟨hp, hcode⟩ | ⟨hp, hcode⟩ | hgot
    · exact absurd hcode (hcwd hp)
    · exact absurd hcode (hlogin hp)
    · exact hgot
  have hlogin : s.cproc = none → code ≠ 230 →
      srv.Current False False { s.got code buf with busy := 0 } := fun hp hcode =>
    (hgot (by simp [hp]) fun _ => hcode).congr rfl rfl rfl rfl
  cases hr with
  | activeOk hp | pwd hp | listEnd hp | xferEnd hp =>
    exact (hgot (by simp [hp]) (by simp [hp])).finish
  | activeFail hp =>
    have hhangup : .hangup ∈ (s.got code buf).close.finish.log := by
      simp [Session.finish, Session.close, Session.got, Session.emit, hctl]
    exact (hF.exists_of_mem hhangup).elim fun _ hclosed => hclosed.elim
  | pasvOpen hp =>
    have hdata : srv.Current False False { s.got code buf with data := true } :=
      (hgot (by simp [hp]) (by simp [hp])).congr rfl rfl rfl rfl
    exact (hdata.emit (e := .opened) rfl).finish
  | pasvFall sa hp =>
    have hmode : srv.Current False False { s.got code buf with passive := false } :=
      (hgot (by simp [hp]) (by simp [hp])).congr rfl rfl rfl rfl
    exact (hmode.active sa).finish
  | cwdFail hp hcode => exact (hgot (fun _ => hcode) (by simp [hp])).finish
  | cwdOk hp hcode h₁ h₂ =>
    -- the handler has not been counted off yet
    have hbusy : 1 ≤ (s.got code buf).busy := by
      have hcore := (hc.got_of_final buf hev.1 (by omega) (by simp [hp])).2.busy hctl
      rw [outstanding] at hcore
      split at hcore <;> omega
    exact (current_of_queue (fun hidle => by omega) h₁ h₂ hmem).finish
  | listMore hp | xferMore hp => exact hgot (by simp [hp]) (by simp [hp])
  | @xferTotal t hp => exact (hgot (by simp [hp]) (by simp [hp])).emit (e := .touch t) rfl
  | @xferFail t hp =>
    have hdone := ((hgot (by simp [hp]) (by simp [hp])).emit (e := .touch t) rfl).emit
      (e := .done t) rfl
    exact hdone.finish
  | loginUser u hp hcode => exact (hlogin hp (by omega)).send _
  | loginPass p hp hcode => exact (hlogin hp (by omega)).send _
  | loginDone hp hcode h₁ h₂ h₃ =>
    -- `TYPE` is outstanding, or something else is
    exact current_of_queue (h₁.blocked hctl (.inr rfl)).2 h₂ h₃ hmem
  | loginOther hp hcode => exact hlogin hp hcode.2.2

theorem Current.chunk {b : Bytes} (h : srv.Current P Q s) (hch : Chunk b s s') :
    srv.Current P Q s' := by
  cases hch with
  | none => exact h.emit (e := .chunk b _) rfl
  | listFull =>
    exact ((h.emit (e := .chunk b _) rfl).emit (e := .outOfMemory) rfl).emit (e := .dropped _) rfl
  | @list r =>
    have hstore : srv.Current P Q (s.storeBuf r b) := h.congr rfl rfl rfl rfl
    exact hstore.emit (e := .chunk b _) rfl
  | @file t f =>
    have hstore : srv.Current P Q (s.storeFile f b) := h.congr rfl rfl rfl rfl
    exact (hstore.emit (e := .chunk b _) rfl).emit (e := .touch t) rfl
  | @mem t =>
    have hstore : srv.Current P Q (s.storeMem t b) := h.congr rfl rfl rfl rfl
    exact (hstore.emit (e := .chunk b _) rfl).emit (e := .touch t) rfl
  | @stor t => exact (h.emit (e := .chunk b _) rfl).emit (e := .touch t) rfl

/-- **The end of the data** of a listing leaves the entries of the directory. -/
theorem Current.dataEof (h : srv.Current P Q s) (hg : Gathers s) (he : DataEof s s')
    (hF : Always srv.Follows s'.log) (hP : Always srv.Plain s'.log) : srv.Current P Q s' := by
  have hfollows : srv.Follows s.log (.dataEof s.dproc s.busy) := (hF.suffix he.extends.event).1
  have hplain : srv.Plain s.log (.dataEof s.dproc s.busy) := (hP.suffix he.extends.event).1
  -- no other data is that of a listing
  have hother : (∀ r, s.dproc ≠ some (.list r)) → s.ListAhead →
      .list ∈ s.queue ∨ .list ∈ stack s.log := fun hne hahead => by
    rcases hahead with hahead | hahead | ⟨⟨r, hr⟩, -⟩
    exacts [.inl hahead, .inr hahead, absurd hr (hne r)]
  have heof : (∀ r, s.dproc ≠ some (.list r)) →
      srv.Current P Q (s.emit (.dataEof s.dproc s.busy)) := fun hne =>
    h.of id rfl rfl rfl .inr fun hahead => .inr ((hother hne hahead).imp_right .inl)
  cases he with
  | none hp =>
    have hnone := heof (by simp [hp])
    rw [hp] at hnone
    exact hnone.congr rfl rfl rfl rfl
  | @list r tail junk hp =>
    rw [hp] at hfollows hplain
    have hshows : srv.Shows (listing tail junk (s.bufs r)) (srv.wd s.log) := by
      rw [hg.bufs, hfollows.2]
      exact UnixLine.perm_listing hplain tail junk
    refine ⟨fun hlog => (h.dir hlog).imp_right fun hahead => ?_, fun _ => .inl hshows⟩
    refine hahead.imp_right fun hpwd => ?_
    rw [PwdAhead] at hpwd ⊢
    exact hpwd
  | @xfer t hp =>
    have hxfer := heof (by simp [hp])
    rw [hp] at hxfer
    exact ((hxfer.emit (e := .touch t) rfl).emit (e := .done t) rfl).congr rfl rfl rfl rfl
  | @stor t hp =>
    have hxfer := heof (by simp [hp])
    rw [hp] at hxfer
    exact (hxfer.emit (e := .touch t) rfl).congr rfl rfl rfl rfl

end DirServer

theorem Session.Act.current {srv : DirServer} {s s' : Session} (ha : Act s s')
    (h : srv.Current False False s) (hg : Gathers s) (hc : Core 0 s) (hw : Waits s)
    (hctl : s.ctl = true) (hF : Always srv.Follows s'.log) (hP : Always srv.Plain s'.log) :
    srv.Current False False s' := by
  have hmem : .outOfMemory ∉ s'.log := fun hm => (hP.exists_of_mem hm).elim fun _ hfull => hfull
  have hadd : ∀ {P Q : Prop} (j : Job), srv.Current P Q s → srv.Current P Q (s.addJob j) :=
    fun j h => h.of id rfl rfl rfl .inr .inr
  have haccept : ∀ {P Q : Prop} {s : Session} (op : Op), srv.Current P Q s →
      srv.Current P Q (s.emit (.accept op)) := fun op h => h.emit rfl
  cases ha with
  | badSelect =>
    exact h.emit rfl
  | assert => exact h.of id rfl rfl rfl .inr .inr
  | @next _ op ops hb hq hx =>
    have hrest : srv.Current (op = .pwd) (op = .list) { s with queue := ops } := by
      refine (h.weaken _ _).of id rfl rfl rfl (fun hahead => ?_) fun hahead => ?_
      · rw [PwdAhead, hq, List.mem_cons, or_assoc] at hahead
        exact hahead.imp_left Eq.symm
      · rw [ListAhead, hq, List.mem_cons, or_assoc] at hahead
        exact hahead.imp_left Eq.symm
    obtain ⟨⟨hgreeted, hst⟩, hdata⟩ := (hP.suffix hx.extends.suffix).1
    exact hrest.exec hctl ((hc.idle le_rfl hb hgreeted).2 hctl) hst hdata hmem hx
  | @resume s₂ op ops hs hst =>
    obtain ⟨⟨op', hop'⟩, hwaiting⟩ := hw.resolve_left (by simp [hs])
    obtain ⟨-, rfl⟩ : op = op' ∧ ops = [] := by simpa using hs.symm.trans hop'
    have hwake : srv.Current False (op = .list) (s.emit (.wake s.data)) :=
      (h.weaken _ _).emit rfl
    have hopen : op = .list → s.data = true := fun hop =>
      (hP.suffix ((Extends.start (.refl _) hst).suffix.trans (List.suffix_cons _ _))).1
        (by rw [hs, hop]; exact List.mem_cons_self)
    obtain ⟨hstart, hlist⟩ := hwake.start hctl (hwaiting.awaits hctl) hopen
      (fun hm => hmem (List.mem_cons_of_mem _ hm)) hst
    have hstack : stack s₂.log = [op] := hst.stack_eq.trans hs
    refine (hstart.ret fun hmine => ?_).close False.elim fun hop => .inr (.inr (hlist hop))
    rw [hstack] at hmine
    exact (List.mem_singleton.mp hmine).symm
  | append => exact h.enqueue _
  | @direct _ op _ _ hb _ hx =>
    obtain ⟨⟨hgreeted, hst⟩, hdata⟩ := (hP.suffix hx.extends.suffix).1
    exact (haccept op (h.weaken _ _)).exec hctl ((hc.idle le_rfl hb hgreeted).2 hctl) hst hdata
      hmem hx
  | refuse => exact h.emit (e := .outOfMemory) rfl
  | newJob j => exact (hadd j h).emit (e := .outOfMemory) rfl
  | handOver j => exact (hadd j h).enqueue _
  | handOverDirect j _ hb _ hx =>
    obtain ⟨⟨hgreeted, hst⟩, hdata⟩ := (hP.suffix hx.extends.suffix).1
    exact (haccept _ (hadd j (h.weaken _ _))).exec hctl ((hc.idle le_rfl hb hgreeted).2 hctl) hst
      hdata hmem hx
  | chunk b _ _ hch => exact h.chunk hch
  | dataEof _ _ he => exact h.dataEof hg he hF hP
  | incoming => exact h.of id rfl rfl rfl .inr .inr

namespace Session

variable {srv : DirServer} {s s' : Session}

/-- **The client and the server agree**, on an open connection. -/
structure Agrees (srv : DirServer) (s : Session) : Prop where
  ctl : s.ctl = true
  gathers : Gathers s
  current : srv.Current False False s

/-- No reply closes the control connection unseen. -/
theorem Reply.ctl_eq {code : Int} {buf : Bytes} (hr : Reply code buf s s') (hctl : s.ctl = true)
    (hopen : .hangup ∉ s'.log) : s'.ctl = true := by
  cases hr with
  | activeFail =>
    simp [Session.finish, Session.close, Session.got, Session.emit, hctl] at hopen
  | pasvFall sa => exact (ctl_active sa _).trans hctl
  | cwdOk _ _ h₁ h₂ => exact h₂.ctl_eq.trans (h₁.ctl_eq.trans hctl)
  | loginDone _ _ h₁ h₂ h₃ => exact h₃.ctl_eq.trans (h₂.ctl_eq.trans (h₁.ctl_eq.trans hctl))
  | _ => exact hctl

/-- **One step** keeps them so. -/
theorem Step.agrees (hstep : Step s s') (h : Agrees srv s) (hc : Core 0 s) (hw : Waits s)
    (hF : Always srv.Follows s'.log) (hP : Always srv.Plain s'.log) : Agrees srv s' := by
  have hopen : .hangup ∉ s'.log := fun hm => (hF.exists_of_mem hm).elim fun _ hclosed => hclosed
  obtain ⟨hctl, hg, hcur⟩ := h
  cases hstep with
  | recv b =>
    exact ⟨hctl, hg.emit rfl,
      hcur.of id rfl rfl rfl .inr .inr⟩
  | line buf =>
    exact ⟨hctl, hg.emit rfl,
      hcur.of id rfl rfl rfl .inr .inr⟩
  | carry c => exact ⟨hctl, hg.congr rfl rfl rfl rfl, hcur.congr rfl rfl rfl rfl⟩
  | reply code buf _ _ hr =>
    exact ⟨hr.ctl_eq hctl hopen, hg.reply hr, hcur.reply hc hctl hr hF hP⟩
  | hangup => simp [Session.close, hctl] at hopen
  | act ha =>
    exact ⟨ha.frame.1.trans hctl, ha.gathers hg hc hw hctl hF hP,
      ha.current hcur hg hc hw hctl hF hP⟩

theorem agrees_connected {α : Type} (ctl : Fd) (user pass : Option Bytes) (app : α) :
    Agrees srv (World.connected ctl user pass app).view where
  ctl := rfl
  gathers := ⟨fun _ hc => by simp [World.view, World.connected, serving] at hc, fun _ => rfl,
    fun _ hr => by simp [World.view, World.connected] at hr⟩
  current := ⟨fun hlog => by simp [World.view, World.connected, loggedIn] at hlog,
    fun hlog => by simp [World.view, World.connected, loggedIn] at hlog⟩

/-- When all is quiet, there is nothing to come. -/
theorem Agrees.quiet (h : Agrees srv s) (hc : Core 0 s) (hlogin : loggedIn s.log = true)
    (hst : stack s.log = []) (hb : s.busy = 0) (hq : s.queue = []) :
    told s.log = some (srv.wd s.log) ∧ srv.Shows s.dirent (srv.wd s.log) := by
  have hnone : (due s.log).countP Option.isSome = 0 ∧ awaitsData s.log = false := by
    have hbusy := hc.busy h.ctl
    rw [hb, outstanding] at hbusy
    split at hbusy
    · omega
    · next hawaits => exact ⟨by omega, by simpa using hawaits⟩
  constructor
  · rcases h.current.dir hlogin with hdir | hfalse | hahead | hahead
    · exact hdir
    · exact hfalse.elim
    · simp [hq] at hahead
    · exact absurd rfl (List.countP_eq_zero.mp hnone.1 _ hahead)
  · rcases h.current.entries hlogin with hshows | hfalse | hahead | hahead | ⟨-, hahead⟩
    · exact hshows
    · exact hfalse.elim
    · simp [hq] at hahead
    · simp [hst] at hahead
    · simp [hnone.2] at hahead

end Session

/-- What is asked of the server and of the run is more than is asked for the dialogue. -/
theorem DirServer.conforms {srv : DirServer} {past : List Event} {e : Event}
    (hF : srv.Follows past e) (hP : srv.Plain past e) : Conforms past e := by
  cases e with
  | reply => exact hF.1
  | exec => exact hP.1
  | dataEof p b =>
    cases p with
    | none => trivial
    | some p =>
      cases p with
      | list r => exact hF.1
      | xfer t => exact hF
  | _ => trivial

/-- **Both sides know the same directory.** In every run against a server that follows the table,
if the run is plain, then whenever the login is over and nothing is outstanding or queued,
`ftp->curdir` is the working directory of the server, and `ftp->dirent` holds its entries. -/
theorem current_run {α : Type} (srv : DirServer) (ctl : Fd) (user pass : Option Bytes) (app : α)
    (inputs : List (Env × Input α))
    (hF : Always srv.Follows ((World.connected ctl user pass app).run inputs).log)
    (hP : Always srv.Plain ((World.connected ctl user pass app).run inputs).log)
    (hlogin : loggedIn ((World.connected ctl user pass app).run inputs).log = true)
    (hb : ((World.connected ctl user pass app).run inputs).ftp.busy = 0)
    (hq : ((World.connected ctl user pass app).run inputs).ftp.queue.toList = []) :
    ((World.connected ctl user pass app).run inputs).ftp.curdir =
        some (srv.wd ((World.connected ctl user pass app).run inputs).log) ∧
      srv.Shows ((World.connected ctl user pass app).run inputs).ftp.dirent
        (srv.wd ((World.connected ctl user pass app).run inputs).log) := by
  obtain ⟨-, hcore, -, hagrees⟩ := run_invariant
    (I := fun s => Known s ∧ Core 0 s ∧ Waits s ∧ Agrees srv s)
    (fun _ _ hstep hA ⟨hk, hc, hw, hag⟩ => by
      obtain ⟨hF, hP⟩ := always_and.mp hA
      obtain ⟨hc', hw'⟩ := hstep.inSync hk hc hw (hA.mono fun _ _ h => DirServer.conforms h.1 h.2)
      exact ⟨hstep.known hk, hc', hw', hstep.agrees hag hc hw hF hP⟩)
    ⟨known_connected ctl user pass app, core_connected ctl user pass app, .inl rfl,
      agrees_connected ctl user pass app⟩ inputs (hF.and hP)
  rw [curdir_run]
  exact hagrees.quiet hcore hlogin (stack_run rfl inputs) hb hq

/-! ### A directory with one other in it -/

/-- A small file. -/
def smallFile : UnixLine :=
  { largeFile with
    size := 1
    size_range := by decide
    year := ascii "00:00"
    year_field := isField_of_all (by decide) (by decide) }

/-- In its root there is a file, and a directory with nothing in it. -/
def pubServer : DirServer where
  home := ascii "/"
  enter dir d := if dir = ascii "/" ∧ d = ascii "pub" then some (ascii "/pub") else none
  leave dir := if dir = ascii "/pub" then some (ascii "/") else none
  lines dir := if dir = ascii "/" then [smallFile] else []

/-- The directory is entered. -/
def enterPub : List (Env × Input Unit) :=
  [(.quiet, .queue (.chdir (ascii "pub")) (Op.transfer?_chdir _)),
    (.control (ascii "250 ok\r\n"), .handle 3),
    (.passive [.data (ascii "257 \"/pub\"\r\n"), .again], .handle 3),
    (.control (ascii "150 here it comes\r\n"), .handle 3),
    ({ Env.quiet with dataIn := [.eof] }, .handle 4),
    (.control (ascii "226 done\r\n"), .handle 3)]

theorem current_run_pub :
    (sessionRun enterPub).ftp.curdir = some (pubServer.wd (sessionRun enterPub).log) ∧
      pubServer.Shows (sessionRun enterPub).ftp.dirent (pubServer.wd (sessionRun enterPub).log) :=
  current_run pubServer 3 none none () _ (by decide +kernel) (by decide +kernel) (by decide +kernel)
    (by decide +kernel) (by decide +kernel)

/-- The directory is left again. -/
def leavePub : List (Env × Input Unit) :=
  [(.quiet, .queue .cdup Op.transfer?_cdup),
    (.control (ascii "200 ok\r\n"), .handle 3)]

/-- The server is in its root, and the client does not know. -/
theorem not_current_of_cdup :
    Always pubServer.Follows (sessionRun (enterPub ++ leavePub)).log ∧
      loggedIn (sessionRun (enterPub ++ leavePub)).log = true ∧
      (sessionRun (enterPub ++ leavePub)).ftp.busy = 0 ∧
      (sessionRun (enterPub ++ leavePub)).ftp.queue.toList = [] ∧
      (sessionRun (enterPub ++ leavePub)).ftp.crecv = [] ∧
      pubServer.wd (sessionRun (enterPub ++ leavePub)).log = ascii "/" ∧
      (sessionRun (enterPub ++ leavePub)).ftp.curdir = some (ascii "/pub") ∧
      (sessionRun (enterPub ++ leavePub)).ftp.dirent = [] := by
  decide +kernel

end Visftp
