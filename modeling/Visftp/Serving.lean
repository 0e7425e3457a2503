import Visftp.Dialogue

/-!
# Whose data arrives

The client has one data connection and one data handler. The server sends on a data connection what
the first data command it gets after the connection was opened asks for (`serving`). The handler is
installed together with the command, so as long as the dialogue is in step, every chunk goes to the
handler of the command it is sent for, and what a transfer has put into its file is what was sent
for it.

## Main definitions

* `serving`, `sentFor` — what the server sends on the data connection
* `Serves`, `Routed` — what is asked of the history, and what follows
* `Session.Fed` — the invariant

## Main results

* `Session.Step.fed` — one step
* `routed_run` — whole runs
-/

namespace Visftp

open CString Histories Session Relation

/-- The command that the server serves on the data connection: the first data command since the
connection was opened. -/
def serving : List Event → Option Cmd
  | [] => none
  | .opened :: _ => none
  | .dataEof .. :: _ => none
  | .sent c :: past => (serving past).or (if c.owner.isSome then some c else none)
  | _ :: past => serving past

/-- What was received of the data for a command. -/
def sentFor (c : Cmd) : List Event → List Bytes
  | [] => []
  | .chunk b _ :: past => if serving past = some c then sentFor c past ++ [b] else sentFor c past
  | _ :: past => sentFor c past

/-- The transfer at address `t` has one destination, and that is open. -/
def Job.Ready (t : ℕ) (j : Job) : Prop :=
  (j.fp = some t ∧ j.mem = none) ∨ (j.fp = none ∧ j.mem.isSome = true)

instance (t : ℕ) (j : Job) : Decidable (j.Ready t) := by unfold Job.Ready; infer_instance

/-- What is asked besides: bytes are sent for a command, and a transfer goes to one place. -/
def Serves (past : List Event) : Event → Prop
  | .chunk .. => (serving past).isSome = true
  | .made t j => j.Ready t
  | _ => True

instance (past : List Event) (e : Event) : Decidable (Serves past e) := by
  induction e using Event.casesOn <;> (dsimp only [Serves]; infer_instance)

/-- Bytes are handed to the handler of the command that is served. -/
def Routed (past : List Event) : Event → Prop
  | .chunk _ p => p = (serving past).bind Cmd.owner
  | _ => True

instance (past : List Event) (e : Event) : Decidable (Routed past e) := by
  induction e using Event.casesOn <;> (dsimp only [Routed]; infer_instance)

/-- What was kept of the data for a command: a chunk is stored whole, or dropped when there is no
memory for it. -/
def KeptOf (c : Cmd) (log : List Event) (b : Bytes) : Prop :=
  ∃ l : List Bytes, l.Sublist (sentFor c log) ∧ b = l.flatten

/-- Only data commands are served. -/
theorem isSome_owner_of_serving {log : List Event} {c : Cmd} (h : serving log = some c) :
    c.owner.isSome = true := by
  induction log with
  | nil => simp [serving] at h
  | cons e past ih =>
    cases e with
    | sent c' =>
      rcases Option.or_eq_some_iff.mp h with h | ⟨-, h⟩
      · exact ih h
      · split at h
        · next hc => exact Option.some.inj h ▸ hc
        · simp at h
    | opened | dataEof => simp [serving] at h
    | _ => exact ih h

/-- Data that is sent is awaited. -/
theorem awaitsData_of_serving {log : List Event} (h : serving log ≠ none) :
    awaitsData log = true := by
  induction log with
  | nil => exact absurd rfl h
  | cons e past ih =>
    cases e with
    | sent c =>
      rw [awaitsData, Bool.or_eq_true]
      by_cases hc : c.owner.isSome = true
      · exact .inl hc
      · refine .inr (ih fun hn => h ?_)
        simp [serving, hn, hc]
    | opened | dataEof => exact absurd rfl h
    | _ => exact ih h

/-- Nothing is served while nothing is outstanding. -/
theorem serving_of_not_awaits {log : List Event} (h : awaitsData log = false) :
    serving log = none := by
  by_contra hs
  have hawaits := awaitsData_of_serving hs
  simp [h] at hawaits

/-- The command that is served has been sent. -/
theorem sent_of_serving {log : List Event} {c : Cmd} (h : serving log = some c) :
    .sent c ∈ log := by
  induction log with
  | nil => simp [serving] at h
  | cons e past ih =>
    cases e with
    | sent c' =>
      rcases Option.or_eq_some_iff.mp h with h | ⟨-, h⟩
      · exact List.mem_cons_of_mem _ (ih h)
      · split at h
        · exact Option.some.inj h ▸ List.mem_cons_self
        · simp at h
    | opened | dataEof => simp [serving] at h
    | _ => exact List.mem_cons_of_mem _ (ih h)

/-- Nothing is sent for a command that was not given. -/
theorem sentFor_eq_nil {log : List Event} {c : Cmd} (h : .sent c ∉ log) : sentFor c log = [] := by
  induction log with
  | nil => rfl
  | cons e past ih =>
    have hpast := ih fun hc => h (List.mem_cons_of_mem e hc)
    cases e with
    | chunk b p =>
      rw [sentFor, if_neg fun hs => h (List.mem_cons_of_mem _ (sent_of_serving hs)), hpast]
    | _ => exact hpast

/-- More data for the command that is served. -/
theorem sentFor_chunk {b : Bytes} {p : Option DProc} {c : Cmd} {log : List Event}
    (hs : serving log = some c) (c' : Cmd) :
    sentFor c' (.chunk b p :: log) = if c' = c then sentFor c log ++ [b] else sentFor c' log := by
  by_cases hc : c' = c
  · subst hc
    simp [sentFor, hs]
  · simp [sentFor, hs, hc, Ne.symm hc]

theorem KeptOf.mono {c : Cmd} {log log' : List Event} {b : Bytes} (h : KeptOf c log b)
    (hl : (sentFor c log).Sublist (sentFor c log')) : KeptOf c log' b :=
  let ⟨l, hsub, hb⟩ := h
  ⟨l, hsub.trans hl, hb⟩

theorem KeptOf.snoc {c : Cmd} {log log' : List Event} {b b' : Bytes} (h : KeptOf c log b)
    (hl : sentFor c log' = sentFor c log ++ [b']) : KeptOf c log' (b ++ b') := by
  obtain ⟨l, hsub, rfl⟩ := h
  exact ⟨l ++ [b'], hl ▸ hsub.append (List.Sublist.refl _), by simp⟩

/-- The kinds of events without data. -/
def Event.dry : Event → Bool
  | .sent _ | .opened | .chunk .. | .dataEof .. => false
  | _ => true

namespace Session

variable {s s' : Session} {op : Op} {e : Event}

/-- What a transfer has put where it goes. -/
def content (s : Session) (t : ℕ) : Bytes := ((s.jobs t).mem).getD (s.files t)

/-- **What is sent for a command goes to its handler**, and has arrived where that puts it. -/
structure Fed (s : Session) : Prop where
  routed : Always Routed s.log
  served : ∀ c, serving s.log = some c → s.dproc = c.owner
  named : ∀ t n, serving s.log = some (.retr t n) → n = (s.jobs t).rname ∧ (s.jobs t).Ready t
  closed : s.ctl = false → s.data = true → serving s.log = none
  ready : ∀ t ∈ pending s, (s.jobs t).Ready t
  content : ∀ t, s.content t = (sentFor (.retr t (s.jobs t).rname) s.log).flatten
  unborn : ∀ t n, s.njob ≤ t → sentFor (.retr t n) s.log = []
  bufs : ∀ r, KeptOf (.list r) s.log (s.bufs r)
  dirent : s.dirent = [] ∨
    ∃ tail junk r b, KeptOf (.list r) s.log b ∧ s.dirent = listing tail junk b

/-- The transfers, the files and the receive buffers are the same. -/
structure SameHeap (s s' : Session) : Prop where
  jobs : s'.jobs = s.jobs
  njob : s'.njob = s.njob
  files : s'.files = s.files
  bufs : s'.bufs = s.bufs
  dirent : s'.dirent = s.dirent

/-- The usual step: no data, and at most a new data connection. -/
theorem Fed.of_same (h : Fed s) (hr : Always Routed s'.log)
    (hs : serving s'.log = serving s.log ∨ serving s'.log = none)
    (hf : ∀ c, sentFor c s'.log = sentFor c s.log) (hd : s'.dproc = s.dproc)
    (hc : s'.ctl = false → s'.data = true → s.ctl = false ∧ s.data = true ∨ serving s'.log = none)
    (hp : ∀ t ∈ pending s', (s.jobs t).Ready t) (hheap : SameHeap s s') : Fed s' where
  routed := hr
  served c hc := by
    rcases hs with hs | hs
    · rw [hd]; exact h.served c (hs ▸ hc)
    · simp [hs] at hc
  named t n ht := by
    rcases hs with hs | hs
    · rw [hheap.jobs]; exact h.named t n (hs ▸ ht)
    · simp [hs] at ht
  closed hctl hdata := by
    rcases hc hctl hdata with hc | hc
    · rcases hs with hs | hs
      exacts [hs.trans (h.closed hc.1 hc.2), hs]
    · exact hc
  ready t ht := by rw [hheap.jobs]; exact hp t ht
  content t := by
    rw [Session.content, hheap.jobs, hheap.files, hf]
    exact h.content t
  unborn t n ht := by rw [hf]; exact h.unborn t n (hheap.njob ▸ ht)
  bufs r := by rw [KeptOf, hf, hheap.bufs]; exact h.bufs r
  dirent := by
    simp only [hheap.dirent, KeptOf, hf]
    exact h.dirent

/-! ### Actions -/

/-- An event without data. -/
structure Dry (e : Event) : Prop where
  serving : ∀ past, serving (e :: past) = Visftp.serving past
  sentFor : ∀ c past, sentFor c (e :: past) = Visftp.sentFor c past
  routed : ∀ past, Routed past e

theorem dry_of (he : e.dry = true) : Dry e := by
  cases e with
  | sent | opened | chunk | dataEof => simp [Event.dry] at he
  | _ => exact ⟨fun _ => rfl, fun _ _ => rfl, fun _ => trivial⟩

theorem Fed.emit (h : Fed s) (he : Dry e) (hst : stack (e :: s.log) = stack s.log) :
    Fed (s.emit e) :=
  h.of_same ⟨he.routed s.log, h.routed⟩ (.inl (he.serving s.log)) (fun c => he.sentFor c s.log) rfl
    (fun hc hd => .inl ⟨hc, hd⟩)
    (fun t ht => h.ready t ((pending_of_eq rfl hst : pending (s.emit e) = pending s) ▸ ht))
    ⟨rfl, rfl, rfl, rfl, rfl⟩

theorem Fed.congr (h : Fed s) (hl : s'.log = s.log) (hd : s'.dproc = s.dproc) (hc : s'.ctl = s.ctl)
    (hdata : s'.data = true → s.data = true) (hq : s'.queue = s.queue) (hheap : SameHeap s s') :
    Fed s' :=
  h.of_same (hl ▸ h.routed) (.inl (by rw [hl])) (fun c => by rw [hl]) hd
    (fun hc' hd' => .inl ⟨hc ▸ hc', hdata hd'⟩)
    (fun t ht => h.ready t (pending_of_eq hq (by rw [hl]) ▸ ht)) hheap

theorem dry_sent {c : Cmd} (hc : c.owner = none) : Dry (.sent c) :=
  ⟨fun past => by simp [Visftp.serving, hc], fun _ _ => rfl, fun _ => trivial⟩

theorem dry_hook (p : CProc) : Dry (.hook p) := dry_of rfl

theorem dry_touch (t : ℕ) : Dry (.touch t) := dry_of rfl

theorem dry_done (t : ℕ) : Dry (.done t) := dry_of rfl

theorem dry_outOfMemory : Dry .outOfMemory := dry_of rfl

theorem dry_dropped (r : ℕ) : Dry (.dropped r) := dry_of rfl

theorem dry_accept (op : Op) : Dry (.accept op) := dry_of rfl

theorem Fed.send (h : Fed s) {c : Cmd} (hc : c.owner = none) : Fed (s.send c) := by
  rw [Session.send]
  cases hctl : s.ctl with
  | true =>
    exact (h.emit (dry_sent hc) rfl).congr rfl rfl hctl.symm id rfl ⟨rfl, rfl, rfl, rfl, rfl⟩
  | false => exact h.congr rfl rfl hctl.symm id rfl ⟨rfl, rfl, rfl, rfl, rfl⟩

theorem Fed.hook (h : Fed s) (p : CProc) : Fed (s.hook p) :=
  (h.emit (dry_hook p) rfl).congr rfl rfl rfl id rfl ⟨rfl, rfl, rfl, rfl, rfl⟩

theorem Fed.dropData (h : Fed s) : Fed { s with data := false } :=
  h.congr rfl rfl rfl (fun hd => by simp at hd) rfl ⟨rfl, rfl, rfl, rfl, rfl⟩

theorem Fed.finish (h : Fed s) : Fed s.finish :=
  h.congr rfl rfl rfl id rfl ⟨rfl, rfl, rfl, rfl, rfl⟩

theorem Fed.close (h : Fed s) : Fed s.close := by
  have hclosed : ∀ {q : Prop}, s.close.data = true → q := fun hd => by simp [Session.close] at hd
  rw [Session.close] at hclosed ⊢
  cases hctl : s.ctl with
  | true =>
    refine h.of_same ⟨trivial, h.routed⟩ (.inl rfl) (fun _ => rfl) rfl (fun _ hd => ?_)
      (fun t ht => h.ready t ht) ⟨rfl, rfl, rfl, rfl, rfl⟩
    simp at hd
  | false =>
    refine h.of_same h.routed (.inl rfl) (fun _ => rfl) rfl (fun _ hd => ?_)
      (fun t ht => h.ready t ht) ⟨rfl, rfl, rfl, rfl, rfl⟩
    simp at hd

/-- There is a new data connection. -/
theorem Fed.opened (h : Fed s) : Fed ({ s with data := true }.emit .opened) :=
  h.of_same ⟨trivial, h.routed⟩ (.inr rfl) (fun _ => rfl) rfl (fun _ _ => .inr rfl)
    (fun t ht => h.ready t ht) ⟨rfl, rfl, rfl, rfl, rfl⟩

theorem Fed.active (h : Fed s) (sa : Option (ℕ × ℕ)) : Fed (s.active sa) := by
  rcases sa with - | ⟨a, p⟩
  · exact h.dropData
  · exact (h.dropData.send (c := .port a p) rfl).hook .active

theorem Fed.ret (h : Fed s) : Fed (s.emit .ret) :=
  h.of_same ⟨trivial, h.routed⟩ (.inl rfl) (fun _ => rfl) rfl (fun hc hd => .inl ⟨hc, hd⟩)
    (fun t ht => h.ready t ((pending_ret_subset s).subset ht)) ⟨rfl, rfl, rfl, rfl, rfl⟩

/-- An operation is entered. If it is a transfer, it is ready. -/
theorem Fed.enter (h : Fed s) (hop : ∀ t, op.transfer? = some t → (s.jobs t).Ready t) :
    Fed (s.enter op) := by
  refine h.of_same ⟨trivial, h.routed⟩ (.inl rfl) (fun _ => rfl) rfl (fun hc hd => .inl ⟨hc, hd⟩)
    (fun t ht => ?_) ⟨rfl, rfl, rfl, rfl, rfl⟩
  obtain ⟨op', hop', ht'⟩ := List.mem_filterMap.mp ht
  rcases List.mem_append.mp hop' with hop' | hop'
  · exact h.ready t (List.mem_filterMap.mpr ⟨op', List.mem_append_left _ hop', ht'⟩)
  · rcases List.mem_cons.mp hop' with rfl | hop'
    · exact hop t ht'
    · exact h.ready t (List.mem_filterMap.mpr ⟨op', List.mem_append_right _ hop', ht'⟩)

theorem Fed.simple (h : Fed s) (op : Op) : Fed (s.simple op) := by
  cases op with
  | type arg =>
    unfold Session.simple
    dsimp only
    split
    · exact h
    · exact h.send rfl
  | pwd => exact (h.send (c := .pwd) rfl).hook .pwd
  | cdup => exact (h.send (c := .cdup) rfl).hook .cwd
  | chdir d =>
    refine (h.send (c := if d = ascii ".." then .cdup else .cwd d) ?_).hook .cwd
    split <;> rfl
  | _ => exact h

/-- A data command is sent on an idle connection, together with its handler. -/
theorem Fed.startData (h : Fed s) (hidle : serving s.log = none) {c : Cmd} (p : CProc)
    (hn : c.owner.isSome = true)
    (hc : ∀ t n, c = .retr t n → n = (s.jobs t).rname ∧ (s.jobs t).Ready t) :
    Fed { (s.send c).hook p with dproc := c.owner, busy := ((s.send c).hook p).busy + 1 } := by
  rw [Session.send]
  cases hctl : s.ctl with
  | false =>
    have hnone : ∀ {c' : Cmd} {q : Prop}, serving s.log = some c' → q := fun h => by
      simp [hidle] at h
    exact ⟨⟨trivial, h.routed⟩, fun _ hs => hnone hs, fun _ _ hs => hnone hs, fun _ _ => hidle,
      h.ready, h.content, h.unborn, h.bufs, h.dirent⟩
  | true =>
    have hserving : serving (.hook p :: .sent c :: s.log) = some c := by
      simp [serving, hidle, hn]
    refine ⟨⟨trivial, trivial, h.routed⟩, fun c' hs => ?_, fun t n hs => ?_,
      fun hf => by simp [Session.hook] at hf, h.ready, h.content, h.unborn, h.bufs, h.dirent⟩
    · rw [← Option.some.inj (hserving.symm.trans hs)]
    · exact hc t n (Option.some.inj (hserving.symm.trans hs))

theorem Fed.start (h : Fed s) (hidle : s.data = true → serving s.log = none)
    (hop : ∀ t, op.transfer? = some t → (s.jobs t).Ready t) (hs : Start op s s') : Fed s' := by
  cases hs with
  | none => exact h
  | noBuffer => exact h.emit dry_outOfMemory rfl
  | list hd =>
    rw [startList]
    set s₁ : Session := { s with bufs := Function.update s.bufs s.nbuf [], nbuf := s.nbuf + 1 }
    have h₁ : Fed s₁ := by
      refine ⟨h.routed, h.served, h.named, h.closed, h.ready, h.content, h.unborn, fun r => ?_,
        h.dirent⟩
      by_cases hr : r = s.nbuf
      · refine ⟨[], List.nil_sublist _, ?_⟩
        simp [s₁, hr]
      · simpa [s₁, hr] using h.bufs r
    exact h₁.startData (hidle hd) (c := .list s.nbuf) (.list s.nbuf) rfl fun t n hc => by cases hc
  | @transfer t _ hd =>
    rw [startTransfer]
    split
    · refine h.startData (hidle hd) (c := .retr t (s.jobs t).rname) (.xfer t) rfl fun u n hc => ?_
      cases hc
      exact ⟨rfl, hop t rfl⟩
    · exact h

/-- `exec_op` of an operation that has just been entered. -/
theorem Fed.exec (h : Fed (s.enter op)) (hidle : s.data = true → serving s.log = none)
    (hs : Exec op s s') : Fed s' := by
  have hop : ∀ t, op.transfer? = some t → ((s.enter op).jobs t).Ready t := fun t ht =>
    h.ready t (List.mem_filterMap.mpr ⟨op, List.mem_append_right _ List.mem_cons_self, ht⟩)
  cases hs with
  | simple => exact (h.simple op).ret
  | atOnce _ _ hst => exact (h.start hidle hop hst).ret
  | noData sa => exact (h.active sa).ret
  | wait => exact (h.dropData.send (c := .pasv) rfl).hook .pasv

/-! ### Steps -/

theorem Fed.enqueue (h : Fed s) (hop : op.transfer? = none) : Fed (s.enqueue op) := by
  refine h.of_same ⟨trivial, h.routed⟩ (.inl rfl) (fun _ => rfl) rfl (fun hc hd => .inl ⟨hc, hd⟩)
    (fun t ht => h.ready t (pending_enqueue hop s ▸ ht)) ⟨rfl, rfl, rfl, rfl, rfl⟩

theorem Fed.queueOp (h : Fed s) (hop : op.transfer? = none) (hs : Queue op s s') : Fed s' := by
  cases hs with
  | direct =>
    have hnone : ∀ t, op.transfer? = some t → ((s.emit (.accept op)).jobs t).Ready t :=
      fun t ht => by simp [hop] at ht
    exact (((h.emit (dry_accept op) rfl).enter hnone).simple op).ret
  | append => exact h.enqueue hop
  | full => exact h.emit dry_outOfMemory rfl

theorem Fed.got (h : Fed s) (code : Int) (buf : Bytes) : Fed (s.got code buf) :=
  h.emit (dry_of rfl) rfl

theorem Fed.reply {code : Int} {buf : Bytes} (h : Fed s) (hr : Reply code buf s s') : Fed s' := by
  have hg := h.got code buf
  have hset : ∀ b p, Fed { s.got code buf with busy := b, passive := p } := fun _ _ =>
    hg.congr rfl rfl rfl id rfl ⟨rfl, rfl, rfl, rfl, rfl⟩
  cases hr with
  | activeOk | pwd | cwdFail | listEnd | xferEnd => exact hg.finish
  | activeFail => exact hg.close.finish
  | pasvOpen => exact hg.opened.finish
  | pasvFall sa => exact ((hset s.busy false).active sa).finish
  | cwdOk _ _ h₁ h₂ => exact ((hg.queueOp rfl h₁).queueOp rfl h₂).finish
  | listMore | xferMore => exact hg
  | @xferTotal t => exact hg.emit (dry_touch t) rfl
  | @xferFail t => exact ((hg.emit (dry_touch t) rfl).emit (dry_done t) rfl).finish
  | loginUser u => exact (hset 0 s.passive).send (c := .user u) rfl
  | loginPass p => exact (hset 0 s.passive).send (c := .pass p) rfl
  | loginDone _ _ h₁ h₂ h₃ =>
    exact (((hset 0 s.passive).queueOp rfl h₁).queueOp rfl h₂).queueOp rfl h₃
  | loginOther => exact hset 0 s.passive

/-- A chunk for the command that is served is stored where that command's data goes. -/
theorem Fed.store (h : Fed s) (hk : Known s) {c : Cmd} (hs : serving s.log = some c) {b : Bytes}
    (jobs : ℕ → Job) (files bufs : ℕ → Bytes)
    (hjobs : ∀ t, (jobs t).rname = (s.jobs t).rname ∧ ((s.jobs t).Ready t → (jobs t).Ready t))
    (hcontent : ∀ t, ((jobs t).mem).getD (files t) =
      if .retr t (s.jobs t).rname = c then s.content t ++ b else s.content t)
    (hbufs : ∀ r, bufs r = s.bufs r ∨ (.list r = c ∧ bufs r = s.bufs r ++ b)) :
    Fed { s with jobs, files, bufs, log := .chunk b s.dproc :: s.log } where
  routed := ⟨by rw [Routed, hs]; exact h.served c hs, h.routed⟩
  served := h.served
  named t n ht := by
    obtain ⟨hn, hready⟩ := h.named t n ht
    exact ⟨hn.trans (hjobs t).1.symm, (hjobs t).2 hready⟩
  closed := h.closed
  ready t ht := (hjobs t).2 (h.ready t ht)
  content t := by
    have hold := h.content t
    rw [Session.content]
    dsimp only
    rw [hcontent t, (hjobs t).1, sentFor_chunk hs]
    split
    · next heq => rw [hold, ← heq]; simp
    · exact hold
  unborn t n ht := by
    rw [sentFor_chunk hs, if_neg, h.unborn t n ht]
    rintro rfl
    have := (hk.dproc t (h.served _ hs)).1
    exact absurd ht (by simpa using this)
  bufs r := by
    dsimp only
    rcases hbufs r with hb | ⟨rfl, hb⟩
    · rw [hb]
      refine (h.bufs r).mono ?_
      rw [sentFor_chunk hs]
      split
      · next heq => rw [heq]; exact List.sublist_append_left _ _
      · exact List.Sublist.refl _
    · rw [hb]
      exact (h.bufs r).snoc (by rw [sentFor_chunk hs, if_pos rfl])
  dirent := by
    refine h.dirent.imp_right fun ⟨tail, junk, r, b', hkept, hd⟩ => ⟨tail, junk, r, b', ?_, hd⟩
    refine hkept.mono ?_
    rw [sentFor_chunk hs]
    split
    · next heq => rw [heq]; exact List.sublist_append_left _ _
    · exact List.Sublist.refl _

/-- Bytes on the data connection. -/
theorem Fed.chunk {b : Bytes} (h : Fed s) (hk : Known s) (hA : Serves s.log (.chunk b s.dproc))
    (hc : Chunk b s s') : Fed s' := by
  obtain ⟨c, hs⟩ := Option.isSome_iff_exists.mp hA
  have howner := h.served c hs
  have hsome := isSome_owner_of_serving hs
  have hsame : ∀ t, (s.jobs t).rname = (s.jobs t).rname ∧
      ((s.jobs t).Ready t → (s.jobs t).Ready t) := fun _ => ⟨rfl, id⟩
  -- the data of a listing leaves the transfers alone
  have hlist : ∀ {r}, s.dproc = some (.list r) → c = .list r ∧ ∀ t,
      ((s.jobs t).mem).getD (s.files t) =
        if .retr t (s.jobs t).rname = c then s.content t ++ b else s.content t := by
    intro r hr
    rw [hr] at howner
    have hc' : c = .list r := by cases c <;> simp_all [Cmd.owner]
    exact ⟨hc', fun t => by rw [if_neg (by simp [hc'])]; rfl⟩
  have hxfer : ∀ {t}, s.dproc = some (.xfer t) →
      c = .retr t (s.jobs t).rname ∧ (s.jobs t).Ready t := by
    intro t ht
    rw [ht] at howner
    obtain ⟨n, rfl⟩ : ∃ n, c = .retr t n := by cases c <;> simp_all [Cmd.owner]
    obtain ⟨rfl, hready⟩ := h.named t n hs
    exact ⟨rfl, hready⟩
  cases hc with
  | none hp => simp [← howner, hp] at hsome
  | @list r hp =>
    obtain ⟨rfl, hcontent⟩ := hlist hp
    have := h.store hk hs s.jobs s.files (Function.update s.bufs r (s.bufs r ++ b)) hsame hcontent
      fun r' => by
      by_cases hr : r' = r
      · subst hr
        exact .inr ⟨rfl, Function.update_self ..⟩
      · exact .inl (Function.update_of_ne hr _ _)
    exact hp ▸ this
  | @listFull r hp =>
    obtain ⟨rfl, hcontent⟩ := hlist hp
    have h₁ := h.store hk hs (b := b) s.jobs s.files s.bufs hsame hcontent fun _ => .inl rfl
    exact ((hp ▸ h₁ : Fed (s.emit (.chunk b (some (.list r))))).emit dry_outOfMemory rfl).emit
      (dry_dropped r) rfl
  | @file t f hp ho hf =>
    obtain ⟨rfl, hready⟩ := hxfer hp
    obtain ⟨rfl, hmem⟩ : t = f ∧ (s.jobs t).mem = none := by
      rcases hready with ⟨hfp, hmem⟩ | ⟨hfp, -⟩
      · exact ⟨Option.some.inj (hfp.symm.trans hf), hmem⟩
      · simp [hfp] at hf
    have := h.store hk hs (b := b) s.jobs (Function.update s.files t (s.files t ++ b)) s.bufs hsame
      (fun u => by
        by_cases hu : u = t
        · subst hu
          simp [Session.content, hmem]
        · rw [Function.update_of_ne hu, if_neg fun hn => hu (Cmd.retr.inj hn).1]
          rfl) fun _ => .inl rfl
    have h₁ : Fed ((s.storeFile t b).emit (.chunk b (some (.xfer t)))) := hp ▸ this
    exact h₁.emit (dry_touch t) rfl
  | @mem t hp ho hf =>
    obtain ⟨rfl, hready⟩ := hxfer hp
    obtain ⟨m, hmem⟩ : ∃ m, (s.jobs t).mem = some m := by
      rcases hready with ⟨hfp, -⟩ | ⟨-, hmem⟩
      · simp [hfp] at hf
      · exact Option.isSome_iff_exists.mp hmem
    have := h.store hk hs (b := b)
      (Function.update s.jobs t { s.jobs t with mem := (s.jobs t).mem.map (· ++ b) }) s.files s.bufs
      (fun u => by
        by_cases hu : u = t
        · subst hu
          refine ⟨by simp, fun _ => .inr ?_⟩
          simp [hf, hmem]
        · simp [hu])
      (fun u => by
        by_cases hu : u = t
        · subst hu
          simp [Session.content, hmem]
        · rw [Function.update_of_ne hu, if_neg fun hn => hu (Cmd.retr.inj hn).1]
          rfl) fun _ => .inl rfl
    have h₁ : Fed ((s.storeMem t b).emit (.chunk b (some (.xfer t)))) := hp ▸ this
    exact h₁.emit (dry_touch t) rfl
  | stor hp ho => exact absurd (hk.dproc _ hp).2 ho

/-- The end of the data. -/
theorem Fed.eof (h : Fed s) (p : Option DProc) (b : Int) : Fed (s.emit (.dataEof p b)) :=
  h.of_same ⟨trivial, h.routed⟩ (.inr rfl) (fun _ => rfl) rfl (fun _ _ => .inr rfl)
    (fun t ht => h.ready t ht) ⟨rfl, rfl, rfl, rfl, rfl⟩

/-- The file of a transfer that does not wait may be closed when nothing is served. -/
theorem Fed.closeFile (h : Fed s) (hs : serving s.log = none) {t : ℕ} (ht : t ∉ pending s) :
    Fed (s.closeFile t) := by
  have hjob : ∀ u, u ≠ t → (s.closeFile t).jobs u = s.jobs u := fun u hu =>
    Function.update_of_ne hu _ _
  have hsame : ∀ u, ((s.closeFile t).jobs u).rname = (s.jobs u).rname ∧
      ((s.closeFile t).jobs u).mem = (s.jobs u).mem := fun u => by
    by_cases hu : u = t
    · subst hu
      simp [Session.closeFile, setJob]
    · rw [hjob u hu]
      exact ⟨rfl, rfl⟩
  refine ⟨h.routed, h.served, fun u n hu => ?_, h.closed, fun u hu => ?_, fun u => ?_,
    h.unborn, h.bufs, h.dirent⟩
  · exact absurd (hs.symm.trans hu) (by simp)
  · rw [hjob u fun heq => ht (heq ▸ hu)]
    exact h.ready u hu
  · rw [(hsame u).1, Session.content, (hsame u).2]
    exact h.content u

theorem Fed.dataEof (h : Fed s) (ho : Once s) (he : DataEof s s') : Fed s' := by
  cases he with
  | none => exact (h.eof Option.none s.busy).dropData
  | @list r tail junk =>
    have h₁ := (h.eof (some (.list r)) s.busy).finish.dropData
    have hnone : ∀ {q : Prop} {c : Cmd}, serving (.dataEof (some (.list r)) s.busy :: s.log) =
        some c → q := fun hc => by simp [serving] at hc
    exact ⟨h₁.routed, fun c hc => hnone hc, fun _ _ hc => hnone hc, h₁.closed, h₁.ready, h₁.content,
      h₁.unborn, h₁.bufs, .inr ⟨tail, junk, r, s.bufs r, h.bufs r, rfl⟩⟩
  | @xfer t hp =>
    -- closing the file and recording the end commute
    have hswap : (s.closeFile t).emit (.dataEof (some (.xfer t)) s.busy) =
        (s.emit (.dataEof (some (.xfer t)) s.busy)).closeFile t := rfl
    have h₁ := (h.eof (some (.xfer t)) s.busy).closeFile rfl (ho.dproc t hp)
    rw [← hswap] at h₁
    exact ((h₁.emit (dry_touch t) rfl).emit (dry_done t) rfl).finish.dropData
  | @stor t => exact ((h.eof (some (.xfer t)) s.busy).emit (dry_touch t) rfl).dropData

/-- A transfer that has just been made is ready, and nothing has been sent for it. -/
theorem Fed.addJob (h : Fed s) (hk : Known s) (j : Job) : Fed (s.addJob j) := by
  have hjob : ∀ u, u ≠ s.njob → (s.addJob j).jobs u = s.jobs u ∧ (s.addJob j).files u = s.files u :=
    fun u hu => ⟨Function.update_of_ne hu _ _, Function.update_of_ne hu _ _⟩
  have hnew : (s.addJob j).jobs s.njob = j.fresh s.njob := Function.update_self ..
  have hdproc : ∀ t n, serving s.log = some (.retr t n) → t ≠ s.njob := fun t n ht =>
    (hk.dproc t (h.served _ ht)).1.ne
  refine ⟨⟨trivial, h.routed⟩, h.served, fun t n ht => ?_, h.closed, fun t ht => ?_, fun t => ?_,
    fun t n ht => h.unborn t n (Nat.le_of_succ_le ht), h.bufs, h.dirent⟩
  · rw [(hjob t (hdproc t n ht)).1]
    exact h.named t n ht
  · rw [(hjob t (hk.lt_of_mem_pending ht).ne).1]
    exact h.ready t ht
  · by_cases ht : t = s.njob
    · subst ht
      have hsent : ∀ n, sentFor (.retr s.njob n) (s.addJob j).log = [] := fun n =>
        h.unborn s.njob n le_rfl
      rw [hsent, List.flatten_nil, Session.content, hnew]
      cases hmem : j.mem <;> simp [Job.fresh, hmem, Session.addJob]
    · rw [Session.content, (hjob t ht).1, (hjob t ht).2]
      exact h.content t

/-- An open data connection serves nothing while nothing is outstanding. -/
theorem Fed.idle (h : Fed s) (hd : s.data = true) (ha : s.ctl = true → awaitsData s.log = false) :
    serving s.log = none := by
  cases hc : s.ctl with
  | false => exact h.closed hc hd
  | true => exact serving_of_not_awaits (ha hc)

end Session

end Visftp
