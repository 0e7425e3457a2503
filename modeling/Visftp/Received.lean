import Visftp.Entries

/-!
# What the entries are read from

The bytes of a listing are collected in a receive buffer, as they come, and when the listing ends
the entries are read from it. A chunk for which the buffer cannot grow is dropped. Where the last
line is not terminated, its entry runs on into what lies behind the buffer, so the memory of that
moment belongs to what the entries are read from.

Buffers are not reused: what a buffer holds has been received for one listing.

## Main definitions

* `keptFor` — what is kept of a listing
* `Received` — the entries of a listing that was received
* `Session.Buffers`, `World.Listed` — what the client knows of listings

## Main results

* `Session.Step.informed` — one step of a session
* `World.Listed.call` — one call of the main loop
-/

namespace Visftp

open Histories Relation

/-- **What is kept of a listing**: all that was received for it, but for the chunks that were
dropped, each of them when it had just come. -/
def keptFor (r : ℕ) : List Event → List Bytes
  | [] => []
  | .chunk b (some (.list r')) :: past => if r' = r then keptFor r past ++ [b] else keptFor r past
  | .dropped r' :: past => if r' = r then (keptFor r past).dropLast else keptFor r past
  | _ :: past => keptFor r past

/-- What lies in memory beyond what was received, by the history up to the moment. -/
abbrev Heap := List Event → Bytes × Int → Prop

/-- **The entries of a listing whose end was received**, read from what was kept of it, and from
what lay beyond it in memory then. -/
def Received (heap : Heap) (log : List Event) (ents : List Dirent) : Prop :=
  ∃ r busy past beyond, .dataEof (some (.list r)) busy :: past <:+ log ∧
    heap (.dataEof (some (.list r)) busy :: past) beyond ∧
    ents = listing beyond.1 beyond.2 (keptFor r past).flatten

theorem Received.mono {heap : Heap} {past log : List Event} {ents : List Dirent}
    (h : Received heap past ents) (hlog : past <:+ log) : Received heap log ents := by
  obtain ⟨r, busy, older, beyond, heof, hrest⟩ := h
  exact ⟨r, busy, older, beyond, heof.trans hlog, hrest⟩

namespace Session

/-! ### Receive buffers -/

/-- The receive buffers, the next address of one, who reads the data, and what is kept of every
listing. -/
structure Buffers where
  bufs : ℕ → Bytes
  nbuf : ℕ
  dproc : Option DProc
  kept : ℕ → List Bytes

/-- Those of a session. -/
def buffers (s : Session) : Buffers := ⟨s.bufs, s.nbuf, s.dproc, fun r => keptFor r s.log⟩

/-- **What the client knows of listings**: what a receive buffer holds was received for its listing
and kept, and nothing has been received for a buffer that is still to be made. -/
structure Buffers.Informed (b : Buffers) : Prop where
  dproc : ∀ r, b.dproc = some (.list r) → r < b.nbuf
  fresh : ∀ r, b.nbuf ≤ r → b.kept r = []
  kept : ∀ r, b.bufs r = (b.kept r).flatten

/-- No data of a listing is received. A listing is begun, with a new buffer, or none is, and the
buffers are as they were. -/
inductive Cleared (b b' : Buffers) : Prop
  | same (h : b' = b)
  | other (p : Option DProc) (h : b' = { b with dproc := p }) (hp : ∀ r, p ≠ some (.list r))
  | new (h : b' = { b with
      bufs := Function.update b.bufs b.nbuf []
      nbuf := b.nbuf + 1
      dproc := some (.list b.nbuf) })

theorem Cleared.informed {b b' : Buffers} (hc : Cleared b b') (h : b.Informed) : b'.Informed := by
  cases hc with
  | same hb => exact hb ▸ h
  | other p hb hp =>
    rw [hb]
    exact ⟨fun r hr => absurd hr (hp r), h.fresh, h.kept⟩
  | new hb =>
    rw [hb]
    refine ⟨fun r hr => ?_, fun r hr => h.fresh r ((Nat.le_succ _).trans hr), fun r => ?_⟩
    · obtain rfl : b.nbuf = r := by simpa using hr
      exact Nat.lt_succ_self _
    · rcases eq_or_ne r b.nbuf with rfl | hne
      · simp [h.fresh b.nbuf le_rfl]
      · simp [hne, h.kept r]

variable {s s' : Session} {op : Op}

/-- `sendcmd` sends only on an open connection. -/
theorem keptFor_send (r : ℕ) (c : Cmd) (s : Session) :
    keptFor r (s.send c).log = keptFor r s.log := by
  rw [send]
  dsimp only
  split <;> rfl

theorem buffers_send (c : Cmd) (s : Session) : (s.send c).buffers = s.buffers :=
  congrArg (Buffers.mk _ _ _) (funext fun r => keptFor_send r c s)

theorem buffers_simple (op : Op) (s : Session) : (s.simple op).buffers = s.buffers := by
  cases op with
  | type arg =>
    rw [simple]
    split
    · rfl
    · exact buffers_send _ s
  | pwd | chdir | cdup => exact buffers_send _ s
  | _ => rfl

theorem buffers_active (r : Option (ℕ × ℕ)) (s : Session) : (s.active r).buffers = s.buffers := by
  rcases r with - | ⟨a, p⟩
  · rfl
  · exact buffers_send _ { s with data := false }

theorem buffers_close (s : Session) : s.close.buffers = s.buffers := by
  refine congrArg (Buffers.mk _ _ _) (funext fun r => ?_)
  rw [close]
  dsimp only
  split <;> rfl

theorem buffers_startList (s : Session) : s.startList.buffers = { s.buffers with
    bufs := Function.update s.bufs s.nbuf []
    nbuf := s.nbuf + 1
    dproc := some (.list s.nbuf) } :=
  congrArg (Buffers.mk _ _ _) (funext fun r => keptFor_send r (.list s.nbuf) _)

theorem Start.cleared (h : Start op s s') : Cleared s.buffers s'.buffers := by
  cases h with
  | none | noBuffer => exact .same rfl
  | list => exact .new (buffers_startList s)
  | @transfer t =>
    rw [startTransfer]
    split
    · refine .other (some (.xfer t)) ?_ (by simp)
      exact congrArg (fun b : Buffers => { b with dproc := some (.xfer t) }) (buffers_send _ s)
    · exact .same rfl

theorem Exec.cleared (h : Exec op s s') : Cleared s.buffers s'.buffers := by
  cases h with
  | simple => exact .same (buffers_simple op (s.enter op))
  | atOnce _ _ hs => exact hs.cleared
  | noData r => exact .same (buffers_active r (s.enter op))
  | wait => exact .same (buffers_send .pasv { s.enter op with data := false })

theorem Queue.buffers_eq (h : Queue op s s') : s'.buffers = s.buffers := by
  cases h with
  | direct => exact buffers_simple op _
  | append | full => rfl

theorem Reply.buffers_eq {code : Int} {buf : Bytes} (h : Reply code buf s s') :
    s'.buffers = s.buffers := by
  cases h with
  | activeFail => exact buffers_close (s.got code buf)
  | pasvFall r => exact buffers_active r { s.got code buf with passive := false }
  | cwdOk _ _ h₁ h₂ => exact h₂.buffers_eq.trans h₁.buffers_eq
  | loginDone _ _ h₁ h₂ h₃ => exact h₃.buffers_eq.trans (h₂.buffers_eq.trans h₁.buffers_eq)
  | loginUser | loginPass => exact buffers_send _ { s.got code buf with busy := 0 }
  | _ => rfl

theorem DataEof.cleared (h : DataEof s s') : Cleared s.buffers s'.buffers := by
  cases h with
  | list => exact .other .none rfl (by simp)
  | xfer => exact .same (by simp only [buffers, finish, emit, closeFile, setJob, keptFor])
  | _ => exact .same rfl

/-- Data is received: a chunk of a listing is stored, or it is dropped. -/
theorem Chunk.informed {b : Bytes} (hc : Chunk b s s') (h : s.buffers.Informed) :
    s'.buffers.Informed := by
  cases hc with
  | @list r hp =>
    have hlt := h.dproc r hp
    refine ⟨h.dproc, fun r' hr' => ?_, fun r' => ?_⟩
    · have hr : s.nbuf ≤ r' := hr'
      exact (if_neg (hlt.trans_le hr).ne).trans (h.fresh r' hr')
    · show (s.storeBuf r b).bufs r' =
        (if r = r' then keptFor r' s.log ++ [b] else keptFor r' s.log).flatten
      have hkept : s.bufs r' = (keptFor r' s.log).flatten := h.kept r'
      rcases eq_or_ne r r' with rfl | hne
      · simp [storeBuf, hkept]
      · simp [storeBuf, hne, hne.symm, hkept]
  | @listFull r =>
    refine Cleared.informed (.same (congrArg (Buffers.mk _ _ _) (funext fun r' => ?_))) h
    show (if r = r' then (if r = r' then keptFor r' s.log ++ [b] else keptFor r' s.log).dropLast
      else if r = r' then keptFor r' s.log ++ [b] else keptFor r' s.log) = keptFor r' s.log
    split_ifs <;> simp
  | _ => exact Cleared.informed (.same rfl) h

/-- **One step.** -/
theorem Step.informed (hstep : Step s s') (h : s.buffers.Informed) : s'.buffers.Informed := by
  suffices hc : (∃ b, Chunk b s s') ∨ Cleared s.buffers s'.buffers by
    rcases hc with ⟨b, hc⟩ | hc
    · exact hc.informed h
    · exact hc.informed h
  cases hstep with
  | recv | line | carry => exact .inr (.same rfl)
  | reply _ _ _ _ hr => exact .inr (.same hr.buffers_eq)
  | hangup => exact .inr (.same (buffers_close s))
  | act ha =>
    cases ha with
    | chunk b _ _ hc => exact .inl ⟨b, hc⟩
    | dataEof _ _ he => exact .inr he.cleared
    | next _ _ hx | direct _ _ _ _ hx | handOverDirect _ _ _ _ hx => exact .inr hx.cleared
    | resume _ hs => exact .inr hs.cleared
    | _ => exact .inr (.same rfl)

theorem Buffers.Informed.steps (h : s.buffers.Informed) (hsteps : ReflTransGen Step s s') :
    s'.buffers.Informed := by
  induction hsteps with
  | refl => exact h
  | tail _ hstep ih => exact hstep.informed ih

end Session

/-! ### Calls of the main loop -/

variable {α : Type} {w w' : World α} {heap : Heap}

/-- **What holds between two calls**: no operation is under way, and the entries are those of a
listing whose end was received, if there are any. -/
structure World.Listed (heap : Heap) (w : World α) : Prop where
  stack_eq : stack w.log = []
  informed : w.view.buffers.Informed
  dirent : w.ftp.dirent = [] ∨ Received heap w.log w.ftp.dirent

namespace World.Listed

theorem congr (h : w.Listed heap) (hv : w'.view = w.view) : w'.Listed heap where
  stack_eq := (congrArg (fun s : Session => stack s.log) hv).trans h.stack_eq
  informed := hv ▸ h.informed
  dirent := by
    rw [show w'.log = w.log from congrArg Session.log hv,
      show w'.ftp.dirent = w.ftp.dirent from congrArg Session.dirent hv]
    exact h.dirent

/-- **A call into the client.** `heap` holds of what lies in memory in this call, for each event of
it. -/
theorem call (h : w.Listed heap) (env : Env) (i : Input α)
    (hheap : ∀ fd, i = .handle fd → ∀ moment, w.log.length < moment.length →
      moment <:+ (w.step env i).log → heap moment env.heap) :
    (w.step env i).Listed heap where
  stack_eq := stack_run h.stack_eq [(env, i)]
  informed := h.informed.steps (steps_run h.stack_eq [(env, i)])
  dirent := by
    rcases entries_step env i h.stack_eq with hsame | ⟨⟨fd, hfd⟩, s₁, r, hsteps, hlog, hents⟩
    · rw [hsame]
      exact h.dirent.imp_right fun hr => hr.mono (runs_step env i h.stack_eq).suffix
    · have hbuf : s₁.bufs r = (keptFor r s₁.log).flatten := (h.informed.steps hsteps).kept r
      have hlen : w.log.length ≤ s₁.log.length :=
        (Session.Step.suffix_of_steps hsteps).length_le
      rw [hbuf] at hents
      refine .inr ⟨r, s₁.busy, s₁.log, env.heap, hlog, ?_, hents⟩
      exact hheap fd hfd _ (Nat.lt_succ_of_le hlen) hlog

theorem connected (ctl : Fd) (user pass : Option Bytes) (app : α) :
    (World.connected ctl user pass app).Listed heap where
  stack_eq := rfl
  informed :=
    { dproc := fun _ hr => nomatch hr
      fresh := fun _ _ => rfl
      kept := fun _ => rfl }
  dirent := .inl rfl

end World.Listed

end Visftp
