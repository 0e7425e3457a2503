import Mathlib.Data.Nat.Log
import Visftp.Completion
import Visftp.Erasure
import Visftp.ListingChunks

/-!
# A file or a listing on its way

Once a file or a listing has been asked for, two replies are due on the control connection and the
bytes on the data connection. `Arrival` is how much of them has come, and `Arrival.apply` the state
of the client that this makes of the state right after the command was sent. It is a function of
the two streams, not of the order in which they were read.

The receive buffer of a listing doubles when it has to, but its size is an `int`: it never holds
more than 2^30 bytes, and a chunk that goes beyond is dropped (`keep`).

## Main definitions

* `Arrival`, `Arrival.apply` — what has come, and the client that has received it
* `Asked` — a client that has asked for a file or a listing
* `Since`, `Under` — the history since then, and the invariant

## Main results

* `Under.chunk`, `Under.eof` — a chunk, and the end of the data
* `Under.procControl` — a reply
-/

namespace Visftp

open CString Histories

variable {α : Type}

/-! ### The receive buffer of a listing -/

/-- The allocation for `n` bytes of a listing. -/
def room (n : ℕ) : ℕ := 2 ^ max 10 (Nat.clog 2 n)

/-- What the client keeps when a chunk arrives: for a file everything, for a listing what its buffer
can be made to hold. -/
def keep (p : DProc) (got b : Bytes) : Bytes :=
  match p with
  | .list _ => if (got ++ b).length ≤ 2 ^ 30 then got ++ b else got
  | .xfer _ => got ++ b

theorem le_room (n : ℕ) : n ≤ room n :=
  (Nat.le_pow_clog (by decide) n).trans (Nat.pow_le_pow_right (by decide) (le_max_right _ _))

theorem le_two_pow_iff {n k : ℕ} (hk : 10 ≤ k) : room n ≤ 2 ^ k ↔ n ≤ 2 ^ k := by
  rw [room, Nat.pow_le_pow_iff_right (by decide), max_le_iff, Nat.clog_le_iff_le_pow (by decide)]
  exact ⟨And.right, fun h => ⟨hk, h⟩⟩

theorem room_eq_two_pow (n : ℕ) : ∃ k, 10 ≤ k ∧ room n = 2 ^ k := ⟨_, le_max_left _ _, rfl⟩

/-- A chunk that fits leaves the allocation as it is. -/
theorem room_of_le {m n : ℕ} (hmn : m ≤ n) (hn : n ≤ room m) : room n = room m := by
  obtain ⟨k, hk, hroom⟩ := room_eq_two_pow m
  refine le_antisymm ?_ ?_
  · rw [hroom] at hn ⊢
    exact (le_two_pow_iff hk).mpr hn
  · obtain ⟨k', hk', hroom'⟩ := room_eq_two_pow n
    rw [hroom']
    exact (le_two_pow_iff hk').mpr (hmn.trans (hroom' ▸ le_room n))

/-- A chunk that does not fit doubles it. -/
theorem room_of_lt {m n : ℕ} (hlt : room m < n) (hn : n ≤ m + 256) : room n = 2 * room m := by
  obtain ⟨k, hk, hroom⟩ := room_eq_two_pow m
  have hm := le_room m
  have hlarge : 2 ^ 10 ≤ 2 ^ k := Nat.pow_le_pow_right (by decide) hk
  rw [hroom] at hlt hm ⊢
  have hupper : room n ≤ 2 ^ (k + 1) := by
    rw [le_two_pow_iff (by omega), pow_succ]
    omega
  obtain ⟨k', hk', hroom'⟩ := room_eq_two_pow n
  rw [hroom'] at hupper ⊢
  have hlower : k < k' := by
    refine (Nat.pow_lt_pow_iff_right (by decide : 1 < 2)).mp (hlt.trans_le ?_)
    exact hroom' ▸ le_room n
  have := (Nat.pow_le_pow_iff_right (by decide : 1 < 2)).mp hupper
  rw [show k' = k + 1 by omega, pow_succ]
  omega

/-- The allocation of a buffer that is not larger than an `int` allows. -/
theorem room_lt {n : ℕ} (h : n ≤ 2 ^ 30) : room n < 2 ^ 31 :=
  ((le_two_pow_iff (by decide)).mpr h).trans_lt (by decide)

/-- An allocation where none fails that is possible at all. -/
theorem allocate_of_allocs_nil {w : World α} (h : w.env.allocs = []) (possible : Bool) :
    allocate possible w = (possible, if possible then w else w.emit .outOfMemory) := by
  have henv : { w.env with allocs := w.env.allocs.tail } = w.env := by
    rw [h, List.tail_nil, ← h]
  have hask : w.ask Env.allocs (fun l e => { e with allocs := l }) true = (true, w) := by
    refine Prod.ext (by simp [World.ask, h]) ?_
    change { w with env := { w.env with allocs := w.env.allocs.tail } } = w
    rw [henv]
  rw [allocate]
  rw [hask]
  cases possible <;> rfl

/-- `dproc_list` with bytes, in a buffer that has always been grown by it. -/
theorem dprocList_eq {r : ℕ} {b : Bytes} {w : World α} {got : Bytes} (hb : IsChunk b)
    (ha : w.env.allocs = []) (hr : w.rbufs r = ⟨got, room got.length⟩)
    (hgot : got.length ≤ 2 ^ 30) :
    ∃ m l, (∀ e ∈ l, e = .outOfMemory ∨ e = .dropped r) ∧
      dprocList r b w = { w with
        rbufs := Function.update w.rbufs r
          ⟨keep (.list r) got b, room (keep (.list r) got b).length⟩
        logfile := m
        log := l ++ w.log } := by
  have hlen := hb.2
  have hle := le_room got.length
  rw [dprocList]
  dsimp only
  rw [if_neg hb.1, hr, allocate_of_allocs_nil ha]
  split
  · next hlt =>
    have hlt' : room got.length < (got ++ b).length := by rwa [List.length_append]
    have hdouble := room_of_lt hlt' (by rw [List.length_append]; omega)
    rcases bmod_double (room_lt hgot) with ⟨hsmall, hbmod⟩ | ⟨hlarge, hbmod⟩
    · -- the buffer can still be doubled
      have hkeep : keep (.list r) got b = got ++ b := by
        obtain ⟨k, hk, hroom⟩ := room_eq_two_pow got.length
        have hsucc : k + 1 ≤ 30 := (Nat.pow_lt_pow_iff_right one_lt_two).mp (hroom ▸ hsmall)
        have hle : room (got ++ b).length ≤ 2 ^ 30 := by
          rw [hdouble, hroom, ← pow_succ']
          exact Nat.pow_le_pow_right two_pos hsucc
        exact if_pos ((le_room _).trans hle)
      have hnat : ((2 * room got.length : Int)).toNat = 2 * room got.length := by omega
      have hpos : (0 : Int) ≤ 2 * room got.length := by omega
      refine ⟨w.logfile, [], by simp, ?_⟩
      rw [hkeep, hdouble, hbmod, hnat, decide_eq_true hpos]
      simp only [Bool.not_true, Bool.false_eq_true, if_false, if_true, List.nil_append]
    · -- its size would be more than an `int` holds
      have hkeep : keep (.list r) got b = got := by
        refine if_neg ?_
        have := hlarge.trans_lt hlt'
        omega
      refine ⟨(.err, ascii "failed to resize receive buffer\n") :: w.logfile,
        [.dropped r, .outOfMemory], by simp, ?_⟩
      have hsame : Function.update w.rbufs r ⟨got, room got.length⟩ = w.rbufs := by
        rw [← hr, Function.update_eq_self]
      rw [hkeep, hsame, decide_eq_false (not_le.mpr hbmod)]
      rfl
  · next hfits =>
    have hfits' : (got ++ b).length ≤ room got.length := by
      rw [List.length_append]
      exact not_lt.mp hfits
    have hkeep : keep (.list r) got b = got ++ b :=
      if_pos (hfits'.trans ((le_two_pow_iff (by decide)).mpr hgot))
    refine ⟨w.logfile, [], by simp, ?_⟩
    rw [hkeep, room_of_le (by simp) hfits', List.nil_append]

/-! ### What has come -/

/-- What has come of the replies and of the data. -/
structure Arrival where
  /-- How many of the two replies. -/
  replies : ℕ
  /-- What has been kept of the chunks. -/
  got : Bytes
  /-- The end of the data. -/
  eof : Bool

/-- The `count` of a transfer after `n` bytes: it does not go beyond `total`. -/
def XferData.counted (x : XferData) (n : ℕ) : Int :=
  if n = 0 then x.count else min (x.count + n) x.total

/-- A transfer of which so much has come. -/
def Arrival.onXfer (a : Arrival) (x : Xfer α) : Xfer α :=
  { x with
    fp := if a.eof then none else x.fp
    mem := if x.fp = none then x.mem.map (· ++ a.got) else x.mem
    count := x.counted a.got.length }

/-- A transfer is not concerned with the replies. -/
@[simp] theorem onXfer_setReplies (a : Arrival) (n : ℕ) (x : Xfer α) :
    Arrival.onXfer ⟨n, a.got, a.eof⟩ x = a.onXfer x := rfl

/-- What is common to files and listings. -/
def Arrival.onFtp (a : Arrival) (f : Ftp) : Ftp :=
  { f with
    data := if a.eof then none else f.data
    busy := f.busy - (if a.replies = 2 then 1 else 0) - (if a.eof then 1 else 0)
    lastResp := if a.replies = 0 then f.lastResp else if a.replies = 1 then 150 else 226 }

/-- **The client after so much has come**, from the client that has just asked for it. -/
def Arrival.apply (p : DProc) (rest : Env) (a : Arrival) (w : World α) : World α :=
  match p with
  | .list r =>
    { w with
      ftp := { a.onFtp w.ftp with
        dproc := if a.eof then none else w.ftp.dproc
        dirent := if a.eof then listing rest.heapTail rest.junk a.got else w.ftp.dirent
        modified := if a.eof then true else w.ftp.modified }
      rbufs := Function.update w.rbufs r ⟨a.got, room a.got.length⟩ }
  | .xfer t =>
    { w with
      ftp := a.onFtp w.ftp
      xfers := Function.update w.xfers t (a.onXfer (w.xfers t))
      files := match (w.xfers t).fp with
        | some f => Function.update w.files f (w.files f ++ a.got)
        | none => w.files
      app := if a.eof then (w.xfers t).done (a.onXfer (w.xfers t)).toXferData w.app else w.app }

/-- The reply handler that goes with a data handler. -/
def DProc.cproc : DProc → CProc
  | .list r => .list r
  | .xfer t => .xfer t

/-- A client that has asked for a file or a listing. -/
structure Asked (p : DProc) (cfd dfd : Fd) (w : World α) : Prop where
  ctl : w.ftp.ctl = some cfd
  data : w.ftp.data = some dfd
  ne : dfd ≠ cfd
  busy : w.ftp.busy = 2
  crecv : w.ftp.crecv = []
  cproc : w.ftp.cproc = some p.cproc
  dproc : w.ftp.dproc = some p
  retr : ∀ t, p = .xfer t → (w.xfers t).op = .retr
  /-- The addresses are not those of transfers to come. -/
  old : ∀ t, p = .xfer t → t < w.nxfer ∧ ∀ f, (w.xfers t).fp = some f → f < w.nxfer
  rbuf : ∀ r, p = .list r → w.rbufs r = ⟨[], room 0⟩

section

variable {p : DProc} {rest : Env} {a : Arrival} {base : World α} {cfd dfd : Fd}

@[simp] theorem counted_zero (x : XferData) : x.counted 0 = x.count := if_pos rfl

/-- Counting goes on where it stopped. -/
theorem counted_add (x : XferData) (m : ℕ) {n : ℕ} (hn : n ≠ 0) :
    min (x.counted m + n) x.total = x.counted (m + n) := by
  have hne : m + n ≠ 0 := by omega
  unfold XferData.counted
  rw [if_neg hne]
  split
  · next h =>
    subst h
    simp
  · push_cast
    omega

/-- Nothing has come. -/
theorem apply_start (h : Asked p cfd dfd base) :
    Arrival.apply p rest ⟨0, [], false⟩ base = base := by
  cases p with
  | list r =>
    have hbuf : Function.update base.rbufs r ⟨[], room 0⟩ = base.rbufs := by
      rw [← h.rbuf r rfl, Function.update_eq_self]
    simp [Arrival.apply, Arrival.onFtp, hbuf]
  | xfer t =>
    have hxfer : Arrival.onXfer ⟨0, [], false⟩ (base.xfers t) = base.xfers t := by
      simp [Arrival.onXfer]
    rw [Arrival.apply, hxfer, Function.update_eq_self]
    cases hfp : (base.xfers t).fp <;> simp [Arrival.onFtp]

/-! ### The next piece -/

variable {env : Env} {w : World α}

/-- A transfer's bytes. -/
theorem agree_dprocXfer_chunk {t : ℕ} {b : Bytes} (hb : b ≠ [])
    (hretr : (base.xfers t).op = .retr) (heof : a.eof = false) :
    Agree { Arrival.apply (.xfer t) rest { a with got := a.got ++ b } base with env := env }
      (dprocXfer t b { Arrival.apply (.xfer t) rest a base with env := env }) := by
  have hcount := counted_add (base.xfers t).toXferData a.got.length
    (n := b.length) (by simpa using hb)
  cases hfp : (base.xfers t).fp <;>
    simp [Agree, World.bare, Arrival.apply, Arrival.onXfer, dprocXfer, storeBytes, World.emit,
      World.mapXfer, hfp, heof, hretr, hb, hcount, Arrival.onFtp, Function.comp_def]

/-- The end of a transfer. -/
theorem agree_dprocXfer_eof {t : ℕ} (hretr : (base.xfers t).op = .retr) (heof : a.eof = false) :
    Agree { Arrival.apply (.xfer t) rest { a with eof := true } base with env := env }
      ((dprocXfer t [] { Arrival.apply (.xfer t) rest a base with env := env }).mapFtp
        fun f => { f with data := none }) := by
  cases hfp : (base.xfers t).fp <;>
    simp [Agree, World.bare, Arrival.apply, Arrival.onXfer, dprocXfer, World.emit, World.mapXfer,
      World.mapFtp, callDone, infomsg, World.message, hfp, heof, hretr, Arrival.onFtp]

/-- The bytes of a listing. -/
theorem agree_dprocList_chunk {r : ℕ} {b : Bytes} (hb : IsChunk b) (ha : env.allocs = [])
    (hgot : a.got.length ≤ 2 ^ 30) (heof : a.eof = false) :
    Agree { Arrival.apply (.list r) rest { a with got := keep (.list r) a.got b } base with
        env := env }
      (dprocList r b { Arrival.apply (.list r) rest a base with env := env }) := by
  have hrbuf : (Arrival.apply (.list r) rest a base).rbufs r = ⟨a.got, room a.got.length⟩ := by
    simp [Arrival.apply]
  obtain ⟨m, l, -, heq⟩ := dprocList_eq
    (w := { Arrival.apply (.list r) rest a base with env := env }) hb ha hrbuf hgot
  rw [heq]
  simp [Agree, World.bare, Arrival.apply, Arrival.onFtp, heof]

/-- The end of a listing. -/
theorem agree_dprocList_eof {r : ℕ} (heap : env.heapTail = rest.heapTail)
    (hjunk : env.junk = rest.junk) (heof : a.eof = false) :
    Agree { Arrival.apply (.list r) rest { a with eof := true } base with env := env }
      ((dprocList r [] { Arrival.apply (.list r) rest a base with env := env }).mapFtp
        fun f => { f with data := none }) := by
  simp [Agree, World.bare, Arrival.apply, dprocList, World.mapFtp, Arrival.onFtp, heof, heap, hjunk]

/-! ### The history -/

/-- An event that is of no interest here. -/
def Event.plain : Event → Bool
  | .touch _ | .done _ | .exec .. => false
  | _ => true

/-- What has happened since the command was sent. -/
structure Since (p : DProc) (a : Arrival) (new : List Event) : Prop where
  /-- `done` is called at the end of the data. -/
  once : ∀ t, p = .xfer t → new.count (.done t) = if a.eof then 1 else 0
  /-- A transfer is not read or written any more once it is done. -/
  untouched : Always Untouched new
  /-- No operation has been begun. -/
  waits : ∀ op d v, .exec op d v ∉ new
  replied : a.replies = 2 → ∃ q n buf, .reply 226 q n buf ∈ new
  ended : a.eof = true → ∃ n, .dataEof (some p) n ∈ new

theorem Since.start (p : DProc) : Since p ⟨0, [], false⟩ [] :=
  ⟨fun _ _ => rfl, trivial, fun _ _ _ => List.not_mem_nil, fun h => absurd h (by decide),
    fun h => absurd h (by decide)⟩

/-- More has come, and nothing else happened than an event of no interest. -/
theorem Since.cons {new : List Event} {e : Event} {a' : Arrival} (h : Since p a new)
    (he : e.plain = true) (heof : a'.eof = a.eof)
    (hreply : a'.replies = 2 → a.replies = 2 ∨ ∃ q n buf, e = .reply 226 q n buf) :
    Since p a' (e :: new) := by
  refine ⟨fun t ht => ?_, ⟨?_, h.untouched⟩, fun op d v hm => ?_, fun hr => ?_, fun hr => ?_⟩
  · have hne : e ≠ .done t := fun hd => by simp [hd, Event.plain] at he
    rw [List.count_cons_of_ne hne, h.once t ht, heof]
  · cases e <;> trivial
  · rcases List.mem_cons.mp hm with rfl | hm
    · simp [Event.plain] at he
    · exact h.waits op d v hm
  · rcases hreply hr with hr | ⟨q, n, buf, rfl⟩
    · obtain ⟨q, n, buf, hm⟩ := h.replied hr
      exact ⟨q, n, buf, List.mem_cons_of_mem _ hm⟩
    · exact ⟨q, n, buf, List.mem_cons_self⟩
  · obtain ⟨n, hm⟩ := h.ended (heof ▸ hr)
    exact ⟨n, List.mem_cons_of_mem _ hm⟩

theorem Since.append {new l : List Event} (h : Since p a new) (hl : ∀ e ∈ l, e.plain = true) :
    Since p a (l ++ new) := by
  induction l with
  | nil => exact h
  | cons e l ih =>
    exact (ih fun e' he' => hl e' (List.mem_cons_of_mem e he')).cons (hl e List.mem_cons_self) rfl
      .inl

/-- What is kept of the data is another matter. -/
theorem Since.setGot {new : List Event} (h : Since p a new) (got : Bytes) :
    Since p { a with got := got } new :=
  ⟨h.once, h.untouched, h.waits, h.replied, h.ended⟩

/-- A transfer is touched while it is not done. -/
theorem Since.touch {new : List Event} {t : ℕ} (h : Since (.xfer t) a new) (heof : a.eof = false) :
    Since (.xfer t) a (.touch t :: new) := by
  have hnot : .done t ∉ new := by
    refine List.count_eq_zero.mp ?_
    rw [h.once t rfl, heof]
    rfl
  refine ⟨fun t' ht => ?_, ⟨hnot, h.untouched⟩, fun op d v hm => ?_, fun hr => ?_, fun hr => ?_⟩
  · rw [List.count_cons_of_ne (by simp), h.once t' ht]
  · exact h.waits op d v ((List.mem_cons.mp hm).resolve_left (by simp))
  · obtain ⟨q, n, buf, hm⟩ := h.replied hr
    exact ⟨q, n, buf, List.mem_cons_of_mem _ hm⟩
  · simp [heof] at hr

/-- The end of the data, for a transfer. -/
theorem Since.done {new : List Event} {t : ℕ} {n : Int} (h : Since (.xfer t) a new)
    (heof : a.eof = false) :
    Since (.xfer t) { a with eof := true }
      (.done t :: .touch t :: .dataEof (some (.xfer t)) n :: new) := by
  have hfirst : Since (.xfer t) a (.touch t :: .dataEof (some (.xfer t)) n :: new) :=
    (h.cons rfl rfl .inl).touch heof
  have hzero : (Event.touch t :: .dataEof (some (.xfer t)) n :: new).count (.done t) = 0 := by
    rw [hfirst.once t rfl, heof]
    rfl
  refine ⟨fun t' ht => ?_, ⟨List.count_eq_zero.mp hzero, hfirst.untouched⟩, fun op d v hm => ?_,
    fun hr => ?_, fun hr => ⟨n, by simp⟩⟩
  · obtain rfl : t = t' := by simpa using ht
    rw [List.count_cons_self, hzero]
    rfl
  · exact hfirst.waits op d v ((List.mem_cons.mp hm).resolve_left (by simp))
  · obtain ⟨q, n, buf, hm⟩ := hfirst.replied hr
    exact ⟨q, n, buf, List.mem_cons_of_mem _ hm⟩

/-- **The invariant.** The client is what has come makes of it. -/
structure Under (p : DProc) (rest : Env) (base : World α) (past : List Event) (env : Env)
    (a : Arrival) (w : World α) : Prop where
  agree : Agree { a.apply p rest base with env := env } w
  since : ∃ new, w.log = new ++ past ∧ Since p a new

variable {past : List Event}

theorem Under.start (h : Asked p cfd dfd base) : Under p rest base base.log base.env
    ⟨0, [], false⟩ base := by
  refine ⟨?_, [], rfl, .start p⟩
  rw [apply_start h]
  exact Agree.refl base

theorem Under.ftp_eq (h : Under p rest base past env a w) : w.ftp = (a.apply p rest base).ftp :=
  h.agree.ftp_eq

/-- Another answer of the system is next. -/
theorem Under.setEnv (h : Under p rest base past env a w) (env' : Env) :
    Under p rest base past env' a { w with env := env' } :=
  ⟨h.agree.setEnv env', h.since⟩

/-- Something of no interest is recorded. -/
theorem Under.emit (h : Under p rest base past env a w) {e : Event} (he : e.plain = true) :
    Under p rest base past env a (w.emit e) := by
  obtain ⟨new, hlog, hnew⟩ := h.since
  exact ⟨h.agree, e :: new, by simp [World.emit, hlog], hnew.cons he rfl .inl⟩

theorem Under.infomsg (h : Under p rest base past env a w) (t : Bytes) :
    Under p rest base past env a (Visftp.infomsg t w) := ⟨h.agree, h.since⟩

theorem dproc_apply (a : Arrival) (h : Asked p cfd dfd base) (heof : a.eof = false) :
    (a.apply p rest base).ftp.dproc = some p := by
  have hp := h.dproc
  cases p <;> simpa [Arrival.apply, Arrival.onFtp, heof] using hp

theorem cproc_apply (a : Arrival) (h : Asked p cfd dfd base) :
    (a.apply p rest base).ftp.cproc = some p.cproc := by
  have hp := h.cproc
  cases p <;> exact hp

theorem log_dprocXfer {t : ℕ} {b : Bytes} (hretr : (w.xfers t).op = .retr) :
    (dprocXfer t b w).log = if b = [] then .done t :: .touch t :: w.log else .touch t :: w.log := by
  rw [dprocXfer, storeBytes]
  simp only [World.emit, hretr, if_true]
  split
  · rfl
  · cases (w.xfers t).fp <;> rfl

/-- **A chunk.** -/
theorem Under.chunk (h : Under p rest base past env a w) (hbase : Asked p cfd dfd base)
    (heof : a.eof = false) {b : Bytes} (hb : IsChunk b)
    (hlist : ∀ r, p = .list r → env.allocs = [] ∧ a.got.length ≤ 2 ^ 30) :
    Under p rest base past env { a with got := keep p a.got b }
      (callDproc b (w.emit (.chunk b w.ftp.dproc))) := by
  have hemit := h.emit (e := .chunk b w.ftp.dproc) rfl
  have hdproc : (w.emit (.chunk b w.ftp.dproc)).ftp.dproc = some p :=
    (congrArg Ftp.dproc h.ftp_eq).trans (dproc_apply a hbase heof)
  rw [callDproc_of_some hdproc]
  generalize w.emit (.chunk b w.ftp.dproc) = v at hemit ⊢
  obtain ⟨new, hlog, hnew⟩ := hemit.since
  cases p with
  | list r =>
    obtain ⟨ha, hgot⟩ := hlist r rfl
    refine ⟨(agree_dprocList_chunk hb ha hgot heof).trans (agree_dprocList r b hemit.agree), ?_⟩
    have hrbuf : v.rbufs r = ⟨a.got, room a.got.length⟩ := by
      rw [hemit.agree.rbufs_eq]
      simp [Arrival.apply]
    have henv : v.env.allocs = [] := by
      rw [← show env = v.env from congrArg World.env hemit.agree]
      exact ha
    obtain ⟨m, l, hl, heq⟩ := dprocList_eq hb henv hrbuf hgot
    refine ⟨l ++ new, ?_, (hnew.setGot _).append fun e he => ?_⟩
    · change (dprocList r b v).log = _
      rw [heq, List.append_assoc, ← hlog]
    · rcases hl e he with rfl | rfl <;> rfl
  | xfer t =>
    have hretr := hbase.retr t rfl
    refine ⟨(agree_dprocXfer_chunk hb.1 hretr heof).trans (agree_dprocXfer t b hemit.agree),
      .touch t :: new, ?_, (hnew.setGot _).touch heof⟩
    have hop : (v.xfers t).op = .retr := by
      rw [hemit.agree.xfers_eq]
      simpa [Arrival.apply, Arrival.onXfer] using hretr
    change (dprocXfer t b v).log = _
    rw [log_dprocXfer hop, if_neg hb.1, hlog]
    rfl

/-- **The end of the data.** -/
theorem Under.eof (h : Under p rest base past env a w) (hbase : Asked p cfd dfd base)
    (heof : a.eof = false) (henv : env.heapTail = rest.heapTail ∧ env.junk = rest.junk) :
    Under p rest base past env { a with eof := true }
      ((callDproc [] (w.emit (.dataEof w.ftp.dproc w.ftp.busy))).mapFtp
        fun f => { f with data := none }) := by
  obtain ⟨new, hlog, hnew⟩ := h.since
  have hdproc : w.ftp.dproc = some p :=
    (congrArg Ftp.dproc h.ftp_eq).trans (dproc_apply a hbase heof)
  have hagree : Agree { a.apply p rest base with env := env }
      (w.emit (.dataEof w.ftp.dproc w.ftp.busy)) := h.agree
  have hdproc' : (w.emit (.dataEof w.ftp.dproc w.ftp.busy)).ftp.dproc = some p := hdproc
  rw [callDproc_of_some hdproc']
  cases p with
  | list r =>
    refine ⟨(agree_dprocList_eof henv.1 henv.2 heof).trans
      ((agree_dprocList r [] hagree).mapFtp _), .dataEof (some (.list r)) w.ftp.busy :: new, ?_, ?_⟩
    · rw [← hdproc, List.cons_append, ← hlog]
      rfl
    · have hcons := hnew.cons (e := .dataEof (some (.list r)) w.ftp.busy) rfl rfl .inl
      exact ⟨fun t ht => by simp at ht, hcons.untouched, hcons.waits, hcons.replied,
        fun _ => ⟨_, List.mem_cons_self⟩⟩
  | xfer t =>
    have hretr := hbase.retr t rfl
    refine ⟨(agree_dprocXfer_eof hretr heof).trans ((agree_dprocXfer t [] hagree).mapFtp _),
      .done t :: .touch t :: .dataEof (some (.xfer t)) w.ftp.busy :: new, ?_, hnew.done heof⟩
    have hop : ((w.emit (.dataEof w.ftp.dproc w.ftp.busy)).xfers t).op = .retr := by
      change (w.xfers t).op = .retr
      rw [h.agree.xfers_eq]
      simpa [Arrival.apply, Arrival.onXfer] using hretr
    change (dprocXfer t [] _).log = _
    rw [log_dprocXfer hop, if_pos rfl, ← hdproc]
    simp [World.emit, hlog]

/-- What a reply changes. -/
theorem agree_replied (hcode : a.replies = 0 ∧ code = 150 ∨ a.replies = 1 ∧ code = 226) :
    Agree { Arrival.apply p rest { a with replies := a.replies + 1 } base with env := env }
      (({ a.apply p rest base with env := env } : World α).mapFtp fun f => { f with
        lastResp := code
        busy := f.busy - if code = 150 then 0 else 1 }) := by
  have hcomm : ∀ n e : Int, n - 1 - e = n - e - 1 := by omega
  rcases hcode with ⟨hr, rfl⟩ | ⟨hr, rfl⟩ <;> cases p <;>
    simp [Agree, World.bare, Arrival.apply, World.mapFtp, Arrival.onFtp, hr, ← hcomm]

/-- The handlers of a file and of a listing do nothing with these replies. -/
theorem settle_run_cproc {wait : Int → World α → Int × World α} {buf : Bytes}
    (hcode : code = 150 ∨ code = 226)
    (hsize : ∀ t, p = .xfer t → code = 150 → xferTotal buf = none) (v : World α) :
    settle (p.cproc.run wait code buf v) =
      v.mapFtp fun f => { f with busy := f.busy - if code = 150 then 0 else 1 } := by
  rcases hcode with rfl | rfl <;> cases p with
  | list r => simp [DProc.cproc, CProc.run, cprocList, settle, World.mapFtp]
  | xfer t =>
    simp [DProc.cproc, CProc.run, cprocXfer, settle, World.mapFtp, hsize]

/-- **A reply**, for a transfer one without a size. -/
theorem Under.procControl (h : Under p rest base past env a w) (hbase : Asked p cfd dfd base)
    (wait : Int → World α → Int × World α) (buf : Bytes)
    (hcode : a.replies = 0 ∧ respcode (replyText buf) = 150 ∨
      a.replies = 1 ∧ respcode (replyText buf) = 226)
    (hsize : ∀ t, p = .xfer t → respcode (replyText buf) = 150 →
      xferTotal (replyText buf) = none) :
    Under p rest base past env { a with replies := a.replies + 1 } (procControl wait buf w) := by
  have hpos : respcode (replyText buf) = 150 ∨ respcode (replyText buf) = 226 :=
    hcode.imp And.right And.right
  have hmsg := h.infomsg (ascii "recv: " ++ replyText buf ++ ascii "\n")
  unfold Visftp.procControl
  dsimp only
  rw [if_neg (by omega), if_neg (by omega)]
  generalize Visftp.infomsg _ w = v at hmsg ⊢
  generalize respcode (replyText buf) = code at hcode hsize hpos ⊢
  obtain ⟨new, hlog, hnew⟩ := hmsg.since
  have hcproc : v.ftp.cproc = some p.cproc :=
    (congrArg Ftp.cproc hmsg.ftp_eq).trans (cproc_apply a hbase)
  rw [deliver_of_some hcproc, settle_run_cproc hpos hsize]
  refine ⟨(agree_replied hcode).trans (hmsg.agree.mapFtp _),
    .reply code v.ftp.cproc v.ftp.busy (replyText buf) :: new, ?_, hnew.cons rfl rfl fun hr => ?_⟩
  · rw [List.cons_append, ← hlog]
    rfl
  · rcases hcode with ⟨hzero, -⟩ | ⟨-, rfl⟩
    · simp [hzero] at hr
    · exact .inr ⟨_, _, _, rfl⟩

end

end Visftp
