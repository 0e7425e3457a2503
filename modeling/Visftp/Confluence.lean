import Visftp.Arrival

/-!
# The order of replies and data does not matter

The two replies to `RETR` or `LIST` and the bytes of the data connection come on two connections,
and the main loop may see them in any order and in any portions. A `Call` is one portion, and a
`Schedule` a sequence of calls that deliver both streams, with operations that the application
queues in between.

Every schedule leads to the same state, as long as the reply that comes first does not announce a
size. A size is written to the transfer when the reply is read: before the last chunks, and `count`
may go up to it, or after them, and `count` has stopped at the size the transfer was made with;
after the end of the data the transfer has been freed.

## Main definitions

* `Call`, `Schedule` — what one call brings, and sequences of calls
* `Completed`, `Confluent` — what is to hold at the end, and that the end is always the same

## Main results

* `Under.run` — the invariant along the calls of a schedule
* `confluent_iff` — when the order does not matter
* `view_depends_on_order` — a file that is shown in part or as a whole
-/

namespace Visftp

open CString Histories

variable {α : Type}

/-! ### Calls -/

/-- Whether an input is a call of `ftp_handle`. -/
def Input.isHandle : Input α → Bool
  | .handle _ => true
  | _ => false

/-- A portion of what comes while a file or a listing is on its way. -/
inductive Call (α : Type)
  /-- Results of `recv` on the control connection: the lines that each of them holds. -/
  | control (recvs : List (List Bytes))
  /-- Results of `recv` on the data connection. -/
  | data (packets : List Recv)
  /-- The application queues an operation or a transfer. -/
  | accept (i : Input α)

namespace Call

/-- The replies of a call. -/
def replies : Call α → List Bytes
  | control recvs => recvs.flatten
  | _ => []

/-- What a call reads from the data connection. -/
def packets : Call α → List Recv
  | data packets => packets
  | _ => []

/-- What the application queues. -/
def queued : Call α → List (Input α)
  | accept i => [i]
  | _ => []

/-- A call brings something, and no more than it can read: `recv` gives up to 256 bytes, and
`handle_data` calls it four times. -/
def Ok : Call α → Prop
  | control recvs => recvs ≠ [] ∧ ∀ ls ∈ recvs, ls ≠ [] ∧ (crlf ls).length ≤ 256
  | data packets => packets ≠ [] ∧ packets.length ≤ 4
  | accept i => i.isHandle = false

instance (c : Call α) : Decidable c.Ok := by
  induction c using Call.casesOn <;> (dsimp only [Ok]; infer_instance)

/-- The system during a call. `rest` is what it answers to anything else. -/
def env (rest : Env) : Call α → Env
  | control recvs => { rest with
      ctlIn := recvs.map (fun ls => .data (crlf ls)) ++ .again :: rest.ctlIn
      dataIn := [] }
  | data packets => { rest with dataIn := packets }
  | accept _ => { rest with allocs := [] }

/-- The call, with the descriptors of the two connections. -/
def input (rest : Env) (cfd dfd : Fd) (c : Call α) : Env × Input α :=
  (c.env rest, match c with
    | control _ => .handle cfd
    | data _ => .handle dfd
    | accept i => i)

/-- The call up to the end of `ftp_handle`, where the next operation is begun. -/
def arrive (rest : Env) (c : Call α) (w : World α) : World α :=
  match c with
  | control _ => (handleControl (ftpWaitresp rest.selects.length) { w with env := c.env rest }).2
  | data _ => handleData { w with env := c.env rest }
  | accept i => w.step (c.env rest) i

end Call

/-- The client with an operation in its queue. -/
def World.withQueued (i : Input α) (w : World α) : World α :=
  match i with
  | .queue op _ => enqueue op w
  | .transfer x => enqueue (.xfer w.nxfer) (w.newXfer x)
  | .handle _ => w

/-- The client without the first operation of its queue. -/
def World.dequeued (w : World α) : World α :=
  w.mapFtp fun f => { f with queue := (f.queue.pop.map Prod.snd).getD f.queue }

/-- The first of these operations, which are the queue, is carried out. -/
def beginNext (wait : Int → World α → Int × World α) (ops : List Op) (w : World α) : World α :=
  match ops with
  | [] => w
  | op :: _ => execOp wait op w.dequeued

/-- The operations queued, when the next transfer gets the address `t`. -/
def opsOf : ℕ → List (Input α) → List Op
  | _, [] => []
  | t, .queue op _ :: is => op :: opsOf t is
  | t, .transfer _ :: is => .xfer t :: opsOf (t + 1) is
  | t, .handle _ :: is => opsOf t is

variable {p : DProc} {rest env : Env} {a : Arrival} {base w : World α} {cfd dfd : Fd}
variable {past : List Event}

/-! ### Operations that are queued meanwhile -/

theorem asked_withQueued (h : Asked p cfd dfd base) (i : Input α) :
    Asked p cfd dfd (base.withQueued i) := by
  cases i with
  | queue op hop =>
    exact ⟨h.ctl, h.data, h.ne, h.busy, h.crecv, h.cproc, h.dproc, h.retr, h.old, h.rbuf⟩
  | transfer x =>
    have hxfer : ∀ t, p = .xfer t → (base.withQueued (.transfer x)).xfers t = base.xfers t :=
      fun t ht => Function.update_of_ne (h.old t ht).1.ne _ _
    refine ⟨h.ctl, h.data, h.ne, h.busy, h.crecv, h.cproc, h.dproc, fun t ht => ?_,
      fun t ht => ?_, h.rbuf⟩
    · rw [hxfer t ht]
      exact h.retr t ht
    · rw [hxfer t ht]
      have hold := h.old t ht
      exact ⟨hold.1.trans (Nat.lt_succ_self _),
        fun f hf => (hold.2 f hf).trans (Nat.lt_succ_self _)⟩
  | handle s => exact h

/-- What is queued does not touch what is on its way. -/
theorem agree_withQueued (h : Asked p cfd dfd base) (i : Input α) (env : Env) :
    Agree { a.apply p rest (base.withQueued i) with env := env }
      (({ a.apply p rest base with env := env } : World α).withQueued i) := by
  cases i with
  | queue op hop => cases p <;> rfl
  | transfer x =>
    cases p with
    | list r => rfl
    | xfer t =>
      obtain ⟨ht, hf⟩ := h.old t rfl
      cases hfp : (base.xfers t).fp with
      | none =>
        simp [Agree, World.bare, Arrival.apply, World.withQueued, enqueue, World.newXfer,
          World.emit, World.mapFtp, Function.update_of_ne ht.ne, Function.update_comm ht.ne, hfp,
          Arrival.onFtp]
      | some f =>
        simp [Agree, World.bare, Arrival.apply, World.withQueued, enqueue, World.newXfer,
          World.emit, World.mapFtp, Function.update_of_ne ht.ne, Function.update_comm ht.ne, hfp,
          Arrival.onFtp, Function.update_of_ne (hf f hfp).ne, Function.update_comm (hf f hfp).ne]
  | handle s => rfl

/-- Something is still to come. -/
def Arrival.unfinished (a : Arrival) : Prop := a.replies < 2 ∨ a.eof = false

theorem busy_apply (h : Asked p cfd dfd base) : (a.apply p rest base).ftp.busy =
    2 - (if a.replies = 2 then 1 else 0) - (if a.eof = true then 1 else 0) := by
  rw [← h.busy]
  cases p <;> rfl

theorem busy_pos (h : Under p rest base past env a w) (hbase : Asked p cfd dfd base)
    (ha : a.unfinished) : 0 < w.ftp.busy := by
  rw [h.ftp_eq, busy_apply hbase]
  rcases ha with hr | he
  · rw [if_neg hr.ne]
    split <;> decide
  · rw [he]
    split <;> decide

theorem busy_zero (h : Under p rest base past env a w) (hbase : Asked p cfd dfd base)
    (hr : a.replies = 2) (he : a.eof = true) : w.ftp.busy = 0 := by
  rw [h.ftp_eq, busy_apply hbase, if_pos hr, if_pos he]
  rfl

/-- **An operation is queued** while something is still to come. -/
theorem Under.accept (h : Under p rest base past env a w) (hbase : Asked p cfd dfd base)
    (ha : a.unfinished) {i : Input α} (hi : i.isHandle = false) :
    Under p rest (base.withQueued i) past { rest with allocs := [] } a
      (w.step { rest with allocs := [] } i) := by
  have hset := h.setEnv { rest with allocs := [] }
  have hbusy : ({ w with env := { rest with allocs := [] } } : World α).ftp.busy ≠ 0 :=
    (busy_pos h hbase ha).ne'
  generalize hv : ({ w with env := { rest with allocs := [] } } : World α) = v at hset hbusy
  have hallocs : v.env.allocs = [] := by rw [← hv]
  have hmalloc : ∀ u : World α, u.env.allocs = [] → malloc u = (true, u) := fun u hu =>
    allocate_of_allocs_nil hu true
  obtain ⟨new, hlog, hnew⟩ := hset.since
  -- the operation is appended to the queue
  have hstep : w.step { rest with allocs := [] } i = v.withQueued i := by
    cases i with
    | queue op hop =>
      rw [World.step]
      dsimp only
      rw [hv, ftpQueue, submit, if_neg (fun hc => hbusy hc.1), hmalloc v hallocs]
      cases op.hasArg <;> simp [hmalloc v hallocs, World.withQueued]
    | transfer x =>
      have hbusy' : (v.newXfer x).ftp.busy ≠ 0 := hbusy
      have hallocs' : (v.newXfer x).env.allocs = [] := hallocs
      rw [World.step]
      dsimp only
      rw [hv, ftpQueueTransfer, submit, if_neg (fun hc => hbusy' hc.1), hmalloc _ hallocs']
      subst hv
      rfl
    | handle s => simp [Input.isHandle] at hi
  rw [hstep]
  refine ⟨(agree_withQueued hbase i _).trans ?_, ?_⟩
  · obtain ⟨m, l, heq⟩ := hset.agree.exists_eq
    rw [heq]
    cases i <;> rfl
  · cases i with
    | queue op hop => exact ⟨.accept op :: new, by simp [World.withQueued, enqueue, World.emit,
        World.mapFtp, hlog], hnew.cons rfl rfl .inl⟩
    | transfer x =>
      refine ⟨.accept (.xfer v.nxfer) :: .made v.nxfer (x.toJob.fresh v.nxfer) :: new, ?_,
        (hnew.cons rfl rfl .inl).cons rfl rfl .inl⟩
      simp [World.withQueued, enqueue, World.newXfer, World.emit, World.mapFtp, hlog]
    | handle s => simp [Input.isHandle] at hi

/-! ### The data connection -/

/-- The packets that are still to come, when `total` will have been kept at the end. -/
def Arrival.Awaits (p : DProc) (a : Arrival) (total : Bytes) (packets : List Recv) : Prop :=
  a.eof = true ∧ packets = [] ∧ a.got = total ∨
    a.eof = false ∧ ∃ cs : List Bytes, packets = cs.map .data ++ [.eof] ∧ (∀ c ∈ cs, IsChunk c) ∧
      cs.foldl (keep p) a.got = total

theorem Under.env_eq (h : Under p rest base past env a w) : w.env = env :=
  (congrArg World.env h.agree).symm

/-- `recv` on the data connection. -/
theorem Under.recvData {x : Recv} {packets : List Recv}
    (h : Under p rest base past { env with dataIn := x :: packets } a w) :
    (recvData 256 w).1 = x.clip 256 ∧
      Under p rest base past { env with dataIn := packets } a (recvData 256 w).2 := by
  have henv := h.env_eq
  have hin : w.env.dataIn = x :: packets := by rw [henv]
  obtain ⟨hfst, hsnd⟩ := recvData_cons hin
  refine ⟨hfst, ?_⟩
  rw [hsnd, henv]
  exact h.setEnv { env with dataIn := packets }

theorem keep_length_le (r : ℕ) {got : Bytes} (b : Bytes) (h : got.length ≤ 2 ^ 30) :
    (keep (.list r) got b).length ≤ 2 ^ 30 := by
  unfold keep
  dsimp only
  split
  · next hle => exact hle
  · exact h

/-- What the data handlers ask of the system: for a listing, memory. -/
structure Supplied (p : DProc) (rest env : Env) (a : Arrival) : Prop where
  heapTail : env.heapTail = rest.heapTail
  junk : env.junk = rest.junk
  list : ∀ r, p = .list r → env.allocs = [] ∧ a.got.length ≤ 2 ^ 30

theorem Supplied.keep {b : Bytes} (h : Supplied p rest env a) :
    Supplied p rest env { a with got := Visftp.keep p a.got b } := by
  refine ⟨h.heapTail, h.junk, fun r hr => ⟨(h.list r hr).1, ?_⟩⟩
  subst hr
  exact keep_length_le r b (h.list r rfl).2

/-- **Packets in a row.** -/
theorem Under.handleDataLoop {packets later : List Recv} {n : ℕ} {total : Bytes}
    (h : Under p rest base past { env with dataIn := packets } a w)
    (hbase : Asked p cfd dfd base) (hn : packets.length ≤ n)
    (hprov : Supplied p rest env a) (hawait : a.Awaits p total (packets ++ later)) :
    ∃ a', a'.replies = a.replies ∧ a'.Awaits p total later ∧ Supplied p rest env a' ∧
      Under p rest base past { env with dataIn := [] } a' (Visftp.handleDataLoop n w) := by
  induction packets generalizing n w a with
  | nil =>
    refine ⟨a, rfl, hawait, hprov, ?_⟩
    cases n with
    | zero => exact h
    | succ n =>
      have henv := h.env_eq
      have hin : w.env.dataIn = [] := by rw [henv]
      have hagain : (Visftp.recvData 256 w).1 = .again := by
        simp [Visftp.recvData, World.ask, hin, Recv.clip]
      have hsnd : (Visftp.recvData 256 w).2 = w := by
        have hself : { w.env with dataIn := [] } = w.env := by rw [henv]
        simp [Visftp.recvData, World.ask, hin, hself]
      rw [Visftp.handleDataLoop, hagain, hsnd]
      exact h
  | cons x packets ih =>
    obtain ⟨n, rfl⟩ : ∃ m, n = m + 1 := ⟨n - 1, by simp at hn; omega⟩
    have hlen : packets.length ≤ n := by simpa using hn
    obtain ⟨hfst, hrecv⟩ := h.recvData
    rcases hawait with ⟨-, hnil, -⟩ | ⟨heof, cs, hcs, hchunks, hfold⟩
    · simp at hnil
    cases cs with
    | nil =>
      -- the end of the data
      obtain ⟨rfl, hnil⟩ : x = .eof ∧ packets ++ later = [] := by simpa using hcs
      obtain ⟨rfl, rfl⟩ := List.append_eq_nil_iff.mp hnil
      refine ⟨{ a with eof := true }, rfl, .inl ⟨rfl, rfl, hfold⟩, ?_, ?_⟩
      · exact ⟨hprov.heapTail, hprov.junk, hprov.list⟩
      · rw [Visftp.handleDataLoop, hfst]
        exact hrecv.eof hbase heof ⟨hprov.heapTail, hprov.junk⟩
    | cons c cs =>
      obtain ⟨rfl, hrest⟩ : x = .data c ∧ packets ++ later = cs.map .data ++ [.eof] := by
        simpa using hcs
      have hc : IsChunk c := hchunks c List.mem_cons_self
      have hnext := hrecv.chunk hbase heof hc hprov.list
      have hloop : Visftp.handleDataLoop (n + 1) w = Visftp.handleDataLoop n
          (callDproc c ((Visftp.recvData 256 w).2.emit
            (.chunk c (Visftp.recvData 256 w).2.ftp.dproc))) := by
        rw [Visftp.handleDataLoop, hfst, clip_of_isChunk hc]
      rw [hloop]
      obtain ⟨a', hreplies, hlater⟩ := ih hnext hlen hprov.keep (.inr ⟨heof, cs, hrest,
        fun c' hc' => hchunks c' (List.mem_cons_of_mem c hc'), hfold⟩)
      exact ⟨a', hreplies, hlater⟩

/-! ### The control connection -/

/-- The lines of two replies, `150` and `226`. -/
structure TwoReplies (l150 l226 : Bytes) : Prop where
  clean : Clean l150 ∧ Clean l226
  short : l150.length + 2 ≤ 256 ∧ l226.length + 2 ≤ 256
  code : respcode (replyText l150) = 150 ∧ respcode (replyText l226) = 226

/-- The lines that are still to come. -/
def Arrival.Owes (l150 l226 : Bytes) (a : Arrival) (lines : List Bytes) : Prop :=
  a.replies ≤ 2 ∧ lines = [l150, l226].drop a.replies

/-- The first reply does not announce the size of a file. -/
def Unsized (p : DProc) (l150 : Bytes) : Prop :=
  ∀ t, p = .xfer t → xferTotal (replyText l150) = none

section Control

variable {l150 l226 : Bytes} {wait : Int → World α → Int × World α}

/-- The next reply is one of the two. -/
theorem Arrival.Owes.cons {l : Bytes} {lines : List Bytes} (h : a.Owes l150 l226 (l :: lines)) :
    (a.replies = 0 ∧ l = l150 ∨ a.replies = 1 ∧ l = l226) ∧
      ({ a with replies := a.replies + 1 } : Arrival).Owes l150 l226 lines := by
  obtain ⟨hle, hdrop⟩ := h
  obtain ⟨n, got, eof⟩ := a
  dsimp only at hle hdrop
  rcases n with - | - | n
  · obtain ⟨rfl, rfl⟩ : l = l150 ∧ lines = [l226] := by simpa using hdrop
    exact ⟨.inl ⟨rfl, rfl⟩, Nat.le_succ 1, rfl⟩
  · obtain ⟨rfl, rfl⟩ : l = l226 ∧ lines = [] := by simpa using hdrop
    exact ⟨.inr ⟨rfl, rfl⟩, Nat.le_refl 2, rfl⟩
  · simp at hdrop

theorem scanBytes_of_notMem (l bs cur : Bytes) (seen : Bool) (w : World α) (hcr : cr ∉ l)
    (hlf : lf ∉ l) :
    scanBytes wait (l ++ bs) cur seen w = scanBytes wait bs (cur ++ l) seen w := by
  induction l generalizing cur with
  | nil => simp
  | cons b l ih =>
    obtain ⟨hb, hl⟩ := not_or.mp (mt List.mem_cons.mpr hcr)
    obtain ⟨hb', hl'⟩ := not_or.mp (mt List.mem_cons.mpr hlf)
    rw [List.cons_append, scanBytes, if_neg (Ne.symm hb), if_neg (Ne.symm hb'), ih _ hl hl',
      List.append_assoc]
    rfl

/-- A whole line. -/
theorem scanBytes_line {l : Bytes} (hl : Clean l) (bs : Bytes) (seen : Bool) (w : World α) :
    scanBytes wait (l ++ cr :: lf :: bs) [] seen w =
      scanBytes wait bs [] true (procControl wait l (w.emit (.line (l ++ [nul])))) := by
  rw [scanBytes_of_notMem l _ [] seen w hl.1 hl.2.1, List.nil_append, scanBytes, if_pos rfl,
    scanBytes, if_neg (by decide), if_pos rfl, cstr_append_nul hl.2.2]

theorem crecv_apply (h : Asked p cfd dfd base) : (a.apply p rest base).ftp.crecv = [] := by
  rw [← h.crecv]
  cases p <;> rfl

/-- **Lines in a row.** -/
theorem Under.scanBytes (h : Under p rest base past env a w) (hbase : Asked p cfd dfd base)
    (htwo : TwoReplies l150 l226) {lines later : List Bytes}
    (wait : Int → World α → Int × World α) (seen : Bool)
    (howes : a.Owes l150 l226 (lines ++ later)) (hsize : Unsized p l150 ∨ lines = []) :
    ({ a with replies := a.replies + lines.length } : Arrival).Owes l150 l226 later ∧
      Under p rest base past env { a with replies := a.replies + lines.length }
        (Visftp.scanBytes wait (crlf lines) [] seen w) := by
  induction lines generalizing a w seen with
  | nil =>
    refine ⟨howes, ?_⟩
    have hcrecv : w.ftp.crecv = [] := (congrArg Ftp.crecv h.ftp_eq).trans (crecv_apply hbase)
    have hself : (w.mapFtp fun f => { f with crecv := if seen then [] else [] }) = w := by
      have hftp : { w.ftp with crecv := [] } = w.ftp := by rw [← hcrecv]
      simp [World.mapFtp, hftp]
    change Under p rest base past env a (w.mapFtp _)
    rw [hself]
    exact h
  | cons l lines ih =>
    obtain ⟨hl, hnext⟩ := Arrival.Owes.cons howes
    have hsize' : Unsized p l150 := hsize.resolve_right (by simp)
    have hclean : Clean l := by
      rcases hl with ⟨-, rfl⟩ | ⟨-, rfl⟩
      exacts [htwo.clean.1, htwo.clean.2]
    have hline := (h.emit (e := .line (l ++ [nul])) rfl).procControl hbase wait l
      (by
        rcases hl with ⟨hr, rfl⟩ | ⟨hr, rfl⟩
        exacts [.inl ⟨hr, htwo.code.1⟩, .inr ⟨hr, htwo.code.2⟩])
      (by
        intro t ht hcode
        rcases hl with ⟨-, rfl⟩ | ⟨-, rfl⟩
        · exact hsize' t ht
        · rw [htwo.code.2] at hcode
          exact absurd hcode (by decide))
    obtain ⟨howes', hunder⟩ := ih hline true hnext (.inl hsize')
    rw [crlf_cons, scanBytes_line hclean]
    have hadd : a.replies + (l :: lines).length = a.replies + 1 + lines.length := by
      rw [List.length_cons]
      omega
    rw [hadd]
    exact ⟨howes', hunder⟩

/-- `recv` on the control connection. -/
theorem Under.recvCtl {x : Recv} {l : List Recv} (sz : ℕ)
    (h : Under p rest base past { env with ctlIn := x :: l } a w) (hbase : Asked p cfd dfd base) :
    (recvCtl sz w).1 = x.clip sz ∧
      Under p rest base past { env with ctlIn := l } a (recvCtl sz w).2 := by
  have henv := h.env_eq
  have hctl : w.ftp.ctl ≠ none := by
    have hopen : w.ftp.ctl = some cfd := by
      rw [h.ftp_eq, ← hbase.ctl]
      cases p <;> rfl
    simp [hopen]
  have hin : w.env.ctlIn = x :: l := by rw [henv]
  have hrecv : Visftp.recvCtl sz w =
      (x.clip sz, { w with env := { env with ctlIn := l } }) := by
    rw [Visftp.recvCtl, if_neg hctl, World.ask, hin, henv]
    rfl
  rw [hrecv]
  exact ⟨rfl, h.setEnv { env with ctlIn := l }⟩

/-- One round of the read loop. -/
theorem handleControlLoop_round {fuel : ℕ} (hcrecv : w.ftp.crecv = []) :
    handleControlLoop wait (fuel + 1) w =
      match (recvCtl 256 w).1 with
      | .intr => handleControlLoop wait fuel (recvCtl 256 w).2
      | .again => (0, (recvCtl 256 w).2)
      | .eof => (-1, ftpClose (recvCtl 256 w).2)
      | .data b => handleControlLoop wait fuel (scanBytes wait b (recvCtl 256 w).2.ftp.crecv false
          ((recvCtl 256 w).2.emit (.recv b))) := by
  have hroom : ¬crecvSize ≤ w.ftp.crecv.length := by
    rw [hcrecv]
    decide
  rw [handleControlLoop, if_neg hroom, hcrecv]
  rfl

theorem Under.crecv_eq (h : Under p rest base past env a w) (hbase : Asked p cfd dfd base) :
    w.ftp.crecv = [] := (congrArg Ftp.crecv h.ftp_eq).trans (crecv_apply hbase)

/-- **Results of `recv` in a row.** -/
theorem Under.handleControlLoop {recvs : List (List Bytes)} {later : List Bytes} {l : List Recv}
    {fuel : ℕ} (h : Under p rest base past
      { env with ctlIn := recvs.map (fun ls => .data (crlf ls)) ++ .again :: l } a w)
    (hbase : Asked p cfd dfd base) (htwo : TwoReplies l150 l226)
    (wait : Int → World α → Int × World α)
    (hok : ∀ ls ∈ recvs, ls ≠ [] ∧ (crlf ls).length ≤ 256) (hfuel : recvs.length < fuel)
    (howes : a.Owes l150 l226 (recvs.flatten ++ later))
    (hsize : Unsized p l150 ∨ recvs = []) :
    ∃ n, ({ a with replies := n } : Arrival).Owes l150 l226 later ∧
      (Visftp.handleControlLoop wait fuel w).1 = 0 ∧
      Under p rest base past { env with ctlIn := l } { a with replies := n }
        (Visftp.handleControlLoop wait fuel w).2 := by
  induction recvs generalizing fuel a w with
  | nil =>
    obtain ⟨fuel, rfl⟩ : ∃ m, fuel = m + 1 := ⟨fuel - 1, by omega⟩
    obtain ⟨hfst, hrecv⟩ := h.recvCtl 256 hbase
    rw [handleControlLoop_round (h.crecv_eq hbase), hfst]
    exact ⟨a.replies, howes, rfl, hrecv⟩
  | cons ls recvs ih =>
    obtain ⟨fuel, rfl⟩ : ∃ m, fuel = m + 1 := ⟨fuel - 1, by omega⟩
    obtain ⟨hne, hlen⟩ := hok ls List.mem_cons_self
    have hclip : (Recv.data (crlf ls)).clip 256 = .data (crlf ls) := by
      refine if_pos ⟨?_, hlen⟩
      cases ls with
      | nil => exact absurd rfl hne
      | cons l ls => simp [crlf_cons]
    obtain ⟨hfst, hrecv⟩ := h.recvCtl 256 hbase
    have hsize' : Unsized p l150 := hsize.resolve_right (by simp)
    rw [List.flatten_cons, List.append_assoc] at howes
    rw [handleControlLoop_round (h.crecv_eq hbase), hfst, hclip]
    dsimp only
    rw [hrecv.crecv_eq hbase]
    obtain ⟨howes', hscan⟩ := (hrecv.emit (e := .recv (crlf ls)) rfl).scanBytes hbase htwo wait
      false howes (.inl hsize')
    obtain ⟨n, hlater⟩ := ih hscan (fun ls' hls' => hok ls' (List.mem_cons_of_mem ls hls'))
      (by simpa using hfuel) howes' (.inl hsize')
    exact ⟨n, hlater⟩

/-! ### Schedules -/

/-- How far the two streams have come. -/
structure Progress (p : DProc) (l150 l226 total : Bytes) (a : Arrival) (lines : List Bytes)
    (packets : List Recv) : Prop where
  owes : a.Owes l150 l226 lines
  awaits : a.Awaits p total packets
  small : ∀ r, p = .list r → a.got.length ≤ 2 ^ 30

theorem Progress.unfinished {total : Bytes} {lines : List Bytes} {packets : List Recv}
    (h : Progress p l150 l226 total a lines packets) (hleft : lines ≠ [] ∨ packets ≠ []) :
    a.unfinished := by
  rcases hleft with hlines | hpackets
  · obtain ⟨hle, hdrop⟩ := h.owes
    refine .inl (lt_of_le_of_ne hle fun htwo => hlines ?_)
    rw [hdrop, htwo]
    rfl
  · rcases h.awaits with ⟨-, hnil, -⟩ | ⟨heof, -⟩
    · exact absurd hnil hpackets
    · exact .inr heof

/-- The end of both streams. -/
theorem Progress.finished {total : Bytes} (h : Progress p l150 l226 total a [] []) :
    a = ⟨2, total, true⟩ := by
  obtain ⟨hle, hdrop⟩ := h.owes
  have hreplies : a.replies = 2 := by
    have hlen := congrArg List.length hdrop
    simp at hlen
    omega
  rcases h.awaits with ⟨heof, -, hgot⟩ | ⟨-, cs, hcs, -⟩
  · obtain ⟨n, got, eof⟩ := a
    obtain ⟨rfl, rfl, rfl⟩ : n = 2 ∧ got = total ∧ eof = true := ⟨hreplies, hgot, heof⟩
    rfl
  · simp at hcs

theorem ctl_apply (h : Asked p cfd dfd base) : (a.apply p rest base).ftp.ctl = some cfd := by
  rw [← h.ctl]
  cases p <;> rfl

theorem data_apply (h : Asked p cfd dfd base) (heof : a.eof = false) :
    (a.apply p rest base).ftp.data = some dfd := by
  rw [← h.data]
  cases p <;> simp [Arrival.apply, Arrival.onFtp, heof]

/-- **One call**, up to the end of `ftp_handle`. -/
theorem Under.arrive {c : Call α} {total : Bytes} {lines : List Bytes} {packets : List Recv}
    (h : Under p rest base past env a w) (hbase : Asked p cfd dfd base)
    (htwo : TwoReplies l150 l226) (hmem : ∀ r, p = .list r → rest.allocs = []) (hok : c.Ok)
    (hstream : c.queued = [])
    (hprog : Progress p l150 l226 total a (c.replies ++ lines) (c.packets ++ packets))
    (hsize : Unsized p l150 ∨ c.replies = []) :
    ∃ a', Progress p l150 l226 total a' lines packets ∧
      Under p rest base past { rest with dataIn := [] } a' (c.arrive rest w) ∧
      w.step (c.input rest cfd dfd).1 (c.input rest cfd dfd).2 =
        runQueue (ftpWaitresp rest.selects.length) (c.arrive rest w) := by
  cases c with
  | control recvs =>
    obtain ⟨hne, hrecvs⟩ := hok
    have hsize' : Unsized p l150 ∨ recvs = [] := by
      refine .inl (hsize.resolve_right fun hnil => ?_)
      obtain ⟨ls, recvs, rfl⟩ := List.exists_cons_of_ne_nil hne
      exact (hrecvs ls List.mem_cons_self).1 (List.append_eq_nil_iff.mp hnil).1
    have hset := h.setEnv { { rest with dataIn := [] } with
      ctlIn := recvs.map (fun ls => .data (crlf ls)) ++ .again :: rest.ctlIn }
    have hfuel : recvs.length <
        (recvs.map (fun ls => Recv.data (crlf ls)) ++ .again :: rest.ctlIn).length + 1 := by
      simp only [List.length_append, List.length_map, List.length_cons]
      omega
    obtain ⟨n, howes, hzero, hunder⟩ := hset.handleControlLoop hbase htwo
      (ftpWaitresp rest.selects.length) hrecvs hfuel hprog.owes hsize'
    refine ⟨{ a with replies := n }, ⟨howes, hprog.awaits, hprog.small⟩, hunder, ?_⟩
    have hctl : w.ftp.ctl = some cfd := h.ftp_eq ▸ ctl_apply hbase
    unfold World.step Call.input
    dsimp only
    rw [ftpHandleWith, if_pos hctl.symm]
    dsimp only
    rw [if_neg]
    · rfl
    · intro hneg
      exact absurd (hzero.symm.trans hneg) (by decide)
  | data ps =>
    obtain ⟨hne, hlen⟩ := hok
    have heof : a.eof = false := by
      rcases hprog.awaits with ⟨-, hnil, -⟩ | ⟨heof, -⟩
      · exact absurd (List.append_eq_nil_iff.mp hnil).1 hne
      · exact heof
    have hdata : w.ftp.data = some dfd := h.ftp_eq ▸ data_apply hbase heof
    have hctl : w.ftp.ctl = some cfd := h.ftp_eq ▸ ctl_apply hbase
    have hset : Under p rest base past { rest with dataIn := ps } a
        { w with env := { rest with dataIn := ps } } := h.setEnv _
    obtain ⟨a', hreplies, hawaits, hprov, hunder⟩ := hset.handleDataLoop (n := 4) hbase hlen
      ⟨rfl, rfl, fun r hr => ⟨hmem r hr, hprog.small r hr⟩⟩ hprog.awaits
    have harrive : Call.arrive rest (.data ps) w =
        Visftp.handleDataLoop 4 { w with env := { rest with dataIn := ps } } := by
      refine if_neg ?_
      change w.ftp.data ≠ none
      simp [hdata]
    rw [harrive]
    refine ⟨a', ⟨?_, hawaits, fun r hr => (hprov.list r hr).2⟩, hunder, ?_⟩
    · obtain ⟨hle, hdrop⟩ := hprog.owes
      exact ⟨hreplies ▸ hle, hreplies ▸ hdrop⟩
    · rw [← harrive]
      unfold World.step Call.input
      dsimp only
      rw [ftpHandleWith, if_neg, if_pos hdata.symm]
      · rfl
      · rw [hctl, Option.some.injEq]
        exact hbase.ne
  | accept i => simp [Call.queued] at hstream

theorem runQueue_of_pos {v : World α} (h : 0 < v.ftp.busy) : runQueue wait v = v :=
  if_neg (not_le.mpr h)

theorem asked_foldl (h : Asked p cfd dfd base) (is : List (Input α)) :
    Asked p cfd dfd (is.foldl (fun w i => w.withQueued i) base) := by
  induction is generalizing base with
  | nil => exact h
  | cons i is ih => exact ih (asked_withQueued h i)

/-- **Calls in a row**, while something is still to come. -/
theorem Under.run {calls : List (Call α)} {total : Bytes} {lines : List Bytes}
    {packets : List Recv} (h : Under p rest base past env a w) (hbase : Asked p cfd dfd base)
    (htwo : TwoReplies l150 l226) (hmem : ∀ r, p = .list r → rest.allocs = [])
    (hok : ∀ c ∈ calls, c.Ok)
    (hprog : Progress p l150 l226 total a (calls.flatMap Call.replies ++ lines)
      (calls.flatMap Call.packets ++ packets))
    (hleft : lines ≠ [] ∨ packets ≠ [])
    (hsize : Unsized p l150 ∨ calls.flatMap Call.replies = []) :
    ∃ env' a', Progress p l150 l226 total a' lines packets ∧
      Under p rest ((calls.flatMap Call.queued).foldl (fun w i => w.withQueued i) base) past env' a'
        (w.run (calls.map (Call.input rest cfd dfd))) := by
  induction calls generalizing base env a w with
  | nil => exact ⟨env, a, hprog, h⟩
  | cons c calls ih =>
    have hok' := fun c' hc' => hok c' (List.mem_cons_of_mem c hc')
    rw [List.flatMap_cons, List.append_assoc, List.flatMap_cons, List.append_assoc] at hprog
    rw [List.flatMap_cons] at hsize
    have hsize' : Unsized p l150 ∨ calls.flatMap Call.replies = [] :=
      hsize.imp_right fun hnil => (List.append_eq_nil_iff.mp hnil).2
    have hlater : calls.flatMap Call.replies ++ lines ≠ [] ∨
        calls.flatMap Call.packets ++ packets ≠ [] := by
      refine hleft.imp (fun hne hnil => hne ?_) fun hne hnil => hne ?_
      all_goals exact (List.append_eq_nil_iff.mp hnil).2
    rw [List.flatMap_cons, List.foldl_append]
    by_cases hstream : c.queued = []
    · obtain ⟨a', hprog', harrive, hstep⟩ := h.arrive hbase htwo hmem (hok c List.mem_cons_self)
        hstream hprog (hsize.imp_right fun hnil => (List.append_eq_nil_iff.mp hnil).1)
      have hpos := busy_pos harrive hbase (hprog'.unfinished hlater)
      rw [runQueue_of_pos hpos] at hstep
      rw [hstream]
      change ∃ env' a', _ ∧ Under p rest _ past env' a'
        ((w.step (c.input rest cfd dfd).1 (c.input rest cfd dfd).2).run _)
      rw [hstep]
      exact ih harrive hbase hok' hprog' hsize'
    · cases c with
      | control recvs => exact absurd rfl hstream
      | data ps => exact absurd rfl hstream
      | accept i =>
        have haccept := h.accept hbase (hprog.unfinished hlater) (hok _ List.mem_cons_self)
        exact ih haccept (asked_withQueued hbase i) hok' hprog hsize'

end Control

/-! ### The end -/

/-- **A schedule**: calls, the last of them `last`, that bring the two replies, a file or a listing
cut into chunks, and the operations that are queued before everything has come. -/
structure Schedule (l150 l226 bytes : Bytes) (is : List (Input α)) (calls : List (Call α))
    (last : Call α) : Prop where
  replies : (calls ++ [last]).flatMap Call.replies = [l150, l226]
  packets : ∃ cs : List Bytes, (calls ++ [last]).flatMap Call.packets = cs.map .data ++ [.eof] ∧
    (∀ c ∈ cs, IsChunk c) ∧ cs.flatten = bytes
  queued : (calls ++ [last]).flatMap Call.queued = is
  ok : ∀ c ∈ calls ++ [last], c.Ok
  meanwhile : last.queued = []

/-- What is to hold when everything has come, of the client `w'` that was `w` when the command had
been sent. `new` is what has happened since. -/
structure Completed (p : DProc) (rest : Env) (bytes : Bytes) (ops : List Op) (w w' : World α)
    (new : List Event) : Prop where
  log : w'.log = new ++ w.log
  /-- `done` has been called once. -/
  once : ∀ t, p = .xfer t → new.count (.done t) = 1
  /-- The transfer, which `done` frees, has not been read or written after that. -/
  untouched : Always Untouched new
  /-- The bytes of a file. -/
  stored : ∀ t, p = .xfer t → (∀ f, (w.xfers t).fp = some f → w'.files f = w.files f ++ bytes) ∧
    ((w.xfers t).fp = none → (w'.xfers t).mem = (w.xfers t).mem.map (· ++ bytes))
  /-- The bytes of a listing, and its entries. -/
  listed : ∀ r, p = .list r → (w'.rbufs r).buf = bytes ∧
    w'.ftp.dirent = listing rest.heapTail rest.junk bytes
  closed : w'.ftp.data = none
  idle : w'.ftp.busy = 0
  queue : w'.ftp.queue.toList = ops
  /-- No operation has been begun. -/
  waits : ∀ op d v, .exec op d v ∉ new
  replied : ∃ q n buf, .reply 226 q n buf ∈ new
  ended : ∃ n, .dataEof (some p) n ∈ new

/-- **The order does not matter**: whatever the schedule, everything is as it should be when the
last call has handled what it brings, the operation that was queued first is begun then, and the
state after that is the same, up to the history and the log file. -/
def Confluent (p : DProc) (cfd dfd : Fd) (rest : Env) (l150 l226 bytes : Bytes)
    (is : List (Input α)) (w : World α) : Prop :=
  ∃ final : World α, ∀ calls last, Schedule l150 l226 bytes is calls last →
    ∃ w' new, w' = last.arrive rest (w.run (calls.map (Call.input rest cfd dfd))) ∧
      Completed p rest bytes (opsOf w.nxfer is) w w' new ∧
      w.run ((calls ++ [last]).map (Call.input rest cfd dfd)) =
        beginNext (ftpWaitresp rest.selects.length) (opsOf w.nxfer is) w' ∧
      Agree final (w.run ((calls ++ [last]).map (Call.input rest cfd dfd)))

section End

variable {l150 l226 bytes : Bytes} {is : List (Input α)}

theorem queue_foldl (is : List (Input α)) (w : World α) :
    (is.foldl (fun w i => w.withQueued i) w).ftp.queue.toList =
      w.ftp.queue.toList ++ opsOf w.nxfer is := by
  induction is generalizing w with
  | nil => simp [opsOf]
  | cons i is ih =>
    rw [List.foldl_cons, ih]
    cases i with
    | queue op hop => simp [World.withQueued, enqueue, World.mapFtp, World.emit, opsOf]
    | transfer x =>
      simp [World.withQueued, enqueue, World.newXfer, World.mapFtp, World.emit, opsOf]
    | handle s => rfl

/-- Transfers and files that are there already stay as they are. -/
theorem frame_foldl (is : List (Input α)) {w : World α} {n : ℕ} (hn : n < w.nxfer) :
    (is.foldl (fun w i => w.withQueued i) w).xfers n = w.xfers n ∧
      (is.foldl (fun w i => w.withQueued i) w).files n = w.files n := by
  induction is generalizing w with
  | nil => exact ⟨rfl, rfl⟩
  | cons i is ih =>
    rw [List.foldl_cons]
    cases i with
    | queue op hop => exact ih hn
    | transfer x =>
      have hn' : n < (w.withQueued (.transfer x)).nxfer := hn.trans (Nat.lt_succ_self _)
      obtain ⟨hxfers, hfiles⟩ := ih hn'
      rw [hxfers, hfiles]
      exact ⟨Function.update_of_ne hn.ne _ _, Function.update_of_ne hn.ne _ _⟩
    | handle s => exact ih hn

theorem execQueued_eq {wait : Int → World α → Int × World α} {ops : List Op} {w : World α}
    (h : w.ftp.queue.toList = ops) : execQueued wait w = beginNext wait ops w := by
  cases ops with
  | nil =>
    rw [execQueued, LinkedFifo.pop_of_toList_nil h]
    rfl
  | cons op ops =>
    obtain ⟨q, hpop, -⟩ := LinkedFifo.pop_of_toList_cons h
    rw [execQueued, hpop]
    simp [beginNext, World.dequeued, World.mapFtp, hpop]

/-- Everything has come. -/
theorem Under.completed {w w' : World α} (hw : Asked p cfd dfd w) (hq : w.ftp.queue.toList = [])
    (h : Under p rest (is.foldl (fun w i => w.withQueued i) w) w.log env ⟨2, bytes, true⟩ w') :
    ∃ new, Completed p rest bytes (opsOf w.nxfer is) w w' new := by
  have hbase := asked_foldl hw is
  obtain ⟨new, hlog, hnew⟩ := h.since
  have hqueue : w'.ftp.queue.toList = opsOf w.nxfer is := by
    have hsame : (Arrival.apply p rest ⟨2, bytes, true⟩
        (is.foldl (fun w i => w.withQueued i) w)).ftp.queue =
          (is.foldl (fun w i => w.withQueued i) w).ftp.queue := by cases p <;> rfl
    rw [h.ftp_eq, hsame, queue_foldl, hq, List.nil_append]
  refine ⟨new, hlog, fun t ht => hnew.once t ht, hnew.untouched, fun t ht => ?_, fun r hr => ?_, ?_,
    busy_zero h hbase rfl rfl, hqueue, hnew.waits, hnew.replied rfl, hnew.ended rfl⟩
  · subst ht
    obtain ⟨hold, hfile⟩ := hw.old t rfl
    obtain ⟨hxfer, -⟩ := frame_foldl is hold
    constructor
    · intro f hf
      have hfiles : w'.files = _ := (congrArg World.files h.agree).symm
      rw [hfiles]
      simp [World.bare, Arrival.apply, hxfer, hf, (frame_foldl is (hfile f hf)).2]
    · intro hf
      rw [h.agree.xfers_eq]
      simp [Arrival.apply, Arrival.onXfer, hxfer, hf]
  · subst hr
    rw [h.agree.rbufs_eq, h.ftp_eq]
    simp [Arrival.apply]
  · rw [h.ftp_eq]
    cases p <;> simp [Arrival.apply, Arrival.onFtp]

theorem Schedule.ne_nil {calls : List (Call α)} {last : Call α}
    (h : Schedule l150 l226 bytes is calls last) : last.replies ≠ [] ∨ last.packets ≠ [] := by
  have hok := h.ok last (by simp)
  cases last with
  | control recvs =>
    obtain ⟨hne, hrecvs⟩ := hok
    obtain ⟨ls, recvs, rfl⟩ := List.exists_cons_of_ne_nil hne
    exact .inl fun hnil => (hrecvs ls List.mem_cons_self).1 (List.append_eq_nil_iff.mp hnil).1
  | data ps => exact .inr hok.1
  | accept i => exact absurd h.meanwhile (List.cons_ne_nil i [])

/-- **Where a schedule leads.** `total` is what is kept of the data. -/
theorem Schedule.under {calls : List (Call α)} {last : Call α} {w : World α}
    (h : Schedule l150 l226 bytes is calls last) (hw : Asked p cfd dfd w)
    (htwo : TwoReplies l150 l226) (hmem : ∀ r, p = .list r → rest.allocs = [])
    (hsize : Unsized p l150) :
    ∃ cs : List Bytes, cs.flatten = bytes ∧
      Under p rest (is.foldl (fun w i => w.withQueued i) w) w.log { rest with dataIn := [] }
        ⟨2, cs.foldl (keep p) [], true⟩
        (last.arrive rest (w.run (calls.map (Call.input rest cfd dfd)))) ∧
      w.run ((calls ++ [last]).map (Call.input rest cfd dfd)) =
        execQueued (ftpWaitresp rest.selects.length)
          (last.arrive rest (w.run (calls.map (Call.input rest cfd dfd)))) := by
  obtain ⟨cs, hpackets, hchunks, hflat⟩ := h.packets
  have hreplies := h.replies
  have hqueued := h.queued
  rw [List.flatMap_append, List.flatMap_singleton] at hpackets hreplies hqueued
  rw [h.meanwhile, List.append_nil] at hqueued
  have hprog : Progress p l150 l226 (cs.foldl (keep p) []) ⟨0, [], false⟩
      (calls.flatMap Call.replies ++ last.replies) (calls.flatMap Call.packets ++ last.packets) :=
    ⟨⟨Nat.zero_le 2, hreplies⟩, .inr ⟨rfl, cs, hpackets, hchunks, rfl⟩, fun r _ => Nat.zero_le _⟩
  obtain ⟨env', a', hprog', hunder⟩ := (Under.start hw).run hw htwo hmem
    (fun c hc => h.ok c (List.mem_append_left _ hc)) hprog h.ne_nil (.inl hsize)
  rw [hqueued] at hunder
  have hbase := asked_foldl hw is
  rw [← List.append_nil last.replies, ← List.append_nil last.packets] at hprog'
  obtain ⟨a₂, hprog₂, harrive, hstep⟩ := hunder.arrive hbase htwo hmem (h.ok last (by simp))
    h.meanwhile hprog' (.inl hsize)
  rw [hprog₂.finished] at harrive
  refine ⟨cs, hflat, harrive, ?_⟩
  have hzero := busy_zero harrive hbase rfl rfl
  rw [List.map_append, World.run, List.foldl_append]
  change World.step _ _ (w.run _) = _
  rw [hstep, runQueue, if_pos hzero.le]
  dsimp only
  rw [if_pos hzero]
  congr 1
  have hftp : { (last.arrive rest (w.run (calls.map (Call.input rest cfd dfd)))).ftp with
      busy := 0 } = (last.arrive rest (w.run (calls.map (Call.input rest cfd dfd)))).ftp := by
    rw [← hzero]
  rw [World.mapFtp, hftp]

/-- Schedules whose first reply announces no size, of data that is kept. -/
theorem confluent_of_unsized {w : World α} (hw : Asked p cfd dfd w)
    (hq : w.ftp.queue.toList = []) (htwo : TwoReplies l150 l226)
    (hmem : ∀ r, p = .list r → rest.allocs = []) (hsize : Unsized p l150)
    (hkeep : ∀ cs : List Bytes, cs.flatten = bytes → cs.foldl (keep p) [] = bytes)
    (is : List (Input α)) : Confluent p cfd dfd rest l150 l226 bytes is w := by
  refine ⟨execQueued (ftpWaitresp rest.selects.length)
    { Arrival.apply p rest ⟨2, bytes, true⟩ (is.foldl (fun w i => w.withQueued i) w) with
      env := { rest with dataIn := [] } }, fun calls last h => ?_⟩
  obtain ⟨cs, hflat, hunder, hrun⟩ := h.under hw htwo hmem hsize
  rw [hkeep cs hflat] at hunder
  obtain ⟨new, hnew⟩ := hunder.completed hw hq
  refine ⟨_, new, rfl, hnew, hrun.trans (execQueued_eq hnew.queue), ?_⟩
  rw [hrun]
  exact agree_execQueued (blind_ftpWaitresp _) hunder.agree

/-! ### A reply that announces a size -/

/-- The size is written to the transfer. -/
theorem touch_of_sized {t : ℕ} (wait : Int → World α → Int × World α)
    (h : Under (.xfer t) rest base past env a w) (hbase : Asked (.xfer t) cfd dfd base)
    (hcode : respcode (replyText l150) = 150) (hsize : xferTotal (replyText l150) ≠ none) :
    ∃ e, (procControl wait l150 w).log = .touch t :: e :: w.log := by
  obtain ⟨n, hn⟩ := Option.ne_none_iff_exists'.mp hsize
  have hcproc : w.ftp.cproc = some (.xfer t) :=
    (congrArg Ftp.cproc h.ftp_eq).trans (cproc_apply a hbase)
  refine ⟨.reply 150 w.ftp.cproc w.ftp.busy (replyText l150), ?_⟩
  have hmsg : (infomsg (ascii "recv: " ++ replyText l150 ++ ascii "\n") w).ftp.cproc =
      some (.xfer t) := hcproc
  unfold procControl
  dsimp only
  rw [hcode, if_neg (by decide), if_neg (by decide), deliver_of_some hmsg]
  simp [CProc.run, cprocXfer, hn, settle, World.emit, World.mapXfer, World.mapFtp, infomsg,
    World.message]

/-- It is written after the end of the data, too. -/
theorem touch_arrive {t : ℕ} (h : Under (.xfer t) rest base past env a w)
    (hbase : Asked (.xfer t) cfd dfd base) (htwo : TwoReplies l150 l226)
    (hsize : xferTotal (replyText l150) ≠ none) :
    ∃ l, .touch t :: (l ++ w.log) <:+ (Call.arrive rest (.control [[l150]]) w).log := by
  have hset := h.setEnv { { rest with dataIn := [] } with
    ctlIn := .data (crlf [l150]) :: .again :: rest.ctlIn }
  have hclip : (Recv.data (crlf [l150])).clip 256 = .data (crlf [l150]) := by
    refine if_pos ⟨by simp [crlf_cons], ?_⟩
    have := htwo.short.1
    simp [crlf]
    omega
  obtain ⟨hfst, hrecv⟩ := hset.recvCtl 256 hbase
  have hfirst := (hrecv.emit (e := .recv (crlf [l150])) rfl).emit (e := .line (l150 ++ [nul])) rfl
  obtain ⟨e, hlog⟩ := touch_of_sized (ftpWaitresp rest.selects.length) hfirst hbase htwo.code.1
    hsize
  refine ⟨[e, .line (l150 ++ [nul]), .recv (crlf [l150])], ?_⟩
  -- the log up to here is that of the first round of the read loop
  set v := ({ w with env := { { rest with dataIn := [] } with
    ctlIn := .data (crlf [l150]) :: .again :: rest.ctlIn } } : World α) with hv
  have hvlog : (recvCtl 256 v).2.log = w.log := by
    rw [recvCtl]
    split <;> rfl
  have hscan : (scanBytes (ftpWaitresp rest.selects.length) (crlf [l150])
      (recvCtl 256 v).2.ftp.crecv false ((recvCtl 256 v).2.emit (.recv (crlf [l150])))).log =
        .touch t :: ([e, .line (l150 ++ [nul]), .recv (crlf [l150])] ++ w.log) := by
    rw [hrecv.crecv_eq hbase, crlf_cons, scanBytes_line htwo.clean.1]
    change (procControl _ l150 _).log = _
    rw [← crlf_cons, hlog]
    simp [World.emit, hvlog]
  rw [← hscan]
  have hround : Call.arrive rest (.control [[l150]]) w = (handleControlLoop
      (ftpWaitresp rest.selects.length) (rest.ctlIn.length + 2)
      (scanBytes (ftpWaitresp rest.selects.length) (crlf [l150]) (recvCtl 256 v).2.ftp.crecv false
        ((recvCtl 256 v).2.emit (.recv (crlf [l150]))))).2 := by
    change (handleControlLoop _ (rest.ctlIn.length + 2 + 1) v).2 = _
    rw [handleControlLoop_round (hset.crecv_eq hbase), hfst, hclip]
  rw [hround]
  exact (keeps_handleControlLoop _ _).runs.suffix

/-! ### The two operations -/

/-- The data first, and the replies after it. -/
def dataFirst (l150 bytes : Bytes) (is : List (Input α)) : List (Call α) :=
  is.map .accept ++ bytes.map (fun b => .data [.data [b]]) ++ [.data [.eof], .control [[l150]]]

theorem schedule_dataFirst (htwo : TwoReplies l150 l226) (bytes : Bytes)
    (his : ∀ i ∈ is, i.isHandle = false) :
    Schedule l150 l226 bytes is (dataFirst l150 bytes is) (.control [[l226]]) := by
  have hshort : ∀ l : Bytes, l.length + 2 ≤ 256 → (crlf [l]).length ≤ 256 := by
    intro l hl
    simp [crlf]
    omega
  have hnil : ∀ {β γ : Type} (l : List β), l.flatMap (fun _ => ([] : List γ)) = [] := by simp
  have hdata : (bytes.map fun b => (Call.data [.data [b]] : Call α)).flatMap Call.packets =
      (bytes.map fun b => [b]).map .data := by
    rw [List.flatMap_map, List.map_map, List.map_eq_flatMap]
    rfl
  have hqueued : (is.map Call.accept).flatMap Call.queued = is := by
    rw [List.flatMap_map]
    exact List.flatMap_singleton' is
  refine ⟨?_, ⟨bytes.map fun b => [b], ?_, ?_, ?_⟩, ?_, ?_, rfl⟩
  · simp [dataFirst, List.flatMap_map, Call.replies, hnil]
  · simp only [dataFirst, List.flatMap_append, hdata]
    simp [List.flatMap_map, Call.packets, hnil]
  · intro c hc
    obtain ⟨b, -, rfl⟩ := List.mem_map.mp hc
    exact ⟨List.cons_ne_nil b [], Nat.le_of_ble_eq_true rfl⟩
  · rw [← List.flatMap_def]
    exact List.flatMap_singleton' bytes
  · simp only [dataFirst, List.flatMap_append, hqueued]
    simp [List.flatMap_map, Call.queued, hnil]
  · intro c hc
    simp only [dataFirst, List.append_assoc, List.mem_append, List.mem_map, List.mem_cons,
      List.not_mem_nil, or_false] at hc
    rcases hc with ⟨i, hi, rfl⟩ | ⟨b, -, rfl⟩ | (rfl | rfl) | rfl
    · exact his i hi
    · exact ⟨List.cons_ne_nil _ _, Nat.le_of_ble_eq_true rfl⟩
    · exact ⟨List.cons_ne_nil _ _, Nat.le_of_ble_eq_true rfl⟩
    · exact ⟨List.cons_ne_nil _ _, by simpa using hshort l150 htwo.short.1⟩
    · exact ⟨List.cons_ne_nil _ _, by simpa using hshort l226 htwo.short.2⟩

theorem run_append (w : World α) (l l' : List (Env × Input α)) :
    w.run (l ++ l') = (w.run l).run l' := List.foldl_append

theorem suffix_arrive_control (w : World α) (rest : Env) (recvs : List (List Bytes)) :
    w.log <:+ (Call.arrive rest (.control recvs) w).log := by
  have henv : Runs w { w with env := (Call.control recvs : Call α).env rest } := .quiet rfl
  exact (henv.trans (keeps_handleControl _).runs).suffix

theorem suffix_run_control {w : World α} {cfd : Fd} (hctl : w.ftp.ctl = some cfd) (dfd : Fd)
    (rest : Env) (recvs : List (List Bytes)) : (Call.arrive rest (.control recvs) w).log <:+
      (w.run [Call.input rest cfd dfd (.control recvs)]).log := by
  change _ <:+ (ftpHandleWith (ftpWaitresp rest.selects.length) (some cfd)
    { w with env := (Call.control recvs : Call α).env rest }).log
  rw [ftpHandleWith, if_pos hctl.symm]
  dsimp only
  split
  · exact List.suffix_rfl
  · exact (keeps_runQueue (keeps_ftpWaitresp _)).runs.suffix

/-- When a size is announced, a transfer may be written to after it is done. -/
theorem unsized_of_confluent {t : ℕ} {w : World α} (hw : Asked (.xfer t) cfd dfd w)
    (htwo : TwoReplies l150 l226) (his : ∀ i ∈ is, i.isHandle = false)
    (h : Confluent (.xfer t) cfd dfd rest l150 l226 bytes is w) :
    xferTotal (replyText l150) = none := by
  by_contra hsize
  obtain ⟨final, hall⟩ := h
  have hschedule := schedule_dataFirst htwo bytes his
  obtain ⟨w', new, hw', hnew, -⟩ := hall _ _ hschedule
  obtain ⟨cs, hpackets, hchunks, -⟩ := hschedule.packets
  -- the run up to the end of the data
  obtain ⟨front, hcalls⟩ : ∃ front, dataFirst l150 bytes is = front ++ [.control [[l150]]] :=
    ⟨is.map .accept ++ bytes.map (fun b => .data [.data [b]]) ++ [.data [.eof]],
      by simp [dataFirst]⟩
  have hreplies := hschedule.replies
  have hok := hschedule.ok
  rw [hcalls] at hpackets hreplies hok hw'
  have hempty : front.flatMap Call.replies = [] := by
    simp only [List.flatMap_append, List.flatMap_singleton, List.append_assoc] at hreplies
    exact (List.append_left_inj [l150, l226]).mp hreplies
  have hprog : Progress (.xfer t) l150 l226 (cs.foldl (keep (.xfer t)) []) ⟨0, [], false⟩
      (front.flatMap Call.replies ++ [l150, l226]) (front.flatMap Call.packets ++ []) := by
    refine ⟨⟨Nat.zero_le 2, by simp [hempty]⟩, .inr ⟨rfl, cs, ?_, hchunks, rfl⟩, fun r hr => ?_⟩
    · rw [← hpackets]
      simp [List.flatMap_append, Call.packets]
    · cases hr
  have hok' : ∀ c ∈ front, c.Ok := fun c hc => hok c (by simp [hc])
  obtain ⟨env', a', hprog', hunder⟩ := (Under.start hw).run hw htwo (fun r hr => by cases hr) hok'
    hprog (.inl (List.cons_ne_nil _ _)) (.inr hempty)
  · have hbase := asked_foldl hw (front.flatMap Call.queued)
    obtain ⟨new₁, hlog₁, hnew₁⟩ := hunder.since
    have heof : a'.eof = true := by
      rcases hprog'.awaits with ⟨heof, -⟩ | ⟨-, cs', hcs', -⟩
      · exact heof
      · simp at hcs'
    -- the first reply, the rest of its call, and the second reply
    obtain ⟨l, hl⟩ := touch_arrive hunder hbase htwo hsize
    have hctl : (w.run (front.map (Call.input rest cfd dfd))).ftp.ctl = some cfd :=
      hunder.ftp_eq ▸ ctl_apply hbase
    have hstep := suffix_run_control hctl dfd rest [[l150]]
    rw [← run_append] at hstep
    rw [List.map_append] at hw'
    have hlast : (w.run (front.map (Call.input rest cfd dfd) ++
        [Call.input rest cfd dfd (.control [[l150]])])).log <:+ w'.log := by
      rw [hw']
      exact suffix_arrive_control _ rest [[l226]]
    have hchain := (hl.trans hstep).trans hlast
    rw [hlog₁, hnew.log] at hchain
    obtain ⟨pre, hpre⟩ := hchain
    have hsplit : new = pre ++ .touch t :: (l ++ new₁) := by
      refine (List.append_left_inj w.log).mp ?_
      rw [← hpre]
      simp
    have hdone : .done t ∈ new₁ := by
      refine List.count_pos_iff.mp ?_
      rw [hnew₁.once t rfl, heof]
      exact Nat.one_pos
    have hbad := (always_iff.mp hnew.untouched) _ _ _ hsplit
    exact hbad (List.mem_append_right l hdone)

/-- Of a listing, no more than 2^30 bytes are kept. -/
theorem length_le_of_confluent {r : ℕ} {w : World α} (hw : Asked (.list r) cfd dfd w)
    (htwo : TwoReplies l150 l226) (hmem : rest.allocs = []) (his : ∀ i ∈ is, i.isHandle = false)
    (h : Confluent (.list r) cfd dfd rest l150 l226 bytes is w) : bytes.length ≤ 2 ^ 30 := by
  obtain ⟨final, hall⟩ := h
  have hschedule := schedule_dataFirst htwo bytes his
  obtain ⟨w', new, rfl, hnew, -⟩ := hall _ _ hschedule
  obtain ⟨cs, -, hunder, -⟩ := hschedule.under hw htwo (fun _ _ => hmem) (fun t ht => by cases ht)
  obtain ⟨hbuf, -⟩ := hnew.listed r rfl
  rw [hunder.agree.rbufs_eq] at hbuf
  have hkept : ∀ (cs : List Bytes) (got : Bytes), got.length ≤ 2 ^ 30 →
      (cs.foldl (keep (.list r)) got).length ≤ 2 ^ 30 := by
    intro cs
    induction cs with
    | nil => exact fun got hgot => hgot
    | cons c cs ih => exact fun got hgot => ih _ (keep_length_le r c hgot)
  have hlast := hkept cs [] (Nat.zero_le _)
  rw [← hbuf]
  simpa [Arrival.apply] using hlast

theorem foldl_keep_xfer (t : ℕ) (cs : List Bytes) (got : Bytes) :
    cs.foldl (keep (.xfer t)) got = got ++ cs.flatten := by
  induction cs generalizing got with
  | nil => simp
  | cons c cs ih => simp [ih, keep]

theorem foldl_keep_list (r : ℕ) (cs : List Bytes) (got : Bytes)
    (h : (got ++ cs.flatten).length ≤ 2 ^ 30) :
    cs.foldl (keep (.list r)) got = got ++ cs.flatten := by
  induction cs generalizing got with
  | nil => simp
  | cons c cs ih =>
    rw [List.flatten_cons, ← List.append_assoc] at h ⊢
    have hfits : (got ++ c).length ≤ 2 ^ 30 := by
      rw [List.length_append] at h
      omega
    have hkeep : keep (.list r) got c = got ++ c := if_pos hfits
    rw [List.foldl_cons, hkeep, ih _ h]

/-- An idle client with a data connection. -/
structure AtRest (cfd dfd : Fd) (w : World α) : Prop where
  ctl : w.ftp.ctl = some cfd
  data : w.ftp.data = some dfd
  ne : dfd ≠ cfd
  busy : w.ftp.busy = 0
  queue : w.ftp.queue.toList = []
  crecv : w.ftp.crecv = []

theorem AtRest.data_ne_none {w : World α} (h : AtRest cfd dfd w) : w.ftp.data ≠ none := by
  simp [h.data]

theorem sendcmd_of_open {w : World α} (h : w.ftp.ctl ≠ none) (c : Cmd) :
    ∃ m, sendcmd c w = { w with
      ftp := { w.ftp with busy := w.ftp.busy + 1 }
      logfile := m
      log := .sent c :: w.log } := by
  rw [sendcmd, if_neg h]
  dsimp only
  split <;> exact ⟨_, rfl⟩

/-- A file is asked for. -/
theorem AtRest.asked_xfer {w : World α} (h : AtRest cfd dfd w)
    (wait : Int → World α → Int × World α) {t : ℕ} (hretr : (w.xfers t).op = .retr)
    (hold : t < w.nxfer ∧ ∀ f, (w.xfers t).fp = some f → f < w.nxfer) :
    Asked (.xfer t) cfd dfd (execOp wait (.xfer t) w) ∧
      (execOp wait (.xfer t) w).ftp.queue.toList = [] := by
  have hctl : (w.enter (.xfer t)).ftp.ctl ≠ none := by
    change w.ftp.ctl ≠ none
    simp [h.ctl]
  have hd : (w.enter (.xfer t)).ftp.data ≠ none := h.data_ne_none
  obtain ⟨m, hsend⟩ := sendcmd_of_open hctl (.retr t (w.xfers t).rname)
  have hexec : execOp wait (.xfer t) w = (startTransfer t (w.enter (.xfer t))).emit .ret := by
    rw [execOp_of_needsData rfl, prepareData_of_data hd]
    rfl
  have hstart : startTransfer t (w.enter (.xfer t)) =
      (setCproc (.xfer t) (sendcmd (.retr t (w.xfers t).rname) (w.enter (.xfer t)))).mapFtp
        fun f => { f with dproc := some (.xfer t), busy := f.busy + 1 } := if_pos hretr
  have hbusy : w.ftp.busy + 1 + 1 = 2 := by
    rw [h.busy]
    rfl
  rw [hexec, hstart, hsend]
  exact ⟨⟨h.ctl, h.data, h.ne, hbusy, h.crecv, rfl, rfl, fun t' ht' => by cases ht'; exact hretr,
    fun t' ht' => by cases ht'; exact hold, fun r hr => by cases hr⟩, h.queue⟩

theorem malloc_of_succeed {w : World α} (h : AllocsSucceed w.env) :
    (malloc w).1 = true ∧ (malloc w).2.ftp = w.ftp ∧ (malloc w).2.nrbuf = w.nrbuf ∧
      AllocsSucceed (malloc w).2.env := by
  have heq : malloc w = (true, { w with env := { w.env with allocs := w.env.allocs.tail } }) := by
    rw [malloc, allocate, World.ask, h.head]
    rfl
  rw [heq]
  exact ⟨rfl, rfl, rfl, fun b hb => h b (List.mem_of_mem_tail hb)⟩

/-- A listing is asked for. -/
theorem AtRest.asked_list {w : World α} (h : AtRest cfd dfd w)
    (wait : Int → World α → Int × World α) (ha : AllocsSucceed w.env) :
    Asked (.list w.nrbuf) cfd dfd (execOp wait .list w) ∧
      (execOp wait .list w).ftp.queue.toList = [] := by
  have hd : (w.enter .list).ftp.data ≠ none := h.data_ne_none
  have hexec : execOp wait .list w = (startList (w.enter .list)).emit .ret := by
    rw [execOp_of_needsData rfl, prepareData_of_data hd]
    rfl
  have ha₁ : AllocsSucceed (w.enter .list).env := ha
  obtain ⟨htrue, hftp, hnrbuf, ha₂⟩ := malloc_of_succeed ha₁
  obtain ⟨htrue', hftp', hnrbuf', -⟩ := malloc_of_succeed ha₂
  rw [hexec, startList, htrue]
  dsimp only
  rw [htrue']
  generalize (malloc (malloc (w.enter .list)).2).2 = v at hftp' hnrbuf' ⊢
  have hv : v.ftp = w.ftp := hftp'.trans hftp
  have hn : v.nrbuf = w.nrbuf := hnrbuf'.trans hnrbuf
  have hctl : v.ftp.ctl ≠ none := by simp [hv, h.ctl]
  obtain ⟨m, hsend⟩ := sendcmd_of_open (w := { v with
    rbufs := Function.update v.rbufs v.nrbuf ⟨[], 1024⟩
    nrbuf := v.nrbuf + 1 }) hctl (.list v.nrbuf)
  have hbusy : v.ftp.busy + 1 + 1 = 2 := by
    rw [hv, h.busy]
    rfl
  simp only [Bool.not_true, Bool.false_eq_true, if_false]
  rw [hsend, hn]
  refine ⟨⟨hv ▸ h.ctl, hv ▸ h.data, h.ne, hbusy, hv ▸ h.crecv, rfl, rfl,
    fun t ht => (by cases ht), fun t ht => (by cases ht), fun r hr => ?_⟩, hv ▸ h.queue⟩
  cases hr
  exact Function.update_self _ _ _

/-- **When the order does not matter.** A file: exactly when the reply that comes first announces
no size. A listing: exactly when it has at most 2^30 bytes. -/
theorem confluent_iff {w : World α} (h : AtRest cfd dfd w) (wait : Int → World α → Int × World α)
    (htwo : TwoReplies l150 l226) (rest : Env) (bytes : Bytes) (is : List (Input α))
    (his : ∀ i ∈ is, i.isHandle = false) :
    (∀ t, (w.xfers t).op = .retr → t < w.nxfer → (∀ f, (w.xfers t).fp = some f → f < w.nxfer) →
      (Confluent (.xfer t) cfd dfd rest l150 l226 bytes is (execOp wait (.xfer t) w) ↔
        xferTotal (replyText l150) = none)) ∧
    (AllocsSucceed w.env → rest.allocs = [] →
      (Confluent (.list w.nrbuf) cfd dfd rest l150 l226 bytes is (execOp wait .list w) ↔
        bytes.length ≤ 2 ^ 30)) := by
  refine ⟨fun t hretr ht hf => ?_, fun ha hrest => ?_⟩
  · obtain ⟨hasked, hq⟩ := h.asked_xfer wait hretr ⟨ht, hf⟩
    refine ⟨unsized_of_confluent hasked htwo his, fun hsize => ?_⟩
    refine confluent_of_unsized hasked hq htwo (fun r hr => by cases hr) (fun _ _ => hsize) ?_ is
    intro cs hcs
    rw [foldl_keep_xfer, List.nil_append, hcs]
  · obtain ⟨hasked, hq⟩ := h.asked_list wait ha
    refine ⟨length_le_of_confluent hasked htwo hrest his, fun hlen => ?_⟩
    refine confluent_of_unsized hasked hq htwo (fun _ _ => hrest) (fun t ht => by cases ht) ?_ is
    intro cs hcs
    rw [foldl_keep_list _ _ _ (by simpa [hcs] using hlen), List.nil_append, hcs]

end End

/-- A client that is about to fetch a file of two bytes, as the listing has it, in order to show it:
`view_done` of the application shows the first `count` bytes of the buffer. -/
def viewing : World (Option Bytes) :=
  ((World.connected 3 none none none).newXfer
    { op := .retr, rname := ascii "notes", fp := none, mem := some [], total := 2, count := 0
      done := fun x _ => if 0 < x.count then x.mem.map (List.take x.count.toNat) else none }).mapFtp
    fun f => { f with data := some 4 }

theorem atRest_viewing : AtRest 3 4 viewing := ⟨rfl, rfl, by decide, rfl, rfl, rfl⟩

theorem confluent_iff_unsized :
    Confluent (.xfer 0) 3 4 Env.quiet (ascii "150 Opening data connection")
      (ascii "226 Transfer complete") (ascii "hello") []
      (execOp (ftpWaitresp 0) (.xfer 0) viewing) :=
  ((confluent_iff atRest_viewing (ftpWaitresp 0) ⟨by decide, by decide, by decide⟩ Env.quiet
    (ascii "hello") [] (fun i hi => absurd hi List.not_mem_nil)).1 0 rfl (by decide)
      (fun f hf => by cases hf)).mpr (by decide)

/-- The file has grown to five bytes, and the reply says so: before the chunk, or after it. -/
theorem view_depends_on_order :
    ¬∃ final, ∀ calls last, Schedule (ascii "150 Opening data connection (5 bytes)")
        (ascii "226 Transfer complete") (ascii "hello") [] calls last →
      Agree final ((execOp (ftpWaitresp 0) (.xfer 0) viewing).run
        ((calls ++ [last]).map (Call.input Env.quiet 3 4))) := by
  rintro ⟨final, h⟩
  have hearly := h [.control [[ascii "150 Opening data connection (5 bytes)"]],
    .data [.data (ascii "hello"), .eof]] (.control [[ascii "226 Transfer complete"]])
    ⟨rfl, ⟨[ascii "hello"], rfl, by decide, rfl⟩, rfl, by decide, rfl⟩
  have hlate := h [.data [.data (ascii "hello")],
    .control [[ascii "150 Opening data connection (5 bytes)"]], .data [.eof]]
    (.control [[ascii "226 Transfer complete"]])
    ⟨rfl, ⟨[ascii "hello"], rfl, by decide, rfl⟩, rfl, by decide, rfl⟩
  -- all of the file is shown, or two bytes of it
  have happ := congrArg World.app (hearly.symm.trans hlate)
  exact absurd happ (by decide)

end Visftp
