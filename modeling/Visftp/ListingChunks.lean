import Visftp.Listing
import Visftp.Moves

/-!
# Receiving a listing

The data of a listing comes in chunks and goes to a receive buffer, which is doubled when a chunk
does not fit. As it starts at 1024 bytes and a chunk has at most 256, one doubling is always enough.

## Main definitions

* `RecvBuf.Fits` — the invariant of a receive buffer
* `handleDataCalls` — calls of `handle_data`
* `Receiving` — a listing of which a part has come

## Main results

* `fits_handleDataLoop` — every append fits
* `listing_handleDataCalls` — the calls that read a listing
* `listing_run` — the entries of a listing in chunks
-/

namespace Visftp

open CString

/-! ### The receive buffer -/

variable {α : Type} {w : World α} {r : ℕ}

/-- The received bytes fit the allocation. It starts at 1024 bytes, so doubling it makes room for
another 256. Its size is an `int`. -/
structure RecvBuf.Fits (b : RecvBuf) : Prop where
  large : 1024 ≤ b.bufsz
  size : b.buf.length ≤ b.bufsz
  int : b.bufsz < 2 ^ 31

/-- The buffer that `ftp_list` allocates. -/
theorem fits_new : RecvBuf.Fits ⟨[], 1024⟩ := ⟨le_rfl, Nat.zero_le _, by decide⟩

/-- Where the answers to `malloc` and `realloc` are all good. -/
def AllocsSucceed (e : Env) : Prop := ∀ a ∈ e.allocs, a = true

instance (e : Env) : Decidable (AllocsSucceed e) :=
  inferInstanceAs (Decidable (∀ a ∈ e.allocs, a = true))

theorem AllocsSucceed.head {e : Env} (h : AllocsSucceed e) : e.allocs.headD true = true := by
  cases hl : e.allocs with
  | nil => rfl
  | cons a l => exact h a (hl ▸ List.mem_cons_self)

theorem fst_allocate (possible : Bool) (w : World α) :
    (allocate possible w).1 = (w.env.allocs.headD true && possible) := by
  rw [allocate, World.ask]
  dsimp only
  split
  · next h => exact h.symm
  · next h => exact (Bool.eq_false_iff.mpr h).symm

/-- An allocation takes an answer, and may fail. -/
theorem allocate_frame (possible : Bool) (w : World α) :
    (allocate possible w).2.ftp = w.ftp ∧ (allocate possible w).2.rbufs = w.rbufs ∧
      (allocate possible w).2.env.dataIn = w.env.dataIn ∧
      (allocate possible w).2.env.allocs = w.env.allocs.tail := by
  unfold allocate
  dsimp only
  split <;> exact ⟨rfl, rfl, rfl, rfl⟩

/-- Twice a size, as an `int`: itself, or negative. -/
theorem bmod_double {n : ℕ} (h : n < 2 ^ 31) :
    n < 2 ^ 30 ∧ (2 * n : Int).bmod (2 ^ 32) = 2 * n ∨
      2 ^ 30 ≤ n ∧ (2 * n : Int).bmod (2 ^ 32) < 0 := by
  rcases Nat.lt_or_ge n (2 ^ 30) with hn | hn
  · refine .inl ⟨hn, Int.bmod_eq_of_le ?_ ?_⟩ <;> omega
  · refine .inr ⟨hn, ?_⟩
    rw [Int.bmod_def]
    omega

/-- What `dproc_list` makes of received bytes: they are appended, and the allocation grows if it has
to, or they are lost for want of memory. -/
structure Receives (r : ℕ) (b : Bytes) (w w' : World α) : Prop where
  ftp : w'.ftp = w.ftp
  dataIn : w'.env.dataIn = w.env.dataIn
  allocs : w'.env.allocs <:+ w.env.allocs
  outcome : w'.rbufs = w.rbufs ∧
      (w.env.allocs.headD true = false ∨ 2 ^ 30 < (w.rbufs r).buf.length + b.length) ∨
    ∃ n, w'.rbufs = Function.update w.rbufs r ⟨(w.rbufs r).buf ++ b, n⟩ ∧
      RecvBuf.Fits ⟨(w.rbufs r).buf ++ b, n⟩

theorem receives_dprocList {b : Bytes} (hb : b ≠ []) (hlen : b.length ≤ 256)
    (h : (w.rbufs r).Fits) : Receives r b w (dprocList r b w) := by
  have hsuffix : w.env.allocs.tail <:+ w.env.allocs := List.tail_suffix _
  have hsize := h.size
  have hlarge := h.large
  rw [dprocList]
  dsimp only
  rw [if_neg hb]
  split
  · next hlt =>
    have hfst := fst_allocate (decide (0 ≤ (2 * (w.rbufs r).bufsz : Int).bmod (2 ^ 32))) w
    obtain ⟨hftp, hbufs, hdata, hallocs⟩ :=
      allocate_frame (decide (0 ≤ (2 * (w.rbufs r).bufsz : Int).bmod (2 ^ 32))) w
    rw [← hallocs] at hsuffix
    generalize allocate (decide (0 ≤ (2 * (w.rbufs r).bufsz : Int).bmod (2 ^ 32))) w = a at *
    split
    · next hfail =>
      refine ⟨hftp, hdata, hsuffix, .inl ⟨hbufs, ?_⟩⟩
      rw [hfst] at hfail
      rcases bmod_double h.int with ⟨hn, hv⟩ | ⟨hn, hv⟩
      · rw [hv] at hfail
        exact .inl (by simpa using hfail)
      · exact .inr (by omega)
    · next hok =>
      rcases bmod_double h.int with ⟨hn, hv⟩ | ⟨hn, hv⟩
      · have hnat : ((2 * (w.rbufs r).bufsz : Int).bmod (2 ^ 32)).toNat =
            2 * (w.rbufs r).bufsz := by omega
        refine ⟨hftp, hdata, hsuffix, .inr ⟨2 * (w.rbufs r).bufsz, ?_, ?_, ?_, ?_⟩⟩
        · change Function.update a.2.rbufs r _ = _
          rw [hbufs, hnat]
        · exact hlarge.trans (Nat.le_mul_of_pos_left _ two_pos)
        · simp only [List.length_append]
          omega
        · change 2 * (w.rbufs r).bufsz < 2 ^ 31
          omega
      · rw [hfst, decide_eq_false hv.not_ge, Bool.and_false] at hok
        simp at hok
  · next hlt =>
    refine ⟨rfl, rfl, List.suffix_rfl, .inr ⟨_, rfl, hlarge, ?_, h.int⟩⟩
    simp only [List.length_append]
    omega

/-! ### Calls of `handle_data` -/

/-- Calls of `handle_data`, each with what the system has for it. -/
def handleDataCalls (calls : List Env) (w : World α) : World α :=
  calls.foldl (fun w env => handleData { w with env := env }) w

theorem rbufs_dprocXfer (t : ℕ) (b : Bytes) (w : World α) : (dprocXfer t b w).rbufs = w.rbufs := by
  rw [dprocXfer, storeBytes]
  dsimp only
  split
  · split
    · rfl
    · split <;> rfl
  · rfl

theorem rbufs_dprocList_nil (r : ℕ) (w : World α) : (dprocList r [] w).rbufs = w.rbufs := by
  rw [dprocList]
  rfl

theorem rbufs_dprocList_of_ne {r' : ℕ} (hr : r ≠ r') (b : Bytes) (w : World α) :
    (dprocList r' b w).rbufs r = w.rbufs r := by
  rw [dprocList]
  dsimp only
  split
  · rfl
  split
  · have hbufs := (allocate_frame (decide (0 ≤ (2 * (w.rbufs r').bufsz : Int).bmod (2 ^ 32))) w).2.1
    split
    · exact congrFun hbufs r
    · simp only [Function.update_of_ne hr]
      exact congrFun hbufs r
  · simp only [Function.update_of_ne hr]

theorem fits_callDproc {b : Bytes} (hlen : b.length ≤ 256) (h : (w.rbufs r).Fits) :
    ((callDproc b w).rbufs r).Fits := by
  cases hp : w.ftp.dproc with
  | none =>
    rw [callDproc_of_none hp]
    exact h
  | some p =>
    rw [callDproc_of_some hp]
    cases p with
    | xfer t =>
      change ((dprocXfer t b w).rbufs r).Fits
      rw [rbufs_dprocXfer]
      exact h
    | list r' =>
      change ((dprocList r' b w).rbufs r).Fits
      by_cases hr : r = r'
      · subst hr
        by_cases hb : b = []
        · rw [hb, rbufs_dprocList_nil]
          exact h
        · rcases (receives_dprocList hb hlen h).outcome with ⟨hbufs, -⟩ | ⟨n, hbufs, hfits⟩
          · rw [hbufs]
            exact h
          · rw [hbufs, Function.update_self]
            exact hfits
      · rw [rbufs_dprocList_of_ne hr]
        exact h

/-- **Every append fits**, whatever `handle_data` receives, for whom, and with what memory. -/
theorem fits_handleDataLoop (n : ℕ) (h : (w.rbufs r).Fits) :
    ((handleDataLoop n w).rbufs r).Fits := by
  induction n generalizing w with
  | zero => exact h
  | succ n ih =>
    rw [handleDataLoop]
    generalize hr : recvData 256 w = a
    have hbufs : a.2.rbufs = w.rbufs := hr ▸ rfl
    rw [← hbufs] at h
    split
    · exact ih h
    · exact h
    · exact fits_callDproc (w := a.2.emit (.dataEof a.2.ftp.dproc a.2.ftp.busy)) (Nat.zero_le _) h
    · next b hdata =>
      have hlen := (Recv.of_clip_eq_data (hr ▸ hdata)).2
      exact ih (fits_callDproc (w := a.2.emit (.chunk b a.2.ftp.dproc)) hlen h)

theorem fits_handleDataCalls (calls : List Env) (h : (w.rbufs r).Fits) :
    ((handleDataCalls calls w).rbufs r).Fits := by
  induction calls generalizing w with
  | nil => exact h
  | cons env calls ih =>
    refine ih ?_
    dsimp only
    rw [handleData]
    split
    · exact h
    · exact fits_handleDataLoop (w := { w with env := env }) 4 h

/-- A listing is being received, and these bytes of it have come. -/
structure Receiving (r : ℕ) (got : Bytes) (w : World α) : Prop where
  data : w.ftp.data ≠ none
  dproc : w.ftp.dproc = some (.list r)
  buf : (w.rbufs r).buf = got
  fits : (w.rbufs r).Fits

/-- A command leaves the buffers and the data connection alone. -/
theorem sendcmd_frame (c : Cmd) (w : World α) :
    (sendcmd c w).ftp.data = w.ftp.data ∧ (sendcmd c w).rbufs = w.rbufs := by
  rw [sendcmd]
  split
  · exact ⟨rfl, rfl⟩
  · dsimp only
    split <;> exact ⟨rfl, rfl⟩

/-- `ftp_list` asks for a listing, on an open data connection. -/
theorem receiving_startList (hd : w.ftp.data ≠ none) (ha : AllocsSucceed w.env) :
    ∃ r, Receiving r [] (startList w) := by
  obtain ⟨hftp, -, -, hallocs⟩ := allocate_frame true w
  obtain ⟨hftp', -, -, -⟩ := allocate_frame true (malloc w).2
  have ha' : AllocsSucceed (malloc w).2.env := fun a hm =>
    ha a (List.mem_of_mem_tail (hallocs ▸ hm))
  have h₁ : (malloc w).1 = true := (fst_allocate true w).trans (by rw [ha.head, Bool.and_true])
  have h₂ : (malloc (malloc w).2).1 = true :=
    (fst_allocate true (malloc w).2).trans (by rw [ha'.head, Bool.and_true])
  refine ⟨(malloc (malloc w).2).2.nrbuf, ?_⟩
  rw [startList]
  simp only [h₁, h₂, Bool.not_true, Bool.false_eq_true, if_false]
  generalize hw : (malloc (malloc w).2).2 = w₂
  have hdata : w₂.ftp.data ≠ none := by
    rw [← hw]
    change (allocate true (malloc w).2).2.ftp.data ≠ none
    rw [hftp']
    change (allocate true w).2.ftp.data ≠ none
    rw [hftp]
    exact hd
  generalize hnew : ({ w₂ with
    rbufs := Function.update w₂.rbufs w₂.nrbuf ⟨[], 1024⟩
    nrbuf := w₂.nrbuf + 1 } : World α) = w₃
  obtain ⟨hsent, hbufs⟩ := sendcmd_frame (.list w₂.nrbuf) w₃
  have hdata₃ : w₃.ftp.data = w₂.ftp.data := hnew ▸ rfl
  have hbuf : (sendcmd (.list w₂.nrbuf) w₃).rbufs w₂.nrbuf = ⟨[], 1024⟩ := by
    rw [hbufs, ← hnew]
    exact Function.update_self w₂.nrbuf _ w₂.rbufs
  have hfits : ((sendcmd (.list w₂.nrbuf) w₃).rbufs w₂.nrbuf).Fits := by
    rw [hbuf]
    exact fits_new
  exact ⟨fun hf => hdata (hdata₃.symm.trans (hsent.symm.trans hf)), rfl,
    congrArg RecvBuf.buf hbuf, hfits⟩

/-- What `recv` can give for a chunk. -/
def IsChunk (c : Bytes) : Prop := c ≠ [] ∧ c.length ≤ 256

instance (c : Bytes) : Decidable (IsChunk c) := inferInstanceAs (Decidable (_ ∧ _))

theorem clip_of_isChunk {c : Bytes} (hc : IsChunk c) : (Recv.data c).clip 256 = .data c := by
  exact if_pos hc

/-- An answer is taken. -/
theorem recvData_cons {a : Recv} {l : List Recv} (h : w.env.dataIn = a :: l) :
    (recvData 256 w).1 = a.clip 256 ∧
      (recvData 256 w).2 = { w with env := { w.env with dataIn := l } } := by
  rw [recvData, World.ask]
  simp [h]

/-- One chunk. -/
theorem Receiving.chunk {got c : Bytes} (h : Receiving r got w) (hc : IsChunk c)
    (ha : AllocsSucceed w.env) (hsize : (got ++ c).length < 2 ^ 30) :
    Receiving r (got ++ c) (callDproc c w) ∧ AllocsSucceed (callDproc c w).env ∧
      (callDproc c w).env.dataIn = w.env.dataIn := by
  rw [callDproc_of_some h.dproc]
  obtain ⟨hftp, hdata, hallocs, hout⟩ := receives_dprocList hc.1 hc.2 h.fits
  refine ⟨?_, fun a hm => ha a (hallocs.subset hm), hdata⟩
  rcases hout with ⟨-, hfail | hlarge⟩ | ⟨n, hbufs, hfits⟩
  · exact absurd (ha.head.symm.trans hfail) (by decide)
  · rw [h.buf] at hlarge
    rw [List.length_append] at hsize
    omega
  · refine ⟨?_, ?_, ?_, ?_⟩
    · exact hftp ▸ h.data
    · exact hftp ▸ h.dproc
    · change ((dprocList r c w).rbufs r).buf = _
      rw [hbufs, Function.update_self, h.buf]
    · change ((dprocList r c w).rbufs r).Fits
      rw [hbufs, Function.update_self]
      exact hfits

/-- The loop reads chunks. -/
theorem handleDataLoop_chunks {pre rest : List Recv} {n : ℕ} {cs : List Bytes} {got : Bytes}
    (hin : w.env.dataIn = pre ++ rest) (hn : pre.length ≤ n) (hcs : ∀ c ∈ cs, IsChunk c)
    (hpre : pre.filter (· ≠ .intr) = cs.map .data) (h : Receiving r got w)
    (ha : AllocsSucceed w.env) (hsize : (got ++ cs.flatten).length < 2 ^ 30) :
    ∃ w', handleDataLoop n w = handleDataLoop (n - pre.length) w' ∧
      Receiving r (got ++ cs.flatten) w' ∧ AllocsSucceed w'.env ∧ w'.env.dataIn = rest := by
  induction pre generalizing n w cs got with
  | nil =>
    obtain rfl : cs = [] := by simpa using hpre.symm
    exact ⟨w, rfl, by simpa using h, ha, hin⟩
  | cons a pre ih =>
    obtain ⟨n, rfl⟩ : ∃ m, n = m + 1 := ⟨n - 1, by simp at hn; omega⟩
    obtain ⟨hfst, hsnd⟩ := recvData_cons hin
    have hlen : pre.length ≤ n := by simpa using hn
    have hsub : n + 1 - (a :: pre).length = n - pre.length := by simp
    rw [hsub]
    by_cases hintr : a = .intr
    · subst hintr
      have hloop : handleDataLoop (n + 1) w =
          handleDataLoop n { w with env := { w.env with dataIn := pre ++ rest } } := by
        rw [handleDataLoop, hfst, hsnd]
        rfl
      rw [hloop]
      exact ih rfl hlen hcs (by simpa using hpre) ⟨h.data, h.dproc, h.buf, h.fits⟩ ha hsize
    · rw [List.filter_cons_of_pos (by simpa using hintr)] at hpre
      cases cs with
      | nil => simp at hpre
      | cons c cs =>
        rw [List.map_cons, List.cons.injEq] at hpre
        obtain ⟨rfl, hpre⟩ := hpre
        have hc := hcs c List.mem_cons_self
        rw [List.flatten_cons, ← List.append_assoc] at hsize ⊢
        have hloop : handleDataLoop (n + 1) w = handleDataLoop n (callDproc c
            (World.emit (.chunk c w.ftp.dproc)
              { w with env := { w.env with dataIn := pre ++ rest } })) := by
          rw [handleDataLoop, hfst, hsnd, clip_of_isChunk hc]
          rfl
        have hw : Receiving r got (World.emit (.chunk c w.ftp.dproc)
            { w with env := { w.env with dataIn := pre ++ rest } }) :=
          ⟨h.data, h.dproc, h.buf, h.fits⟩
        obtain ⟨hrec, hallocs, hdata⟩ := hw.chunk hc ha (by
          rw [List.length_append] at hsize
          omega)
        rw [hloop]
        exact ih hdata hlen (fun c' hc' => hcs c' (List.mem_cons_of_mem c hc')) hpre hrec hallocs
          hsize

/-- At the end of the data, the entries of the listing are read. -/
theorem handleDataLoop_eof {l : List Recv} {n : ℕ} {got : Bytes} (hin : w.env.dataIn = .eof :: l)
    (h : Receiving r got w) :
    (handleDataLoop (n + 1) w).ftp.data = none ∧
      ∃ tail junk, (handleDataLoop (n + 1) w).ftp.dirent = listing tail junk got := by
  obtain ⟨hfst, hsnd⟩ := recvData_cons hin
  have hloop : handleDataLoop (n + 1) w =
      (callDproc [] (World.emit (.dataEof w.ftp.dproc w.ftp.busy)
        { w with env := { w.env with dataIn := l } })).mapFtp fun f => { f with data := none } := by
    rw [handleDataLoop, hfst, hsnd]
    rfl
  have hp : (World.emit (.dataEof w.ftp.dproc w.ftp.busy)
      { w with env := { w.env with dataIn := l } }).ftp.dproc = some (.list r) := h.dproc
  rw [hloop, callDproc_of_some hp]
  refine ⟨rfl, w.env.heapTail, w.env.junk, ?_⟩
  rw [← h.buf]
  rfl

/-- After the end of the data, nothing is read. -/
theorem handleDataCalls_of_closed (calls : List Env) (h : w.ftp.data = none) :
    (handleDataCalls calls w).ftp = w.ftp := by
  induction calls generalizing w with
  | nil => rfl
  | cons env calls ih =>
    have hcall : handleData { w with env := env } = { w with env := env } := if_pos h
    change (handleDataCalls calls (handleData { w with env := env })).ftp = _
    rw [hcall]
    exact ih h

/-- **The calls** that read a listing, however it is cut. -/
theorem listing_handleDataCalls {calls : List Env} {cs : List Bytes} {got : Bytes}
    (h4 : ∀ env ∈ calls, env.dataIn.length ≤ 4) (ha : ∀ env ∈ calls, AllocsSucceed env)
    (hcs : ∀ c ∈ cs, IsChunk c)
    (hin : (calls.flatMap Env.dataIn).filter (· ≠ .intr) = cs.map .data ++ [.eof])
    (h : Receiving r got w) (hsize : (got ++ cs.flatten).length < 2 ^ 30) :
    ∃ tail junk,
      (handleDataCalls calls w).ftp.dirent = listing tail junk (got ++ cs.flatten) := by
  induction calls generalizing w cs got with
  | nil => simp at hin
  | cons env calls ih =>
    have hlen := h4 env List.mem_cons_self
    have hcall : handleData { w with env := env } = handleDataLoop 4 { w with env := env } :=
      if_neg h.data
    have hstart : Receiving r got { w with env := env } := ⟨h.data, h.dproc, h.buf, h.fits⟩
    change ∃ tail junk,
      (handleDataCalls calls (handleData { w with env := env })).ftp.dirent = listing tail junk _
    rw [hcall]
    rw [List.flatMap_cons, List.filter_append] at hin
    -- either the chunks of this call are read, and the rest later, or the end is among them
    have hcases : (∃ cs₁ cs₂, cs = cs₁ ++ cs₂ ∧ env.dataIn.filter (· ≠ .intr) = cs₁.map .data ∧
          (calls.flatMap Env.dataIn).filter (· ≠ .intr) = cs₂.map .data ++ [.eof]) ∨
        env.dataIn.filter (· ≠ .intr) = cs.map .data ++ [.eof] := by
      rcases List.append_eq_append_iff.mp hin with ⟨l, hl, hl'⟩ | ⟨l, hl, hl'⟩
      · obtain ⟨cs₁, cs₂, rfl, hmap, rfl⟩ := List.map_eq_append_iff.mp hl
        exact .inl ⟨cs₁, cs₂, rfl, hmap.symm, hl'⟩
      · cases l with
        | nil => exact .inl ⟨cs, [], by simp, by simpa using hl, by simpa using hl'.symm⟩
        | cons a l =>
          rw [List.cons_append, List.cons.injEq] at hl'
          obtain ⟨rfl, hnil⟩ := hl'
          obtain rfl : l = [] := (List.append_eq_nil_iff.mp hnil.symm).1
          exact .inr hl
    rcases hcases with ⟨cs₁, cs₂, rfl, hread, hlater⟩ | hread
    · rw [List.flatten_append, ← List.append_assoc] at hsize ⊢
      have hall : ({ w with env := env } : World α).env.dataIn = env.dataIn ++ [] :=
        (List.append_nil _).symm
      obtain ⟨w', hloop, hrec, -, hdone⟩ := handleDataLoop_chunks hall hlen
        (fun c hc => hcs c (List.mem_append_left cs₂ hc)) hread hstart
        (ha env List.mem_cons_self) (by rw [List.length_append] at hsize; omega)
      -- the rest of the call finds nothing more
      have hidle : Receiving r (got ++ cs₁.flatten)
          (handleDataLoop (4 - env.dataIn.length) w') := by
        cases 4 - env.dataIn.length with
        | zero => exact hrec
        | succ n =>
          have hagain : (recvData 256 w').1 = .again := by
            simp [recvData, World.ask, hdone, Recv.clip]
          rw [handleDataLoop, hagain]
          exact ⟨hrec.data, hrec.dproc, hrec.buf, hrec.fits⟩
      rw [hloop]
      exact ih (fun e he => h4 e (List.mem_cons_of_mem env he))
        (fun e he => ha e (List.mem_cons_of_mem env he))
        (fun c hc => hcs c (List.mem_append_right cs₁ hc)) hlater hidle hsize
    · obtain ⟨l₁, l₂, hsplit, hl₁, hl₂⟩ := List.filter_eq_append_iff.mp hread
      obtain ⟨l₃, l₄, rfl, hl₃, -, -⟩ := List.filter_eq_cons_iff.mp hl₂
      have hpre : (l₁ ++ l₃).filter (· ≠ .intr) = cs.map .data := by
        rw [List.filter_append, hl₁, List.filter_eq_nil_iff.mpr hl₃, List.append_nil]
      rw [← List.append_assoc] at hsplit
      have hshort : (l₁ ++ l₃).length < 4 := by
        rw [hsplit, List.length_append, List.length_cons] at hlen
        omega
      have hall : ({ w with env := env } : World α).env.dataIn = (l₁ ++ l₃) ++ .eof :: l₄ := hsplit
      obtain ⟨w', hloop, hrec, -, hdone⟩ := handleDataLoop_chunks hall hshort.le hcs hpre hstart
        (ha env List.mem_cons_self) hsize
      obtain ⟨n, hn⟩ : ∃ n, 4 - (l₁ ++ l₃).length = n + 1 := ⟨3 - (l₁ ++ l₃).length, by omega⟩
      rw [hn] at hloop
      obtain ⟨hclosed, tail, junk, hdirent⟩ := handleDataLoop_eof (n := n) hdone hrec
      refine ⟨tail, junk, ?_⟩
      rw [hloop, handleDataCalls_of_closed calls hclosed, hdirent]

/-- **A listing.** The receive buffer is always large enough, and at the end of the data the entries
are those of the lines that `parse_dirent` accepts, each read on its own: in the order of
`ftp_direntcmp`, one for each line, and the same however the listing is cut. -/
theorem listing_run {w : World α} {r : ℕ} {lines cs : List Bytes} {calls : List Env}
    (hw : Receiving r [] w) (hlines : ∀ l ∈ lines, Clean l) (hsize : (crlf lines).length < 2 ^ 30)
    (hcs : ∀ c ∈ cs, IsChunk c) (hcut : cs.flatten = crlf lines)
    (h4 : ∀ env ∈ calls, env.dataIn.length ≤ 4) (ha : ∀ env ∈ calls, AllocsSucceed env)
    (hin : (calls.flatMap Env.dataIn).filter (· ≠ .intr) = cs.map .data ++ [.eof]) :
    (∀ pre env post, calls = pre ++ env :: post → ∀ k,
      ((handleDataLoop k { handleDataCalls pre w with env := env }).rbufs r).buf.length ≤
        ((handleDataLoop k { handleDataCalls pre w with env := env }).rbufs r).bufsz) ∧
    ((handleDataCalls calls w).ftp.dirent.map Dirent.key).Perm
      ((lines.filterMap parseLine).map Dirent.key) ∧
    (handleDataCalls calls w).ftp.dirent.Pairwise Dirent.Before ∧
    (handleDataCalls calls w).ftp.dirent.map Dirent.key =
      ((lines.filterMap parseLine).insertionSort fun a b => ftpDirentcmp a b ≤ 0).map
        Dirent.key := by
  rw [← hcut] at hsize
  obtain ⟨tail, junk, hdirent⟩ := listing_handleDataCalls h4 ha hcs hin hw
    (by rw [List.nil_append]; exact hsize)
  rw [List.nil_append, hcut] at hdirent
  have hkeys : (parseListing tail junk (crlf lines)).map Dirent.key =
      (lines.filterMap parseLine).map Dirent.key := parseLines_crlf tail hlines le_rfl _
  refine ⟨fun pre env post _ k => ?_, ?_, ?_, ?_⟩
  · exact (fits_handleDataLoop (w := { handleDataCalls pre w with env := env }) k
      (fits_handleDataCalls pre hw.fits)).size
  · rw [hdirent]
    exact perm_listing_crlf tail junk hlines
  · rw [hdirent]
    exact pairwise_listing tail junk (crlf lines)
  · -- the order depends on what is compared only
    have hmap : ∀ l : List Dirent,
        (l.insertionSort fun a b => ftpDirentcmp a b ≤ 0).map Dirent.key =
        (l.map Dirent.key).insertionSort fun a b =>
          (if a.2.1 = b.2.1 then strcmp a.1 b.1 else if a.2.1 = .dir then -1 else 1) ≤ 0 := fun l =>
      List.map_insertionSort _ _ _ _ fun a _ b _ => Iff.rfl
    rw [hdirent, listing, hmap, hmap, hkeys]

/-- A client that has asked for a listing. -/
def askedList : World Unit := startList
  ((World.connected 3 none none ()).mapFtp fun f => { f with data := some 4 })

/-- A file and a directory. -/
def twoLines : List Bytes :=
  [ascii "-rw-r--r-- 1 u g 5 Jan 1 00:00 b", ascii "drwxr-xr-x 2 u g 0 Jan 1 00:00 a"]

/-- The two lines in three chunks. -/
def threeChunks : List Bytes :=
  [ascii "-rw-r--r-- 1 u g 5 Jan 1 00:00 b\r", ascii "\ndrwxr-xr-x 2 u g 0 Jan 1 00:00 ",
    ascii "a\r\n"]

/-- Two calls that read them. -/
def twoCalls : List Env :=
  [{ Env.quiet with dataIn := (threeChunks.take 2).map .data ++ [.intr] },
    { Env.quiet with dataIn := (threeChunks.drop 2).map .data ++ [.eof] }]

theorem listing_run_cut :
    ((handleDataCalls twoCalls askedList).ftp.dirent.map Dirent.key).Perm
      ((twoLines.filterMap parseLine).map Dirent.key) :=
  have hchunks : ∀ c ∈ threeChunks, IsChunk c := by decide
  (listing_run (r := 0) ⟨by decide, rfl, rfl, fits_new⟩ (by decide) (by decide) hchunks
    (by decide) (by decide) (by decide) (by decide)).2.1

end Visftp
