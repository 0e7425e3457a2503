import Visftp.Lib.Buffers
import Visftp.LineAssembly

/-!
# The buffer of the control connection

`handle_control` on the memory of `crecv`: `recv` writes behind the bytes that were kept, the scan
overwrites the line ends and passes pointers into the buffer to `proc_control`, and what is left of
a line is moved to the front. Everything that would be outside the buffer is a fault here, and so is
a `recv` for no bytes, which would look like the end of the connection.

## Main definitions

* `handleControlIn` — `handle_control` with the memory of `crecv`, or `none` for a fault
* `Backed` — the memory has the bytes that were kept, and room for more
* `CtlCall` — what happens between two calls of `handle_control`

## Main results

* `handleControlIn_eq` — there is no fault, and the client does what it does without the memory
* `runCalls_eq` — nor is there one in any sequence of calls
-/

namespace Visftp

open CString Buffers

variable {α : Type}

/-- A pointer to a string, which ends inside the buffer. -/
def stringAt (mem : Bytes) (buf : ℕ) : Option Bytes :=
  if nul ∈ mem.drop buf then some (cstr (mem.drop buf)) else none

section Wait

variable (wait : Int → World α → Int × World α)

/-- The `for` loop of `handle_control`, with `n` bytes to go: `buf`, the memory and the client
behind it. -/
def scanIn (start : ℕ) : ℕ → ℕ → ℕ → Bytes → World α → Option (ℕ × Bytes × World α)
  | 0, _, buf, mem, w => some (buf, mem, w)
  | n + 1, i, buf, mem, w => do
    let c ← load mem (start + i)
    if c = cr then
      let mem ← store mem (start + i) nul
      scanIn start n (i + 1) buf mem w
    else if c = lf then
      let mem ← store mem (start + i) nul
      let line ← stringAt mem buf
      let w := w.emit (.line ((mem.drop buf).take (start + i - buf)))
      scanIn start n (i + 1) (start + i + 1) mem (procControl wait line w)
    else scanIn start n (i + 1) buf mem w

/-- A round of `handle_control` in which `recv` has given the bytes `b`. -/
def roundIn (b mem : Bytes) (w : World α) : Option (Bytes × World α) := do
  let start := w.ftp.crecv.length
  let mem ← write mem start b
  let last := start + b.length
  let (buf, mem, w) ← scanIn wait start b.length 0 0 mem w
  if buf ≠ 0 ∧ buf < last then
    let mem ← move mem 0 buf (last - buf)
    some (mem, w.mapFtp fun f => { f with crecv := mem.take (last - buf) })
  else some (mem, w.mapFtp fun f => { f with crecv := [] })

/-- The read loop of `handle_control`. A full buffer is a fault, too. -/
def handleControlIn : ℕ → Bytes → World α → Option (Bytes × Int × World α)
  | 0, mem, w => some (mem, 0, w)
  | fuel + 1, mem, w =>
    if crecvSize ≤ w.ftp.crecv.length then none
    else
      let r := recvCtl (crecvSize - w.ftp.crecv.length) w
      match r.1 with
      | .intr => handleControlIn fuel mem r.2
      | .again => some (mem, 0, r.2)
      | .eof => some (mem, -1, ftpClose r.2)
      | .data b => do
        let (mem, w) ← roundIn wait b mem (r.2.emit (.recv b))
        handleControlIn fuel mem w

end Wait

/-- **The memory has the bytes that were kept**, and room for more: `num_crecv` is less than the
size of `crecv`. -/
structure Backed (mem : Bytes) (w : World α) : Prop where
  size_eq : mem.length = crecvSize
  room : w.ftp.crecv.length < crecvSize
  kept : w.ftp.crecv <+: mem

variable {w w' : World α} {mem pre : Bytes}

theorem Backed.congr (h : Backed mem w) (hw : w'.ftp.crecv = w.ftp.crecv) : Backed mem w' :=
  ⟨h.size_eq, by rw [hw]; exact h.room, by rw [hw]; exact h.kept⟩

theorem backed_nil (hmem : mem.length = crecvSize) (hw : w.ftp.crecv = []) : Backed mem w :=
  ⟨hmem, by rw [hw]; exact Nat.zero_lt_succ _, by rw [hw]; exact List.nil_prefix⟩

theorem Backed.close (h : Backed mem w) : Backed mem (ftpClose w) := by
  have hcrecv : (ftpClose w).ftp.crecv = if w.view.ctl then [] else w.ftp.crecv :=
    congrArg Session.crecv (view_ftpClose w)
  split at hcrecv
  · exact backed_nil h.size_eq hcrecv
  · exact h.congr hcrecv

/-! ### The scan -/

theorem stringAt_append (cur post : Bytes) :
    stringAt (pre ++ (cur ++ nul :: post)) pre.length = some (cstr cur) := by
  rw [stringAt, List.drop_left, if_pos (by simp), cstr_append_cons]

/-- **The scan stays in the buffer.** It leaves what is behind the last line end, from `buf` on, and
has done what the scan of the bytes alone does. -/
theorem scanIn_append (pre cur bs post : Bytes) (start i : ℕ)
    (hi : pre.length + cur.length = start + i) (w : World α)
    (wait : Int → World α → Int × World α) :
    ∃ buf' pre' cur' w', scanIn wait start bs.length i pre.length (pre ++ (cur ++ (bs ++ post))) w =
        some (buf', pre' ++ (cur' ++ post), w') ∧ pre'.length = buf' ∧
      pre'.length + cur'.length = start + i + bs.length ∧
      scanBytes wait bs cur (decide (pre.length ≠ 0)) w =
        w'.mapFtp fun f => { f with crecv := if buf' ≠ 0 then cur' else [] } := by
  induction bs generalizing pre cur i w with
  | nil =>
    refine ⟨pre.length, pre, cur, w, rfl, rfl, hi, ?_⟩
    rw [scanBytes]
    simp
  | cons b bs ih =>
    have hpos : start + i = (pre ++ cur).length := by rw [List.length_append, hi]
    have hload : load (pre ++ (cur ++ (b :: bs ++ post))) (start + i) = some b := by
      rw [hpos, ← List.append_assoc]
      exact load_append _ _ b
    have hstore : store (pre ++ (cur ++ (b :: bs ++ post))) (start + i) nul =
        some (pre ++ (cur ++ nul :: (bs ++ post))) := by
      rw [hpos, ← List.append_assoc]
      refine (store_append _ _ b nul).trans ?_
      rw [List.append_assoc]
      rfl
    rw [List.length_cons, scanIn, scanBytes, hload]
    simp only [Option.bind_eq_bind, Option.bind_some, hstore]
    split
    · obtain ⟨buf', pre', cur', w', hscan, hbuf, hlen, hw⟩ := ih pre (cur ++ [nul])
        (i + 1) (by rw [List.length_append, List.length_singleton]; omega) w
      refine ⟨buf', pre', cur', w', ?_, hbuf, by omega, hw⟩
      simpa using hscan
    split
    · set w₁ := procControl wait (cstr cur) (w.emit (.line cur))
      have hbuf₁ : start + i + 1 = (pre ++ (cur ++ [nul])).length := by simp; omega
      obtain ⟨buf', pre', cur', w', hscan, hbuf, hlen, hw⟩ := ih (pre ++ (cur ++ [nul]))
        [] (i + 1) (by rw [← hbuf₁]; rfl) w₁
      have hline : ((pre ++ (cur ++ nul :: (bs ++ post))).drop pre.length).take
          (start + i - pre.length) = cur := by
        rw [List.drop_left, ← hi, Nat.add_sub_cancel_left, List.take_left]
      refine ⟨buf', pre', cur', w', ?_, hbuf, by omega, ?_⟩
      · rw [stringAt_append, hline, hbuf₁, Option.bind_some]
        simpa using hscan
      · rw [← hw, ← hbuf₁]
        simp
    · obtain ⟨buf', pre', cur', w', hscan, hbuf, hlen, hw⟩ := ih pre (cur ++ [b])
        (i + 1) (by rw [List.length_append, List.length_singleton]; omega) w
      refine ⟨buf', pre', cur', w', ?_, hbuf, by omega, hw⟩
      simpa using hscan

/-! ### Rounds -/

/-- **A round stays in the buffer**, and the client does what the scan does. -/
theorem roundIn_eq (h : Backed mem w) {b : Bytes} (hb : b.length ≤ crecvSize - w.ftp.crecv.length)
    (wait : Int → World α → Int × World α) :
    ∃ mem', roundIn wait b mem w = some (mem', scanBytes wait b w.ftp.crecv false w) ∧
      Backed mem' (scanBytes wait b w.ftp.crecv false w) := by
  obtain ⟨hsize, hroom, rest, rfl⟩ := h
  rw [List.length_append] at hsize
  -- `recv` writes over the first bytes of the rest
  obtain ⟨old, post, rfl, hold⟩ : ∃ old post, rest = old ++ post ∧ b.length = old.length :=
    ⟨rest.take b.length, rest.drop b.length, (List.take_append_drop _ _).symm,
      by rw [List.length_take]; omega⟩
  have hwrite := write_append w.ftp.crecv post hold
  obtain ⟨buf, pre, cur, w', hscan, rfl, hlen, hw⟩ := scanIn_append [] w.ftp.crecv b post
    w.ftp.crecv.length 0 (by simp) w wait
  rw [List.nil_append, List.length_nil] at hscan
  have hlast : w.ftp.crecv.length + b.length - pre.length = cur.length := by omega
  have hw : scanBytes wait b w.ftp.crecv false w =
    w'.mapFtp fun f => { f with crecv := if pre.length ≠ 0 then cur else [] } := hw
  have hmove := move_append [] post pre cur
  simp only [List.nil_append, List.length_nil, Nat.zero_add] at hmove
  have hsize' : pre.length + (cur.length + post.length) = crecvSize := by
    rw [List.length_append] at hsize
    omega
  rw [hw, roundIn]
  simp only [hwrite, hscan, Option.bind_eq_bind, Option.bind_some]
  split
  · next hkeep =>
    simp only [hlast, hmove, Option.bind_some, List.take_left, if_pos hkeep.1]
    refine ⟨_, rfl, ?_, ?_, List.prefix_append _ _⟩
    · rw [length_of_move hmove, List.length_append, List.length_append, hsize']
    · show cur.length < crecvSize
      omega
  · next hkeep =>
    have hnil : (if pre.length ≠ 0 then cur else []) = [] := by
      split
      · next hpre => exact List.eq_nil_of_length_eq_zero (by omega)
      · rfl
    rw [hnil]
    refine ⟨_, rfl, backed_nil ?_ rfl⟩
    rw [List.length_append, List.length_append, hsize']

/-- **`handle_control` stays in its buffer**, never asks for no bytes and never discards any; and
the client does what it does without the memory. -/
theorem handleControlIn_eq (wait : Int → World α → Int × World α) (fuel : ℕ) (h : Backed mem w) :
    ∃ mem', handleControlIn wait fuel mem w = some (mem', handleControlLoop wait fuel w) ∧
      Backed mem' (handleControlLoop wait fuel w).2 := by
  induction fuel generalizing mem w with
  | zero => exact ⟨mem, rfl, h⟩
  | succ fuel ih =>
    have hroom := not_le.mpr h.room
    rw [handleControlIn, handleControlLoop, if_neg hroom, if_neg hroom]
    dsimp only
    set r := recvCtl (crecvSize - w.ftp.crecv.length) w with hr
    have hask : Backed mem r.2 := h.congr (congrArg Session.crecv (view_recvCtl _ w))
    cases hdata : r.1 with
    | intr => exact ih hask
    | again => exact ⟨mem, rfl, hask⟩
    | eof => exact ⟨mem, rfl, hask.close⟩
    | data b =>
      obtain ⟨-, hb⟩ := recvCtl_spec (hr ▸ hdata) (by simp)
      have hlen := (hb b rfl).2
      have hcrecv : r.2.ftp.crecv = w.ftp.crecv := congrArg Session.crecv (view_recvCtl _ w)
      rw [← hcrecv] at hlen
      have hemit : Backed mem (r.2.emit (.recv b)) := hask.congr rfl
      obtain ⟨mem₁, hround, hback⟩ := roundIn_eq hemit hlen wait
      obtain ⟨mem₂, hloop, hback₂⟩ := ih hback
      refine ⟨mem₂, ?_, hback₂⟩
      simp only [hround, Option.bind_eq_bind, Option.bind_some]
      exact hloop

/-! ### Sequences of calls -/

/-- What happens around the calls of `handle_control`. -/
inductive CtlCall (α : Type)
  /-- `handle_control`. A wait inside it does not call it again. -/
  | handle (wait : Int → World α → Int × World α)
  /-- `ftp_close` -/
  | close
  /-- The end of `ftp_connect`. -/
  | connect (fd : Fd)
  /-- Any other code, of the client or not. It leaves `crecv` alone. -/
  | other (f : World α → World α) (hf : ∀ w, (f w).ftp.crecv = w.ftp.crecv)

/-- What a call does. -/
def CtlCall.run : CtlCall α → World α → World α
  | .handle wait, w => (handleControl wait w).2
  | .close, w => ftpClose w
  | .connect fd, w => w.mapFtp fun f => { f with ctl := some fd, crecv := [] }
  | .other f _, w => f w

/-- What a call does, with the memory of `crecv`. -/
def CtlCall.runIn (mem : Bytes) (w : World α) : CtlCall α → Option (Bytes × World α)
  | .handle wait => do
    let (mem, _, w) ← handleControlIn wait (w.env.ctlIn.length + 1) mem w
    some (mem, w)
  | c => some (mem, c.run w)

/-- The calls of a run, one after the other. -/
def runCallsIn (calls : List (CtlCall α)) (mem : Bytes) (w : World α) : Option (Bytes × World α) :=
  calls.foldlM (fun st c => c.runIn st.1 st.2) (mem, w)

/-- The calls of a run, without the memory. -/
def runCalls (calls : List (CtlCall α)) (w : World α) : World α :=
  calls.foldl (fun w c => c.run w) w

theorem Backed.runIn (h : Backed mem w) (c : CtlCall α) :
    ∃ mem', c.runIn mem w = some (mem', c.run w) ∧ Backed mem' (c.run w) := by
  cases c with
  | handle wait =>
    obtain ⟨mem', hrun, hback⟩ := handleControlIn_eq wait (w.env.ctlIn.length + 1) h
    exact ⟨mem', by rw [CtlCall.runIn, hrun]; rfl, hback⟩
  | close => exact ⟨mem, rfl, h.close⟩
  | connect fd => exact ⟨mem, rfl, backed_nil h.size_eq rfl⟩
  | other f hf => exact ⟨mem, rfl, h.congr (hf w)⟩

theorem Backed.runCallsIn (h : Backed mem w) (calls : List (CtlCall α)) :
    ∃ mem', Visftp.runCallsIn calls mem w = some (mem', runCalls calls w) ∧
      Backed mem' (runCalls calls w) := by
  induction calls generalizing mem w with
  | nil => exact ⟨mem, rfl, h⟩
  | cons c calls ih =>
    obtain ⟨mem₁, hrun, hback⟩ := h.runIn c
    obtain ⟨mem₂, hruns, hback₂⟩ := ih hback
    refine ⟨mem₂, ?_, hback₂⟩
    rw [Visftp.runCallsIn, List.foldlM_cons, hrun]
    exact hruns

/-- **No call of `handle_control` leaves the buffer**, whatever it receives, and whatever happens
before it and inside it: a new connection has received nothing, and from then on there is always
room for more. -/
theorem runCallsIn_eq (calls : List (CtlCall α)) (hmem : mem.length = crecvSize)
    (hw : w.ftp.crecv = []) :
    ∃ mem', runCallsIn calls mem w = some (mem', runCalls calls w) ∧
      Backed mem' (runCalls calls w) :=
  (backed_nil hmem hw).runCallsIn calls

/-- A greeting arrives, with the beginning of another reply. -/
def greetingCalls : List (CtlCall Unit) :=
  [.other (fun w => { w with env := { w.env with ctlIn := [.data (ascii "220 hi\r\n33")] } })
    fun _ => rfl, .handle fun _ w => (0, w)]

theorem runCallsIn_eq_greeting :
    ∃ mem', runCallsIn greetingCalls (List.replicate crecvSize nul)
        (World.connected 3 none none ()) =
        some (mem', runCalls greetingCalls (World.connected 3 none none ())) ∧
      Backed mem' (runCalls greetingCalls (World.connected 3 none none ())) :=
  runCallsIn_eq greetingCalls List.length_replicate rfl

/-- In every state of every run of the client, the memory has what was kept, and there is room for
more. -/
theorem backed_run (ctl : Fd) (user pass : Option Bytes) (app : α)
    (inputs : List (Env × Input α)) :
    ∃ mem, Backed mem ((World.connected ctl user pass app).run inputs) := by
  refine run_induction (I := fun w => ∃ mem, Backed mem w) (fun w w' hback hmove => ?_) rfl
    ⟨List.replicate crecvSize nul, backed_nil List.length_replicate rfl⟩ inputs
  obtain ⟨mem, hback⟩ := hback
  cases hmove with
  | quiet hv => exact ⟨mem, hback.congr (congrArg Session.crecv hv)⟩
  | act ha => exact ⟨mem, hback.congr ha.frame.2⟩
  | discard hfull => exact absurd hfull (not_le.mpr hback.room)
  | scan wait b hctl hb hlen =>
    have hemit : Backed mem (w.emit (.recv b)) := hback.congr rfl
    obtain ⟨mem', -, hback'⟩ := roundIn_eq hemit hlen wait
    exact ⟨mem', hback'⟩
  | hangup hctl => exact ⟨mem, hback.close⟩

end Visftp
