import Visftp.ReplyEvents

/-!
# Waiting for a reply

`ftp_waitresp` sets `last_resp` to `-1` and calls `ftp_handle` when the control connection becomes
readable. It then takes any value but zero for a reply, and `-1` is one: the first event ends the
wait, whether it completed a reply or not.

## Main definitions

* `firstReady`, `afterFirst`, `Punctual` — the results of `select`
* `Waited` — what the wait is for

## Main results

* `waitLoop_of_not_ready`, `waitLoop_of_ready` — the wait is over after one event
* `waited_iff` — the waits that end as they should
-/

namespace Visftp

open CString Session

variable {α : Type}

/-- Whether the control connection becomes readable before the wait is over. -/
def firstReady : List Sel → Bool
  | [] => false
  | .intr :: s => firstReady s
  | .woke ready _ :: _ => ready

/-- The results of `select` behind the first that is no interruption. -/
def afterFirst : List Sel → List Sel
  | [] => []
  | .intr :: s => afterFirst s
  | .woke _ _ :: s => s

/-- `select` finds nothing readable only when the time is over. -/
def Punctual (t : Int) (s : List Sel) : Prop := ∀ e : ℕ, .woke false e ∈ s → t ≤ e

/-- The client, when only the first `j` results of `select` come. -/
def World.cut (j : ℕ) (w : World α) : World α :=
  { w with env := { w.env with selects := w.env.selects.take j } }

/-- **What the wait is for.** It ends with the first event in which replies are processed, and
returns the code of one of them. When there is none, it returns `-1`, and the connection has been
closed, or it did not become readable before the time was over: the first `select` that was not
interrupted says so. -/
structure Waited (t : Int) (w : World α) : Prop where
  reply : ∀ codes, delivered (ftpWaitresp w.env.selects.length t w).2.log =
      delivered w.log ++ codes → codes ≠ [] →
    0 < (ftpWaitresp w.env.selects.length t w).1 ∧
      (ftpWaitresp w.env.selects.length t w).1 ∈ codes
  /-- Without the last event it looked at, no reply would have been processed. -/
  atOnce : ∀ j, j + (ftpWaitresp w.env.selects.length t w).2.env.selects.length <
      w.env.selects.length →
    delivered (ftpWaitresp (w.cut j).env.selects.length t (w.cut j)).2.log = delivered w.log
  none : delivered (ftpWaitresp w.env.selects.length t w).2.log = delivered w.log →
    (ftpWaitresp w.env.selects.length t w).1 = -1 ∧
      (firstReady w.env.selects = false ∨
        (ftpWaitresp w.env.selects.length t w).2.ftp.ctl = none)

/-- Before the first event there is none. -/
theorem firstReady_take {j : ℕ} {s : List Sel}
    (h : firstReady s = true → j + (afterFirst s).length < s.length) :
    firstReady (s.take j) = false := by
  induction s generalizing j with
  | nil => simp [firstReady]
  | cons sel s ih =>
    cases j with
    | zero => rfl
    | succ j =>
      cases sel with
      | intr =>
        refine ih fun hready => ?_
        have hlt := h hready
        simp only [afterFirst, List.length_cons] at hlt
        omega
      | woke ready e =>
        show ready = false
        by_contra hready
        have hlt := h (Bool.of_not_eq_false hready)
        simp only [afterFirst, List.length_cons] at hlt
        omega

/-! ### The loop -/

/-- The client when the first event of a wait is handled. -/
def World.woken (w : World α) : World α :=
  { w.mapFtp fun f => { f with lastResp := -1 } with
    env := { w.env with selects := afterFirst w.env.selects } }

section Wait

variable {w : World α} {t : Int}

/-- Without an event, the wait ends with the time. -/
theorem waitLoop_of_not_ready (n : ℕ) (ht : 0 < t) (hctl : w.ftp.ctl ≠ none)
    (hsel : Punctual t w.env.selects) (h : firstReady w.env.selects = false) :
    (waitLoop n t w).1 = -1 ∧ (waitLoop n t w).2.log = w.log := by
  induction n generalizing w with
  | zero => exact ⟨rfl, rfl⟩
  | succ n ih =>
    rw [waitLoop, if_neg hctl]
    dsimp only
    cases hs : w.env.selects with
    | nil =>
      simp [World.ask, hs, ht]
    | cons sel s =>
      rw [hs] at hsel h
      cases sel with
      | intr =>
        simp only [World.ask, hs, List.headD_cons, List.tail_cons]
        exact ih (w := { w with env := { w.env with selects := s } }) hctl
          (fun e he => hsel e (List.mem_cons_of_mem _ he)) h
      | woke ready e =>
        obtain rfl : ready = false := h
        have hover : t - (e : Int) ≤ 0 := by
          have := hsel e List.mem_cons_self
          omega
        simp [World.ask, hs, ht, hover]

/-- Before the first event, no reply is processed. -/
theorem delivered_cut {j : ℕ} (ht : 0 < t) (hctl : w.ftp.ctl ≠ none)
    (hsel : Punctual t w.env.selects) (h : firstReady w.env.selects = true →
      j + (afterFirst w.env.selects).length < w.env.selects.length) :
    delivered (ftpWaitresp (w.cut j).env.selects.length t (w.cut j)).2.log =
      delivered w.log := by
  have hcut : Punctual t (w.cut j).env.selects := fun e he => hsel e (List.mem_of_mem_take he)
  obtain ⟨-, hlog⟩ := waitLoop_of_not_ready
    (w := (w.cut j).mapFtp fun f => { f with lastResp := -1 }) (w.cut j).env.selects.length ht hctl
    hcut (firstReady_take h)
  exact congrArg delivered hlog

/-- With one, the wait ends after the first, whatever it was, if that leaves `last_resp` set. -/
theorem waitLoop_of_ready (n : ℕ) (hn : w.env.selects.length ≤ n) (hctl : w.ftp.ctl ≠ none)
    (h : firstReady w.env.selects = true) :
    ∃ wait, (ftpHandleWith wait w.woken.ftp.ctl w.woken).ftp.lastResp ≠ 0 →
      waitLoop n t w = ((ftpHandleWith wait w.woken.ftp.ctl w.woken).ftp.lastResp,
        ftpHandleWith wait w.woken.ftp.ctl w.woken) := by
  induction n generalizing w with
  | zero =>
    rw [List.length_eq_zero_iff.mp (Nat.le_zero.mp hn)] at h
    simp [firstReady] at h
  | succ n ih =>
    rw [waitLoop, if_neg hctl]
    dsimp only
    cases hs : w.env.selects with
    | nil => simp [hs, firstReady] at h
    | cons sel s =>
      rw [hs] at hn h
      cases sel with
      | intr =>
        obtain ⟨wait, hwait⟩ := ih (w := { w with env := { w.env with selects := s } })
          (by simpa using hn) hctl h
        refine ⟨wait, fun hne => ?_⟩
        have hwoken : ({ w with env := { w.env with selects := s } } : World α).woken =
            w.woken := by
          simp [World.woken, World.mapFtp, hs, afterFirst]
        rw [hwoken] at hwait
        simpa only [World.ask, hs, List.headD_cons, List.tail_cons] using hwait hne
      | woke ready e =>
        obtain rfl : ready = true := h
        have hwoken : ({ w with env := { w.env with selects := s } } : World α).mapFtp
            (fun f => { f with lastResp := -1 }) = w.woken := by
          simp [World.woken, World.mapFtp, hs, afterFirst]
        refine ⟨fun t w => waitLoop n t (w.mapFtp fun f => { f with lastResp := -1 }),
          fun hne => ?_⟩
        simp only [World.ask, hs, List.headD_cons, List.tail_cons, if_true, hwoken]
        exact if_pos ⟨trivial, hne⟩

/-- A wait that ends as it should, with an event, has been answered. -/
theorem answers_of_waited (h : Waited t w) (hctl : w.ftp.ctl ≠ none) (hb : 0 < w.ftp.busy)
    (hready : firstReady w.env.selects = true) : answers w.ftp.crecv w.env.ctlIn = true := by
  by_contra hno
  rw [Bool.not_eq_true] at hno
  obtain ⟨wait, hwait⟩ := waitLoop_of_ready (t := t)
    (w := w.mapFtp fun f => { f with lastResp := -1 }) w.env.selects.length le_rfl hctl hready
  have hrest : Unanswered w.woken (ftpHandleWith wait w.woken.ftp.ctl w.woken) :=
    unanswered_ftpHandleWith wait hctl hb hno
  have hlast : (ftpHandleWith wait w.woken.ftp.ctl w.woken).ftp.lastResp = -1 := hrest.lastResp_eq
  have hend : (ftpWaitresp w.env.selects.length t w).2 =
      ftpHandleWith wait w.woken.ftp.ctl w.woken := congrArg Prod.snd (hwait (by
        change (ftpHandleWith wait w.woken.ftp.ctl w.woken).ftp.lastResp ≠ 0
        omega))
  rcases (h.none (by rw [hend]; exact hrest.delivered_eq)).2 with hearly | hclosed
  · simp [hready] at hearly
  · rw [hend, hrest.ctl_eq] at hclosed
    exact hctl hclosed

/-- **A wait for a reply.** As `prepare_data` begins it, with `PASV` sent and its reply outstanding,
the wait ends as it should if and only if the first event before the time is over completes a reply
or ends the connection. -/
theorem waited_iff (ht : 0 < t) (hctl : w.ftp.ctl ≠ none) (hp : w.ftp.cproc = some .pasv)
    (hb : 0 < w.ftp.busy) (hsel : Punctual t w.env.selects) :
    Waited t w ↔
      (firstReady w.env.selects = true → answers w.ftp.crecv w.env.ctlIn = true) := by
  refine ⟨fun h => answers_of_waited h hctl hb, fun h => ?_⟩
  cases hready : firstReady w.env.selects with
  | false =>
    obtain ⟨hresult, hlog⟩ := waitLoop_of_not_ready (t := t)
      (w := w.mapFtp fun f => { f with lastResp := -1 }) w.env.selects.length ht hctl hsel hready
    have hlog' : (ftpWaitresp w.env.selects.length t w).2.log = w.log := hlog
    refine ⟨?_, ?_, fun _ => ⟨hresult, .inl hready⟩⟩
    · intro codes hcodes hne
      rw [hlog'] at hcodes
      exact absurd (List.append_right_eq_self.mp hcodes.symm) hne
    · intro j _
      exact delivered_cut ht hctl hsel fun htrue => by simp [hready] at htrue
  | true =>
    obtain ⟨wait, hwait⟩ := waitLoop_of_ready (t := t)
      (w := w.mapFtp fun f => { f with lastResp := -1 }) w.env.selects.length le_rfl hctl hready
    have hend : (ftpHandleWith wait w.woken.ftp.ctl w.woken).ftp.lastResp ≠ 0 →
        ftpWaitresp w.env.selects.length t w =
          ((ftpHandleWith wait w.woken.ftp.ctl w.woken).ftp.lastResp,
            ftpHandleWith wait w.woken.ftp.ctl w.woken) := hwait
    have hbase : delivered w.woken.log = delivered w.log := rfl
    rcases answered_ftpHandleWith wait (w := w.woken) hctl hp (h hready) with hans | hhung
    · have hpos := hans.pos
      obtain ⟨codes, hnew, hmem⟩ := hans.exists_codes
      rw [hbase] at hnew
      have hres := hend (by omega)
      refine ⟨?_, ?_, ?_⟩
      · intro codes' hcodes' _
        rw [hres, hnew] at hcodes'
        obtain rfl : codes = codes' := List.append_cancel_left hcodes'
        rw [hres]
        exact ⟨hpos, hmem⟩
      · intro j hj
        rw [hres, hans.selects_eq] at hj
        exact delivered_cut ht hctl hsel fun _ => hj
      · intro hsame
        rw [hres, hnew] at hsame
        have hnil : codes = [] := List.append_right_eq_self.mp hsame
        simp [hnil] at hmem
    · have hlast : (ftpHandleWith wait w.woken.ftp.ctl w.woken).ftp.lastResp = -1 :=
        congrArg Prod.fst hhung.mark_eq
      have hselects : (ftpHandleWith wait w.woken.ftp.ctl w.woken).env.selects =
          afterFirst w.env.selects := congrArg Prod.snd hhung.mark_eq
      have hres := hend (by omega)
      refine ⟨?_, ?_, ?_⟩
      · intro codes hcodes hne
        rw [hres, hhung.delivered_eq, hbase] at hcodes
        exact absurd (List.append_right_eq_self.mp hcodes.symm) hne
      · intro j hj
        rw [hres, hselects] at hj
        exact delivered_cut ht hctl hsel fun _ => hj
      · intro _
        rw [hres]
        exact ⟨hlast, .inr hhung.ctl_eq⟩

/-- What `prepare_data` waits with: `exec_op` is called when nothing is outstanding. -/
theorem asked_ftpPassive (hctl : w.ftp.ctl ≠ none) (hb : 0 ≤ w.ftp.busy) :
    (ftpPassive w).ftp.ctl ≠ none ∧ (ftpPassive w).ftp.cproc = some .pasv ∧
      0 < (ftpPassive w).ftp.busy := by
  have hview := view_ftpPassive w
  have hopen : w.view.ctl = true := view_ctl_of_ne_none hctl
  have hctl' : (ftpPassive w).view.ctl = true := by
    rw [hview]
    exact hopen
  have hbusy : (ftpPassive w).view.busy = w.view.busy + 1 := by
    rw [hview]
    exact if_pos hopen
  refine ⟨Option.isSome_iff_ne_none.mp hctl', congrArg Session.cproc hview, ?_⟩
  change 0 < (ftpPassive w).view.busy
  rw [hbusy]
  exact Int.lt_add_one_of_le hb

end Wait

/-- A client that is about to send `PASV`, and the server's answer as it arrives. -/
def answering (first : Bytes) : World Unit :=
  { World.connected 3 none none () with
    env := { Env.quiet with ctlIn := [.data first], selects := [.woke true 1] } }

theorem waited_refusal : Waited 15 (ftpPassive (answering (ascii "502 No\r\n"))) := by
  obtain ⟨hctl, hp, hb⟩ := asked_ftpPassive (w := answering (ascii "502 No\r\n")) (by decide)
    (by decide)
  refine (waited_iff (by decide) hctl hp hb fun e he => ?_).mpr (by decide)
  have hsel : (ftpPassive (answering (ascii "502 No\r\n"))).env.selects = [.woke true 1] := rfl
  simp [hsel] at he

/-- The first line of a reply ends the wait for the last one. -/
theorem not_waited_continuation :
    ¬Waited 15 (ftpPassive (answering (ascii "227-Entering\r\n"))) := by
  intro h
  rcases (h.none (by decide)).2 with hearly | hclosed
  · exact absurd hearly (by decide)
  · exact absurd hclosed (by decide)

end Visftp
