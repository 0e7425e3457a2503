import Visftp.Upkeep

/-!
# After the control connection is closed

`sendcmd` sends nothing when there is no control connection, and the other functions go on as if it
had. Most operations end there. One that needs a data connection goes on to wait for the reply to
the `PASV` that was not sent, with a descriptor of `-1`.

## Main definitions

* `Quiet` — nothing is sent, received or waited for on a closed connection
* `Connected` — no operation begins to wait when it is closed

## Main results

* `quiet_run` — the runs that are quiet
-/

namespace Visftp

open CString Histories

/-- **Nothing happens on a closed connection**: no byte is sent or received once it is closed, and
`ftp_waitresp` does not pass `-1` to `FD_SET`. -/
structure Quiet (log : List Event) : Prop where
  mute : ∀ new e past, log = new ++ e :: past → .hangup ∈ past →
    (∀ c, e ≠ .sent c) ∧ ∀ b, e ≠ .recv b
  select : .badSelect ∉ log

/-- A list or a transfer that has to ask for its data connection with `PASV` is begun only while the
control connection is open. -/
def Connected (past : List Event) : Event → Prop
  | .exec op false true => op.needsData = true → .hangup ∉ past
  | _ => True

instance (past : List Event) (e : Event) : Decidable (Connected past e) := by
  unfold Connected
  split <;> infer_instance

theorem not_stalled {log : List Event} (h : Always Connected log) : ¬Stalled log := by
  rintro ⟨op, past, hop, hlog, hmem⟩
  exact (h.suffix hlog).1 hop hmem

variable {α : Type}

/-- **A closed connection is left alone** in every run in which no operation begins to wait for a
data connection behind its end. -/
theorem quiet_run (ctl : Fd) (user pass : Option Bytes) (app : α) (inputs : List (Env × Input α))
    (h : Always Connected ((World.connected ctl user pass app).run inputs).log) :
    Quiet ((World.connected ctl user pass app).run inputs).log := by
  -- nothing is asked of the strings here
  have hany : ∀ i ∈ inputs, i.2.From ⟨user, pass, fun _ => True, fun _ => True⟩ := by
    intro i _
    unfold Input.From
    split <;> trivial
  obtain ⟨n, hkept⟩ := upkeep_run ⟨user, pass, fun _ => True, fun _ => True⟩ ctl app inputs hany
  refine ⟨fun new e past hlog hmem => ?_, fun hbad => not_stalled h (hkept.stalled hbad)⟩
  have hmute := always_iff.mp hkept.silent new e past hlog
  refine ⟨?_, ?_⟩
  · rintro c rfl
    exact hmute hmem
  · rintro b rfl
    exact hmute hmem

/-- The server closes the control connection, and the user goes on with `op`. -/
def closedRun (op : Op) (h : op.transfer? = none) : World Unit :=
  (World.connected 3 none none ()).run
    [({ Env.quiet with ctlIn := [.eof] }, .handle 3),
      ({ Env.quiet with selects := [.woke true 0] }, .queue op h)]

theorem quiet_run_chdir : Quiet (closedRun (.chdir (ascii "pub")) rfl).log :=
  quiet_run 3 none none () _ (by decide)

/-- A listing waits on the closed connection. -/
theorem not_quiet_list : ¬Quiet (closedRun .list rfl).log :=
  fun h => h.select (by decide)

end Visftp
