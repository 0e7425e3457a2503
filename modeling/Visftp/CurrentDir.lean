import Visftp.Facts

/-!
# What the client knows of its directory

`ftp->curdir` is written by `cproc_pwd` and by nothing else. So it is the directory that the last
readable reply to `PWD` has told, and a property of the history, in which a session does not show
it.

## Main definitions

* `Noted` — `curdir` is that directory

## Main results

* `curdir_run` — whole runs
-/

namespace Visftp

variable {α : Type} {w : World α}

/-- `curdir` is the directory that was told. -/
def Noted (w : World α) : Prop := w.ftp.curdir = told w.log

/-- The two are only assigned together. -/
theorem Facts.Step.noted {f f' : Facts} (h : Facts.Step f f') (hf : f.curdir = f.told) :
    f'.curdir = f'.told := by
  cases h with
  | moved => rfl
  | _ => exact hf

theorem Leads.noted {w₀ : World α} (h : Leads w₀.facts w) (hw : Noted w₀) : Noted w :=
  h.keeps (I := fun f => f.curdir = f.told) (fun _ _ hs hf => hs.noted hf) hw

/-- **What the client knows of its directory**: in every run, `curdir` is the directory that the
last readable reply to `PWD` has told. -/
theorem curdir_run (ctl : Fd) (user pass : Option Bytes) (app : α)
    (inputs : List (Env × Input α)) :
    ((World.connected ctl user pass app).run inputs).ftp.curdir =
      told ((World.connected ctl user pass app).run inputs).log :=
  (leads_run _ inputs).noted rfl

end Visftp
