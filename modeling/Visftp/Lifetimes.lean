import Visftp.Completion
import Visftp.Dialogue
import Visftp.Redrawing

/-!
# The transfer on the screen

`updateui` reads the transfer that `cur_xfer` points to. The callbacks of transfers release them,
and a callback may be called for any of them, in any order, by the steps of the client. Yet what
`cur_xfer` points to has not been released: it is the transfer that was made last, it has been set
to null by every callback since, and no callback is called for a transfer that has not been made.

The last of these is a fact about the client. To use it, the runs of the main loop are shown to be
runs of sessions (`Ui.steps_run`): what the program does between two calls into the client is
nothing to a session.

## Main results

* `session_run` — a run of the main loop is a run of a session
* `curXfer_run` — `cur_xfer` never points to a transfer that has been released
-/

namespace Visftp

open CString Relation Session

/-! ### Transfers of which the callback was called -/

namespace Session

variable {s s' : Session} {op : Op}

@[simp] theorem njob_simple (op : Op) (s : Session) : (s.simple op).njob = s.njob := by
  cases op with
  | type arg =>
    unfold simple
    dsimp only
    split <;> rfl
  | _ => rfl

@[simp] theorem njob_active (r : Option (ℕ × ℕ)) (s : Session) : (s.active r).njob = s.njob := by
  rcases r with - | ⟨a, p⟩ <;> rfl

theorem Start.njob_eq (h : Start op s s') : s'.njob = s.njob := by
  cases h with
  | none | noBuffer | list => rfl
  | transfer =>
    rw [startTransfer]
    split <;> rfl

theorem Exec.njob_eq (h : Exec op s s') : s'.njob = s.njob := by
  cases h with
  | simple => exact njob_simple op (s.enter op)
  | atOnce _ _ hs => exact hs.njob_eq
  | noData r => exact njob_active r (s.enter op)
  | wait => rfl

theorem Queue.njob_eq (h : Queue op s s') : s'.njob = s.njob := by
  cases h with
  | direct => exact njob_simple op _
  | append | full => rfl

theorem Reply.njob_eq {code : Int} {buf : Bytes} (h : Reply code buf s s') :
    s'.njob = s.njob := by
  cases h with
  | pasvFall r => exact njob_active r _
  | cwdOk _ _ h₁ h₂ => exact h₂.njob_eq.trans h₁.njob_eq
  | loginDone _ _ h₁ h₂ h₃ => exact h₃.njob_eq.trans (h₂.njob_eq.trans h₁.njob_eq)
  | _ => rfl

theorem DataEof.njob_eq (h : DataEof s s') : s'.njob = s.njob := by
  cases h with
  | xfer => simp only [finish, emit, closeFile, setJob]
  | _ => rfl

/-- Transfers are made and not unmade. -/
theorem Act.njob_le (h : Act s s') : s.njob ≤ s'.njob := by
  cases h with
  | next _ _ hx => exact hx.njob_eq.ge
  | resume _ hs => exact hs.njob_eq.ge
  | direct _ _ _ _ hx => exact hx.njob_eq.ge
  | newJob | handOver => exact Nat.le_succ _
  | handOverDirect _ _ _ _ hx => exact (Nat.le_succ _).trans hx.njob_eq.ge
  | chunk _ _ _ hc => cases hc <;> exact le_rfl
  | dataEof _ _ he => exact he.njob_eq.ge
  | _ => exact le_rfl

theorem Step.njob_le (h : Step s s') : s.njob ≤ s'.njob := by
  cases h with
  | reply _ _ _ _ hr => exact hr.njob_eq.ge
  | act ha => exact ha.njob_le
  | _ => exact le_rfl

/-- **Callbacks are called for transfers that have been made.** -/
def Called (s : Session) : Prop := ∀ t, .done t ∈ s.log → t < s.njob

/-- A transfer that something met completes has been made. -/
theorem Known.lt_of_ends (h : Known s) {e : Event} (he : s.Trigger e) {t : ℕ}
    (ht : e.ends = some t) : t < s.njob := by
  cases e with
  | dataEof p busy =>
    obtain ⟨-, -, rfl, -⟩ := he
    cases hp : s.dproc with
    | none => simp [hp, Event.ends] at ht
    | some p =>
      cases p with
      | list r => simp [hp, Event.ends] at ht
      | xfer u =>
        obtain rfl : u = t := by simpa [hp, Event.ends] using ht
        exact (h.dproc u hp).1
  | reply code p busy buf =>
    obtain ⟨-, rfl, -⟩ := he
    cases hp : s.cproc with
    | none => simp [hp, Event.ends] at ht
    | some p =>
      cases p with
      | xfer u =>
        obtain ⟨-, rfl⟩ : 400 ≤ code ∧ u = t := by simpa [hp, Event.ends] using ht
        exact (h.cproc u hp).1
      | _ => simp [hp, Event.ends] at ht
  | _ => simp [Event.ends] at ht

/-- **One step.** -/
theorem Step.called (hstep : Step s s') (hk : Known s) (h : Called s) : Called s' := by
  have hle := hstep.njob_le
  have hextends : ∀ {s₀}, Extends s₀ s' → ∀ t, .done t ∈ s'.log → .done t ∈ s₀.log := by
    rintro s₀ ⟨new, hlog, hnew⟩ t ht
    rw [hlog] at ht
    exact (List.mem_append.mp ht).resolve_left fun hmem => by cases hnew _ hmem
  intro t ht
  rcases hstep.extends with hx | ⟨e, he, hx⟩
  · exact (h t (hextends hx t ht)).trans_le hle
  · have hmeet := hextends hx t ht
    rw [meet] at hmeet
    dsimp only at hmeet
    rw [hk.response_eq he, List.mem_append, List.mem_cons, done_mem_settles] at hmeet
    rcases hmeet with hends | rfl | hold
    · exact (hk.lt_of_ends he hends).trans_le hle
    · exact he.elim
    · exact (h t hold).trans_le hle

end Session

/-! ### The main loop and the session -/

/-- The session of a client, and what it logs in with. -/
def World.account {α : Type} (w : World α) : Session × Option Bytes × Option Bytes :=
  (w.view, w.ftp.user, w.ftp.pass)

namespace Ui

variable {s s' : Ui}

/-- The deeds of the main loop are steps of the session, or nothing to it. -/
theorem Deeds.steps {i : UiInput} (h : Deeds i s s') (hs : stack s.world.log = []) :
    ReflTransGen Step s.world.view s'.world.view ∧ stack s'.world.log = [] := by
  induction h with
  | refl => exact ⟨.refl, hs⟩
  | @tail s₁ s₂ _ hdeed ih =>
    have hcall : ∀ env i, ReflTransGen Step s.world.view (s₁.world.step env i).view ∧
        stack (s₁.world.step env i).log = [] := fun env i =>
      ⟨ih.1.trans (steps_run ih.2 [(env, i)]), stack_run ih.2 [(env, i)]⟩
    cases hdeed with
    | beside hw _ _ =>
      rw [hw]
      exact ih
    | ask | move | screen | scroll => exact ih
    | queue | download | view | handle => exact hcall _ _

/-- The last step of a round is nothing to the session. -/
theorem account_updateui (s : Ui) : s.updateui.world.account = s.world.account := by
  have htitle : s.updateTitle.world.account = s.world.account := by
    rw [updateTitle]
    split
    · split <;> rfl
    · rfl
  have hremote : ∀ s : Ui, s.updateRemote.world.account = s.world.account := fun s => by
    rw [updateRemote]
    split <;> rfl
  have hlocal : ∀ s : Ui, s.updateLocal.world.account = s.world.account := fun s => by
    rw [updateLocal]
    split <;> rfl
  rw [updateui, hlocal, hremote, htitle]

/-- Nor is a local file that is viewed. -/
theorem account_actView_local (hf : s.focus = .localdir) :
    s.actView.world.account = s.world.account := by
  rw [actView]
  split
  · rfl
  split
  · next hremote => exact absurd (hf.symm.trans hremote) (by decide)
  · dsimp only
    split <;> rfl

/-- A step is a sequence of deeds, or nothing to the session. -/
theorem deeds_or_account (s : Ui) (i : UiInput) :
    Deeds i s (s.step i) ∨ (s.step i).world.account = s.world.account := by
  by_cases hrun : s.running = true
  swap
  · exact .inr (by rw [step.eq_def, if_neg hrun])
  by_cases hupdate : i = .update
  · subst hupdate
    refine .inr ?_
    rw [step.eq_def, if_pos hrun]
    dsimp only
    split
    · rfl
    · exact account_updateui s
  by_cases hspecial : i.Special s
  swap
  · exact .inl (deeds_step i hupdate hspecial)
  refine .inr ?_
  cases i with
  | key env k =>
    obtain ⟨hclosed, rfl | ⟨rfl, hf⟩⟩ := hspecial
    · rw [(step_tab hrun hclosed env).2.2]
      rfl
    · rw [step.eq_def, if_pos hrun]
      dsimp only
      rw [keypress.eq_def, if_neg (by rw [hclosed]; exact Bool.false_ne_true)]
      exact account_actView_local (s := { s with world := { s.world with env := env } }) hf
  | handle | goto | update => exact hspecial.elim

/-- **A step of the main loop** is a run of the session. -/
theorem steps_step (i : UiInput) (hs : stack s.world.log = []) :
    ReflTransGen Step s.world.view (s.step i).world.view ∧ stack (s.step i).world.log = [] := by
  rcases deeds_or_account s i with hdeeds | haccount
  · exact hdeeds.steps hs
  · have hview : (s.step i).world.view = s.world.view := congrArg Prod.fst haccount
    refine ⟨hview ▸ .refl, ?_⟩
    show stack (s.step i).world.view.log = []
    rw [hview]
    exact hs

/-- **A run of the main loop** is a run of the session. -/
theorem steps_run (inputs : List UiInput) (hs : stack s.world.log = []) :
    ReflTransGen Step s.world.view (s.run inputs).world.view ∧
      stack (s.run inputs).world.log = [] := by
  induction inputs using List.reverseRecOn with
  | nil => exact ⟨.refl, hs⟩
  | append_singleton past i ih =>
    rw [run_append_singleton]
    have hstep := steps_step i ih.2
    exact ⟨ih.1.trans hstep.1, hstep.2⟩

end Ui

/-- **The program is a session**: in every run of the main loop, with its keys, its callbacks and
whatever it does between its calls into the client, the client goes through steps of the session
only, and no operation is under way between two steps of the loop. -/
theorem session_run (ctl : Fd) (user pass : Option Bytes) (short : Bool) (screen : Screen)
    (fopens : List (Option Bytes)) (reads : List FileRead) (inputs : List UiInput) :
    ReflTransGen Step (World.connected ctl user pass screen).view
        ((Ui.start ctl user pass short screen fopens reads).run inputs).world.view ∧
      stack ((Ui.start ctl user pass short screen fopens reads).run inputs).world.log = [] :=
  Ui.steps_run (s := Ui.start ctl user pass short screen fopens reads) inputs rfl

/-! ### The last transfer -/

theorem lastXfer_append (new old : List Event) (x : Option ℕ) :
    lastXfer (new ++ old) x = lastXfer new (lastXfer old x) := by
  induction new with
  | nil => rfl
  | cons e new ih => cases e <;> first | rfl | exact ih

/-- **The last transfer is held**: it has been made, and it has not been released. -/
def Held (w : World Screen) : Prop :=
  ∀ t, lastXfer (calls w.log) none = some t → t < w.nxfer ∧ .done t ∉ w.log

namespace Held

variable {w w' : World Screen}

theorem mem_calls {log : List Event} {t : ℕ} : Event.done t ∈ calls log ↔ .done t ∈ log := by
  rw [calls, List.mem_filter]
  exact and_iff_left rfl

theorem congr (h : Held w) (hn : w'.nxfer = w.nxfer) (hc : calls w'.log = calls w.log) :
    Held w' := by
  intro t ht
  rw [hc] at ht
  rw [hn, ← mem_calls, hc, mem_calls]
  exact h t ht

theorem nxfer_eq (h : Talks w w') : w'.nxfer = w.nxfer := by
  induction h with
  | refl => rfl
  | tail _ hstep ih =>
    cases hstep with
    | quiet _ hn _ _ => exact hn.trans ih
    | write | call => exact ih

/-- The client calls back, or does nothing to it. -/
theorem talks (h : Held w) (ht : Talks w w') : Held w' := by
  obtain ⟨cs, hcalls, -, -⟩ := ht.app_eq
  rcases cs.eq_nil_or_concat' with rfl | ⟨cs, c, rfl⟩
  · exact h.congr (nxfer_eq ht) hcalls
  · intro t hlast
    rw [hcalls, lastXfer_append] at hlast
    simp [lastXfer] at hlast

/-- A new transfer is held, since no callback was called for it. -/
theorem newXfer (hcalled : Called w.view) (x : Xfer Screen) : Held (w.newXfer x) := by
  intro t ht
  obtain rfl : w.nxfer = t := Option.some.inj ht
  refine ⟨Nat.lt_succ_self _, fun hmem => ?_⟩
  have hold : .done w.nxfer ∈ w.log := (List.mem_cons.mp hmem).resolve_left Event.noConfusion
  exact lt_irrefl _ (hcalled _ hold)

end Held

/-- **What holds of the client between two steps of the main loop.** -/
structure Sane (w : World Screen) : Prop where
  stack_eq : stack w.log = []
  known : Known w.view
  called : Called w.view
  held : Held w

namespace Sane

variable {s s' : Ui}

theorem known_called {v v' : Session} (h : ReflTransGen Step v v') (hk : Known v)
    (hc : Called v) : Known v' ∧ Called v' := by
  induction h with
  | refl => exact ⟨hk, hc⟩
  | tail _ hstep ih => exact ⟨hstep.known ih.1, hstep.called ih.1 ih.2⟩

/-- A step, where the last transfer is still held. -/
theorem of_steps {w w' : World Screen} (h : Sane w) (hsteps : ReflTransGen Step w.view w'.view)
    (hstack : stack w'.log = []) (hheld : Held w') : Sane w' :=
  have hkc := known_called hsteps h.known h.called
  ⟨hstack, hkc.1, hkc.2, hheld⟩

theorem deeds {i : UiInput} (h : Sane s.world) (hd : Ui.Deeds i s s') :
    Sane s'.world := by
  induction hd with
  | refl => exact h
  | @tail s₁ s₂ _ hdeed ih =>
    obtain ⟨hsteps, hstack⟩ := (Ui.Deeds.steps (.single hdeed) ih.stack_eq)
    refine ih.of_steps hsteps hstack ?_
    cases hdeed with
    | beside hw _ _ =>
      rw [hw]
      exact ih.held
    | ask | move | screen | scroll => exact ih.held
    | queue env op hop => exact ih.held.talks (Talks.queue env op hop .refl)
    | handle env fd => exact ih.held.talks (Talks.handle env fd .refl)
    | download ent =>
      refine (Held.newXfer ?_ _).talks (Talks.transfer _ (Ui.downloadXfer ent) _)
      exact ih.called
    | view ent =>
      refine (Held.newXfer ?_ _).talks (Talks.transfer _ (Ui.viewXfer ent) _)
      exact ih.called

/-- **A step of the main loop.** -/
theorem step (h : Sane s.world) (i : UiInput) : Sane (s.step i).world := by
  rcases Ui.deeds_or_account s i with hdeeds | haccount
  · exact h.deeds hdeeds
  · have hview : (s.step i).world.view = s.world.view := congrArg Prod.fst haccount
    obtain ⟨hsteps, hstack⟩ := Ui.steps_step i h.stack_eq
    refine h.of_steps hsteps hstack (h.held.congr (congrArg Session.njob hview) ?_)
    exact congrArg calls (congrArg Session.log hview)

theorem connected (ctl : Fd) (user pass : Option Bytes) (screen : Screen) :
    Sane (World.connected ctl user pass screen) where
  stack_eq := rfl
  known := known_connected ctl user pass screen
  called t ht := absurd ht List.not_mem_nil
  held t ht := by cases ht

end Sane

/-! ### The transfer on the screen -/

namespace Display

variable {d : Display}

/-- The calls of the history grow. -/
theorem exists_calls (i : UiInput) (hs : stack d.ui.world.log = []) :
    ∃ new, calls (d.ui.step i).world.log = new ++ calls d.ui.world.log := by
  obtain ⟨new, hnew⟩ := Step.suffix_of_steps (Ui.steps_step i hs).1
  refine ⟨calls new, ?_⟩
  have hlog : (d.ui.step i).world.log = new ++ d.ui.world.log := hnew.symm
  rw [hlog, calls, List.filter_append]
  rfl

/-- To change the focus or to flag everything is nothing to the client and to `cur_xfer`. -/
theorem switchFocus_other (old new : Pane) : (d.switchFocus old new).ui.world = d.ui.world ∧
    (d.switchFocus old new).curXfer = d.curXfer := by
  have hfocus : ∀ (d : Display) p focus, (d.tuiFocus p focus).ui.world = d.ui.world ∧
      (d.tuiFocus p focus).curXfer = d.curXfer := by
    intro d p focus
    rw [tuiFocus]
    split <;> exact ⟨rfl, rfl⟩
  have hold := hfocus d old false
  have hnew := hfocus (d.tuiFocus old false) new true
  exact ⟨hnew.1.trans hold.1, hnew.2.trans hold.2⟩

theorem act_other (i : UiInput) : (d.act i).ui.world = (d.absorb (d.ui.step i)).ui.world ∧
    (d.act i).curXfer = (d.absorb (d.ui.step i)).curXfer := by
  cases i with
  | key env k =>
    by_cases hopen : d.ui.world.app.viewer.isOpen = true
    · rw [act_key_of_open hopen]
      exact ⟨rfl, rfl⟩
    have hclosed : d.ui.world.app.viewer.isOpen = false := by simpa using hopen
    by_cases htab : k = .tab
    · subst htab
      rw [act_tab hclosed]
      exact switchFocus_other _ _
    by_cases hf3 : k = .f3
    · subst hf3
      rw [act_f3 hclosed]
      split <;> exact ⟨rfl, rfl⟩
    by_cases hback : k = .backquote
    · subst hback
      rw [act_backquote hclosed]
      exact ⟨rfl, rfl⟩
    · rw [act_key_of_other hclosed htab hback hf3]
      exact ⟨rfl, rfl⟩
  | handle | goto | update => exact ⟨rfl, rfl⟩

theorem world_absorb (ui : Ui) : (d.absorb ui).ui.world = ui.world := by
  rw [absorb]
  split <;> rfl

theorem curXfer_absorb {ui : Ui} {new : List Event}
    (hcalls : calls ui.world.log = new ++ calls d.ui.world.log) :
    (d.absorb ui).curXfer = lastXfer new d.curXfer := by
  rw [absorb, Sound.take_calls hcalls]
  split <;> rfl

/-- **The screen is nothing to the client.** -/
theorem world_step (d : Display) (i : UiInput) : (d.step i).ui.world = (d.ui.step i).world := by
  rw [Display.step.eq_def]
  split
  swap
  · next hrun => rw [Ui.step.eq_def, if_neg hrun]
  next hrun =>
  split
  · split
    · rfl
    · next hclosed =>
      rw [world_updateui, Ui.step.eq_def, if_pos hrun]
      exact congrArg Ui.world (if_neg hclosed).symm
  · rw [(act_other _).1, world_absorb]

theorem curXfer_updateui : d.updateui.curXfer = d.curXfer := by
  have hdrawPane : ∀ (d : Display) p due, (d.drawPane p due).curXfer = d.curXfer := by
    intro d p due
    rw [drawPane]
    split <;> rfl
  rw [updateui_eq]
  show ((d.refill.drawPane .remote d.remoteDue).drawPane .localdir d.localDue).curXfer = _
  rw [hdrawPane, hdrawPane, refill, drawStatus]
  split <;> rfl

/-- **The invariant**: the client is sane, and `cur_xfer` is the last transfer. -/
structure Tracks (d : Display) : Prop where
  sane : Sane d.ui.world
  cur : d.curXfer = lastXfer (calls d.ui.world.log) none

theorem Tracks.step (h : d.Tracks) (i : UiInput) : (d.step i).Tracks := by
  have hsane : Sane (d.step i).ui.world := by
    rw [world_step]
    exact h.sane.step i
  refine ⟨hsane, ?_⟩
  have hact : (d.act i).curXfer = lastXfer (calls (d.ui.step i).world.log) none := by
    obtain ⟨new, hcalls⟩ := exists_calls i h.sane.stack_eq
    rw [(act_other i).2, curXfer_absorb hcalls, hcalls, lastXfer_append, h.cur]
  rw [world_step]
  rw [Display.step.eq_def]
  split
  swap
  · next hrun =>
    rw [h.cur, Ui.step.eq_def, if_neg hrun]
  next hrun =>
  split
  · have hsame : (d.ui.step .update).world.log = d.ui.world.log := by
      rw [Ui.step.eq_def, if_pos hrun]
      dsimp only
      split
      · rfl
      · exact congrArg (fun a => Session.log a.1) (Ui.account_updateui d.ui)
    rw [hsame, ← h.cur]
    split
    · rfl
    · exact curXfer_updateui
  · exact hact

theorem Tracks.run (h : d.Tracks) (inputs : List UiInput) : (d.run inputs).Tracks := by
  induction inputs using List.reverseRecOn with
  | nil => exact h
  | append_singleton past i ih =>
    rw [run_append_singleton]
    exact ih.step i

end Display

/-- **`cur_xfer` never dangles**: in every run, whatever callbacks were called, the transfer that
`updateui` reads has been made and has not been released. -/
theorem curXfer_run (ctl : Fd) (user pass : Option Bytes) (short : Bool) (screen : Screen)
    (fopens : List (Option Bytes)) (reads : List FileRead) (optHost : Bytes)
    (framebuf : Int → UInt16) (inputs : List UiInput) :
    let d := (Display.start (Ui.start ctl user pass short screen fopens reads) optHost
      framebuf).run inputs
    ∀ t ∈ d.curXfer, t < d.ui.world.nxfer ∧ .done t ∉ d.ui.world.log := by
  intro d t ht
  have hstart : (Display.start (Ui.start ctl user pass short screen fopens reads) optHost
      framebuf).Tracks := ⟨Sane.connected ctl user pass _, rfl⟩
  have htracks : d.Tracks := hstart.run inputs
  refine htracks.sane.held t ?_
  rw [← htracks.cur]
  exact ht

/-- A server with one file, which is downloaded. -/
def downloadOf (line : Bytes) : List UiInput :=
  [.handle (.control (ascii "220 ready\r\n")) 3,
    .handle (.control (ascii "230 welcome\r\n")) 3,
    .handle (.control (ascii "200 type is I\r\n")) 3,
    .handle (.passive [.data (ascii "257 \"/\"\r\n"), .again]) 3,
    .handle (.control (ascii "150 here it comes\r\n226 done\r\n")) 3,
    .handle (.dataEnd line) 4,
    .update,
    .key (.passive []) .f5]

/-- The program at the beginning, with a system that has nothing to say. -/
def freshUi : Ui :=
  Ui.start 3 none none false ⟨ascii "/home", [], true, Viewer.init, true, [], [], []⟩ [] []

/-- The file that is being downloaded has not been released. -/
theorem curXfer_run_download : 0 < ((Display.start freshUi [] fun _ => 0).run
      (downloadOf (ascii "-rw-r--r-- 1 u g 1 Jan 1 00:00 f\r\n"))).ui.world.nxfer ∧
    .done 0 ∉ ((Display.start freshUi [] fun _ => 0).run
      (downloadOf (ascii "-rw-r--r-- 1 u g 1 Jan 1 00:00 f\r\n"))).ui.world.log :=
  curXfer_run 3 none none false _ [] [] [] (fun _ => 0)
    (downloadOf (ascii "-rw-r--r-- 1 u g 1 Jan 1 00:00 f\r\n")) 0
    (by decide +kernel : ((Display.start freshUi [] fun _ => 0).run
      (downloadOf (ascii "-rw-r--r-- 1 u g 1 Jan 1 00:00 f\r\n"))).curXfer = some 0)

end Visftp
