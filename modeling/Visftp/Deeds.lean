import Mathlib.Logic.Relation
import Visftp.MainLoop

/-!
# What a step of the main loop is made of

A key leads to a sequence of small deeds: a list is moved in, an entry looked up, the local
directory read, an operation queued, a transfer made. So does a descriptor that has become
readable. What every deed keeps is kept by every step, but for the end of a round, where the lists
are filled, and two keys: one opens a local file in the viewer, and one goes to the other pane.

## Main definitions

* `Ui.listKeys` — what keys do to the focused list
* `Ui.Deed`, `Ui.Deeds` — the deeds
* `UiInput.Special` — the keys that are left out

## Main results

* `Ui.deeds_step` — a step is a sequence of deeds
-/

namespace Visftp

open CString Relation

/-- The directories that a step enters by their names. -/
def UiInput.Goes (i : UiInput) (dir : Bytes) : Prop := ∃ env, i = .goto env dir

namespace Ui

/-- What keys do to the focused list. -/
def listKeys : List (TuiList → TuiList) :=
  [selectNext, fun w => w.curPrev.2, fun w => w.curNext.2, fun w => w.curStart.2,
    fun w => w.curEnd.2, pageUp, pageDown]

/-- The transfer that `act_transfer` makes. -/
def downloadXfer (ent : Dirent) : Xfer Screen :=
  ⟨⟨⟨.retr, ent.name, some 0, none⟩, ent.size, 0⟩, Screen.xferDone⟩

/-- The transfer that `act_view` makes. -/
def viewXfer (ent : Dirent) : Xfer Screen :=
  ⟨⟨⟨.retr, ent.name, none, some []⟩, ent.size, 0⟩, Screen.viewDone⟩

/-- **One deed** of a step. A directory that is entered is the one above, one of the listed entries,
or the step's own, and a file that is asked for is one of the listed entries. -/
inductive Deed (i : UiInput) : Ui → Ui → Prop
  /-- Neither the world nor a list is touched. -/
  | beside {s s'} (hw : s'.world = s.world) (hl : s'.uilist = s.uilist)
      (hf : s'.focus = s.focus) : Deed i s s'
  /-- A call is answered from here on. -/
  | ask {s} (env : Env) : Deed i s { s with world := { s.world with env := env } }
  /-- A key for a list. -/
  | move {s} (f : TuiList → TuiList) (hf : f ∈ listKeys) : Deed i s (s.mapFocused f)
  /-- The viewer is not concerned. -/
  | screen {s} (f : Screen → Screen) (hf : ∀ c, (f c).viewer = c.viewer) :
      Deed i s (s.mapScreen f)
  /-- A key for the open viewer. -/
  | scroll {s} (k : ViewKey) (h : s.world.app.viewer.isOpen = true) :
      Deed i s (s.mapScreen fun c => { c with viewer := viewInput k c.viewer })
  /-- An operation is queued. -/
  | queue {s} (env : Env) (op : Op) (h : op.transfer? = none)
      (hdir : ∀ d, op = .chdir d → i.Goes d ∨ ∃ ent ∈ s.world.ftp.dirent, ent.name = d) :
      Deed i s { s with world := s.world.step env (.queue op h) }
  /-- A file is to be downloaded. -/
  | download {s} (ent : Dirent) (h : ent ∈ s.world.ftp.dirent) :
      Deed i s (s.transfer (downloadXfer ent))
  /-- A file is to be viewed. -/
  | view {s} (ent : Dirent) (h : ent ∈ s.world.ftp.dirent) :
      Deed i s (s.transfer (viewXfer ent))
  /-- A descriptor has become readable. -/
  | handle {s} (env : Env) (fd : Fd) (h : i = .handle env fd) :
      Deed i s { s with world := s.world.step env (.handle fd) }

/-- A sequence of deeds. -/
def Deeds (i : UiInput) (s s' : Ui) : Prop := ReflTransGen (Deed i) s s'

end Ui

/-- The keys that open a local file in the viewer and that go to the other pane. -/
def UiInput.Special (s : Ui) : UiInput → Prop
  | .key _ k => s.world.app.viewer.isOpen = false ∧ (k = .tab ∨ k = .f3 ∧ s.focus = .localdir)
  | _ => False

/-! ### The viewer is not concerned -/

namespace Screen

@[simp] theorem viewer_message (l : Level) (text : Bytes) (c : Screen) :
    (c.message l text).viewer = c.viewer := rfl

@[simp] theorem viewer_updateLocaldir (c : Screen) : c.updateLocaldir.viewer = c.viewer := by
  rw [updateLocaldir]
  split <;> rfl

@[simp] theorem viewer_chdir (c : Screen) : c.chdir.2.viewer = c.viewer := by
  rw [chdir]
  split
  · rfl
  · exact viewer_updateLocaldir _

@[simp] theorem viewer_xferDone (x : XferData) (c : Screen) : (xferDone x c).viewer = c.viewer :=
  viewer_updateLocaldir c

end Screen

namespace Ui

variable {s s' s₀ : Ui} {i : UiInput}

theorem mem_of_entryAt {l : List Dirent} {n : Int} {ent : Dirent} (h : entryAt l n = some ent) :
    ent ∈ l := by
  rw [entryAt] at h
  split at h
  · exact List.mem_of_getElem? h
  · simp at h

/-- An entry that is looked up in the remote pane is one of the listed ones. -/
theorem mem_of_use (hf : s.focus = .remote) {slot : Option Int} {ent : Dirent}
    (h : (s.use slot).1 = some ent) : ent ∈ s.world.ftp.dirent := by
  obtain ⟨n, -, hn⟩ := Option.bind_eq_some_iff.mp h
  rw [hf] at hn
  exact mem_of_entryAt hn

namespace Deeds

theorem beside (h : Deeds i s₀ s) (hw : s'.world = s.world) (hl : s'.uilist = s.uilist)
    (hf : s'.focus = s.focus) : Deeds i s₀ s' := h.tail (.beside hw hl hf)

theorem use (h : Deeds i s₀ s) (slot : Option Int) : Deeds i s₀ (s.use slot).2 :=
  h.beside rfl rfl rfl

theorem mapScreen (h : Deeds i s₀ s) {f : Screen → Screen} (hf : ∀ c, (f c).viewer = c.viewer) :
    Deeds i s₀ (s.mapScreen f) := h.tail (.screen f hf)

theorem queueOp (h : Deeds i s₀ s) (op : Op) (hop : op.transfer? = none)
    (hdir : ∀ d, op = .chdir d → i.Goes d ∨ ∃ ent ∈ s.world.ftp.dirent, ent.name = d) :
    Deeds i s₀ (s.queue op hop) := h.tail (.queue s.world.env op hop hdir)

/-- The loop of `act_transfer`. -/
theorem downloadLoop (h : Deeds i s₀ s) (hf : s.focus = .remote) (slots : List (Option Int)) :
    Deeds i s₀ (Ui.downloadLoop slots s) := by
  induction slots generalizing s with
  | nil => exact h
  | cons slot slots ih =>
    rw [Ui.downloadLoop]
    split
    · exact h.use slot
    · next ent hent =>
      dsimp only
      split
      · have hfailed : Deeds i s₀ { (s.use slot).2 with fopens := s.fopens.tail } :=
          h.beside rfl rfl rfl
        exact hfailed.mapScreen fun _ => rfl
      · have hopen : Deeds i s₀ { (s.use slot).2 with
            fopens := s.fopens.tail
            opened := fixname s.short ent.name :: s.opened } := h.beside rfl rfl rfl
        have hmade := hopen.tail (.download ent (mem_of_use hf hent))
        exact ih (Deeds.mapScreen hmade fun _ => rfl) hf

/-- The loop of `act_delete`. -/
theorem deleteLoop (h : Deeds i s₀ s) (slots : List (Option Int)) :
    Deeds i s₀ (Ui.deleteLoop slots s) := by
  induction slots generalizing s with
  | nil => exact h
  | cons slot slots ih =>
    rw [Ui.deleteLoop]
    split
    · exact h.use slot
    · next ent _ =>
      refine ih ?_
      split
      · have hremoved : Deeds i s₀ { (s.use slot).2 with removed := ent.name :: s.removed } :=
          h.beside rfl rfl rfl
        exact hremoved.mapScreen fun _ => rfl
      · exact h.use slot

theorem actActivate (h : Deeds i s₀ s) : Deeds i s₀ s.actActivate := by
  have hused := h.use (some s.list.cur)
  rw [Ui.actActivate]
  split
  · exact hused
  next ent hent =>
  split
  · split
    · next hf =>
      refine hused.queueOp _ _ ?_
      rintro d ⟨⟩
      exact .inr ⟨ent, mem_of_use hf hent, rfl⟩
    · split
      · exact hused.mapScreen fun c => c.viewer_chdir
      · exact hused.mapScreen fun c => c.viewer_chdir
  · exact hused

/-- `act_view` in the remote pane. -/
theorem actView (h : Deeds i s₀ s) (hf : s.focus = .remote) : Deeds i s₀ s.actView := by
  have hused := h.use (some s.list.cur)
  rw [Ui.actView]
  split
  · exact hused
  · next ent hent =>
    split
    · exact hused.tail (.view ent (mem_of_use hf hent))
    · next hlocal => exact absurd (hf.symm.trans hlocal) (by decide)

end Deeds

/-- The focus stays. -/
theorem Deeds.focus_eq (h : Deeds i s s') : s'.focus = s.focus := by
  induction h with
  | refl => rfl
  | tail _ hdeed ih =>
    cases hdeed with
    | beside _ _ hf => exact hf.trans ih
    | ask | move | screen | scroll | queue | download | view | handle => exact ih

/-- A key is a sequence of deeds. -/
theorem deeds_keypress (k : Key) (hk : s.world.app.viewer.isOpen = false →
    ¬(k = .tab ∨ k = .f3 ∧ s.focus = .localdir)) : Deeds i s (keypress k s).2 := by
  have hmove : ∀ f ∈ listKeys, Deeds i s (s.mapFocused f) := fun f hf => .single (.move f hf)
  unfold keypress
  split
  · next hopen => exact .single (.scroll k.view hopen)
  · next hclosed =>
    obtain ⟨htab, hf3⟩ := not_or.mp (hk (by simpa using hclosed))
    cases k with
    | tab => exact absurd rfl htab
    | enter => exact Deeds.actActivate .refl
    | f3 =>
      refine Deeds.actView .refl ?_
      cases hf : s.focus with
      | remote => rfl
      | localdir => exact absurd ⟨rfl, hf⟩ hf3
    | backspace =>
      dsimp only
      split
      · exact Deeds.queueOp .refl _ _ fun d => nofun
      · exact Deeds.mapScreen .refl fun c => c.viewer_chdir
    | f5 =>
      show Deeds i s s.actTransfer
      rw [actTransfer]
      split
      · next hf => exact Deeds.downloadLoop .refl hf _
      · exact .refl
    | f8 =>
      show Deeds i s s.actDelete
      rw [actDelete]
      split
      · exact .refl
      · dsimp only
        split
        · exact (Deeds.deleteLoop .refl _).mapScreen fun c => c.viewer_updateLocaldir
        · exact Deeds.deleteLoop .refl _
    | ins => exact hmove selectNext (by simp [listKeys])
    | up => exact hmove (fun w => w.curPrev.2) (by simp [listKeys])
    | down => exact hmove (fun w => w.curNext.2) (by simp [listKeys])
    | left => exact hmove (fun w => w.curStart.2) (by simp [listKeys])
    | right => exact hmove (fun w => w.curEnd.2) (by simp [listKeys])
    | pgup => exact hmove pageUp (by simp [listKeys])
    | pgdn => exact hmove pageDown (by simp [listKeys])
    | _ => exact Deeds.beside .refl rfl rfl rfl

/-- **A step is a sequence of deeds**, but for the end of a round and two keys. -/
theorem deeds_step (i : UiInput) (hi : i ≠ .update) (hs : ¬i.Special s) :
    Deeds i s (s.step i) := by
  unfold step
  split
  swap
  · exact .refl
  cases i with
  | key env k =>
    refine Deeds.beside (s := (keypress k { s with world := { s.world with env := env } }).2) ?_
      rfl rfl rfl
    exact .head (.ask env) (deeds_keypress k fun hclosed hk => hs ⟨hclosed, hk⟩)
  | handle env fd => exact .single (.handle env fd rfl)
  | goto env dir =>
    refine .single (.queue env _ _ ?_)
    rintro d ⟨⟩
    exact .inl ⟨env, rfl⟩
  | update => exact absurd rfl hi

end Ui

end Visftp
