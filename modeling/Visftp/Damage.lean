import Visftp.Conversation
import Visftp.Deeds
import Visftp.DisplayLines

/-!
# What has to be drawn again

Between two rounds of the main loop, a list is changed by operations only that set its flag, and
the viewer is opened by a callback, whose transfer goes to memory, or by one of the keys that
`Visftp.Deeds` leaves out. `Visftp.Repainting` says what the flags are for.

## Main definitions

* `TuiList.Marked` — what an operation does to a list
* `Calm`, `Watched` — who opens the viewer

## Main results

* `Ui.Deeds.lists`, `Ui.Deeds.watched` — the deeds of the main loop
-/

namespace Visftp

open CString Relation

/-! ### Lists -/

namespace TuiList

/-- **What an operation does to a list**: nothing, or it sets the flag. -/
structure Marked (w w' : TuiList) : Prop where
  height : w'.height = w.height
  dirty : w'.dirty = true ∨ w' = w

variable {w w' w'' : TuiList}

theorem Marked.refl (w : TuiList) : Marked w w := ⟨rfl, .inr rfl⟩

theorem Marked.trans (h : Marked w w') (h' : Marked w' w'') : Marked w w'' := by
  refine ⟨h'.height.trans h.height, ?_⟩
  rcases h'.dirty with hd | rfl
  · exact .inl hd
  · exact h.dirty

theorem marked_setcur {idx : Int} (h : 0 ≤ idx) (w : TuiList) : Marked w (w.setcur idx).2 := by
  rw [setcur]
  split
  · exact .refl w
  split
  · omega
  split
  · exact .refl w
  · dsimp only
    split <;> exact ⟨rfl, .inl rfl⟩

theorem marked_curNext (w : TuiList) : Marked w w.curNext.2 := by
  rw [curNext]
  split
  · exact .refl w
  · dsimp only
    split <;> exact ⟨rfl, .inl rfl⟩

theorem marked_curPrev (w : TuiList) : Marked w w.curPrev.2 := by
  rw [curPrev]
  split
  · exact .refl w
  · dsimp only
    split <;> exact ⟨rfl, .inl rfl⟩

theorem marked_toggleSel (idx : ℕ) (w : TuiList) : Marked w (w.toggleSel idx).2 := by
  rw [toggleSel]
  split
  · exact .refl w
  · exact ⟨rfl, .inl rfl⟩

/-- The keys for a list. -/
theorem marked_listKeys {f : TuiList → TuiList} (hf : f ∈ Ui.listKeys) (hcur : -1 ≤ w.cur) :
    Marked w (f w) := by
  have hstart : Marked w w.curStart.2 := ⟨rfl, .inl rfl⟩
  have hend : Marked w w.curEnd.2 := ⟨rfl, .inl rfl⟩
  simp only [Ui.listKeys, List.mem_cons, List.not_mem_nil, or_false] at hf
  rcases hf with rfl | rfl | rfl | rfl | rfl | rfl | rfl
  · rw [Ui.selectNext]
    split
    · exact (marked_toggleSel _ w).trans (marked_curNext _)
    · exact .refl w
  · exact marked_curPrev w
  · exact marked_curNext w
  · exact hstart
  · exact hend
  · rw [Ui.pageUp]
    split
    · exact hstart
    · exact marked_setcur (by omega) w
  · rw [Ui.pageDown]
    split
    · exact hend
    · exact marked_setcur (by omega) w

/-- The cursor and the window count, and the number of entries. -/
theorem Placed.congr {height : Int} (h : Placed height w) (hh : w'.height = w.height)
    (hc : w'.cur = w.cur) (ho : w'.viewOffs = w.viewOffs)
    (he : w'.entries.length = w.entries.length) : Placed height w' := by
  have hn : w'.numItems = w.numItems := congrArg Int.ofNat he
  have hv : w'.visLines = w.visLines := by rw [visLines, visLines, hh]
  constructor
  · rw [hh, h.height_eq]
  · rw [hc]; exact h.cur_ge
  · rw [ho]; exact h.offs_nonneg
  · rw [hc, ho]; exact h.offs_le
  · rw [hn, hc, ho, hv]; exact h.shown
  · rw [hn, ho, hv]; exact h.full

theorem Placed.toggleSel {height : Int} (h : Placed height w) (idx : ℕ) :
    Placed height (w.toggleSel idx).2 := by
  rw [TuiList.toggleSel]
  split
  · exact h
  · exact h.congr rfl rfl rfl (List.length_set ..)

/-- The keys for a list leave the cursor on an entry. -/
theorem Placed.listKeys {height : Int} (h : Placed height w) (hh : 3 ≤ height)
    {f : TuiList → TuiList} (hf : f ∈ Ui.listKeys) : Placed height (f w) := by
  simp only [Ui.listKeys, List.mem_cons, List.not_mem_nil, or_false] at hf
  rcases hf with rfl | rfl | rfl | rfl | rfl | rfl | rfl
  · rw [Ui.selectNext]
    split
    · have htoggled := h.toggleSel w.cur.toNat
      exact htoggled.curNext (htoggled.visLines_pos hh)
    · exact h
  · exact h.step hh .up
  · exact h.step hh .down
  · exact h.step hh .left
  · exact h.step hh .right
  · exact h.step hh .pgup
  · exact h.step hh .pgdn

/-- A list is filled. -/
theorem Placed.fill {height : Int} (h : Placed height w) (hh : 3 ≤ height) (ents : List Dirent) :
    Placed height (fill ents w) := by
  have hrefresh := h.refresh (h.visLines_pos hh) (ents.map Dirent.rowText)
  rw [TuiList.refresh, List.foldl_map] at hrefresh
  exact hrefresh

end TuiList

namespace Ui

variable {s s' : Ui}

/-- **What the deeds of the main loop do to the lists.** -/
theorem Deeds.lists {i : UiInput} (h : Deeds i s s')
    (hp : ∀ p, (s.uilist p).Placed 21) (p : Pane) :
    (s.uilist p).Marked (s'.uilist p) ∧ (s'.uilist p).Placed 21 := by
  induction h with
  | refl => exact ⟨.refl _, hp p⟩
  | @tail s₁ s₂ _ hdeed ih =>
    cases hdeed with
    | beside _ hl _ =>
      rw [hl]
      exact ih
    | move f hf =>
      rw [mapFocused, mapList]
      dsimp only
      rw [Function.update_apply]
      split
      · next heq =>
        subst heq
        exact ⟨ih.1.trans (TuiList.marked_listKeys hf ih.2.cur_ge), ih.2.listKeys (by decide) hf⟩
      · exact ih
    | ask | screen | scroll | queue | download | view | handle => exact ih

end Ui

/-! ### The viewer -/

/-- The callback of a transfer that goes to no memory leaves the viewer alone. -/
structure Calm (w : World Screen) : Prop where
  callback : ∀ t, (w.xfers t).mem.isSome = true ∨
    ∀ x a, ((w.xfers t).done x a).viewer = a.viewer
  fresh : ∀ t, w.nxfer ≤ t → (w.xfers t).mem.isSome = false

/-- **The viewer is opened by callbacks**, of transfers that go to memory: since the calls of the
history were `base`, it was open at the beginning, or it has not been opened without one. -/
structure Watched (base : List Event) (was : Bool) (w : World Screen) : Prop extends Calm w where
  opened : ∃ new, calls w.log = new ++ base ∧
    (w.app.viewer.isOpen = true → was = true ∨ new.any (Event.isView w) = true)

theorem Calm.watched {w : World Screen} (h : Calm w) :
    Watched (calls w.log) w.app.viewer.isOpen w := ⟨h, [], rfl, .inl⟩

namespace Watched

variable {base : List Event} {was : Bool} {w w' : World Screen}

/-- Which events are callbacks of views depends on the transfers only. -/
theorem isView_congr (h : ∀ t, (w'.xfers t).mem.isSome = (w.xfers t).mem.isSome) (e : Event) :
    Event.isView w' e = Event.isView w e := by
  cases e with
  | done t => exact h t
  | _ => rfl

theorem congr (h : Watched base was w) (hx : w'.xfers = w.xfers) (hn : w'.nxfer = w.nxfer)
    (hv : w'.app.viewer.isOpen = true → w.app.viewer.isOpen = true)
    (hc : calls w'.log = calls w.log) : Watched base was w' := by
  obtain ⟨new, hlog, hopen⟩ := h.opened
  refine ⟨⟨?_, ?_⟩, new, hc.trans hlog, fun ho => ?_⟩
  · rw [hx]
    exact h.callback
  · rw [hx, hn]
    exact h.fresh
  · have heq : Event.isView w' = Event.isView w := funext (isView_congr fun t => by rw [hx])
    rw [heq]
    exact hopen (hv ho)

theorem talk (h : Watched base was w) (ht : Talk w w') : Watched base was w' := by
  cases ht with
  | quiet hx hn ha hc => exact h.congr hx hn (by rw [ha]; exact id) hc
  | write t f hf =>
    have hmem : ∀ u, ((w.mapXfer t f).xfers u).mem.isSome = (w.xfers u).mem.isSome := by
      intro u
      rw [World.mapXfer]
      dsimp only
      rw [Function.update_apply]
      split
      · next heq =>
        subst heq
        exact (hf _).mem
      · rfl
    have hdone : ∀ u, ((w.mapXfer t f).xfers u).done = (w.xfers u).done := by
      intro u
      rw [World.mapXfer]
      dsimp only
      rw [Function.update_apply]
      split
      · next heq =>
        subst heq
        rfl
      · rfl
    obtain ⟨new, hlog, hopen⟩ := h.opened
    refine ⟨⟨fun u => ?_, fun u hu => (hmem u).trans (h.fresh u hu)⟩, new, hlog, fun ho => ?_⟩
    · rw [hmem, hdone]
      exact h.callback u
    · rw [funext (isView_congr hmem)]
      exact hopen ho
  | call t =>
    obtain ⟨new, hlog, hopen⟩ := h.opened
    refine ⟨⟨h.callback, h.fresh⟩, .done t :: new, ?_, fun ho => ?_⟩
    · show calls (.done t :: w.log) = _
      rw [calls, List.filter_cons_of_pos rfl, ← calls, hlog]
      rfl
    · rw [List.any_cons]
      rcases h.callback t with hmem | hkeep
      · exact .inr (by rw [show Event.isView (callDone t w) (.done t) = true from hmem]; rfl)
      · have hview : (callDone t w).app.viewer = w.app.viewer := hkeep _ _
        rw [hview] at ho
        exact (hopen ho).imp id fun hany => by
          rw [show new.any (Event.isView (callDone t w)) = true from hany, Bool.or_true]

theorem talks (h : Watched base was w) (ht : Talks w w') : Watched base was w' := by
  induction ht with
  | refl => exact h
  | tail _ hstep ih => exact ih.talk hstep

/-- A transfer is made whose callback does not open the viewer, or that goes to memory. -/
theorem newXfer (h : Watched base was w) {x : Xfer Screen}
    (hx : x.mem.isSome = true ∨ ∀ y a, (x.done y a).viewer = a.viewer) :
    Watched base was (w.newXfer x) := by
  have hnew : ∀ t, ((w.newXfer x).xfers t) =
      if t = w.nxfer then { x with toJob := x.toJob.fresh w.nxfer } else w.xfers t := fun t =>
    Function.update_apply _ _ _ _
  have hmem : (x.toJob.fresh w.nxfer).mem.isSome = x.mem.isSome := Option.isSome_map
  obtain ⟨new, hlog, hopen⟩ := h.opened
  refine ⟨⟨fun t => ?_, fun t ht => ?_⟩, .made w.nxfer (x.toJob.fresh w.nxfer) :: new, ?_,
    fun ho => ?_⟩
  · rw [hnew]
    split
    · rcases hx with hsome | hkeep
      · exact .inl (hmem.trans hsome)
      · exact .inr hkeep
    · exact h.callback t
  · have hlt : w.nxfer + 1 ≤ t := ht
    rw [hnew, if_neg (by omega)]
    exact h.fresh t (by omega)
  · show calls (.made w.nxfer _ :: w.log) = _
    rw [calls, List.filter_cons_of_pos rfl, ← calls, hlog]
    rfl
  · refine (hopen ho).imp id fun hany => ?_
    obtain ⟨e, he, hview⟩ := List.any_eq_true.mp hany
    refine List.any_eq_true.mpr ⟨e, List.mem_cons_of_mem _ he, ?_⟩
    cases e with
    | done t =>
      have hsome : (w.xfers t).mem.isSome = true := hview
      have hne : t ≠ w.nxfer := by
        rintro rfl
        rw [h.fresh _ le_rfl] at hsome
        exact Bool.false_ne_true hsome
      show ((w.newXfer x).xfers t).mem.isSome = true
      rw [hnew, if_neg hne]
      exact hsome
    | _ => exact absurd hview Bool.false_ne_true

end Watched

/-- A key does not open the viewer. -/
theorem isOpen_of_viewInput {k : ViewKey} {v : Viewer} (h : (viewInput k v).isOpen = true) :
    v.isOpen = true := by
  cases k with
  | quit => exact absurd h Bool.false_ne_true
  | pgdn =>
    rw [viewInput] at h
    dsimp only at h
    split at h <;> exact h
  | _ => exact h

/-- **The deeds of the main loop** open the viewer by callbacks only. -/
theorem Ui.Deeds.watched {s s' : Ui} {base : List Event} {was : Bool} {i : UiInput}
    (h : Deeds i s s') (hw : Watched base was s.world) : Watched base was s'.world := by
  induction h with
  | refl => exact hw
  | @tail s₁ s₂ _ hdeed ih =>
    cases hdeed with
    | beside hworld _ _ =>
      rw [hworld]
      exact ih
    | ask env => exact ih.congr rfl rfl id rfl
    | move f hf => exact ih
    | screen f hf => exact ih.congr rfl rfl (fun ho => by rw [← hf]; exact ho) rfl
    | scroll k _ => exact ih.congr rfl rfl isOpen_of_viewInput rfl
    | queue env op hop => exact ih.talks (Talks.queue env op hop .refl)
    | handle env fd => exact ih.talks (Talks.handle env fd .refl)
    | download ent =>
      have henv : Watched base was { s₁.world with env := s₁.world.env } := ih
      exact (henv.newXfer (.inr fun x a => Screen.viewer_xferDone x a)).talks
        (Talks.transfer _ (downloadXfer ent) _)
    | view ent =>
      have henv : Watched base was { s₁.world with env := s₁.world.env } := ih
      exact (henv.newXfer (.inl rfl)).talks (Talks.transfer _ (viewXfer ent) _)

end Visftp
