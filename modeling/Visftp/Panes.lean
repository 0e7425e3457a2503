import Visftp.Callbacks
import Visftp.Entries
import Visftp.MainLoop
import Visftp.TuiSelection

/-!
# What the lists show and what the keys act on

A key looks up an entry of the focused pane's array by an index of the pane's list. The list is
filled from the array at the end of a round, while the array is replaced whenever a listing ends, a
transfer is done, or a key changes the local directory. Between the two the index may be that of
another entry, or of none.

## Main definitions

* `Use.Agrees` — the line at an index was made from the entry at the index
* `Ui.Current` — a list has been filled since its array was replaced
* `UiInput.Careful` — a key that looks up an entry is pressed when it is safe
* `Ui.Shown` — the invariant

## Main results

* `agrees_run` — runs in which such keys are pressed carefully
-/

namespace Visftp

open CString Session

/-! ### The lists -/

namespace TuiList

/-- The lines of a list. -/
def lines (w : TuiList) : List Bytes := w.entries.map ListEntry.text

/-- The cursor is on an entry, when there is one. -/
def Pointed (w : TuiList) : Prop := w.entries ≠ [] → 0 ≤ w.cur ∧ w.cur < w.entries.length

/-- What the keys that move in a list and select from it do. -/
structure Moved (w w' : TuiList) : Prop where
  lines_eq : w'.lines = w.lines
  pointed : w.Pointed → w'.Pointed

theorem Moved.refl (w : TuiList) : Moved w w := ⟨rfl, id⟩

theorem Moved.trans {w₁ w₂ w₃ : TuiList} (h₁ : Moved w₁ w₂) (h₂ : Moved w₂ w₃) : Moved w₁ w₃ :=
  ⟨h₂.lines_eq.trans h₁.lines_eq, fun h => h₂.pointed (h₁.pointed h)⟩

/-- Only the cursor has moved, to an entry. -/
theorem Moved.of_cur {w w' : TuiList} (he : w'.entries = w.entries)
    (hcur : w.entries ≠ [] → 0 ≤ w.cur → w.cur < w.entries.length →
      0 ≤ w'.cur ∧ w'.cur < w.entries.length) : Moved w w' where
  lines_eq := by rw [lines, he, lines]
  pointed h := by
    rw [Pointed, he]
    intro hne
    exact hcur hne (h hne).1 (h hne).2

section Keys

variable (w : TuiList)

theorem moved_setcur {idx : Int} (h : 0 ≤ w.cur → 0 ≤ idx) : Moved w (w.setcur idx).2 := by
  refine .of_cur (setcur_frame idx).1 ?_
  intro _ h₀ h₁
  have hidx := h h₀
  rw [cur_setcur w hidx, numItems]
  split <;> omega

theorem moved_curNext : Moved w w.curNext.2 := by
  refine .of_cur curNext_frame.1 ?_
  intro _ h₀ h₁
  simp only [curNext, numItems]
  split_ifs <;> dsimp only <;> omega

theorem moved_curPrev : Moved w w.curPrev.2 := by
  refine .of_cur curPrev_frame.1 ?_
  intro _ h₀ h₁
  simp only [curPrev]
  split_ifs <;> dsimp only <;> omega

theorem moved_curStart : Moved w w.curStart.2 := by
  refine .of_cur rfl ?_
  intro hne _ _
  have hpos := List.length_pos_iff.mpr hne
  show 0 ≤ (0 : Int) ∧ (0 : Int) < w.entries.length
  omega

theorem moved_curEnd : Moved w w.curEnd.2 := by
  refine .of_cur rfl ?_
  intro hne _ _
  have hpos := List.length_pos_iff.mpr hne
  show 0 ≤ (w.entries.length : Int) - 1 ∧ (w.entries.length : Int) - 1 < w.entries.length
  omega

theorem moved_toggleSel (idx : ℕ) : Moved w (w.toggleSel idx).2 := by
  rw [toggleSel]
  split
  · exact .refl w
  · next e he =>
    obtain ⟨hidx, hget⟩ := List.getElem?_eq_some_iff.mp he
    refine ⟨?_, fun h => ?_⟩
    · show (w.entries.set idx _).map ListEntry.text = w.entries.map ListEntry.text
      rw [List.map_set]
      refine List.ext_getElem (by simp) fun i hi hi' => ?_
      rw [List.getElem_set]
      split
      · next heq =>
        subst heq
        simp [hget]
      · rfl
    · show w.entries.set idx _ ≠ [] → 0 ≤ w.cur ∧ w.cur < (w.entries.set idx _).length
      rw [List.length_set]
      intro _
      exact h (List.ne_nil_of_length_pos (by omega))

theorem moved_selectNext : Moved w (Ui.selectNext w) := by
  rw [Ui.selectNext]
  split
  · exact (moved_toggleSel w _).trans (moved_curNext _)
  · exact .refl w

theorem moved_pageUp : Moved w (Ui.pageUp w) := by
  rw [Ui.pageUp]
  split
  · exact moved_curStart w
  · exact moved_setcur w fun _ => by omega

theorem moved_pageDown : Moved w (Ui.pageDown w) := by
  rw [Ui.pageDown]
  split
  · exact moved_curEnd w
  · exact moved_setcur w fun _ => by omega

end Keys

/-! ### Filling a list -/

theorem lines_foldl_add (ents : List Dirent) (w : TuiList) :
    (ents.foldl (fun w ent => w.add ent.rowText) w).lines = w.lines ++ ents.map Dirent.rowText := by
  induction ents generalizing w with
  | nil => simp
  | cons ent ents ih =>
    rw [List.foldl_cons, ih]
    simp [add, lines]

theorem lines_fill (ents : List Dirent) (w : TuiList) :
    (fill ents w).lines = ents.map Dirent.rowText := by
  rw [fill, lines, (setcur_frame 0).1, ← lines, lines_foldl_add]
  rfl

theorem pointed_fill (ents : List Dirent) (w : TuiList) : (fill ents w).Pointed := by
  rw [fill, Pointed, (setcur_frame 0).1]
  intro hne
  have hpos := List.length_pos_iff.mpr hne
  rw [cur_setcur _ le_rfl, if_pos (by rw [numItems]; omega)]
  omega

/-! ### The slots of a selection -/

/-- All slots that are used hold indices of entries. -/
def Filled (w : TuiList) (slots : List (Option Int)) : Prop :=
  ∀ slot ∈ slots, ∃ i : ℕ, slot = some (i : Int) ∧ i < w.entries.length

variable {w : TuiList}

/-- A slot that is used is one that was filled. -/
theorem Filled.of_usesFilled {r : Int × List Int} (h : UsesFilled r)
    (hr : ∀ i ∈ r.2, 0 ≤ i ∧ i < w.entries.length) : w.Filled (usedSlots r) := by
  intro slot hslot
  obtain ⟨k, hk, rfl⟩ := List.mem_map.mp hslot
  have hlt : k < r.2.length := h k (by rw [List.mem_range] at hk; omega)
  obtain ⟨h₀, h₁⟩ := hr _ (List.getElem_mem hlt)
  refine ⟨(r.2[k]).toNat, ?_, by omega⟩
  rw [List.getElem?_eq_getElem hlt, Int.toNat_of_nonneg h₀]

/-- The selected entries are entries. -/
theorem bounds_of_mem_selected {i : Int} (h : i ∈ w.selected.map fun i : ℕ => (i : Int)) :
    0 ≤ i ∧ i < w.entries.length := by
  obtain ⟨k, hk, rfl⟩ := List.mem_map.mp h
  have hlt := List.lt_add_of_mem_findIdxs k hk
  omega

/-- With the count right and the cursor on an entry, `act_transfer` uses indices of entries. -/
theorem filled_transferSel (h : w.Counts) (hcur : 0 ≤ w.cur ∧ w.cur < w.entries.length) :
    w.Filled (usedSlots w.transferSel) := by
  refine .of_usesFilled h.transfer fun i hi => ?_
  rw [transferSel_eq] at hi
  split at hi
  · rcases List.mem_cons.mp hi with rfl | hi
    · exact hcur
    · exact bounds_of_mem_selected (List.mem_of_mem_tail hi)
  · exact bounds_of_mem_selected hi

/-- So does `act_delete`, which also looks whether the cursor is on an entry. -/
theorem filled_deleteSel (h : w.Counts)
    (hcur : w.cur ≠ -1 → 0 ≤ w.cur ∧ w.cur < w.entries.length) :
    w.Filled (usedSlots w.deleteSel) := by
  by_cases hnone : w.numSel = 0 ∧ w.cur = -1
  · have hzero : w.deleteSel.1 = 0 := by
      rw [deleteSel_eq, if_pos hnone.1, hnone.2]
      exact hnone.1
    intro slot hslot
    simp [usedSlots, hzero] at hslot
  refine .of_usesFilled h.delete fun i hi => ?_
  rw [deleteSel_eq] at hi
  split at hi
  · next hnum =>
    rcases List.mem_cons.mp hi with rfl | hi
    · exact hcur fun hneg => hnone ⟨hnum, hneg⟩
    · exact bounds_of_mem_selected (List.mem_of_mem_tail hi)
  · exact bounds_of_mem_selected hi

end TuiList

/-! ### Looking up an entry -/

/-- **An index is right**: it is one of the array and of the list, and the line at the index was
made from the entry at the index. -/
def Use.Agrees (u : Use) : Prop :=
  ∃ (i : ℕ) (ent : Dirent), u.slot = some (i : Int) ∧ u.ents[i]? = some ent ∧
    u.lines[i]? = some ent.rowText

/-- Whether a key looks up an entry in a pane. -/
def Key.looksUp : Key → Pane → Bool
  | .enter, _ | .f3, _ | .f5, .remote | .f8, .localdir => true
  | _, _ => false

namespace Ui

/-- **A pane is current**: its array has not been replaced since its list was filled. The array of
the remote pane is replaced at the end of a listing. -/
def Current (s : Ui) : Pane → Prop
  | .remote => ∀ e ∈ s.world.log.take (s.world.log.length - s.seen), e.endsListing = false
  | .localdir => s.world.app.localOld = false

/-- **It is safe to look up an entry**: the focused pane is current, there is an entry (`act_delete`
looks for itself whether there is one under the cursor), and the count of the selected entries is
right for the two keys that use it. -/
structure Sure (s : Ui) (k : Key) : Prop where
  current : s.Current s.focus
  nonempty : s.ents s.focus ≠ [] ∨ k = .f8 ∧ s.list.cur = -1
  counted : k = .f5 ∨ k = .f8 → s.list.numSel = s.list.entries.countP ListEntry.sel

/-- The lines of a list were made from the entries of its array. -/
def Matches (s : Ui) (p : Pane) : Prop :=
  (s.uilist p).lines = (s.ents p).map Dirent.rowText

end Ui

/-- **A key that looks up an entry** is pressed only when it is safe, or goes to the viewer. -/
def UiInput.Careful (s : Ui) : UiInput → Prop
  | .key _ k => s.world.app.viewer.isOpen = false → k.looksUp s.focus = true → s.Sure k
  | _ => True

/-- What becomes of the local directory: it is the same when its list is not behind it. -/
def Screen.Aged (a b : Screen) : Prop :=
  b.localOld = false → a.localOld = false ∧ b.localdir = a.localdir

theorem Screen.Aged.refl (a : Screen) : a.Aged a := fun h => ⟨h, rfl⟩

theorem Screen.Aged.trans {a b c : Screen} (h₁ : a.Aged b) (h₂ : b.Aged c) : a.Aged c := by
  intro h
  obtain ⟨hb, hbc⟩ := h₂ h
  obtain ⟨ha, hab⟩ := h₁ hb
  exact ⟨ha, hbc.trans hab⟩

/-- Reading the local directory leaves its list behind, unless it fails. -/
theorem Screen.aged_updateLocaldir (a : Screen) : a.Aged a.updateLocaldir := by
  rw [updateLocaldir]
  split
  · exact .refl a
  · intro h
    simp at h

theorem Screen.aged_chdir (a : Screen) : a.Aged a.chdir.2 := by
  rw [chdir]
  split
  · exact .refl a
  · exact Screen.Aged.trans (.refl a) (aged_updateLocaldir _)

/-- The callbacks of the transfers do no more than that. -/
def Ages (d : XferData → Screen → Screen) : Prop := ∀ x (a : Screen), a.Aged (d x a)

theorem ages_xferDone : Ages Screen.xferDone := fun _ a => a.aged_updateLocaldir

theorem ages_viewDone : Ages Screen.viewDone := fun _ a => .refl a

namespace Ui

/-- **The invariant**: the lines of a current pane were made from its entries, the cursors are on
entries, and all indices that were used are right. -/
structure Shown (s : Ui) : Prop where
  stack_eq : stack s.world.log = []
  seen_le : s.seen ≤ s.world.log.length
  done : ∀ t, Ages (s.world.xfers t).done
  lines : ∀ p, s.Current p → s.Matches p
  cursor : ∀ p, (s.uilist p).Pointed
  agrees : ∀ u ∈ s.used, u.Agrees

/-- Where the lines match, the index of an entry is right. -/
theorem Matches.agrees {s : Ui} {p : Pane} (h : s.Matches p) {i : ℕ}
    (hi : i < (s.uilist p).entries.length) :
    Use.Agrees ⟨some (i : Int), (s.uilist p).lines, s.ents p⟩ := by
  have hlen := congrArg List.length h
  rw [TuiList.lines, List.length_map, List.length_map] at hlen
  have hlt : i < (s.ents p).length := by omega
  refine ⟨i, (s.ents p)[i], rfl, List.getElem?_eq_getElem hlt, ?_⟩
  show (s.uilist p).lines[i]? = _
  rw [h, List.getElem?_map, List.getElem?_eq_getElem hlt]
  rfl

/-- There is an entry exactly where there is a line. -/
theorem Matches.entries_ne_nil {s : Ui} {p : Pane} (h : s.Matches p) (hne : s.ents p ≠ []) :
    (s.uilist p).entries ≠ [] := by
  intro hnil
  rw [Matches, TuiList.lines, hnil, List.map_nil] at h
  exact hne (List.map_eq_nil_iff.mp h.symm)

namespace Shown

variable {s s' : Ui}

/-- Nothing of it is touched. -/
theorem congr (h : s.Shown) (hw : s'.world = s.world) (hl : s'.uilist = s.uilist)
    (hs : s'.seen = s.seen) (hu : s'.used = s.used) : s'.Shown := by
  obtain ⟨w, l, _, _, _, n, u, _, _, _, _⟩ := s
  obtain ⟨w', l', _, _, _, n', u', _, _, _, _⟩ := s'
  obtain rfl : w' = w := hw
  obtain rfl : l' = l := hl
  obtain rfl : n' = n := hs
  obtain rfl : u' = u := hu
  exact ⟨h.stack_eq, h.seen_le, h.done, h.lines, h.cursor, h.agrees⟩

theorem current_mapList {p q : Pane} {f : TuiList → TuiList} (h : (s.mapList p f).Current q) :
    s.Current q := by
  cases q <;> exact h

/-- Moving in a list and selecting from it. -/
theorem mapList (h : s.Shown) (p : Pane) {f : TuiList → TuiList}
    (hf : TuiList.Moved (s.uilist p) (f (s.uilist p))) : (s.mapList p f).Shown where
  stack_eq := h.stack_eq
  seen_le := h.seen_le
  done := h.done
  lines q hq := by
    have hold := h.lines q (current_mapList hq)
    show (Function.update s.uilist p _ q).lines = (s.ents q).map Dirent.rowText
    rw [Function.update_apply]
    split
    · next heq =>
      subst heq
      exact hf.lines_eq.trans hold
    · exact hold
  cursor q := by
    show (Function.update s.uilist p _ q).Pointed
    rw [Function.update_apply]
    split
    · exact hf.pointed (h.cursor p)
    · exact h.cursor q
  agrees := h.agrees

theorem mapFocused (h : s.Shown) {f : TuiList → TuiList} (hf : ∀ w, TuiList.Moved w (f w)) :
    (s.mapFocused f).Shown := h.mapList s.focus (hf _)

/-- What a callback reaches is assigned to. -/
theorem mapScreen (h : s.Shown) {f : Screen → Screen} (hf : s.world.app.Aged (f s.world.app)) :
    (s.mapScreen f).Shown where
  stack_eq := h.stack_eq
  seen_le := h.seen_le
  done := h.done
  lines p hp := by
    cases p with
    | remote => exact h.lines .remote hp
    | localdir =>
      obtain ⟨hold, hsame⟩ := hf hp
      have hlines := h.lines .localdir hold
      show (s.uilist .localdir).lines = (f s.world.app).localdir.map Dirent.rowText
      rw [hsame]
      exact hlines
  cursor := h.cursor
  agrees := h.agrees

/-- An entry is looked up by a right index. -/
theorem use (h : s.Shown) {slot : Option Int}
    (hslot : Use.Agrees ⟨slot, s.list.lines, s.ents s.focus⟩) : (s.use slot).2.Shown where
  stack_eq := h.stack_eq
  seen_le := h.seen_le
  done := h.done
  lines := h.lines
  cursor := h.cursor
  agrees u hu := by
    rcases List.mem_cons.mp hu with rfl | hu
    · exact hslot
    · exact h.agrees u hu

/-! ### Calls into the client -/

/-- The callbacks stay as they are, and so does the local directory while its list is current. -/
theorem hosts (h : s.Shown) :
    Hosts Ages (fun a _ => s.world.app.Aged a) s.world := ⟨h.done, .refl _⟩

/-- A call into the client after which they do. -/
theorem call (h : s.Shown) (env : Env) (i : Input Screen)
    (hi : Hosts Ages (fun a _ => s.world.app.Aged a) (s.world.step env i)) :
    ({ s with world := s.world.step env i } : Ui).Shown := by
  obtain ⟨new, hlog, hnew⟩ := SameEntries.steps (steps_run h.stack_eq [(env, i)])
  have hlog' : (s.world.step env i).log = new ++ s.world.log := hlog
  refine ⟨stack_run h.stack_eq [(env, i)], ?_, hi.done, ?_, h.cursor, h.agrees⟩
  · show s.seen ≤ (s.world.step env i).log.length
    rw [hlog', List.length_append]
    exact h.seen_le.trans (Nat.le_add_left _ _)
  intro p hp
  cases p with
  | remote =>
    -- the events since the list was filled are the new ones and those before
    have htake : (s.world.step env i).log.take ((s.world.step env i).log.length - s.seen) =
        new ++ s.world.log.take (s.world.log.length - s.seen) := by
      rw [hlog', List.length_append, Nat.add_sub_assoc h.seen_le, List.take_length_add_append]
    have hcur : ∀ e ∈ new ++ s.world.log.take (s.world.log.length - s.seen),
        e.endsListing = false := htake ▸ hp
    rcases hnew with ⟨e, he, hends⟩ | hsame
    · exact absurd (hcur e (List.mem_append_left _ he)) (by simp [hends])
    · have hold := h.lines .remote fun e he => hcur e (List.mem_append_right _ he)
      have hsame' : (s.world.step env i).ftp.dirent = s.world.ftp.dirent := hsame
      show (s.uilist .remote).lines = (s.world.step env i).ftp.dirent.map Dirent.rowText
      rw [hsame']
      exact hold
  | localdir =>
    obtain ⟨hold, hsame⟩ := hi.app hp
    have hlines := h.lines .localdir hold
    show (s.uilist .localdir).lines = (s.world.step env i).app.localdir.map Dirent.rowText
    rw [hsame]
    exact hlines

/-- A callback ages what is there. -/
theorem aged_callback (a : Screen) : ∀ d, Ages d → ∀ x b (_ : List Dirent), a.Aged b →
    a.Aged (d x b) := fun _ hd x b _ h => h.trans (hd x b)

theorem queue (h : s.Shown) (op : Op) (hop : op.transfer? = none) : (s.queue op hop).Shown :=
  h.call s.world.env _ (h.hosts.queue (aged_callback _) _ op hop)

theorem transfer (h : s.Shown) {x : Xfer Screen} (hx : Ages x.done) : (s.transfer x).Shown :=
  h.call s.world.env _ (h.hosts.transfer (aged_callback _) _ hx)

theorem handle (h : s.Shown) (env : Env) (fd : Fd) :
    ({ s with world := s.world.step env (.handle fd) } : Ui).Shown :=
  h.call env _ (h.hosts.handle (aged_callback _) (fun _ _ _ ha => ha) env fd)

/-- Queueing a transfer leaves the entries of the remote directory alone. -/
theorem dirent_transfer (h : s.Shown) {x : Xfer Screen} (hx : Ages x.done) :
    (s.transfer x).world.ftp.dirent = s.world.ftp.dirent := by
  have hhosts : Hosts Ages (fun _ l => l = s.world.ftp.dirent) s.world := ⟨h.done, rfl⟩
  exact (hhosts.transfer (fun _ _ _ _ _ hl => hl) s.world.env hx).app

/-! ### Keys -/

/-- The loop of `act_transfer`. -/
theorem downloadLoop (h : s.Shown) (hf : s.focus = .remote) (hm : s.Matches .remote)
    {slots : List (Option Int)} (hslots : (s.uilist .remote).Filled slots) :
    (Ui.downloadLoop slots s).Shown := by
  induction slots generalizing s with
  | nil => exact h
  | cons slot slots ih =>
    have hused : (s.use slot).2.Shown := by
      obtain ⟨i, rfl, hi⟩ := hslots slot List.mem_cons_self
      refine h.use ?_
      rw [list, hf]
      exact hm.agrees hi
    rw [Ui.downloadLoop]
    split
    · exact hused
    · next ent hent =>
      dsimp only
      split
      · have hfail : ({ (s.use slot).2 with fopens := s.fopens.tail } : Ui).Shown :=
          hused.congr rfl rfl rfl rfl
        exact hfail.mapScreen (.refl _)
      · have hopen : ({ (s.use slot).2 with
            fopens := s.fopens.tail
            opened := fixname s.short ent.name :: s.opened } : Ui).Shown :=
          hused.congr rfl rfl rfl rfl
        refine ih ((hopen.transfer ages_xferDone).mapScreen (.refl _)) hf ?_ ?_
        · have hsame := hopen.dirent_transfer
            (x := ⟨⟨⟨.retr, ent.name, some 0, none⟩, ent.size, 0⟩, Screen.xferDone⟩) ages_xferDone
          refine hm.trans ?_
          exact congrArg (List.map Dirent.rowText) hsame.symm
        · exact fun slot' hslot' => hslots slot' (List.mem_cons_of_mem slot hslot')

/-- The loop of `act_delete`. -/
theorem deleteLoop (h : s.Shown) (hf : s.focus = .localdir) (hm : s.Matches .localdir)
    {slots : List (Option Int)} (hslots : (s.uilist .localdir).Filled slots) :
    (Ui.deleteLoop slots s).Shown := by
  induction slots generalizing s with
  | nil => exact h
  | cons slot slots ih =>
    have hused : (s.use slot).2.Shown := by
      obtain ⟨i, rfl, hi⟩ := hslots slot List.mem_cons_self
      refine h.use ?_
      rw [list, hf]
      exact hm.agrees hi
    have hrest : (s.uilist .localdir).Filled slots :=
      fun slot' hslot' => hslots slot' (List.mem_cons_of_mem slot hslot')
    rw [Ui.deleteLoop]
    split
    · exact hused
    · next ent hent =>
      split
      · have hremove : ({ (s.use slot).2 with removed := ent.name :: s.removed } : Ui).Shown :=
          hused.congr rfl rfl rfl rfl
        exact ih (hremove.mapScreen (.refl _)) hf hm hrest
      · exact ih hused hf hm hrest

/-- When it is safe, the cursor is on an entry. -/
theorem pointed (h : s.Shown) {k : Key} (hk : s.Sure k) (hne : s.ents s.focus ≠ []) :
    0 ≤ s.list.cur ∧ s.list.cur < s.list.entries.length :=
  h.cursor s.focus ((h.lines _ hk.current).entries_ne_nil hne)

/-- The entry under the cursor is looked up. -/
theorem useCur (h : s.Shown) {k : Key} (hk : s.Sure k) (h8 : k ≠ .f8) :
    (s.use (some s.list.cur)).2.Shown := by
  obtain ⟨h₀, h₁⟩ := h.pointed hk (hk.nonempty.resolve_right fun h' => h8 h'.1)
  refine h.use ?_
  obtain ⟨i, hi⟩ := Int.eq_ofNat_of_zero_le h₀
  rw [hi] at h₁ ⊢
  exact (h.lines _ hk.current).agrees (by exact_mod_cast h₁)

theorem actActivate (h : s.Shown) (hk : s.Sure .enter) : s.actActivate.Shown := by
  have hused := h.useCur hk (by simp)
  rw [Ui.actActivate]
  split
  · exact hused
  split
  · split
    · exact hused.queue _ _
    · split
      · exact hused.mapScreen (Screen.aged_chdir _)
      · exact hused.mapScreen (Screen.aged_chdir _)
  · exact hused

theorem actView (h : s.Shown) (hk : s.Sure .f3) : s.actView.Shown := by
  have hused := h.useCur hk (by simp)
  rw [Ui.actView]
  split
  · exact hused
  split
  · exact hused.transfer ages_viewDone
  · have hread : ({ (s.use (some s.list.cur)).2 with reads := s.reads.tail } : Ui).Shown :=
      hused.congr rfl rfl rfl rfl
    dsimp only
    split <;> exact hread.mapScreen (.refl _)

theorem actTransfer (h : s.Shown) (hf : s.focus = .remote) (hk : s.Sure .f5) :
    s.actTransfer.Shown := by
  have hcur := h.pointed hk (hk.nonempty.resolve_right fun h' => by simp at h')
  have hfill := TuiList.filled_transferSel (.of_numSel (hk.counted (.inl rfl))) hcur
  have hm := h.lines _ hk.current
  rw [list, hf] at hfill
  rw [hf] at hm
  rw [Ui.actTransfer, hf, list, hf]
  exact h.downloadLoop hf hm hfill

theorem actDelete (h : s.Shown) (hf : s.focus = .localdir) (hk : s.Sure .f8) :
    s.actDelete.Shown := by
  have hfill := TuiList.filled_deleteSel (.of_numSel (hk.counted (.inr rfl))) fun hcur =>
    h.pointed hk (hk.nonempty.resolve_right fun h' => hcur h'.2)
  have hm := h.lines _ hk.current
  rw [list, hf] at hfill
  rw [hf] at hm
  have hloop := h.deleteLoop hf hm hfill
  rw [Ui.actDelete, hf, list, hf]
  dsimp only
  split
  · exact hloop.mapScreen (Screen.aged_updateLocaldir _)
  · exact hloop

/-- A key that goes to the panes. -/
theorem keypress (h : s.Shown) (k : Key)
    (hk : s.world.app.viewer.isOpen = false → k.looksUp s.focus = true → s.Sure k) :
    (Ui.keypress k s).2.Shown := by
  unfold Ui.keypress
  split
  · dsimp only
    exact h.mapScreen (.refl _)
  next hclosed =>
  replace hk := hk (Bool.eq_false_iff.mpr hclosed)
  cases k with
  | tab => exact h.congr rfl rfl rfl rfl
  | ins => exact h.mapFocused TuiList.moved_selectNext
  | up => exact h.mapFocused TuiList.moved_curPrev
  | down => exact h.mapFocused TuiList.moved_curNext
  | left => exact h.mapFocused TuiList.moved_curStart
  | right => exact h.mapFocused TuiList.moved_curEnd
  | pgup => exact h.mapFocused TuiList.moved_pageUp
  | pgdn => exact h.mapFocused TuiList.moved_pageDown
  | enter => exact h.actActivate (hk rfl)
  | backspace =>
    dsimp only
    split
    · exact h.queue _ _
    · dsimp only
      exact h.mapScreen (Screen.aged_chdir _)
  | f3 => exact h.actView (hk rfl)
  | f5 =>
    cases hf : s.focus with
    | remote => exact h.actTransfer hf (hk (by rw [hf]; rfl))
    | localdir =>
      show s.actTransfer.Shown
      rw [Ui.actTransfer, hf]
      exact h
  | f8 =>
    cases hf : s.focus with
    | remote =>
      show s.actDelete.Shown
      rw [Ui.actDelete, hf]
      exact h
    | localdir => exact h.actDelete hf (hk (by rw [hf]; rfl))
  | esc | q | backquote | home | fin | other => exact h

/-! ### Filling the lists -/

theorem updateTitle (h : s.Shown) : s.updateTitle.Shown := by
  rw [Ui.updateTitle]
  split
  · split
    · exact h.mapList .remote ⟨rfl, id⟩
    · exact h
  · exact h

theorem updateRemote (h : s.Shown) : s.updateRemote.Shown := by
  rw [Ui.updateRemote]
  split
  · refine ⟨h.stack_eq, le_rfl, h.done, ?_, ?_, h.agrees⟩
    · rintro (- | -) hp
      · exact TuiList.lines_fill _ _
      · exact h.lines .localdir hp
    · rintro (- | -)
      · exact TuiList.pointed_fill _ _
      · exact h.cursor .localdir
  · exact h

theorem updateLocal (h : s.Shown) : s.updateLocal.Shown := by
  rw [Ui.updateLocal]
  split
  · refine ⟨h.stack_eq, h.seen_le, h.done, ?_, ?_, h.agrees⟩
    · rintro (- | -) hp
      · exact h.lines .remote hp
      · exact TuiList.lines_fill _ _
    · rintro (- | -)
      · exact h.cursor .remote
      · exact TuiList.pointed_fill _ _
  · exact h

/-! ### Runs -/

/-- **One step of the main loop**, with care. -/
theorem step (h : s.Shown) {i : UiInput} (hi : i.Careful s) : (s.step i).Shown := by
  unfold Ui.step
  split
  · cases i with
    | key env k =>
      have henv : ({ s with world := { s.world with env := env } } : Ui).Shown :=
        ⟨h.stack_eq, h.seen_le, h.done, h.lines, h.cursor, h.agrees⟩
      exact (henv.keypress k fun ho hl => ⟨(hi ho hl).1, (hi ho hl).2, (hi ho hl).3⟩).congr
        rfl rfl rfl rfl
    | handle env fd => exact h.handle env fd
    | goto env dir => exact h.call env _ (h.hosts.queue (aged_callback _) _ _ rfl)
    | update =>
      dsimp only
      split
      · exact h.mapScreen (.refl _)
      · exact h.updateTitle.updateRemote.updateLocal
  · exact h

/-- **Whole runs.** -/
theorem run (h : s.Shown) {inputs : List UiInput}
    (hcare : ∀ past i, past ++ [i] <+: inputs → i.Careful (s.run past)) :
    (s.run inputs).Shown := by
  induction inputs using List.reverseRecOn with
  | nil => exact h
  | append_singleton inputs i ih =>
    rw [run_append_singleton]
    refine (ih fun past j hpast => ?_).step (hcare inputs i List.prefix_rfl)
    exact hcare past j (hpast.trans (List.prefix_append inputs [i]))

end Shown

end Ui

/-- **What is shown is acted on.** In every run in which the keys that look up an entry are pressed
with care, every index they use is one of the array and of the list, and the line at the index was
made from the entry at the index. -/
theorem agrees_run (ctl : Fd) (user pass : Option Bytes) (short : Bool) (screen : Screen)
    (fopens : List (Option Bytes)) (reads : List FileRead) (inputs : List UiInput)
    (hcare : ∀ past i, past ++ [i] <+: inputs →
      i.Careful ((Ui.start ctl user pass short screen fopens reads).run past)) :
    ∀ u ∈ ((Ui.start ctl user pass short screen fopens reads).run inputs).used, u.Agrees := by
  have hstart : (Ui.start ctl user pass short screen fopens reads).Shown := by
    refine ⟨rfl, le_rfl, fun _ _ a => .refl a, ?_, ?_, by simp [Ui.start]⟩
    · rintro (- | -) hp
      · rfl
      · simp [Ui.Current, Ui.start, World.connected] at hp
    · rintro (- | -) hne <;> exact absurd rfl hne
  exact (hstart.run hcare).agrees

/-- The program in a directory that holds a directory with one file, and a file. -/
def browsing : Ui :=
  Ui.start 3 none none false
    ⟨ascii "/home", [⟨ascii "d", .dir, 0⟩, ⟨ascii "f", .file, 1⟩], true, Viewer.init, true, [],
      [some [⟨ascii "x", .file, 1⟩, ⟨ascii "..", .dir, 0⟩]], [some (ascii "/home/d")]⟩ [] []

/-- The second file of the local directory is deleted. -/
theorem agrees_run_delete : Use.Agrees ⟨some 1, [ascii "d/", ascii "f"],
    [⟨ascii "d", .dir, 0⟩, ⟨ascii "f", .file, 1⟩]⟩ := by
  refine agrees_run 3 none none false browsing.world.app [] []
    [.update, .key Env.quiet .tab, .key Env.quiet .down, .key Env.quiet .f8]
    (fun past i hpast => ?_) _ (List.mem_of_getElem? (i := 0) rfl)
  rcases past with - | ⟨a, - | ⟨b, - | ⟨c, - | ⟨d, past⟩⟩⟩⟩ <;>
    simp only [List.nil_append, List.cons_append, List.cons_prefix_cons, List.nil_prefix,
      and_true, List.prefix_nil, List.append_eq_nil_iff, List.cons_ne_self,
      and_false] at hpast
  · subst hpast
    trivial
  · obtain ⟨rfl, rfl⟩ := hpast
    intro _ hl
    exact absurd hl (by decide)
  · obtain ⟨rfl, rfl, rfl⟩ := hpast
    intro _ hl
    exact absurd hl (by decide)
  · obtain ⟨rfl, rfl, rfl, rfl⟩ := hpast
    intro _ _
    exact ⟨rfl, .inl (by decide), fun _ => by decide⟩

/-- A directory is entered, and an entry is looked up before the directory is shown. -/
theorem not_agrees_run : ¬∀ inputs, ∀ u ∈ (browsing.run inputs).used, u.Agrees := by
  intro h
  obtain ⟨i, ent, hi, hent, hline⟩ := h [.update, .key Env.quiet .tab, .key Env.quiet .enter,
    .key Env.quiet .down, .key Env.quiet .f8]
    ⟨some 1, [ascii "d/", ascii "f"], [⟨ascii "..", .dir, 0⟩, ⟨ascii "x", .file, 1⟩]⟩
    (List.mem_of_getElem? (i := 0) rfl)
  obtain rfl : i = 1 := by simpa using hi.symm
  obtain rfl : ent = ⟨ascii "x", .file, 1⟩ := by simpa using hent.symm
  exact absurd hline (by decide)

/-- The file that is deleted is not the one under the cursor. -/
example : (browsing.run [.update, .key Env.quiet .tab, .key Env.quiet .enter,
    .key Env.quiet .down, .key Env.quiet .f8]).removed = [ascii "x"] := by
  decide +kernel

end Visftp
