import Visftp.Lifetimes
import Visftp.Names
import Visftp.Received

/-!
# Which local files a download writes

`act_transfer` opens a local file for each selected entry of the remote directory. The name is the
entry's, and `fixname` changes it only in a DOS build on a system without long file names. The
entry's name comes from the server, and nothing takes a directory separator out of it.

## Main definitions

* `Plain` — a name that stays in its directory
* `HeapOf` — the memory that a listing may have been read beyond
* `Ui.Taken`, `Ui.Opens` — the entries that `F5` is for, and what is opened for them

## Main results

* `plain_fixname` — `fixname` leads out of a directory only where the name did before
* `listed_run` — the entries of the remote directory were received
* `opened_run` — the files that are opened in a run
-/

namespace Visftp

open CString Relation Session

/-! ### Names of local files -/

/-- **A name stays in its directory**: it has no separator, and is not the directory above. -/
def Plain (name : Bytes) : Prop := 47 ∉ name ∧ name ≠ ascii ".."

instance (name : Bytes) : Decidable (Plain name) := inferInstanceAs (Decidable (_ ∧ _))

/-- Only dots are put into a name. -/
theorem mem_of_mem_fixname {short : Bool} {src : Bytes} {b : Byte} (hb : b ≠ 46)
    (h : b ∈ fixname short src) : b ∈ cstr src := by
  rw [fixname] at h
  split_ifs at h with hs hdot
  · rcases List.mem_append.mp h with h | h
    · exact (List.rdropWhile_prefix _ _).subset (List.mem_of_mem_dropLast (List.mem_of_mem_take h))
    · have hmem := (List.mem_cons.mp h).resolve_left hb
      exact (List.rtakeWhile_suffix _ _).subset (List.mem_of_mem_take hmem)
  · exact List.mem_of_mem_take h
  · exact h

/-- A name with a dot is what stands before its last dot, the dot, and what stands behind it. -/
theorem dropLast_rdropWhile {l : Bytes} (h : 46 ∈ l) :
    (l.rdropWhile (· != 46)).dropLast ++ 46 :: l.rtakeWhile (· != 46) = l := by
  have hne : l.rdropWhile (· != 46) ≠ [] := by
    intro hnil
    have hall := List.rdropWhile_eq_nil_iff.mp hnil 46 h
    simp at hall
  have hlast : (l.rdropWhile (· != 46)).getLast hne = 46 := by
    simpa using List.rdropWhile_last_not (· != 46) l hne
  have hfront := List.dropLast_append_getLast hne
  rw [hlast] at hfront
  calc (l.rdropWhile (· != 46)).dropLast ++ 46 :: l.rtakeWhile (· != 46)
      = (l.rdropWhile (· != 46)).dropLast ++ [46] ++ l.rtakeWhile (· != 46) := by simp
    _ = l := by rw [hfront, List.rdropWhile_append_rtakeWhile]

/-- A list of eight and more is not cut to less. -/
theorem eq_of_take_eq {l m : Bytes} {n : ℕ} (h : l.take n = m) (hm : m.length < n) : l = m := by
  have hlen : l.length ≤ n := by
    by_contra hlt
    rw [← h, List.length_take_of_le (by omega)] at hm
    omega
  rwa [List.take_of_length_le hlen] at h

theorem fixname_eq_dotdot {short : Bool} {src : Bytes} (h : fixname short src = ascii "..") :
    cstr src = ascii ".." := by
  rw [fixname] at h
  split_ifs at h with hs hdot
  · rw [show ascii ".." = [46, 46] from rfl] at h ⊢
    rcases List.append_eq_cons_iff.mp h with ⟨-, hrest⟩ | ⟨front, hfront, hrest⟩
    · -- the second dot would be behind the last
      have hmem : (46 : Byte) ∈ ((cstr src).rtakeWhile (· != 46)).take 3 := by
        rw [(List.cons.inj hrest).2]
        exact List.mem_singleton_self _
      have hno := List.mem_rtakeWhile_imp (List.mem_of_mem_take hmem)
      simp at hno
    · have hfront' : front = [] ∧ ((cstr src).rtakeWhile (· != 46)).take 3 = [] := by
        cases front with
        | nil => simpa using hrest
        | cons x front => simp at hrest
      rw [hfront'.1] at hfront
      have hbase := eq_of_take_eq hfront (by decide)
      have hsuffix := eq_of_take_eq hfront'.2 (by decide)
      rw [← dropLast_rdropWhile hdot, hbase, hsuffix]
      rfl
  · have hdots := eq_of_take_eq h (by decide)
    rw [hdots] at hdot
    exact absurd (by decide) hdot
  · exact h

/-- **A name that stays in its directory** does so when it has been shortened. -/
theorem plain_fixname {src : Bytes} (short : Bool) (h : Plain (cstr src)) :
    Plain (fixname short src) :=
  ⟨fun hmem => h.1 (mem_of_mem_fixname (by decide) hmem), fun heq => h.2 (fixname_eq_dotdot heq)⟩

/-! ### The entries of the remote directory -/

/-- **What lies in memory at a moment of a run**: what does so in the call for a readable descriptor
in which the last event happened. `log` is the history after each part of the run. -/
def HeapOf (log : List UiInput → List Event) (inputs : List UiInput) : Heap := fun moment beyond =>
  ∃ before env fd after, inputs = before ++ .handle env fd :: after ∧
    (log before).length < moment.length ∧ moment <:+ log (before ++ [.handle env fd]) ∧
    env.heap = beyond

section Listed

variable {s s' : Ui} {heap : Heap} {i : UiInput}

/-- No data is received by what a key leads to. -/
theorem World.Listed.deeds (h : s.world.Listed heap) (hd : Ui.Deeds i s s')
    (hi : ∀ env fd, i ≠ .handle env fd) : s'.world.Listed heap := by
  induction hd with
  | refl => exact h
  | @tail s₁ _ _ hdeed ih =>
    cases hdeed with
    | beside hw _ _ =>
      rw [hw]
      exact ih
    | ask | move | screen | scroll => exact ih.congr rfl
    | queue env op hop => exact ih.call env (.queue op hop) nofun
    | download ent => exact ih.call s₁.world.env (.transfer (Ui.downloadXfer ent)) nofun
    | view ent => exact ih.call s₁.world.env (.transfer (Ui.viewXfer ent)) nofun
    | handle env fd heq => exact absurd heq (hi env fd)

/-- **One step of the main loop.** -/
theorem World.Listed.step (h : s.world.Listed heap)
    (hheap : ∀ env fd, i = .handle env fd → ∀ moment, s.world.log.length < moment.length →
      moment <:+ (s.step i).world.log → heap moment env.heap) :
    (s.step i).world.Listed heap := by
  by_cases hi : ∃ env fd, i = .handle env fd
  · obtain ⟨env, fd, rfl⟩ := hi
    rw [Ui.step.eq_def] at hheap ⊢
    split at hheap
    · next hrun =>
      rw [if_pos hrun]
      exact h.call env (.handle fd) fun _ _ => hheap env fd rfl
    · next hrun =>
      rw [if_neg hrun]
      exact h
  · rcases s.deeds_or_account i with hdeeds | haccount
    · exact h.deeds hdeeds fun env fd heq => hi ⟨env, fd, heq⟩
    · exact h.congr (congrArg Prod.fst haccount)

end Listed

/-- **In every run**, the entries of the remote directory are those of a listing whose end was
received. -/
theorem listed_run {s₀ : Ui} (h : ∀ heap, s₀.world.Listed heap) (inputs : List UiInput) :
    (s₀.run inputs).world.Listed (HeapOf (fun past => (s₀.run past).world.log) inputs) := by
  suffices hprefix : ∀ past, past <+: inputs → (s₀.run past).world.Listed
      (HeapOf (fun past => (s₀.run past).world.log) inputs) from hprefix _ List.prefix_rfl
  intro past hpast
  induction past using List.reverseRecOn with
  | nil => exact h _
  | append_singleton past i ih =>
    rw [Ui.run_append_singleton]
    refine (ih ((List.prefix_append ..).trans hpast)).step ?_
    rintro env fd rfl moment hlen hmoment
    obtain ⟨after, rfl⟩ := hpast
    rw [← Ui.run_append_singleton] at hmoment
    exact ⟨past, env, fd, after, by simp, hlen, hmoment, rfl⟩

/-! ### The main loop -/

namespace Ui

variable {s : Ui}

/-- The files that were opened, and whether names are shortened. -/
def files (s : Ui) : List Bytes × Bool := (s.opened, s.short)

theorem files_deleteLoop (slots : List (Option Int)) (s : Ui) :
    (deleteLoop slots s).files = s.files := by
  induction slots generalizing s with
  | nil => rfl
  | cons slot slots ih =>
    rw [deleteLoop]
    split
    · rfl
    · refine (ih _).trans ?_
      split <;> rfl

theorem files_actDelete (s : Ui) : s.actDelete.files = s.files := by
  rw [actDelete]
  split
  · rfl
  · dsimp only
    split <;> exact files_deleteLoop _ s

theorem files_actActivate (s : Ui) : s.actActivate.files = s.files := by
  rw [actActivate]
  split
  · rfl
  split
  · split
    · rfl
    · split <;> rfl
  · rfl

theorem files_actView (s : Ui) : s.actView.files = s.files := by
  rw [actView]
  split
  · rfl
  split
  · rfl
  · dsimp only
    split <;> rfl

theorem files_updateui (s : Ui) : s.updateui.files = s.files := by
  have htitle : s.updateTitle.files = s.files := by
    rw [updateTitle]
    split
    · split <;> rfl
    · rfl
  have hremote : ∀ s : Ui, s.updateRemote.files = s.files := fun s => by
    rw [updateRemote]
    split <;> rfl
  have hlocal : ∀ s : Ui, s.updateLocal.files = s.files := fun s => by
    rw [updateLocal]
    split <;> rfl
  rw [updateui, hlocal, hremote, htitle]

/-- The entries that `act_transfer` is for: those that are selected, or the one that the cursor is
on. -/
def Taken (s : Ui) (ent : Dirent) : Prop :=
  ∃ n, some n ∈ usedSlots s.list.transferSel ∧ entryAt s.world.ftp.dirent n = some ent

/-- The loop of `act_transfer`. A transfer that is begun in it leaves the entries alone. -/
theorem opened_downloadLoop (hs : stack s.world.log = []) (hf : s.focus = .remote)
    (slots : List (Option Int)) : (downloadLoop slots s).short = s.short ∧
      ∀ name ∈ (downloadLoop slots s).opened, name ∈ s.opened ∨
        ∃ n ent, some n ∈ slots ∧ entryAt s.world.ftp.dirent n = some ent ∧
          name = fixname s.short ent.name := by
  induction slots generalizing s with
  | nil => exact ⟨rfl, fun name hname => .inl hname⟩
  | cons slot slots ih =>
    rw [downloadLoop]
    split
    · exact ⟨rfl, fun name hname => .inl hname⟩
    next ent hent =>
    dsimp only
    split
    · exact ⟨rfl, fun name hname => .inl hname⟩
    obtain ⟨n, rfl, hn⟩ := Option.bind_eq_some_iff.mp hent
    rw [hf] at hn
    set x : Xfer Screen := ⟨⟨⟨.retr, ent.name, some 0, none⟩, ent.size, 0⟩, Screen.xferDone⟩ with hx
    -- the file has been opened, and its transfer is queued
    have hdirent : (s.world.step s.world.env (.transfer x)).ftp.dirent = s.world.ftp.dirent :=
      (entries_step s.world.env (.transfer x) hs).resolve_right fun h => by simp at h
    have hstack : stack (s.world.step s.world.env (.transfer x)).log = [] :=
      stack_run hs [(s.world.env, .transfer x)]
    obtain ⟨hshort, hopened⟩ := ih (s := (transfer x { (s.use (some n)).2 with
      fopens := s.fopens.tail, opened := fixname s.short ent.name :: s.opened }).mapScreen fun c =>
        { c with localModified := true }) hstack hf
    refine ⟨hshort, fun name hname => ?_⟩
    rcases hopened name hname with hold | ⟨m, ent', hm, hent', rfl⟩
    · rcases List.mem_cons.mp hold with rfl | hold
      · exact .inr ⟨n, ent, List.mem_cons_self, hn, rfl⟩
      · exact .inl hold
    · refine .inr ⟨m, ent', List.mem_cons_of_mem _ hm, ?_, rfl⟩
      rw [← hdirent]
      exact hent'

/-- **What a step opens**: nothing, or, when it is `F5` in the remote pane, files for the entries
that are taken. -/
structure Opens (s s' : Ui) (f5 : Prop) : Prop where
  short_eq : s'.short = s.short
  opened : ∀ name ∈ s'.opened, name ∈ s.opened ∨
    f5 ∧ s.focus = .remote ∧ ∃ ent, s.Taken ent ∧ name = fixname s.short ent.name

theorem Opens.of_files {s' : Ui} {f5 : Prop} (h : s'.files = s.files) : Opens s s' f5 := by
  obtain ⟨hopened, hshort⟩ := Prod.ext_iff.mp h
  exact ⟨hshort, fun name hname => .inl (hopened.subst (motive := (name ∈ ·)) hname)⟩

theorem opens_keypress (hs : stack s.world.log = []) (k : Key) :
    Opens s (keypress k s).2 (k = .f5) := by
  rw [keypress.eq_def]
  split
  · exact .of_files rfl
  cases k with
  | enter => exact .of_files s.files_actActivate
  | f3 => exact .of_files s.files_actView
  | f8 => exact .of_files s.files_actDelete
  | backspace =>
    dsimp only
    split <;> exact .of_files rfl
  | f5 =>
    show Opens s s.actTransfer _
    rw [actTransfer]
    split
    · next hf =>
      obtain ⟨hshort, hopened⟩ := opened_downloadLoop hs hf (usedSlots s.list.transferSel)
      refine ⟨hshort, fun name hname => (hopened name hname).imp_right ?_⟩
      rintro ⟨n, ent, hn, hent, hname⟩
      exact ⟨rfl, hf, ent, ⟨n, hn, hent⟩, hname⟩
    · exact .of_files rfl
  | _ => exact .of_files rfl

/-- **One step of the main loop.** -/
theorem opens_step (hs : stack s.world.log = []) (i : UiInput) :
    Opens s (s.step i) (∃ env, i = .key env .f5) := by
  rw [step.eq_def]
  split
  swap
  · exact .of_files rfl
  cases i with
  | key env k =>
    have hkey := opens_keypress (s := { s with world := { s.world with env := env } }) hs k
    refine ⟨hkey.short_eq, fun name hname => (hkey.opened name hname).imp_right ?_⟩
    rintro ⟨rfl, hf, hent⟩
    exact ⟨⟨env, rfl⟩, hf, hent⟩
  | handle | goto => exact .of_files rfl
  | update =>
    dsimp only
    split
    · exact .of_files rfl
    · exact .of_files s.files_updateui

end Ui

/-- **The files a run opens.** Every local file that `act_transfer` opens for writing was opened for
an entry that was taken when `F5` was pressed: one of the remote directory at that moment, which
was read from a listing as it had been received. Its name is what `fixname` makes of the entry's
name. It leads out of the directory only if the entry's name does, and, unless the name was
shortened, it is the entry's name. -/
theorem opened_run (ctl : Fd) (user pass : Option Bytes) (short : Bool) (screen : Screen)
    (fopens : List (Option Bytes)) (reads : List FileRead) (inputs : List UiInput) {name : Bytes}
    (h : name ∈ ((Ui.start ctl user pass short screen fopens reads).run inputs).opened) :
    ∃ before env after ent, inputs = before ++ .key env .f5 :: after ∧
      let s := (Ui.start ctl user pass short screen fopens reads).run before
      let log := fun past => ((Ui.start ctl user pass short screen fopens reads).run past).world.log
      s.focus = .remote ∧ s.Taken ent ∧
        Received (HeapOf log before) s.world.log s.world.ftp.dirent ∧
        name = fixname short ent.name ∧ (Plain ent.name → Plain name) ∧
        (short = false → name = ent.name) := by
  have hstart : ∀ heap,
      (Ui.start ctl user pass short screen fopens reads).world.Listed heap :=
    fun _ => .connected ctl user pass _
  have hshort : ∀ past, ((Ui.start ctl user pass short screen fopens reads).run past).short =
      short := by
    intro past
    induction past using List.reverseRecOn with
    | nil => rfl
    | append_singleton past i ih =>
      rw [Ui.run_append_singleton]
      exact (Ui.opens_step (listed_run hstart past).stack_eq i).short_eq.trans ih
  induction inputs using List.reverseRecOn with
  | nil => exact absurd h List.not_mem_nil
  | append_singleton past i ih =>
    rw [Ui.run_append_singleton] at h
    have hlisted := listed_run hstart past
    rcases (Ui.opens_step hlisted.stack_eq i).opened name h with
      hold | ⟨⟨env, rfl⟩, hf, ent, hent, rfl⟩
    · obtain ⟨before, env, after, ent, rfl, hrest⟩ := ih hold
      exact ⟨before, env, after ++ [i], ent, by simp, hrest⟩
    · obtain ⟨n, -, hn⟩ := id hent
      have hmem : ent ∈ _ := Ui.mem_of_entryAt hn
      have hreceived := hlisted.dirent.resolve_left (List.ne_nil_of_mem hmem)
      obtain ⟨_, _, _, _, -, -, hents⟩ := id hreceived
      have hcstr : cstr ent.name = ent.name := cstr_eq_self (nul_notMem_name (hents ▸ hmem))
      refine ⟨past, env, [], ent, rfl, hf, hent, hreceived, by rw [hshort], ?_, ?_⟩
      · intro hplain
        exact plain_fixname _ (hcstr.symm ▸ hplain)
      · rintro rfl
        rw [hshort]
        exact hcstr

theorem opened_run_one_file :
    let inputs := downloadOf (ascii "-rw-r--r-- 1 u g 1 Jan 1 00:00 f\r\n")
    ∃ before env after ent, inputs = before ++ .key env .f5 :: after ∧
      let s := freshUi.run before
      s.focus = .remote ∧ s.Taken ent ∧
        Received (HeapOf (fun past => (freshUi.run past).world.log) before) s.world.log
          s.world.ftp.dirent ∧
        ascii "f" = fixname false ent.name ∧ (Plain ent.name → Plain (ascii "f")) ∧
        (false = false → ascii "f" = ent.name) :=
  opened_run 3 none none false _ [] [] (downloadOf (ascii "-rw-r--r-- 1 u g 1 Jan 1 00:00 f\r\n"))
    (by decide +kernel : ascii "f" ∈
      (freshUi.run (downloadOf (ascii "-rw-r--r-- 1 u g 1 Jan 1 00:00 f\r\n"))).opened)

/-- The server chooses the directory. -/
theorem not_plain_run : ascii "../x" ∈ (freshUi.run (downloadOf
    (ascii "-rw-r--r-- 1 u g 1 Jan 1 00:00 ../x\r\n"))).opened ∧ ¬Plain (ascii "../x") := by
  decide +kernel

end Visftp
