import Visftp.Downloads
import Visftp.Rounds
import Visftp.Upkeep

/-!
# Where the strings come from

Every string that the program sends has been given to it: the user and the password on the command
line or in the configuration, the directories by the configuration or by a listing that was received
before, and the files by such a listing.

That the client makes its commands of nothing else is known of every set of strings (`Upkeep`). Here
the set is the one of a moment: what is known by then.

## Main definitions

* `Told` — the names in listings
* `Login.Origin` — what a command may contain

## Main results

* `origin_run` — every command, when it is sent
* `account_run` — whose user and password are sent
-/

namespace Visftp

open CString Histories Relation Session

variable {α : Type}

/-- An entry of a listing whose end was received has this name. -/
def Told (heap : Heap) (log : List Event) (name : Bytes) : Prop :=
  ∃ ents, Received heap log ents ∧ ∃ ent ∈ ents, ent.name = name

theorem Told.mono {heap : Heap} {past log : List Event} {name : Bytes}
    (h : Told heap past name) (hl : past <:+ log) : Told heap log name := by
  obtain ⟨ents, hents, hname⟩ := h
  exact ⟨ents, hents.mono hl, hname⟩

theorem World.Listed.told {heap : Heap} {w : World α} (h : w.Listed heap)
    {ent : Dirent} (hent : ent ∈ w.ftp.dirent) : Told heap w.log ent.name :=
  ⟨w.ftp.dirent, h.dirent.resolve_left (List.ne_nil_of_mem hent), ent, hent, rfl⟩

/-! ### Commands -/

/-- More strings are allowed. -/
theorem Upkeep.monoGiven {g g' : Given} {n : ℕ} {R : Int → Prop} {w : World α} (h : Upkeep g n R w)
    (hu : g'.user = g.user) (hp : g'.pass = g.pass) (hd : ∀ d, g.dirs d → g'.dirs d)
    (hn : ∀ name, g.names name → g'.names name) : Upkeep g' n R w where
  user := h.user.trans hu.symm
  pass := h.pass.trans hp.symm
  made := h.made
  queue op hop := by
    have hq := h.queue op hop
    cases op with
    | chdir d => exact hd d hq
    | _ => exact hq
  names t ht := hn _ (h.names t ht)
  sent c hc := by
    have hs := h.sent c hc
    cases c with
    | user u => exact hs.trans (by rw [hu])
    | pass p => exact hs.trans (by rw [hp])
    | cwd d => exact ⟨hd d hs.1, hs.2⟩
    | retr t name => exact hn name hs
    | _ => exact hs
  resp := h.resp
  closed := h.closed
  silent := h.silent
  stalled := h.stalled

namespace Login

/-- **What a command may contain** when it is sent. -/
def Origin (l : Login) (heap : Heap) (past : List Event) : Event → Prop
  | .sent (.user u) => u = (l.auth.map Prod.fst).getD (ascii "anonymous")
  | .sent (.pass p) => p = (l.auth.map Prod.snd).getD (ascii "foobar")
  | .sent (.cwd d) => (l.dir = some d ∨ Told heap past d) ∧ d ≠ ascii ".."
  | .sent (.retr _ name) => Told heap past name
  | _ => True

/-- The strings that are known. -/
def given (l : Login) (heap : Heap) (log : List Event) : Given where
  user := l.auth.map Prod.fst
  pass := l.auth.map Prod.snd
  dirs d := l.dir = some d ∨ Told heap log d
  names := Told heap log

theorem origin_of_sends {l : Login} {heap : Heap} {log past : List Event}
    (h : log <:+ past) {e : Event} (hs : ∀ c, e = .sent c → (l.given heap log).Sends c) :
    l.Origin heap past e := by
  cases e with
  | sent c =>
    have hc := hs c rfl
    cases c with
    | user | pass => exact hc
    | cwd d => exact ⟨hc.1.imp_right fun ht => ht.mono h, hc.2⟩
    | retr t name => exact Told.mono hc h
    | _ => trivial
  | _ => trivial

/-- **What holds between two steps**: no operation is under way, the entries are those of a listing
that was received, the client has been given strings that are known, and so has it been whenever it
sent a command. -/
structure Traced (l : Login) (heap : Heap) (w : World Screen) : Prop where
  listed : w.Listed heap
  upkeep : ∃ n, Upkeep (l.given heap w.log) n (fun _ => True) w
  origin : Always (l.Origin heap) w.log

namespace Traced

variable {l : Login} {heap : Heap} {w w' : World Screen}

/-- What the client does with its session, its user and its password left alone. -/
theorem congr (h : l.Traced heap w) (ha : w'.account = w.account) : l.Traced heap w' := by
  have hview : w'.view = w.view := congrArg Prod.fst ha
  have hlog : w'.log = w.log := congrArg Session.log hview
  obtain ⟨n, hn⟩ := h.upkeep
  refine ⟨h.listed.congr hview, ⟨n, ?_⟩, ?_⟩
  · have hctl : w'.ftp.ctl.isSome = w.ftp.ctl.isSome := congrArg Session.ctl hview
    have hjob : ∀ t, (w'.xfers t).toJob = (w.xfers t).toJob :=
      fun t => congrFun (congrArg Session.jobs hview) t
    rw [hlog]
    exact
      { user := (congrArg (fun a => a.2.1) ha).trans hn.user
        pass := (congrArg (fun a => a.2.2) ha).trans hn.pass
        made := (congrArg Session.njob hview).trans hn.made
        queue := by
          rw [show w'.ftp.queue.toList = w.ftp.queue.toList from congrArg Session.queue hview]
          exact hn.queue
        names := fun t ht => by
          rw [congrArg Job.rname (hjob t)]
          exact hn.names t ht
        sent := hlog ▸ hn.sent
        resp := trivial
        closed := by
          rw [hlog, ← hn.closed, ← Option.not_isSome_iff_eq_none, hctl,
            Option.not_isSome_iff_eq_none]
        silent := hlog ▸ hn.silent
        stalled := hlog ▸ hn.stalled }
  · rw [hlog]
    exact h.origin

/-- **A call into the client** with strings that are known. -/
theorem call (h : l.Traced heap w) (env : Env) (i : Input Screen)
    (hi : i.From (l.given heap w.log))
    (hheap : ∀ fd, i = .handle fd → ∀ moment, w.log.length < moment.length →
      moment <:+ (w.step env i).log → heap moment env.heap) :
    l.Traced heap (w.step env i) := by
  have hgrow : w.log <:+ (w.step env i).log := (runs_step env i h.listed.stack_eq).suffix
  obtain ⟨n, hn⟩ := h.upkeep
  obtain ⟨n', hn'⟩ := upkeep_step env hi hn
  refine ⟨h.listed.call env i hheap, ⟨n', ?_⟩, ?_⟩
  · exact hn'.monoGiven rfl rfl (fun d => Or.imp_right fun ht => ht.mono hgrow)
      fun name ht => ht.mono hgrow
  · rw [always_iff]
    intro new e past hlog
    have hpast : e :: past <:+ (w.step env i).log := hlog ▸ List.suffix_append new (e :: past)
    rcases List.suffix_or_suffix_of_suffix hpast hgrow with hold | hnew
    · exact (always_cons.mp (h.origin.suffix hold)).1
    rcases List.suffix_cons_iff.mp hnew with heq | hlate
    · have hnow : Always (l.Origin heap) (e :: past) := heq ▸ h.origin
      exact (always_cons.mp hnow).1
    · refine origin_of_sends hlate ?_
      rintro c rfl
      exact hn'.sent c (hpast.subset List.mem_cons_self)

/-- The deeds of a step by which no data is received. -/
theorem deeds {s s' : Ui} {i : UiInput} (h : l.Traced heap s.world) (hd : Ui.Deeds i s s')
    (hdirs : ∀ d, i.Goes d → l.dir = some d) (hi : ∀ env fd, i ≠ .handle env fd) :
    l.Traced heap s'.world := by
  induction hd with
  | refl => exact h
  | @tail s₁ s₂ _ hdeed ih =>
    cases hdeed with
    | beside hw _ _ =>
      rw [hw]
      exact ih
    | ask | move | screen | scroll => exact ih.congr rfl
    | queue env op hop hdir =>
      refine ih.call env (.queue op hop) ?_ nofun
      cases op with
      | chdir d =>
        rcases hdir d rfl with hgoto | ⟨ent, hent, rfl⟩
        · exact .inl (hdirs d hgoto)
        · exact .inr (ih.listed.told hent)
      | _ => trivial
    | download ent hent =>
      exact ih.call s₁.world.env (.transfer (Ui.downloadXfer ent)) (ih.listed.told hent) nofun
    | view ent hent =>
      exact ih.call s₁.world.env (.transfer (Ui.viewXfer ent)) (ih.listed.told hent) nofun
    | handle env fd heq => exact absurd heq (hi env fd)

theorem step {s : Ui} (h : l.Traced heap s.world) (i : UiInput)
    (hdirs : ∀ d, i.Goes d → l.dir = some d)
    (hheap : ∀ env fd, i = .handle env fd → ∀ moment, s.world.log.length < moment.length →
      moment <:+ (s.step i).world.log → heap moment env.heap) :
    l.Traced heap (s.step i).world := by
  by_cases hi : ∃ env fd, i = .handle env fd
  · obtain ⟨env, fd, rfl⟩ := hi
    rw [Ui.step.eq_def] at hheap ⊢
    split at hheap
    · next hrun =>
      rw [if_pos hrun]
      exact h.call env (.handle fd) trivial fun _ _ => hheap env fd rfl
    · next hrun =>
      rw [if_neg hrun]
      exact h
  · rcases s.deeds_or_account i with hdeeds | haccount
    · exact h.deeds hdeeds hdirs fun env fd heq => hi ⟨env, fd, heq⟩
    · exact h.congr haccount

theorem run {d : Display} (h : ∀ heap, l.Traced heap d.ui.world) (inputs : List UiInput)
    (hdirs : ∀ dir ∈ gotos inputs, l.dir = some dir) :
    l.Traced (HeapOf (fun past => (d.run past).ui.world.log) inputs)
      (d.run inputs).ui.world := by
  suffices hprefix : ∀ past, past <+: inputs → l.Traced
      (HeapOf (fun past => (d.run past).ui.world.log) inputs) (d.run past).ui.world from
    hprefix _ List.prefix_rfl
  intro past hpast
  induction past using List.reverseRecOn with
  | nil => exact h _
  | append_singleton past i ih =>
    obtain ⟨after, rfl⟩ := hpast
    rw [Display.run_append_singleton, Display.world_step]
    refine (ih ((List.prefix_append ..).trans (List.prefix_append ..))).step i ?_ ?_
    · rintro dir ⟨env, rfl⟩
      refine hdirs dir ?_
      rw [gotos, List.filterMap_append, List.filterMap_append]
      simp
    · rintro env fd rfl moment hlen hmoment
      rw [← Display.world_step, ← Display.run_append_singleton] at hmoment
      exact ⟨past, env, fd, after, by simp, hlen, hmoment, rfl⟩

theorem connected (l : Login) (ctl : Fd) (screen : Screen) :
    l.Traced heap
      (World.connected ctl (l.auth.map Prod.fst) (l.auth.map Prod.snd) screen) where
  listed := .connected ..
  upkeep := upkeep_run (l.given heap []) ctl screen [] (by simp)
  origin := always_nil

end Traced

end Login

/-! ### The program -/

section Program

variable {prog : Bytes} {args : List Bytes} {sys : System} {p : Program}

/-- The program has logged in with the options of its command line. -/
theorem exists_of_mainInit (h : mainInit prog args sys = some p) :
    ∃ o, parseArgs prog args = .ok o ∧
      (sys.connect (mainLogin o (readServers sys.config)).host o.port).isSome ∧
      p.dir = (mainLogin o (readServers sys.config)).dir ∧
      ∀ heap, (mainLogin o (readServers sys.config)).Traced heap p.display.ui.world := by
  rw [mainInit] at h
  split at h
  · next o ho =>
    obtain ⟨ctl, hctl, rfl⟩ := Option.map_eq_some_iff.mp h
    exact ⟨o, ho, Option.isSome_iff_exists.mpr ⟨ctl, hctl⟩, rfl,
      fun _ => Login.Traced.connected _ ctl _⟩
  · simp at h

/-- **In every round** it has been given what is known. -/
theorem traced_run (h : mainInit prog args sys = some p) (rounds : List Round) :
    ∃ o inputs, parseArgs prog args = .ok o ∧
      (sys.connect (mainLogin o (readServers sys.config)).host o.port).isSome ∧
      (p.run rounds).display = p.display.run inputs ∧
      (∀ env fd, .handle env fd ∈ inputs → ∃ r ∈ rounds, r.Answers fd env) ∧
      (mainLogin o (readServers sys.config)).Traced
        (HeapOf (fun past => (p.display.run past).ui.world.log) inputs)
        (p.run rounds).display.ui.world := by
  obtain ⟨o, ho, hconnect, hdir, htraced⟩ := exists_of_mainInit h
  obtain ⟨inputs, hrun, hcalls, hgo⟩ := p.display_run rounds
  refine ⟨o, inputs, ho, hconnect, hrun, hcalls, ?_⟩
  rw [hrun]
  refine Login.Traced.run htraced inputs ?_
  rcases hgo with ⟨-, hnone⟩ | ⟨dir, before, env, after, hsome, -, rfl, hb, ha, -⟩
  · simp [hnone]
  · intro d hd
    have hsplit : gotos (before ++ .goto env dir :: after) =
        gotos before ++ dir :: gotos after := List.filterMap_append
    rw [hsplit, hb, ha] at hd
    rw [← hdir, hsome, List.mem_singleton.mp hd]

/-- **Where every string comes from**: whatever the server sends and whatever is pressed, in every
round, a command that is sent contains the user and the password that the program logs in with, the
directory of the configuration, or the name of an entry of a listing that was received before the
command was sent. The entry was read from what was kept of that listing, and where its line was not
terminated from what lay behind it in memory, in the call in which the listing ended. -/
theorem origin_run (h : mainInit prog args sys = some p) (rounds : List Round) :
    ∃ o inputs, parseArgs prog args = .ok o ∧
      (p.run rounds).display = p.display.run inputs ∧
      (∀ env fd, .handle env fd ∈ inputs → ∃ r ∈ rounds, r.Answers fd env) ∧
      Always ((mainLogin o (readServers sys.config)).Origin
        (HeapOf (fun past => (p.display.run past).ui.world.log) inputs))
        (p.run rounds).display.ui.world.log := by
  obtain ⟨o, inputs, ho, -, hrun, hcalls, htraced⟩ := traced_run h rounds
  exact ⟨o, inputs, ho, hrun, hcalls, htraced.origin⟩

/-- **Whose user and password are sent**: one pair in the whole run, which is that of the command
line; or, when it names no user, that of the first entry of the configuration for its host, and then
the host of that entry is the one that is connected to. A password of the configuration goes to no
other host, and with no other user. -/
theorem account_run (h : mainInit prog args sys = some p) (rounds : List Round) :
    ∃ o user pass, parseArgs prog args = .ok o ∧
      (sys.connect (mainLogin o (readServers sys.config)).host o.port).isSome ∧
      AccountOf o (readServers sys.config) user pass ∧
      (∀ u, .sent (.user u) ∈ (p.run rounds).display.ui.world.log → u = user) ∧
      ∀ q, .sent (.pass q) ∈ (p.run rounds).display.ui.world.log → q = pass := by
  obtain ⟨o, inputs, ho, hconnect, -, -, htraced⟩ := traced_run h rounds
  refine ⟨o, _, _, ho, hconnect, accountOf_mainLogin o _, fun u hsent => ?_, fun q hsent => ?_⟩
  · obtain ⟨past, horigin⟩ := htraced.origin.exists_of_mem hsent
    exact horigin
  · obtain ⟨past, horigin⟩ := htraced.origin.exists_of_mem hsent
    exact horigin

end Program

/-- The rounds of a login. -/
def loginRounds : List Round := roundsOf [ascii "220 ready\r\n", ascii "331 go on\r\n"]

/-- A user and a password on the command line, for a server that asks for them. -/
theorem origin_run_login : ∃ p,
    mainInit (ascii "visftp") [ascii "me:secret@host"] (reachable none) = some p ∧
      ∃ o inputs, parseArgs (ascii "visftp") [ascii "me:secret@host"] = .ok o ∧
        (p.run loginRounds).display = p.display.run inputs ∧
        (∀ env fd, .handle env fd ∈ inputs → ∃ r ∈ loginRounds, r.Answers fd env) ∧
        Always ((mainLogin o (readServers none)).Origin
          (HeapOf (fun past => (p.display.run past).ui.world.log) inputs))
          (p.run loginRounds).display.ui.world.log := by
  have hsome : (mainInit (ascii "visftp") [ascii "me:secret@host"] (reachable none)).isSome := rfl
  exact ⟨_, (Option.some_get hsome).symm, origin_run (Option.some_get hsome).symm loginRounds⟩

/-- A configuration with a password. -/
def withPassword : System := reachable (some (homeConfig []))

example : (mainInit (ascii "visftp") [ascii "home"] withPassword).map (fun p =>
    decide (.sent (.pass (ascii "secret")) ∈ (p.run loginRounds).display.ui.world.log)) =
      some true := by
  decide +kernel

/-- The password of the configuration is sent to the host of its entry. -/
theorem account_run_config : ∃ p, mainInit (ascii "visftp") [ascii "home"] withPassword = some p ∧
    ∃ o user pass, parseArgs (ascii "visftp") [ascii "home"] = .ok o ∧
      (withPassword.connect (mainLogin o (readServers withPassword.config)).host o.port).isSome ∧
      AccountOf o (readServers withPassword.config) user pass ∧
      (∀ u, .sent (.user u) ∈ (p.run loginRounds).display.ui.world.log → u = user) ∧
      ∀ q, .sent (.pass q) ∈ (p.run loginRounds).display.ui.world.log → q = pass := by
  have hsome : (mainInit (ascii "visftp") [ascii "home"] withPassword).isSome := by decide +kernel
  exact ⟨_, (Option.some_get hsome).symm, account_run (Option.some_get hsome).symm loginRounds⟩

end Visftp
