import Visftp.Lifetimes
import Visftp.Startup

/-!
# The rounds of the main loop

`main` after `ftp_connect`: in each round `select` is called on the sockets that the client has at
that moment; the keys are handled first, then those of the sockets that are readable, and last the
screen is brought up to date. The directory of the configuration is asked for at the end of the
first round in which the server is ready.

`Visftp.Display` lets all of this happen in any order. Here it is shown that the rounds are runs of
it, so that what holds of those holds of the program.

## Main definitions

* `ftpSockets` — the sockets of the client
* `Program`, `Program.step`, `Program.run` — the loop
* `System`, `mainInit` — how it is entered

## Main results

* `Program.display_run` — the rounds are steps of the main loop, with the directory entered once
* `Program.dir_run_eq_none_iff` — when it is entered
-/

namespace Visftp

open CString

/-! ### The loop -/

/-- `ftp_sockets`, for an array of `maxsize`. -/
def ftpSockets (maxsize : ℕ) (f : Ftp) : List Fd := [f.ctl, f.lis, f.data].reduceOption.take maxsize

/-- The array of `main` is large enough, though its size in bytes is given for its length. -/
theorem length_ftpSockets_le (maxsize : ℕ) (f : Ftp) : (ftpSockets maxsize f).length ≤ 3 :=
  (List.length_take_le' _ _).trans (List.length_filterMap_le _ _)

/-- The program in its loop. -/
structure Program where
  display : Display
  /-- `srv->dir`, until it has been asked for. -/
  dir : Option Bytes

/-- A round, as far as it is the system's. -/
inductive Round
  /-- `select` is interrupted. -/
  | intr
  /-- The keys there are, which sockets are readable, and the system for the calls into the
  client. -/
  | woke (keys : List (Env × Key)) (ready : Fd → Option Env) (env : Env)

namespace Display

/-- `proc_input`. The loop ends with the program. -/
def procInput : List (Env × Key) → Display → Display
  | [], d => d
  | k :: keys, d =>
    let d := d.step (.key k.1 k.2)
    if d.ui.running then procInput keys d else d

/-- The calls of `ftp_handle`, of the sockets in `ftpsock`. -/
def handleSockets (ready : Fd → Option Env) : List Fd → Display → Display
  | [], d => d
  | fd :: ftpsock, d =>
    match ready fd with
    | some env => handleSockets ready ftpsock (d.step (.handle env fd))
    | none => handleSockets ready ftpsock d

/-- A round, up to `view_update` or `updateui`. -/
def round (keys : List (Env × Key)) (ready : Fd → Option Env) (d : Display) : Display :=
  let ftpsock := ftpSockets 64 d.ui.world.ftp
  let d := procInput keys d
  if d.ui.running then (handleSockets ready ftpsock d).step .update else d

end Display

namespace Program

/-- The end of a round: `srv->dir` is queued, and `srv` is forgotten. -/
def askDir (env : Env) (p : Program) : Program :=
  match p.dir with
  | some dir =>
    if p.display.ui.running ∧ p.display.ui.world.ftp.status ≠ .disc then
      ⟨p.display.step (.goto env dir), none⟩
    else p
  | none => p

/-- One round of the loop. -/
def step (p : Program) : Round → Program
  | .intr => p
  | .woke keys ready env =>
    if p.display.ui.running then askDir env { p with display := p.display.round keys ready } else p

/-- The rounds, one after the other. -/
def run (p : Program) (rounds : List Round) : Program := rounds.foldl step p

@[simp] theorem run_append_singleton (p : Program) (rounds : List Round) (r : Round) :
    p.run (rounds ++ [r]) = (p.run rounds).step r := by
  simp [run]

end Program

/-- What `main` has of the system before its loop. -/
structure System where
  /-- The contents of the configuration. -/
  config : Option Bytes
  /-- The control connection to a host and a port, when `ftp_connect` can make it. -/
  connect : Option Bytes → Int → Option Fd
  short : Bool
  screen : Screen
  fopens : List (Option Bytes)
  reads : List FileRead
  framebuf : Int → UInt16

/-- `main`, up to its loop: `none` when it returns before. -/
def mainInit (prog : Bytes) (args : List Bytes) (sys : System) : Option Program :=
  match parseArgs prog args with
  | .ok o =>
    let login := mainLogin o (readServers sys.config)
    (sys.connect login.host login.port).map fun ctl =>
      { display := Display.start
          (Ui.start ctl (login.auth.map Prod.fst) (login.auth.map Prod.snd) sys.short
            sys.screen.updateLocaldir sys.fopens sys.reads) o.host sys.framebuf
        dir := login.dir }
  | _ => none

/-! ### The rounds are runs -/

/-- A readable socket in a round, with the system for the call of `ftp_handle`. -/
def Round.Answers (fd : Fd) (env : Env) : Round → Prop
  | .intr => False
  | .woke _ ready _ => ready fd = some env

/-- The directories that are entered by their names. -/
def gotos (inputs : List UiInput) : List Bytes :=
  inputs.filterMap fun
    | .goto _ dir => some dir
    | _ => none

namespace Display

theorem run_append (d : Display) (xs ys : List UiInput) : d.run (xs ++ ys) = (d.run xs).run ys :=
  List.foldl_append

theorem exists_procInput (keys : List (Env × Key)) (d : Display) :
    ∃ inputs, d.procInput keys = d.run inputs ∧ gotos inputs = [] ∧
      ∀ env fd, .handle env fd ∉ inputs := by
  induction keys generalizing d with
  | nil => exact ⟨[], rfl, rfl, by simp⟩
  | cons k keys ih =>
    rw [procInput]
    split
    · obtain ⟨inputs, hrun, hgo, hcalls⟩ := ih (d.step (.key k.1 k.2))
      exact ⟨.key k.1 k.2 :: inputs, hrun, hgo, by simpa using hcalls⟩
    · exact ⟨[.key k.1 k.2], rfl, rfl, by simp⟩

theorem exists_handleSockets (ready : Fd → Option Env) (ftpsock : List Fd) (d : Display) :
    ∃ inputs, d.handleSockets ready ftpsock = d.run inputs ∧ gotos inputs = [] ∧
      ∀ env fd, .handle env fd ∈ inputs → ready fd = some env := by
  induction ftpsock generalizing d with
  | nil => exact ⟨[], rfl, rfl, by simp⟩
  | cons fd ftpsock ih =>
    rw [handleSockets]
    split
    · next env hready =>
      obtain ⟨inputs, hrun, hgo, hcalls⟩ := ih (d.step (.handle env fd))
      refine ⟨.handle env fd :: inputs, hrun, hgo, fun env' fd' hmem => ?_⟩
      rcases List.mem_cons.mp hmem with heq | hmem
      · cases heq
        exact hready
      · exact hcalls env' fd' hmem
    · exact ih d

theorem exists_round (keys : List (Env × Key)) (ready : Fd → Option Env) (d : Display) :
    ∃ inputs, d.round keys ready = d.run inputs ∧ gotos inputs = [] ∧
      ∀ env fd, .handle env fd ∈ inputs → ready fd = some env := by
  obtain ⟨pressed, hpressed, hgo, hkeys⟩ := exists_procInput keys d
  rw [round]
  split
  · obtain ⟨handled, hhandled, hgo', hcalls⟩ :=
      exists_handleSockets ready (ftpSockets 64 d.ui.world.ftp) (d.procInput keys)
    refine ⟨pressed ++ handled ++ [.update], ?_, ?_, ?_⟩
    · rw [run_append_singleton, run_append, ← hpressed, ← hhandled]
    · rw [gotos, List.filterMap_append, List.filterMap_append]
      rw [gotos] at hgo hgo'
      rw [hgo, hgo']
      rfl
    · intro env fd hmem
      simp only [List.append_assoc, List.mem_append, List.mem_singleton, reduceCtorEq,
        or_false] at hmem
      exact hcalls env fd (hmem.resolve_left (hkeys env fd))
  · exact ⟨pressed, hpressed, hgo, fun env fd hmem => absurd hmem (hkeys env fd)⟩

end Display

namespace Program

variable {p : Program}

/-- The directory is asked for at the end of this round. -/
def Asks (p : Program) : Round → Prop
  | .intr => False
  | .woke keys ready _ => p.display.ui.running = true ∧
      (p.display.round keys ready).ui.running = true ∧
      (p.display.round keys ready).ui.world.ftp.status ≠ .disc

/-- **One round**: steps of the main loop that enter no directory by its name, and at the end the
directory of the configuration if the program goes on and the server is ready. -/
theorem step_cases (p : Program) (r : Round) :
    ∃ inputs, (gotos inputs = [] ∧ ∀ env fd, .handle env fd ∈ inputs → r.Answers fd env) ∧
      ((p.step r = ⟨p.display.run inputs, p.dir⟩ ∧ (p.dir = none ∨ ¬p.Asks r)) ∨
        ∃ env dir, p.dir = some dir ∧ p.Asks r ∧
          (p.display.run inputs).ui.world.ftp.status ≠ .disc ∧
          p.step r = ⟨(p.display.run inputs).step (.goto env dir), none⟩) := by
  cases r with
  | intr => exact ⟨[], ⟨rfl, by simp⟩, .inl ⟨rfl, .inr id⟩⟩
  | woke keys ready env =>
    rw [step]
    split
    swap
    · next hrun => exact ⟨[], ⟨rfl, by simp⟩, .inl ⟨rfl, .inr fun h => hrun h.1⟩⟩
    next hrun =>
    obtain ⟨inputs, hround, hgo⟩ := p.display.exists_round keys ready
    refine ⟨inputs, hgo, ?_⟩
    rw [askDir]
    dsimp only
    split
    · next dir hdir =>
      split
      · next hserved =>
        refine .inr ⟨env, dir, hdir, ⟨hrun, hserved⟩, ?_, ?_⟩
        · rw [← hround]
          exact hserved.2
        · rw [hround]
      · next hserved =>
        rw [hround]
        exact .inl ⟨rfl, .inr fun h => hserved h.2⟩
    · next hdir =>
      rw [hround]
      exact .inl ⟨rfl, .inl hdir⟩

/-- **The rounds of the main loop are steps of it**, of which at most one enters a directory by its
name: the one of the configuration, once, and while the server is ready. -/
theorem display_run (p : Program) (rounds : List Round) :
    ∃ inputs, (p.run rounds).display = p.display.run inputs ∧
      (∀ env fd, .handle env fd ∈ inputs → ∃ r ∈ rounds, r.Answers fd env) ∧
      (((p.run rounds).dir = p.dir ∧ gotos inputs = []) ∨
        ∃ dir before env after, p.dir = some dir ∧ (p.run rounds).dir = none ∧
          inputs = before ++ .goto env dir :: after ∧ gotos before = [] ∧ gotos after = [] ∧
          (p.display.run before).ui.world.ftp.status ≠ .disc) := by
  induction rounds using List.reverseRecOn with
  | nil => exact ⟨[], rfl, by simp, .inl ⟨rfl, rfl⟩⟩
  | append_singleton past r ih =>
    obtain ⟨inputs, hrun, hcalls, hdirs⟩ := ih
    obtain ⟨more, ⟨hmore, hanswers⟩, hstep⟩ := (p.run past).step_cases r
    have hcalls' : ∀ env fd, .handle env fd ∈ inputs ++ more →
        ∃ r' ∈ past ++ [r], r'.Answers fd env := by
      intro env fd hmem
      rcases List.mem_append.mp hmem with hmem | hmem
      · obtain ⟨r', hr', hans⟩ := hcalls env fd hmem
        exact ⟨r', List.mem_append_left _ hr', hans⟩
      · exact ⟨r, by simp, hanswers env fd hmem⟩
    have happend : (p.run past).display.run more = p.display.run (inputs ++ more) := by
      rw [hrun, Display.run_append]
    have hgo : gotos inputs = [] → gotos (inputs ++ more) = [] := fun h => by
      rw [gotos] at h hmore ⊢
      rw [List.filterMap_append, h, hmore]
      rfl
    rw [run_append_singleton]
    rcases hstep with ⟨hstep, -⟩ | ⟨env, dir, hdir, -, hstatus, hstep⟩
    · refine ⟨inputs ++ more, ?_, hcalls', ?_⟩
      · rw [hstep, ← happend]
      · rw [hstep]
        rcases hdirs with ⟨hsame, hnone⟩ | ⟨dir, before, env, after, hdir, hask, hin, hb, ha, hst⟩
        · exact .inl ⟨hsame, hgo hnone⟩
        · refine .inr ⟨dir, before, env, after ++ more, hdir, hask, ?_, hb, ?_, hst⟩
          · rw [hin, List.append_assoc, List.cons_append]
          · rw [gotos] at ha hmore ⊢
            rw [List.filterMap_append, ha, hmore]
            rfl
    · rcases hdirs with ⟨hsame, hnone⟩ | ⟨-, -, -, -, -, hask, -⟩
      · refine ⟨inputs ++ more ++ [.goto env dir], ?_, fun env' fd hmem => ?_, .inr ?_⟩
        · rw [hstep, Display.run_append_singleton, ← happend]
        · exact hcalls' env' fd (by simpa using hmem)
        · refine ⟨dir, inputs ++ more, env, [], hsame ▸ hdir, ?_, rfl, hgo hnone, rfl, ?_⟩
          · rw [hstep]
          · rw [← happend]
            exact hstatus
      · simp [hask] at hdir

/-- **The directory of the configuration is asked for** as soon as a round ends with the server
ready. -/
theorem dir_run_eq_none_iff (p : Program) (rounds : List Round) : (p.run rounds).dir = none ↔
    p.dir = none ∨ ∃ past r rest, rounds = past ++ r :: rest ∧ (p.run past).Asks r := by
  induction rounds using List.reverseRecOn with
  | nil => simp [run]
  | append_singleton past r ih =>
    have hsplit : (∃ before x rest, past ++ [r] = before ++ x :: rest ∧ (p.run before).Asks x) ↔
        (∃ before x rest, past = before ++ x :: rest ∧ (p.run before).Asks x) ∨
          (p.run past).Asks r := by
      constructor
      · rintro ⟨before, x, rest, heq, hask⟩
        rcases rest.eq_nil_or_concat' with rfl | ⟨rest, y, rfl⟩
        · obtain ⟨rfl, hx⟩ := List.append_inj' heq rfl
          obtain rfl : r = x := by simpa using hx
          exact .inr hask
        · rw [← List.cons_append, ← List.append_assoc] at heq
          exact .inl ⟨before, x, rest, (List.append_inj' heq rfl).1, hask⟩
      · rintro (⟨before, x, rest, rfl, hask⟩ | hask)
        · exact ⟨before, x, rest ++ [r], by simp, hask⟩
        · exact ⟨past, r, [], rfl, hask⟩
    rw [run_append_singleton, hsplit, ← or_assoc, ← ih]
    obtain ⟨inputs, -, ⟨hstep, hnot⟩ | ⟨env, dir, hdir, hask, -, hstep⟩⟩ :=
      (p.run past).step_cases r
    · rw [hstep]
      exact ⟨.inl, fun h => h.elim id fun hask => hnot.resolve_right (not_not_intro hask)⟩
    · rw [hstep]
      exact iff_of_true rfl (.inr hask)

end Program

/-! ### The program -/

/-- **The program is its main loop**: whatever the command line, the configuration and the system,
the rounds of the program are steps of the main loop from its start. The directory of the
configuration is entered once if a round ends with the server ready, and then while it is ready; and
otherwise it is not entered. -/
theorem main_run {prog : Bytes} {args : List Bytes} {sys : System} {p : Program}
    (h : mainInit prog args sys = some p) (rounds : List Round) :
    ∃ o ctl inputs, parseArgs prog args = .ok o ∧
      let login := mainLogin o (readServers sys.config)
      let ui := Ui.start ctl (login.auth.map Prod.fst) (login.auth.map Prod.snd) sys.short
        sys.screen.updateLocaldir sys.fopens sys.reads
      let d := Display.start ui o.host sys.framebuf
      let asked := ∃ past r rest, rounds = past ++ r :: rest ∧ (p.run past).Asks r
      sys.connect login.host login.port = some ctl ∧ (p.run rounds).display = d.run inputs ∧
        ((login.dir = none ∨ ¬asked) ∧ gotos inputs = [] ∨
          asked ∧ ∃ dir before env after, login.dir = some dir ∧
            inputs = before ++ .goto env dir :: after ∧ gotos before = [] ∧ gotos after = [] ∧
            (d.run before).ui.world.ftp.status ≠ .disc) := by
  rw [mainInit] at h
  split at h
  swap
  · simp at h
  next o ho =>
  obtain ⟨ctl, hctl, hp⟩ := Option.map_eq_some_iff.mp h
  obtain ⟨inputs, hrun, -, hdirs⟩ := p.display_run rounds
  have hasked := p.dir_run_eq_none_iff rounds
  have hpdir : p.dir = (mainLogin o (readServers sys.config)).dir := (congrArg Program.dir hp).symm
  rw [← congrArg Program.display hp] at hrun hdirs
  refine ⟨o, ctl, inputs, ho, hctl, hrun, ?_⟩
  rw [hpdir] at hasked hdirs
  rcases hdirs with ⟨hsame, hgo⟩ | ⟨dir, before, env, after, hdir, hnone, hin, hb, ha, hst⟩
  · rw [hsame] at hasked
    refine .inl ⟨?_, hgo⟩
    rw [or_iff_not_imp_right, not_not]
    exact fun hask => hasked.mpr (.inr hask)
  · refine .inr ⟨(hasked.mp hnone).resolve_left ?_, dir, before, env, after, hdir, hin, hb, ha, hst⟩
    rw [hdir]
    exact Option.some_ne_none dir

/-- A server that can be reached from a system with this configuration. -/
def reachable (config : Option Bytes) : System where
  config := config
  connect := fun _ _ => some 3
  short := false
  screen := ⟨ascii "/home", [], true, Viewer.init, true, [], [], []⟩
  fopens := []
  reads := []
  framebuf := fun _ => 0

/-- The rounds in which the server sends these lines. -/
def roundsOf (lines : List Bytes) : List Round :=
  lines.map fun line => .woke [] (fun _ => some (.control line)) Env.quiet

/-- A configuration with an account, and with what else there is to say of it. -/
def homeConfig (more : Bytes) : Bytes :=
  ascii "servers \x7b server \x7b name=home host=\"ftp.home\" user=me pass=secret " ++ more ++
    ascii " \x7d \x7d"

/-- A configuration with a directory. -/
def withDir : System := reachable (some (homeConfig (ascii "dir=pub")))

/-- A configuration with a directory, and two rounds. -/
theorem main_run_home : ∃ p, mainInit (ascii "visftp") [ascii "home"] withDir = some p ∧
    ∃ o ctl inputs, parseArgs (ascii "visftp") [ascii "home"] = .ok o ∧
      let rounds := roundsOf [ascii "220 ready\r\n", ascii "331 go on\r\n"]
      let login := mainLogin o (readServers withDir.config)
      let ui := Ui.start ctl (login.auth.map Prod.fst) (login.auth.map Prod.snd) withDir.short
        withDir.screen.updateLocaldir withDir.fopens withDir.reads
      let d := Display.start ui o.host withDir.framebuf
      let asked := ∃ past r rest, rounds = past ++ r :: rest ∧ (p.run past).Asks r
      withDir.connect login.host login.port = some ctl ∧
        (p.run rounds).display = d.run inputs ∧
        ((login.dir = none ∨ ¬asked) ∧ gotos inputs = [] ∨
          asked ∧ ∃ dir before env after, login.dir = some dir ∧
            inputs = before ++ .goto env dir :: after ∧ gotos before = [] ∧ gotos after = [] ∧
            (d.run before).ui.world.ftp.status ≠ .disc) := by
  have hsome : (mainInit (ascii "visftp") [ascii "home"] withDir).isSome := by decide +kernel
  exact ⟨_, (Option.some_get hsome).symm, main_run (Option.some_get hsome).symm _⟩

end Visftp
