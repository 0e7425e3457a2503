import Visftp.Lib.Cuts
import Visftp.ScanNumbers
import Visftp.Servers

/-!
# How the program starts

`main` before its loop: the arguments, the entry of the configuration for the host, and what the
client is given to log in with.

The host argument is `[[user[:pass]@]hostname]`. It is read back exactly unless a separator stands
in a part before it (`parseHost_formatHost_iff`).

Of an argument `-` the program reads the byte behind the end; this is an outcome of its own here.

## Main definitions

* `Opts` — the options
* `parseHost`, `parseArgs`, `findServer` — the functions
* `Login` — what `main` connects to, and what it logs in with
* `AccountOf` — whose account it is

## Main results

* `parseHost_formatHost_iff` — the round trip of the host argument
* `parseArgs_eq_ok_iff` — the arguments that are accepted
* `parseArgs_commandLine_iff` — the round trip of the command line
* `accountOf_mainLogin` — whose account is used
-/

namespace Visftp

open CString Cuts

/-! ### The arguments -/

/-- `opt_host`, `opt_port`, `opt_user` and `opt_pass`. -/
@[ext]
structure Opts where
  host : Bytes
  port : Int
  user : Option Bytes
  pass : Option Bytes
  deriving DecidableEq, Repr

/-- The options when the program starts. -/
def Opts.init : Opts := ⟨ascii "localhost", 21, none, none⟩

/-- `@` -/
abbrev atSign : Byte := 64

/-- `:` -/
abbrev colon : Byte := 58

/-- `parse_host`. It writes a zero over the separators, so `strchr` of the colon searches the user
and the password only. -/
def parseHost (str : Bytes) (o : Opts) : Opts :=
  match cut atSign str with
  | some (str, host) =>
    match cut colon str with
    | some (user, pass) => { o with host, user := some user, pass := some pass }
    | none => { o with host, user := some str, pass := none }
  | none => { o with host := str, user := none, pass := none }

/-- What comes of the arguments. -/
inductive ArgsResult
  | ok (o : Opts)
  /-- The program exits with `0`, after this on the standard output. -/
  | exit (out : Bytes)
  /-- `-1`, after this on the standard error. -/
  | fail (err : Bytes)
  /-- A byte behind the end of an argument is read. -/
  | overread
  deriving DecidableEq, Repr

/-- `usage`, printed for the program's name. -/
def usage (prog : Bytes) : Bytes :=
  ascii "Usage: " ++ prog ++ ascii " [options] [[user[:pass]@]hostname] [port]\n" ++
    ascii "Options:\n" ++ ascii "  -h: print usage information and exit\n"

/-- The label `inval` of `parse_args`. -/
def inval (prog arg : Bytes) : ArgsResult :=
  .fail (ascii "invalid argument: " ++ arg ++ ascii "\n" ++ usage prog)

/-- The loop of `parse_args` over the arguments that are left, with `argidx`. -/
def parseArgsLoop (prog : Bytes) : List Bytes → ℕ → Opts → ArgsResult
  | [], _, o => .ok o
  | arg :: args, argidx, o =>
    if byteAt arg 0 = 45 then
      if arg.length < 2 then .overread
      else if byteAt arg 2 ≠ 0 then inval prog arg
      else if byteAt arg 1 = 104 then .exit (usage prog)
      else inval prog arg
    else match argidx with
      | 0 => parseArgsLoop prog args 1 (parseHost arg o)
      | 1 =>
        if atoi arg ≤ 0 then .fail (ascii "invalid port number: " ++ arg ++ ascii "\n")
        else parseArgsLoop prog args 2 { o with port := atoi arg }
      | _ => inval prog arg

/-- `parse_args`, of the arguments behind the program's name. -/
def parseArgs (prog : Bytes) (args : List Bytes) : ArgsResult := parseArgsLoop prog args 0 .init

/-! ### The round trip of the host argument -/

/-- A host argument. -/
def formatHost (user pass : Option Bytes) (host : Bytes) : Bytes :=
  match user, pass with
  | some user, some pass => user ++ colon :: pass ++ atSign :: host
  | some user, none => user ++ atSign :: host
  | none, _ => host

theorem port_parseHost (str : Bytes) (o : Opts) : (parseHost str o).port = o.port := by
  rw [parseHost]
  split
  · split <;> rfl
  · rfl

/-- The parts of a host argument that can be told apart. -/
def Separable : Option Bytes → Option Bytes → Bytes → Prop
  | some user, some pass, _ => atSign ∉ user ∧ colon ∉ user ∧ atSign ∉ pass
  | some user, none, _ => atSign ∉ user ∧ colon ∉ user
  | none, some _, _ => False
  | none, none, host => atSign ∉ host

/-- What is read is always such. -/
theorem separable_parseHost (str : Bytes) (o : Opts) :
    Separable (parseHost str o).user (parseHost str o).pass (parseHost str o).host := by
  rw [parseHost]
  split
  · next login host hcut =>
    obtain ⟨-, hat⟩ := cut_eq_some_iff.mp hcut
    split
    · next user pass hcut' =>
      obtain ⟨rfl, hcolon⟩ := cut_eq_some_iff.mp hcut'
      rw [List.mem_append, List.mem_cons] at hat
      simp only [not_or] at hat
      exact ⟨hat.1, hcolon, hat.2.2⟩
    · next hcut' => exact ⟨hat, cut_eq_none_iff.mp hcut'⟩
  · next hcut => exact cut_eq_none_iff.mp hcut

/-- **The round trip of the host argument**: a user, a password and a host are read back from the
argument that they make up if and only if they can be told apart in it: neither separator stands in
the user, no `@` in the password, and none in the host when there is no user. -/
theorem parseHost_formatHost_iff (user pass : Option Bytes) (host : Bytes) (o : Opts) :
    parseHost (formatHost user pass host) o = { o with host, user, pass } ↔
      Separable user pass host := by
  constructor
  · intro h
    have hsep := separable_parseHost (formatHost user pass host) o
    rw [h] at hsep
    exact hsep
  · intro h
    rcases user with - | user <;> rcases pass with - | pass
    · rw [formatHost, parseHost, cut_eq_none_iff.mpr h]
    · exact h.elim
    · obtain ⟨hat, hcolon⟩ := h
      rw [formatHost, parseHost, cut_append hat]
      dsimp only
      rw [cut_eq_none_iff.mpr hcolon]
    · obtain ⟨hat, hcolon, hpass⟩ := h
      have hlogin : atSign ∉ user ++ colon :: pass := by
        simp only [List.mem_append, List.mem_cons, not_or]
        exact ⟨hat, by decide, hpass⟩
      rw [formatHost, parseHost, cut_append hlogin]
      dsimp only
      rw [cut_append hcolon]

/-! ### The command line -/

variable {prog : Bytes} {args : List Bytes} {o : Opts}

/-- An option stands in the way, whatever it is. -/
theorem parseArgsLoop_option {arg : Bytes} (h : byteAt arg 0 = 45) (argidx : ℕ) (o o' : Opts) :
    parseArgsLoop prog (arg :: args) argidx o ≠ .ok o' := by
  rw [parseArgsLoop.eq_def]
  dsimp only
  rw [if_pos h]
  split
  · exact ArgsResult.noConfusion
  split
  · exact ArgsResult.noConfusion
  split <;> exact ArgsResult.noConfusion

/-- **The command lines that are accepted**: a host argument and a positive port at most, and no
option. -/
theorem parseArgs_eq_ok_iff : parseArgs prog args = .ok o ↔ (∀ arg ∈ args, byteAt arg 0 ≠ 45) ∧
    match args with
    | [] => o = .init
    | [host] => o = parseHost host .init
    | [host, port] => 0 < atoi port ∧ o = { parseHost host .init with port := atoi port }
    | _ => False := by
  rw [parseArgs]
  by_cases hopt : ∀ arg ∈ args, byteAt arg 0 ≠ 45
  · rw [and_iff_right hopt]
    rcases args with - | ⟨host, - | ⟨port, - | ⟨arg, args⟩⟩⟩
    · simp [parseArgsLoop, eq_comm]
    · have hhost := hopt host (by simp)
      simp [parseArgsLoop, hhost, eq_comm]
    · have hhost := hopt host (by simp)
      have hport := hopt port (by simp)
      by_cases hpos : atoi port ≤ 0
      · simp [parseArgsLoop, hhost, hport, hpos]
      · simp [parseArgsLoop, hhost, hport, hpos, not_le.mp hpos, eq_comm]
    · have hhost := hopt host (by simp)
      have hport := hopt port (by simp)
      have harg := hopt arg (by simp)
      by_cases hpos : atoi port ≤ 0
      · simp [parseArgsLoop, hhost, hport, hpos]
      · simp [parseArgsLoop, hhost, hport, harg, hpos, inval]
  · refine iff_of_false ?_ fun h => hopt h.1
    push Not at hopt
    obtain ⟨arg, hmem, harg⟩ := hopt
    obtain ⟨before, after, rfl⟩ := List.append_of_mem hmem
    have hloop : ∀ argidx o', parseArgsLoop prog (before ++ arg :: after) argidx o' ≠ .ok o := by
      induction before with
      | nil => exact fun argidx o' => parseArgsLoop_option harg argidx o' o
      | cons a before ih =>
        intro argidx o'
        by_cases ha : byteAt a 0 = 45
        · exact parseArgsLoop_option ha argidx o' o
        rw [List.cons_append, parseArgsLoop.eq_def]
        dsimp only
        rw [if_neg ha]
        split
        · exact ih (by simp) _ _
        · split
          · exact ArgsResult.noConfusion
          · exact ih (by simp) _ _
        · exact ArgsResult.noConfusion
    exact hloop 0 .init

theorem atoi_decimal {n : ℕ} (h : n < 2 ^ 31) : atoi (decimal n) = n := by
  have hscan : scanNumber (decimal n) = (false, decimal n, []) := by
    have hend : isdigit (byteAt [] 0) = false := isdigit_nul
    have htext := scanNumber_text (UNum.ofNat n) hend
    rw [List.append_nil, UNum.text_ofNat] at htext
    exact htext
  rw [atoi, strtol, hscan]
  dsimp only
  rw [digitsValue_decimal, if_neg Bool.false_ne_true,
    show max (-2 ^ 63) (min (2 ^ 63 - 1) (n : Int)) = n by omega]
  exact Int.bmod_eq_of_le (by omega) (by omega)

/-- The command line for some options. -/
def commandLine (o : Opts) : List Bytes :=
  [formatHost o.user o.pass o.host, decimal o.port.toNat]

/-- **The round trip of the command line**: options with a port are read back from the command line
that says them if and only if the parts of the host argument can be told apart, and it is not taken
for an option. -/
theorem parseArgs_commandLine_iff (hport : 0 < o.port ∧ o.port < 2 ^ 31) :
    parseArgs prog (commandLine o) = .ok o ↔
      byteAt (formatHost o.user o.pass o.host) 0 ≠ 45 ∧ Separable o.user o.pass o.host := by
  have hatoi : atoi (decimal o.port.toNat) = o.port := by
    rw [atoi_decimal (by omega), Int.toNat_of_nonneg hport.1.le]
  have hdigit : byteAt (decimal o.port.toNat) 0 ≠ 45 := by
    obtain ⟨d, ds, hds⟩ := List.exists_cons_of_ne_nil (decimal_ne_nil o.port.toNat)
    have hd := isdigit_of_mem_decimal o.port.toNat d (by simp [hds])
    rw [hds]
    exact (not_sign_of_isdigit hd).2.2
  have hhost : o = { parseHost (formatHost o.user o.pass o.host) .init with port := o.port } ↔
      Separable o.user o.pass o.host := by
    rw [← parseHost_formatHost_iff _ _ _ Opts.init]
    constructor
    · intro h
      rw [Opts.ext_iff]
      exact ⟨(congrArg Opts.host h).symm, port_parseHost _ _, (congrArg Opts.user h).symm,
        (congrArg Opts.pass h).symm⟩
    · intro h
      rw [h]
  rw [parseArgs_eq_ok_iff, commandLine]
  dsimp only
  rw [hatoi, hhost]
  simp [hdigit, hport.1]

/-- A user, a host and a port. -/
theorem parseArgs_commandLine_user :
    parseArgs (ascii "visftp") [ascii "me@ftp.host", ascii "2121"] =
      .ok ⟨ascii "ftp.host", 2121, some (ascii "me"), none⟩ :=
  (parseArgs_commandLine_iff (o := ⟨ascii "ftp.host", 2121, some (ascii "me"), none⟩)
    (by decide)).mpr ⟨by decide, by decide, by decide⟩

/-! ### The account -/

/-- `find_server`, of what `read_servers` has left in `srvlist`. -/
def findServer (srvlist : Option (List Server)) (name : Bytes) : Option Server :=
  srvlist.bind (List.find? fun srv => srv.name = some name)

/-- What `main` makes of the options and of the entry for the host. -/
structure Login where
  /-- The host that is connected to. -/
  host : Option Bytes
  port : Int
  /-- What `ftp_auth` is called with, when it is called. -/
  auth : Option (Bytes × Bytes)
  /-- The directory of the entry. -/
  dir : Option Bytes
  deriving DecidableEq, Repr

/-- `main`, between `ftp_alloc` and `ftp_connect`. -/
def mainLogin (o : Opts) (srvlist : Option (List Server)) : Login :=
  let srv := findServer srvlist o.host
  let o' := match srv with
    | some srv =>
      if o.user = none ∧ srv.user ≠ none then { o with user := srv.user, pass := srv.pass } else o
    | none => o
  { host := match srv with
      | some srv => srv.host
      | none => some o.host
    port := o.port
    auth := o'.user.map fun user => (user, o'.pass.getD (ascii "foobar"))
    dir := srv.bind Server.dir }

/-- **Whose account it is**: the user and the password are both those of the command line, or there
is no user on the command line and they are both those of the first entry for the host, which is
then the one that is connected to, or neither has a user and they are the defaults. The password is
`foobar` when there is none. -/
inductive AccountOf (o : Opts) (srvlist : Option (List Server)) : Bytes → Bytes → Prop
  | commandLine {user : Bytes} (huser : o.user = some user) :
    AccountOf o srvlist user (o.pass.getD (ascii "foobar"))
  | config {srv : Server} {user : Bytes} (hnone : o.user = none)
    (hsrv : findServer srvlist o.host = some srv) (huser : srv.user = some user)
    (hhost : (mainLogin o srvlist).host = srv.host) :
    AccountOf o srvlist user (srv.pass.getD (ascii "foobar"))
  | anonymous (hnone : o.user = none)
    (hsrv : ∀ srv, findServer srvlist o.host = some srv → srv.user = none) :
    AccountOf o srvlist (ascii "anonymous") (ascii "foobar")

/-- What the client logs in with: `anonymous` and `foobar` when `ftp_auth` is not called. -/
theorem accountOf_mainLogin (o : Opts) (srvlist : Option (List Server)) :
    AccountOf o srvlist (((mainLogin o srvlist).auth.map Prod.fst).getD (ascii "anonymous"))
      (((mainLogin o srvlist).auth.map Prod.snd).getD (ascii "foobar")) := by
  cases hsrv : findServer srvlist o.host with
  | none =>
    cases huser : o.user with
    | none =>
      simp only [mainLogin, hsrv, huser, Option.map_none, Option.getD_none]
      exact .anonymous huser (by simp [hsrv])
    | some user =>
      simp only [mainLogin, hsrv, huser, Option.map_some, Option.getD_some]
      exact .commandLine huser
  | some srv =>
    cases huser : o.user with
    | none =>
      cases hcfg : srv.user with
      | none =>
        simp only [mainLogin, hsrv, huser, hcfg, ne_eq, not_true_eq_false, and_false, if_false,
          Option.map_none, Option.getD_none]
        exact .anonymous huser fun srv' h => Option.some.inj (hsrv.symm.trans h) ▸ hcfg
      | some user =>
        have hhost : (mainLogin o srvlist).host = srv.host := by simp only [mainLogin, hsrv]
        simp only [mainLogin, hsrv, huser, hcfg, ne_eq, reduceCtorEq, not_false_eq_true, and_true,
          if_true, Option.map_some, Option.getD_some]
        exact .config huser hsrv hcfg hhost
    | some user =>
      simp only [mainLogin, hsrv, huser, reduceCtorEq, false_and, if_false, Option.map_some,
        Option.getD_some]
      exact .commandLine huser

end Visftp
