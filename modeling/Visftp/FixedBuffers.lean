import Mathlib.Data.Nat.Digits.Defs
import Visftp.MainLoop
import Visftp.Names
import Visftp.Numerals
import Visftp.Upkeep

/-!
# Fixed buffers

`sendcmd` formats a command into 256 bytes with `vsnprintf`, which cuts it, and then appends CR LF,
which is not counted. `updateui` formats the line of a directory into 128 bytes with `sprintf`. The
names come from a listing and the rest from the configuration, of any length.

## Main definitions

* `Config`, `Config.Calls` — the strings of the configuration, and the calls of `sendcmd`
* `Cmd.Whole`, `Dirent.RowFits` — the command and the line fit their buffers
* `Config.Formats` — all of them do

## Main results

* `Cmd.whole_iff` — the commands that are sent whole
* `Config.calls_run` — a run makes no other calls
* `Config.formats_iff` — the names, users, passwords and directories that fit
-/

namespace Visftp

open CString

/-! ### The buffers -/

/-- What `sendcmd` has written from the start of `buf` on, the terminator included. -/
def Cmd.written (c : Cmd) : Bytes := c.wire ++ [nul]

/-- **The command is sent whole**: `sendcmd` stays in its `buf[256]`, and it sends what the format
string makes of its arguments, and CR LF. -/
structure Cmd.Whole (c : Cmd) : Prop where
  inside : c.written.length ≤ 256
  sent : c.wire = c.text ++ [cr, lf]

/-- What `updateui` has written to `buf` for an entry, the terminator included. A file's name is
passed on as it is. -/
def Dirent.rowWritten (ent : Dirent) : Bytes :=
  if ent.type = .dir then ent.rowText ++ [nul] else []

/-- `updateui` stays in its `buf[128]`. -/
def Dirent.RowFits (ent : Dirent) : Prop := ent.rowWritten.length ≤ 128

/-! ### The calls -/

/-- What a server's entry in the configuration gives. -/
structure Config where
  user : Option Bytes
  pass : Option Bytes
  dir : Option Bytes

namespace Config

/-- The command of `ftp_chdir`. -/
def chdirCmd (dirname : Bytes) : Cmd := if dirname = ascii ".." then .cdup else .cwd dirname

/-- **The calls of `sendcmd`**, with the strings of the configuration and the names of the remote
directory. Any entry may be transferred or viewed. -/
inductive Calls (cfg : Config) (ents : List Dirent) : Cmd → Prop
  | user : Calls cfg ents (.user (cfg.user.getD (ascii "anonymous")))
  | pass : Calls cfg ents (.pass (cfg.pass.getD (ascii "foobar")))
  | type (tc : Byte) : Calls cfg ents (.type tc)
  | pwd : Calls cfg ents .pwd
  | cdup : Calls cfg ents .cdup
  /-- The directory of the configuration. -/
  | start {dirname} (h : cfg.dir = some dirname) : Calls cfg ents (chdirCmd dirname)
  /-- A directory that is entered. -/
  | chdir {ent} (h : ent ∈ ents) (hd : ent.type = .dir) : Calls cfg ents (chdirCmd ent.name)
  | pasv : Calls cfg ents .pasv
  | port {addr port} (ha : addr < 2 ^ 32) (hp : port < 2 ^ 16) : Calls cfg ents (.port addr port)
  | list (r : ℕ) : Calls cfg ents (.list r)
  | retr {ent} (t : ℕ) (h : ent ∈ ents) : Calls cfg ents (.retr t ent.name)

/-- **Everything fits its buffer.** -/
structure Formats (cfg : Config) (ents : List Dirent) : Prop where
  cmd : ∀ c, cfg.Calls ents c → c.Whole
  row : ∀ ent ∈ ents, ent.RowFits

/-- **The strings are short.** -/
structure Short (cfg : Config) (ents : List Dirent) : Prop where
  user : ∀ u, cfg.user = some u → u.length ≤ 248
  pass : ∀ p, cfg.pass = some p → p.length ≤ 248
  dir : ∀ d, cfg.dir = some d → d.length ≤ 249
  names : ∀ ent ∈ ents, ent.name.length ≤ if ent.type = .dir then 126 else 248

end Config

/-! ### Lengths -/

/-- **A command is sent whole if its CR LF and its NUL fit too.** -/
theorem Cmd.whole_iff {c : Cmd} : c.Whole ↔ c.text.length ≤ 253 := by
  have hlen : c.written.length = min 255 c.text.length + 3 := by
    simp [Cmd.written, Cmd.wire, Cmd.line]
  constructor
  · intro h
    have := h.inside
    omega
  · intro h
    have hline : c.line = c.text := List.take_of_length_le (by omega)
    exact ⟨by omega, by rw [Cmd.wire, hline]⟩

theorem rowFits_iff {ent : Dirent} : ent.RowFits ↔ (ent.type = .dir → ent.name.length ≤ 126) := by
  rw [Dirent.RowFits, Dirent.rowWritten, Dirent.rowText]
  split
  · next hdir =>
    simp only [hdir, List.length_append, forall_true_left]
    change ent.name.length + 1 + 1 ≤ 128 ↔ _
    omega
  · next hfile => simp [hfile]

/-- A byte has at most three digits. -/
theorem length_decimal_le {n : ℕ} (h : n < 256) : (decimal n).length ≤ 3 := by
  rw [decimal, List.length_map]
  exact Nat.toDigits_length 10 n 3 (by decide) (by omega)

/-- The address and the port of a `PORT` command are six bytes. -/
theorem Cmd.whole_port {addr port : ℕ} (ha : addr < 2 ^ 32) (hp : port < 2 ^ 16) :
    (Cmd.port addr port).Whole := by
  have hbyte : ∀ n, n &&& 255 < 256 := fun n => Nat.lt_succ_of_le Nat.and_le_right
  have h₁ := length_decimal_le (n := addr >>> 24) (by rw [Nat.shiftRight_eq_div_pow]; omega)
  have h₂ := length_decimal_le (hbyte (addr >>> 16))
  have h₃ := length_decimal_le (hbyte (addr >>> 8))
  have h₄ := length_decimal_le (hbyte addr)
  have h₅ := length_decimal_le (n := port >>> 8) (by rw [Nat.shiftRight_eq_div_pow]; omega)
  have h₆ := length_decimal_le (hbyte port)
  have hport : (ascii "PORT ").length = 5 := rfl
  have hcomma : (ascii ",").length = 1 := rfl
  rw [Cmd.whole_iff, Cmd.text, List.length_append, hport]
  simp only [List.map_cons, List.map_nil, List.intercalate_cons_cons, List.intercalate_singleton,
    List.length_append, hcomma]
  omega

section Commands

variable {s : Bytes}

theorem Cmd.whole_user : (Cmd.user s).Whole ↔ s.length ≤ 248 := by
  have hlen : (ascii "user ").length = 5 := rfl
  rw [Cmd.whole_iff, Cmd.text, List.length_append, hlen]
  omega

theorem Cmd.whole_pass : (Cmd.pass s).Whole ↔ s.length ≤ 248 := by
  have hlen : (ascii "pass ").length = 5 := rfl
  rw [Cmd.whole_iff, Cmd.text, List.length_append, hlen]
  omega

theorem Cmd.whole_retr {t : ℕ} : (Cmd.retr t s).Whole ↔ s.length ≤ 248 := by
  have hlen : (ascii "retr ").length = 5 := rfl
  rw [Cmd.whole_iff, Cmd.text, List.length_append, hlen]
  omega

theorem Cmd.whole_cdup : Cmd.cdup.Whole := Cmd.whole_iff.mpr (by decide)

theorem Cmd.whole_chdir : (Config.chdirCmd s).Whole ↔ s.length ≤ 249 := by
  have hlen : (ascii "cwd ").length = 4 := rfl
  rw [Config.chdirCmd]
  split
  · next hup =>
    have hs : s.length ≤ 249 := by rw [hup]; decide
    exact ⟨fun _ => hs, fun _ => Cmd.whole_cdup⟩
  · rw [Cmd.whole_iff, Cmd.text, List.length_append, hlen]
    omega

end Commands

namespace Config

/-! ### Names, users, passwords and directories -/

/-- A call that fits, of any kind. -/
theorem Short.whole {cfg : Config} {ents : List Dirent} (h : cfg.Short ents) {c : Cmd}
    (hc : cfg.Calls ents c) : c.Whole := by
  have hdefault : (ascii "anonymous").length ≤ 248 ∧ (ascii "foobar").length ≤ 248 := by decide
  cases hc with
  | user =>
    rw [Cmd.whole_user]
    cases hu : cfg.user with
    | none => exact hdefault.1
    | some u => exact h.user u hu
  | pass =>
    rw [Cmd.whole_pass]
    cases hp : cfg.pass with
    | none => exact hdefault.2
    | some p => exact h.pass p hp
  | type tc =>
    have hlen : (Cmd.type tc).text.length = 6 := rfl
    exact Cmd.whole_iff.mpr (hlen.le.trans (by decide))
  | pwd => exact Cmd.whole_iff.mpr (by decide)
  | cdup => exact Cmd.whole_cdup
  | start hd => exact Cmd.whole_chdir.mpr (h.dir _ hd)
  | chdir hent hd =>
    have hname := h.names _ hent
    rw [if_pos hd] at hname
    exact Cmd.whole_chdir.mpr (by omega)
  | pasv => exact Cmd.whole_iff.mpr (by decide)
  | port ha hp => exact Cmd.whole_port ha hp
  | list r =>
    have hlen : (Cmd.list r).text.length = 4 := rfl
    exact Cmd.whole_iff.mpr (hlen.le.trans (by decide))
  | retr t hent =>
    refine Cmd.whole_retr.mpr ((h.names _ hent).trans ?_)
    split <;> decide

/-- What an input of the main loop hands on: the configured directory or a name of the remote
directory. -/
def given (cfg : Config) (ents : List Dirent) : Given where
  user := cfg.user
  pass := cfg.pass
  dirs d := cfg.dir = some d ∨ ∃ ent ∈ ents, ent.type = .dir ∧ ent.name = d
  names n := ∃ ent ∈ ents, ent.name = n

theorem calls_of_sends {cfg : Config} {ents : List Dirent} {c : Cmd}
    (h : (cfg.given ents).Sends c) : cfg.Calls ents c := by
  cases c with
  | user u =>
    obtain rfl : u = cfg.user.getD (ascii "anonymous") := h
    exact .user
  | pass w =>
    obtain rfl : w = cfg.pass.getD (ascii "foobar") := h
    exact .pass
  | type tc => exact .type tc
  | pwd => exact .pwd
  | cdup => exact .cdup
  | cwd d =>
    obtain ⟨hd, hup⟩ := h
    have hcmd : chdirCmd d = .cwd d := if_neg hup
    rw [← hcmd]
    rcases hd with hd | ⟨ent, hent, hdir, rfl⟩
    · exact .start hd
    · exact .chdir hent hdir
  | pasv => exact .pasv
  | port addr port => exact .port h.1 h.2
  | list r => exact .list r
  | retr t n =>
    obtain ⟨ent, hent, rfl⟩ := h
    exact .retr t hent

/-- **A run makes no other calls**, when its directories and files come from the configuration and
from the names of the remote directory. -/
theorem calls_run {α : Type} (cfg : Config) (ents : List Dirent) (ctl : Fd) (app : α)
    (inputs : List (Env × Input α)) (hin : ∀ i ∈ inputs, i.2.From (cfg.given ents)) {c : Cmd}
    (hc : .sent c ∈ ((World.connected ctl cfg.user cfg.pass app).run inputs).log) :
    cfg.Calls ents c := by
  obtain ⟨n, hkept⟩ := upkeep_run (cfg.given ents) ctl app inputs hin
  exact calls_of_sends (hkept.sent c hc)

/-- **The strings that fit the buffers**, and a run makes no other calls than these. -/
theorem formats_iff {α : Type} (cfg : Config) (tail : Bytes) (junk : Int) (p : Bytes) :
    (cfg.Formats (listing tail junk p) ↔ cfg.Short (listing tail junk p)) ∧
      ∀ (ctl : Fd) (app : α) (inputs : List (Env × Input α)),
        (∀ i ∈ inputs, i.2.From (cfg.given (listing tail junk p))) → ∀ c : Cmd,
          .sent c ∈ ((World.connected ctl cfg.user cfg.pass app).run inputs).log →
            cfg.Calls (listing tail junk p) c := by
  refine ⟨⟨fun h => ?_, fun h => ?_⟩, fun ctl app inputs hin c hc =>
    calls_run cfg _ ctl app inputs hin hc⟩
  · refine ⟨fun u hu => ?_, fun w hw => ?_, fun d hd => ?_, fun ent hent => ?_⟩
    · have := h.cmd _ .user
      rwa [hu, Option.getD_some, Cmd.whole_user] at this
    · have := h.cmd _ .pass
      rwa [hw, Option.getD_some, Cmd.whole_pass] at this
    · exact Cmd.whole_chdir.mp (h.cmd _ (.start hd))
    · split
      · next hdir => exact rowFits_iff.mp (h.row ent hent) hdir
      · exact Cmd.whole_retr.mp (h.cmd _ (.retr 0 hent))
  · refine ⟨fun c hc => h.whole hc, fun ent hent => rowFits_iff.mpr fun hdir => ?_⟩
    have hname := h.names ent hent
    rwa [if_pos hdir] at hname

/-- The line of a directory with a long name. -/
def longLine : Bytes :=
  ascii "drwxr-xr-x 2 u g 4096 Jan 1 2024 " ++ List.replicate 254 97 ++ [cr, lf]

/-- Its entry. -/
def longDir : Dirent := ⟨List.replicate 254 97, .dir, 0⟩

/-- Entering it cuts the command and writes over the end of the buffer. -/
theorem not_formats_long : ¬(Config.mk none none none).Formats (listing [] 0 longLine) := by
  intro h
  have hent : listing [] 0 longLine = [longDir] := by decide +kernel
  have hmem : longDir ∈ listing [] 0 longLine := by
    rw [hent]
    exact List.mem_singleton_self longDir
  exact absurd (h.cmd _ (.chdir hmem rfl)).inside (by decide +kernel)

end Config

end Visftp
