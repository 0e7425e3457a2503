import Visftp.LineAssembly

/-!
# Multi-line replies

A server may answer with several lines: a first one `xyz-text`, any lines in between, and a last
one `xyz text`. `proc_control` looks at each line by itself. It drops the first line of such a
reply, but does not remember that it is inside one: a line in between is taken for a reply when it
looks like one, and the blanks at its front do not count (`LooksFinal`).

## Main definitions

* `ServerReply` — the replies of a server, with `ServerReply.lines`
* `delivered` — the codes a run passed on

## Main results

* `replyCode?_ne_none_iff` — which lines are taken for a reply
* `delivered_run` — what a run passes on
* `delivered_replies_iff` — when it is one code for each reply
-/

namespace Visftp

open CString Lines Session Relation

/-! ### Replies of a server -/

/-- A reply code: three digits, the first of them from 1 to 5. -/
structure ReplyCode where
  x : Byte
  y : Byte
  z : Byte
  /-- The first digit. -/
  hx : 49 ≤ x ∧ x ≤ 53
  /-- The second digit. -/
  hy : isdigit y = true
  /-- The third digit. -/
  hz : isdigit z = true

/-- The digits. -/
def ReplyCode.digits (c : ReplyCode) : Bytes := [c.x, c.y, c.z]

/-- The number. -/
def ReplyCode.value (c : ReplyCode) : Int := digitsValue c.digits

/-- A reply of the server: a single line, or a first line, lines in between, and a last line. -/
structure ServerReply where
  code : ReplyCode
  /-- The text of the first line of a multi-line reply, and the lines between it and the last. -/
  block : Option (Bytes × List Bytes)
  /-- The text of the last line. -/
  text : Bytes

/-- The lines in between. -/
def ServerReply.inner (r : ServerReply) : List Bytes :=
  match r.block with
  | none => []
  | some (_, inner) => inner

/-- The lines of a reply, without their terminators. -/
def ServerReply.lines (r : ServerReply) : List Bytes :=
  (match r.block with
    | none => []
    | some (first, inner) => (r.code.digits ++ 45 :: first) :: inner) ++
  [r.code.digits ++ 32 :: r.text]

theorem isdigit_iff {b : Byte} : isdigit b = true ↔ 48 ≤ b.toNat ∧ b.toNat ≤ 57 := by
  simp [isdigit, UInt8.le_iff_toNat_le]

theorem ReplyCode.isdigit_x (c : ReplyCode) : isdigit c.x = true := by
  have := c.hx
  rw [UInt8.le_iff_toNat_le, UInt8.le_iff_toNat_le] at this
  rw [isdigit_iff]
  simp at this
  omega

theorem not_isspace_of_isdigit {b : Byte} (h : isdigit b = true) : isspace b = false := by
  rw [isdigit_iff] at h
  simp [isspace, UInt8.le_iff_toNat_le, ← UInt8.toNat_inj]
  omega

theorem ne_of_isdigit {b c : Byte} (h : isdigit b = true) (hc : isdigit c = false) : b ≠ c := by
  rintro rfl
  simp [h] at hc

theorem ReplyCode.value_bounds (c : ReplyCode) : 100 ≤ c.value ∧ c.value ≤ 599 := by
  have hx := c.hx
  have hy := isdigit_iff.mp c.hy
  have hz := isdigit_iff.mp c.hz
  rw [UInt8.le_iff_toNat_le, UInt8.le_iff_toNat_le] at hx
  simp only [value, digits, digitsValue, List.foldl]
  simp at hx
  omega

/-- Reading a number of three digits at the front of a line. -/
theorem atoi_three_digits {x y z b : Byte} (hx : isdigit x = true) (hy : isdigit y = true)
    (hz : isdigit z = true) (hb : isdigit b = false) (t : Bytes) :
    atoi (x :: y :: z :: b :: t) = digitsValue [x, y, z] := by
  have hspace := not_isspace_of_isdigit hx
  have h45 : x ≠ 45 := ne_of_isdigit hx (by decide)
  have h43 : x ≠ 43 := ne_of_isdigit hx (by decide)
  have hscan : scanNumber (x :: y :: z :: b :: t) = (false, [x, y, z], b :: t) := by
    simp [scanNumber, skipSpace, hspace, byteAt, h45, h43, hx, hy, hz, hb]
  have hle : digitsValue [x, y, z] ≤ 999 := by
    have hx' := isdigit_iff.mp hx
    have hy' := isdigit_iff.mp hy
    have hz' := isdigit_iff.mp hz
    simp only [digitsValue, List.foldl]
    omega
  rw [atoi, strtol, hscan]
  simp only [Bool.false_eq_true, if_false]
  rw [min_eq_right (by omega), max_eq_right (by omega), Int.bmod_eq_of_le] <;> omega

/-- Reading the code of a reply. -/
theorem ReplyCode.atoi_append (c : ReplyCode) {b : Byte} (hb : isdigit b = false) (t : Bytes) :
    atoi (c.digits ++ b :: t) = c.value := atoi_three_digits c.isdigit_x c.hy c.hz hb t

/-- The code that `proc_control` passes on for a line. -/
def replyCode? (buf : Bytes) : Option Int :=
  if 0 < respcode (replyText buf) then some (respcode (replyText buf)) else none

theorem replyText_append (c : ReplyCode) {b : Byte} (hb : b ≠ cr) (t : Bytes) :
    replyText (c.digits ++ b :: t) = c.digits ++ b :: t.takeWhile (· ≠ cr) := by
  have hx := ne_of_isdigit c.isdigit_x (c := cr) (by decide)
  have hy := ne_of_isdigit c.hy (c := cr) (by decide)
  have hz := ne_of_isdigit c.hz (c := cr) (by decide)
  have hspace := not_isspace_of_isdigit c.isdigit_x
  simp [replyText, skipSpace, ReplyCode.digits, hspace, hx, hy, hz, hb]

/-- A line that `proc_control` takes for a reply: blanks, three digits that are not all zero, and
another blank. -/
def LooksFinal (l : Bytes) : Prop :=
  ∃ blanks x y z b rest, l = blanks ++ x :: y :: z :: b :: rest ∧ (∀ c ∈ blanks, isspace c = true) ∧
    (isdigit x = true ∧ isdigit y = true ∧ isdigit z = true) ∧ [x, y, z] ≠ [48, 48, 48] ∧
    isspace b = true ∧ b ≠ cr

theorem digitsValue_pos_iff {x y z : Byte} (hx : isdigit x = true) (hy : isdigit y = true)
    (hz : isdigit z = true) : 0 < digitsValue [x, y, z] ↔ [x, y, z] ≠ [48, 48, 48] := by
  have hx' := isdigit_iff.mp hx
  have hy' := isdigit_iff.mp hy
  have hz' := isdigit_iff.mp hz
  simp only [digitsValue, List.foldl, ne_eq, List.cons.injEq, and_true, ← UInt8.toNat_inj]
  simp
  omega

theorem not_isdigit_of_isspace {b : Byte} (h : isspace b = true) : isdigit b = false := by
  by_contra hd
  rw [Bool.not_eq_false] at hd
  simp [not_isspace_of_isdigit hd] at h

theorem exists_cons_of_byteAt_three {u : Bytes} (h : byteAt u 3 ≠ nul) :
    ∃ x y z b t, u = x :: y :: z :: b :: t := by
  match u with
  | [] | [_] | [_, _] | [_, _, _] => exact absurd rfl h
  | x :: y :: z :: b :: t => exact ⟨x, y, z, b, t, rfl⟩

/-- `respcode` of a line with at least four characters. -/
theorem respcode_cons (x y z b : Byte) (t : Bytes) : respcode (x :: y :: z :: b :: t) =
    if isdigit x && isdigit y && isdigit z then
      if isspace b then atoi (x :: y :: z :: b :: t)
      else if b = 45 then -atoi (x :: y :: z :: b :: t) else 0
    else 0 := by
  cases hx : isdigit x <;> cases hy : isdigit y <;> cases hz : isdigit z <;>
    simp [respcode, byteAt, hx, hy, hz]

theorem respcode_pos_iff {u : Bytes} : 0 < respcode u ↔
    ∃ x y z b t, u = x :: y :: z :: b :: t ∧
      (isdigit x = true ∧ isdigit y = true ∧ isdigit z = true) ∧ [x, y, z] ≠ [48, 48, 48] ∧
      isspace b = true := by
  constructor
  · intro h
    have hthree : byteAt u 3 ≠ nul := by
      intro hnul
      simp [respcode, hnul, show (nul = 45) = False by decide] at h
    obtain ⟨x, y, z, b, t, rfl⟩ := exists_cons_of_byteAt_three hthree
    rw [respcode_cons] at h
    split at h
    · next hd =>
      obtain ⟨⟨hx, hy⟩, hz⟩ : (isdigit x = true ∧ isdigit y = true) ∧ isdigit z = true := by
        simpa using hd
      split at h
      · next hb =>
        rw [atoi_three_digits hx hy hz (not_isdigit_of_isspace hb)] at h
        exact ⟨x, y, z, b, t, rfl, ⟨hx, hy, hz⟩,
          (digitsValue_pos_iff hx hy hz).mp (by omega), hb⟩
      · split at h
        · next hb =>
          rw [atoi_three_digits hx hy hz (by rw [hb]; decide)] at h
          omega
        · simp at h
    · simp at h
  · rintro ⟨x, y, z, b, t, rfl, ⟨hx, hy, hz⟩, hne, hb⟩
    have hpos := (digitsValue_pos_iff hx hy hz).mpr hne
    rw [respcode_cons, if_pos (by simp [hx, hy, hz]), if_pos hb,
      atoi_three_digits hx hy hz (not_isdigit_of_isspace hb)]
    omega

/-- **Which lines are taken for a reply.** -/
theorem replyCode?_ne_none_iff {l : Bytes} : replyCode? l ≠ none ↔ LooksFinal l := by
  have hpos : replyCode? l ≠ none ↔ 0 < respcode (replyText l) := by
    rw [replyCode?]
    split <;> simp_all
  rw [hpos, respcode_pos_iff]
  constructor
  · rintro ⟨x, y, z, b, t, hu, hd, hne, hb⟩
    have hskip : skipSpace l = (x :: y :: z :: b :: t) ++ (skipSpace l).dropWhile (· ≠ cr) := by
      rw [← hu, replyText, List.takeWhile_append_dropWhile]
    have hcr : b ≠ cr := by
      have hmem : b ∈ replyText l := by simp [hu]
      simpa using List.mem_takeWhile_imp hmem
    refine ⟨l.takeWhile isspace, x, y, z, b, t ++ (skipSpace l).dropWhile (· ≠ cr), ?_, ?_, hd, hne,
      hb, hcr⟩
    · have := (List.takeWhile_append_dropWhile (p := isspace) (l := l)).symm
      rw [skipSpace] at hskip
      rw [hskip] at this
      exact this
    · exact fun c hc => List.mem_takeWhile_imp hc
  · rintro ⟨blanks, x, y, z, b, rest, rfl, hblanks, ⟨hx, hy, hz⟩, hne, hb, hcr⟩
    refine ⟨x, y, z, b, rest.takeWhile (· ≠ cr), ?_, ⟨hx, hy, hz⟩, hne, hb⟩
    have hskip : skipSpace (blanks ++ x :: y :: z :: b :: rest) = x :: y :: z :: b :: rest := by
      rw [skipSpace, List.dropWhile_append_of_pos hblanks]
      simp [not_isspace_of_isdigit hx]
    have hx' := ne_of_isdigit hx (c := cr) (by decide)
    have hy' := ne_of_isdigit hy (c := cr) (by decide)
    have hz' := ne_of_isdigit hz (c := cr) (by decide)
    simp [replyText, hskip, hx', hy', hz', hcr]

/-- The last line of a reply is passed on. -/
theorem replyCode?_last (c : ReplyCode) (t : Bytes) :
    replyCode? (c.digits ++ 32 :: t) = some c.value := by
  have hcode : respcode (replyText (c.digits ++ 32 :: t)) = c.value := by
    rw [replyText_append c (by decide), respcode, c.atoi_append (by decide)]
    simp [ReplyCode.digits, byteAt, c.isdigit_x, c.hy, c.hz, show isspace 32 = true by decide]
  have hpos := c.value_bounds.1
  rw [replyCode?, hcode, if_pos (by omega)]

/-- The first line of a multi-line reply is not. -/
theorem replyCode?_first (c : ReplyCode) (t : Bytes) :
    replyCode? (c.digits ++ 45 :: t) = none := by
  have hcode : respcode (replyText (c.digits ++ 45 :: t)) = -c.value := by
    rw [replyText_append c (by decide), respcode, c.atoi_append (by decide)]
    simp [ReplyCode.digits, byteAt, c.isdigit_x, c.hy, c.hz, show isspace 45 = false by decide]
  have hpos := c.value_bounds.1
  rw [replyCode?, hcode, if_neg (by omega)]

/-- What is passed on of one reply. -/
theorem filterMap_lines (r : ServerReply) :
    r.lines.filterMap replyCode? = r.inner.filterMap replyCode? ++ [r.code.value] := by
  rw [ServerReply.lines, ServerReply.inner]
  cases r.block with
  | none => simp [replyCode?_last]
  | some b => simp [replyCode?_first, replyCode?_last]

/-- One code is passed on for each reply, exactly when none is passed on for a line in between. -/
theorem filterMap_flatMap_lines_iff (rs : List ServerReply) :
    (rs.flatMap ServerReply.lines).filterMap replyCode? = rs.map (fun r => r.code.value) ↔
      ∀ r ∈ rs, ∀ l ∈ r.inner, replyCode? l = none := by
  constructor
  · intro h
    -- every reply contributes at least its last line, so the lengths leave no room
    have hlen := congrArg List.length h
    have hge : ∀ rs : List ServerReply, rs.length +
        (rs.map fun r => (r.inner.filterMap replyCode?).length).sum =
        ((rs.flatMap ServerReply.lines).filterMap replyCode?).length := by
      intro rs
      induction rs with
      | nil => rfl
      | cons r rs ih =>
        rw [List.flatMap_cons, List.filterMap_append, List.length_append, filterMap_lines, ← ih]
        simp
        omega
    have hsum : (rs.map fun r => (r.inner.filterMap replyCode?).length).sum = 0 := by
      have := hge rs
      rw [hlen, List.length_map] at this
      omega
    intro r hr
    have hzero := List.sum_eq_zero_iff_forall_eq_nat.mp hsum _ (List.mem_map_of_mem hr)
    exact List.filterMap_eq_nil_iff.mp (List.length_eq_zero_iff.mp hzero)
  · intro h
    induction rs with
    | nil => rfl
    | cons r rs ih =>
      have hr : r.inner.filterMap replyCode? = [] :=
        List.filterMap_eq_nil_iff.mpr (h r List.mem_cons_self)
      rw [List.flatMap_cons, List.filterMap_append, filterMap_lines, hr,
        ih fun r' hr' => h r' (List.mem_cons_of_mem _ hr')]
      rfl

/-! ### Replies of a run -/

/-- The code of a reply passed on. -/
def Event.code? : Event → Option Int
  | .reply code _ _ _ => some code
  | _ => none

/-- The codes passed to `cproc`, or to the login dialogue, in order. -/
def delivered (log : List Event) : List Int := (log.filterMap Event.code?).reverse

theorem delivered_append {new : List Event} (hnew : ∀ e ∈ new, e.code? = none)
    (log : List Event) : delivered (new ++ log) = delivered log := by
  simp [delivered, List.filterMap_eq_nil_iff.mpr hnew]

theorem code?_eq_none_of_control {e : Event} (he : e.control = false) : e.code? = none := by
  cases e <;> first | rfl | cases he

theorem Session.Extends.delivered_eq {s s' : Session} (h : Extends s s') :
    delivered s'.log = delivered s.log := by
  obtain ⟨new, hlog, hnew⟩ := h
  rw [hlog]
  refine delivered_append (fun e he => ?_) s.log
  have := hnew e he
  cases e <;> first | rfl | cases this

theorem Session.delivered_meet (s : Session) (e : Event) :
    delivered (s.meet e).log = delivered (e :: s.log) :=
  delivered_append (fun _ he => code?_eq_none_of_control (control_of_mem_response he)) (e :: s.log)

theorem Session.Act.delivered_eq {s s' : Session} (h : Act s s') :
    delivered s'.log = delivered s.log := by
  rcases h.extends with h | ⟨e, -, he, h⟩
  · exact h.delivered_eq
  · rw [h.delivered_eq, delivered_meet]
    simp [delivered, code?_eq_none_of_control he]

theorem Session.Reply.delivered_eq {code : Int} {buf : Bytes} {s s' : Session}
    (h : Reply code buf s s') : delivered s'.log = delivered s.log ++ [code] := by
  rw [h.extends.delivered_eq, delivered_meet]
  simp [delivered, Event.code?]

variable {α : Type} {w w' : World α}

/-- The codes passed on are those of the lines. -/
def Delivered (w : World α) : Prop :=
  delivered w.log = ((passed w.log).map cstr).filterMap replyCode?

theorem Delivered.congr (h : Delivered w) (hd : delivered w'.log = delivered w.log)
    (hp : passed w'.log = passed w.log) : Delivered w' := by
  rw [Delivered, hd, hp]
  exact h

theorem Delivered.line (h : Delivered w) (wait : Int → World α → Int × World α) (cur : Bytes)
    (hs : w.view.ctl = true ∨ w.view.cproc = some .active) :
    Delivered (procControl wait (cstr cur) (w.emit (.line cur))) := by
  set g := w.emit (.line cur) with hg
  obtain ⟨-, hpass, -⟩ := received_passed_procControl wait (cstr cur) (w := g) hs
  have hpass' : passed g.log = passed w.log ++ [cur] := passed_line cur w.log
  have hdel : delivered g.log = delivered w.log := rfl
  rw [Delivered, hpass, hpass', List.map_append, List.filterMap_append, ← h]
  rcases reply_procControl wait (cstr cur) (w := g) hs with ⟨hc, hv⟩ | ⟨hc, hr⟩
  · have hlog : (procControl wait (cstr cur) g).log = g.log := congrArg Session.log hv
    rw [hlog, hdel]
    simp [replyCode?, hc]
  · have hgot : delivered (procControl wait (cstr cur) g).log = _ := hr.delivered_eq
    have hcode : replyCode? (cstr cur) = some (respcode (replyText (cstr cur))) := if_pos hc
    rw [hgot, List.map_singleton, List.filterMap_cons, hcode]
    exact congrArg (· ++ _) hdel

theorem Delivered.move (h : Delivered w) (hm : Move w w') : Delivered w' := by
  cases hm with
  | quiet hv =>
    have hlog : w'.log = w.log := congrArg Session.log hv
    exact h.congr (by rw [hlog]) (by rw [hlog])
  | act ha => exact h.congr ha.delivered_eq ha.received_passed.2
  | discard _ => exact h
  | scan wait b hctl hb hlen =>
    refine scanBytes_induction wait (fun w cur hs h => h.line wait cur hs) (fun _ _ h => h) b
      w.ftp.crecv false (.inl (view_ctl_of_ne_none hctl)) ?_
    exact h
  | hangup hctl =>
    have hlog : (ftpClose w).log = w.view.close.log := congrArg Session.log (view_ftpClose w)
    have hclose := (Extends.refl w.view).close
    exact h.congr (by rw [hlog, hclose.delivered_eq]; rfl)
      (by rw [hlog, hclose.received_passed.2]; rfl)

theorem delivered_connected (ctl : Fd) (user pass : Option Bytes) (app : α) :
    Delivered (World.connected ctl user pass app) := by
  simp [Delivered, World.connected, delivered, passed]

/-- **What a run passes on**: the codes of the lines, in order. -/
theorem delivered_run (ctl : Fd) (user pass : Option Bytes) (app : α)
    (inputs : List (Env × Input α)) :
    Delivered ((World.connected ctl user pass app).run inputs) :=
  run_induction (I := Delivered) (fun _ _ h hm => h.move hm) rfl
    (delivered_connected ctl user pass app) inputs

/-- **Multi-line replies.** When the lines of a run are those of a sequence of replies, exactly one
code is passed on for each reply, and it is the reply's, if and only if no line between a first and
a last one looks like a reply itself. -/
theorem delivered_replies_iff (ctl : Fd) (user pass : Option Bytes) (app : α)
    (inputs : List (Env × Input α)) (rs : List ServerReply)
    (h : (passed ((World.connected ctl user pass app).run inputs).log).map cstr =
      rs.flatMap ServerReply.lines) :
    delivered ((World.connected ctl user pass app).run inputs).log =
        rs.map (fun r => r.code.value) ↔
      ∀ r ∈ rs, ∀ l ∈ r.inner, ¬LooksFinal l := by
  rw [delivered_run ctl user pass app inputs, h, filterMap_flatMap_lines_iff]
  simp only [← replyCode?_ne_none_iff, not_not]

/-- A reply of two lines and one in between. -/
def replyWith (inner : Bytes) : ServerReply where
  code := ⟨49, 50, 51, by decide, by decide, by decide⟩
  block := some (ascii "First line", [ascii "Second line", inner])
  text := ascii "The last line"

/-- The run of a client that receives it. -/
def runWith (inner : Bytes) : World Unit :=
  (World.connected 3 none none ()).run
    [({ Env.quiet with ctlIn := [.data (ascii "123-First line\r\nSecond line\r\n" ++ inner ++
        ascii "\r\n123 The last line\r\n")] }, .handle 3)]

theorem delivered_replies_iff_plain :
    delivered (runWith (ascii "Third line")).log = [123] ↔
      ∀ r ∈ [replyWith (ascii "Third line")], ∀ l ∈ r.inner, ¬LooksFinal l :=
  delivered_replies_iff 3 none none () _ [replyWith (ascii "Third line")] (by decide)

/-- An indented line that begins with numbers is taken for a reply of its own. -/
theorem delivered_ne_of_numbers :
    (passed (runWith (ascii "  234 A line beginning with numbers")).log).map cstr =
        [replyWith (ascii "  234 A line beginning with numbers")].flatMap ServerReply.lines ∧
      delivered (runWith (ascii "  234 A line beginning with numbers")).log ≠
        [replyWith (ascii "  234 A line beginning with numbers")].map fun r => r.code.value := by
  decide

end Visftp
