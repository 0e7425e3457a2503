import Visftp.TextGrammar
import Visftp.TextLexing

/-!
# The parser on its file

`ts_text.c` down to `fgetc`: the characters of the file are read one at a time, one of them may be
pushed back, and a token is a buffer of bytes. The loops and the recursion may not end, a byte may
be read from an empty buffer, and the array `values` of `read_array` may be indexed beyond its size;
here these are faults.

The buffer of a token is a `darr` of characters with a zero at its end (`darr_run` says what it
holds). `nline` is left out, which nothing reads.

## Main definitions

* `Parser`, `Fault`, `TokType` — the state, what must not happen, the types of tokens
* `nextTokenIn`, `readValueIn`, `readArrayIn`, `readNodeIn`, `tsTextLoadIn` — the functions

## Main results

* `nextTokenIn_cases` — a token takes at least a character
* `tsTextLoadIn_eq` — loading ends without a fault, with the tree that the tokens say
-/

namespace Visftp

open CString

/-- `struct parser`: what is still to be read of the file, and the buffer of the token. -/
structure Parser where
  fp : Bytes
  token : Bytes

/-- What must not happen. -/
inductive Fault
  /-- A loop or the recursion goes on for longer than it may. -/
  | endless
  /-- A byte is read from an empty token. -/
  | emptyToken
  /-- An element behind the last one of `values` is used. -/
  | badIndex
  deriving DecidableEq

/-- What `next_token` returns; `eof` is `-1`. -/
inductive TokType
  | eof
  | sym
  | id
  | num
  | str
  deriving DecidableEq

/-! ### Characters and tokens -/

/-- `fgetc`, with `none` for `-1`. -/
def fgetc (p : Parser) : Option Byte × Parser :=
  match p.fp with
  | [] => (none, p)
  | c :: s => (some c, { p with fp := s })

/-- `if(c != -1) ungetc(c, pst->fp)` -/
def ungetc (c : Option Byte) (p : Parser) : Parser :=
  match c with
  | none => p
  | some c => { p with fp := c :: p.fp }

/-- `darr_strpush(pst->token, c)` -/
def Parser.strpush (c : Byte) (p : Parser) : Parser :=
  { p with token := p.token.dropLast ++ [c] ++ [nul] }

/-- `darr_strpop(pst->token)` -/
def Parser.strpop (p : Parser) : Parser := { p with token := p.token.dropLast.dropLast ++ [nul] }

/-- `pst->token[0]` -/
def Parser.token0 (p : Parser) : Except Fault Byte :=
  match p.token with
  | [] => .error .emptyToken
  | c :: _ => .ok c

/-- `pst->token`, read as a string. -/
def Parser.text (p : Parser) : Except Fault Bytes :=
  if p.token = [] then .error .emptyToken else .ok (cstr p.token)

/-- The loops of `next_token`: `while((c = fgetc(pst->fp)) != -1 && go(c))`, where `go` may depend
on whether there has been a point, and the character may be pushed to the token. The result is the
last character. -/
def scanWhile (go : Bool → Byte → Bool) (push : Bool) :
    ℕ → Bool → Parser → Except Fault (Option Byte × Parser)
  | 0, _, _ => .error .endless
  | fuel + 1, foundDot, p =>
    match fgetc p with
    | (none, p) => .ok (none, p)
    | (some c, p) =>
      if go foundDot c then
        scanWhile go push fuel (foundDot || c == 46) (if push then p.strpush c else p)
      else .ok (some c, p)

/-- The first loop of `next_token`: blanks and comments are skipped. -/
def skipBlanksIn : ℕ → Parser → Except Fault (Option Byte × Parser)
  | 0, _ => .error .endless
  | fuel + 1, p =>
    match fgetc p with
    | (none, p) => .ok (none, p)
    | (some c, p) => do
      let (c, p) ← if c = 35 then scanWhile (fun _ c => c != lf) false fuel false p
        else .ok (some c, p)
      match c with
      | none => .ok (none, p)
      | some c => if isspace c then skipBlanksIn fuel p else .ok (some c, p)

/-- `next_token` -/
def nextTokenIn (fuel : ℕ) (p : Parser) : Except Fault (TokType × Parser) := do
  let (c, p) ← skipBlanksIn fuel { p with token := [] }
  match c with
  | none => .ok (.eof, p)
  | some c =>
    let p := p.strpush c
    if isdigit c || c == 45 || c == 43 then
      let (c, p) ← scanWhile (fun dot c => isdigit c || (c == 46 && !dot)) true fuel false p
      .ok (.num, ungetc c p)
    else if isalpha c then
      let (c, p) ← scanWhile (fun _ => isIdChar) true fuel false p
      .ok (.id, ungetc c p)
    else if c = 34 then
      let (c, p) ← scanWhile (fun _ c => c != 34) true fuel false p.strpop
      if c ≠ some 34 then .ok (.eof, p) else .ok (.str, p)
    else .ok (.sym, p)

/-! ### Reading -/

/-- The last case of `read_value`. -/
def readString (p : Parser) : Except Fault (Option TsValue × Parser) := do
  let text ← p.text
  .ok (some (tsSetValueStr tsInitValue text), p)

mutual

/-- `read_value`, with `none` for `-1`. -/
def readValueIn : ℕ → TokType → Parser → Except Fault (Option TsValue × Parser)
  | 0, _, _ => .error .endless
  | _ + 1, .num, p => do
    let text ← p.text
    .ok (some (tsSetValuef tsInitValue (atof text).toFloat), p)
  | fuel + 1, .sym, p => do
    let c ← p.token0
    if opensArray c then readArrayIn fuel (c + 2) [] p else .ok (some tsInitValue, p)
  | _ + 1, .id, p => readString p
  | _ + 1, .str, p => readString p
  | _ + 1, .eof, p => readString p

/-- The loop of `read_array`, with the elements of `values` below `nval`, and what comes behind
it. -/
def readArrayIn : ℕ → Byte → List TsValue → Parser → Except Fault (Option TsValue × Parser)
  | 0, _, _, _ => .error .endless
  | fuel + 1, endsym, values, p => do
    let (type, p) ← nextTokenIn fuel p
    if type = .eof then .ok ((finishArray tsInitValue values []).map Prod.fst, p)
    else if 32 ≤ values.length then .error .badIndex
    else
      let (val, p) ← readValueIn fuel type p
      match val with
      | none => .ok (none, p)
      | some v =>
        let values := if values.length < 31 then values ++ [v] else values
        let (type, p) ← nextTokenIn fuel p
        if type = .sym then
          let c ← p.token0
          if c = endsym then .ok ((finishArray tsInitValue values []).map Prod.fst, p)
          else if c = 44 then readArrayIn fuel endsym values p
          else .ok (none, p)
        else .ok (none, p)

end

/-- `read_node`, with what the node holds so far. -/
def readNodeIn : ℕ → TsNode → Parser → Except Fault (Option TsNode × Parser)
  | 0, _, _ => .error .endless
  | fuel + 1, node, p => do
    let (type, p) ← nextTokenIn fuel p
    if type = .id then
      let id ← p.text
      let (type, p) ← nextTokenIn fuel p
      if type = .sym then
        let c ← p.token0
        if c = 61 then
          let (type, p) ← nextTokenIn fuel p
          if type = .eof then .ok (none, p)
          else
            let (val, p) ← readValueIn fuel type p
            match val with
            | none => .ok (none, p)
            | some val => readNodeIn fuel (tsAddAttr node ⟨id, val⟩) p
        else if c = 123 then
          let (child, p) ← readNodeIn fuel tsAllocNode p
          match child with
          | none => .ok (none, p)
          | some child => readNodeIn fuel (tsAddChild node { child with name := id }) p
        else
          -- the token is complained about
          let _ ← p.text
          .ok (none, p)
      else .ok (none, p)
    else if type = .sym then
      let c ← p.token0
      .ok (if c = 125 then some node else none, p)
    else .ok (none, p)

/-- `ts_text_load` -/
def tsTextLoadIn (fuel : ℕ) (file : Bytes) : Except Fault (Option TsNode) := do
  let (type, p) ← nextTokenIn fuel ⟨file, []⟩
  if type = .id then
    let rootName ← p.text
    let (type, p) ← nextTokenIn fuel p
    if type = .sym then
      let c ← p.token0
      if c = 123 then
        let (node, _) ← readNodeIn fuel tsAllocNode p
        .ok (node.map fun node => { node with name := rootName })
      else .ok none
    else .ok none
  else .ok none

/-! ### The loops of `next_token` -/

/-- The characters that a loop goes over, and those behind them. -/
def spanWhile (go : Bool → Byte → Bool) : Bool → Bytes → Bytes × Bytes
  | _, [] => ([], [])
  | foundDot, c :: s =>
    if go foundDot c then
      let (text, rest) := spanWhile go (foundDot || c == 46) s
      (c :: text, rest)
    else ([], c :: s)

theorem spanWhile_eq (q : Byte → Bool) (foundDot : Bool) (s : Bytes) :
    spanWhile (fun _ => q) foundDot s = (s.takeWhile q, s.dropWhile q) := by
  induction s generalizing foundDot with
  | nil => rfl
  | cons c s ih =>
    rw [spanWhile, List.takeWhile_cons, List.dropWhile_cons, ih]
    split <;> simp [*]

theorem spanWhile_num (foundDot : Bool) (s : Bytes) :
    spanWhile (fun dot c => isdigit c || (c == 46 && !dot)) foundDot s = scanNum foundDot s := by
  induction s generalizing foundDot with
  | nil => rfl
  | cons c s ih => rw [spanWhile, scanNum, ih]

/-- The buffer of a token after these characters were pushed, or skipped. -/
def pushRun (push : Bool) (cs token : Bytes) : Bytes :=
  if push = true ∧ cs ≠ [] then token.dropLast ++ cs ++ [nul] else token

theorem pushRun_nil (push : Bool) (token : Bytes) : pushRun push [] token = token := by
  simp [pushRun]

theorem pushRun_text (cs text : Bytes) : pushRun true cs (text ++ [nul]) = text ++ cs ++ [nul] := by
  rw [pushRun]
  split
  · simp
  · next h =>
    obtain rfl : cs = [] := by simpa using h
    simp

/-- **A loop of `next_token` ends**, at the first character that it does not go over. -/
theorem scanWhile_eq (go : Bool → Byte → Bool) (push : Bool) {fuel : ℕ} (foundDot : Bool)
    {s : Bytes} (token : Bytes) (hfuel : s.length < fuel) :
    scanWhile go push fuel foundDot ⟨s, token⟩ =
      .ok ((spanWhile go foundDot s).2.head?, ⟨(spanWhile go foundDot s).2.tail,
        pushRun push (spanWhile go foundDot s).1 token⟩) := by
  induction fuel generalizing s foundDot token with
  | zero => exact absurd hfuel (Nat.not_lt_zero _)
  | succ fuel ih =>
    cases s with
    | nil =>
      rw [scanWhile, spanWhile, pushRun_nil]
      rfl
    | cons c s =>
      have hlen : s.length < fuel := by simpa using hfuel
      rw [scanWhile, spanWhile]
      simp only [fgetc]
      split
      · cases push with
        | true =>
          have hrec := ih (foundDot || c == 46) (token.dropLast ++ [c] ++ [nul]) hlen
          rw [pushRun_text] at hrec
          simpa [Parser.strpush, pushRun] using hrec
        | false => simpa [pushRun] using ih (foundDot || c == 46) token hlen
      · rw [pushRun_nil]
        rfl

/-- A comment is skipped up to its line feed. -/
theorem skipBlanks_comment (s : Bytes) :
    skipBlanks true s = skipBlanks false (s.dropWhile (· != lf)).tail := by
  induction s with
  | nil => rfl
  | cons c s ih =>
    rw [skipBlanks, List.dropWhile_cons]
    cases hc : c != lf with
    | true => simpa using ih
    | false => simp

/-- **Blanks and comments are skipped**, and then there is a character or the end. -/
theorem skipBlanksIn_eq {fuel : ℕ} {s : Bytes} (token : Bytes) (hfuel : s.length < fuel) :
    skipBlanksIn fuel ⟨s, token⟩ =
      .ok ((skipBlanks false s).head?, ⟨(skipBlanks false s).tail, token⟩) := by
  induction fuel generalizing s with
  | zero => exact absurd hfuel (Nat.not_lt_zero _)
  | succ fuel ih =>
    cases s with
    | nil => rfl
    | cons c s =>
      have hlen : s.length < fuel := by simpa using hfuel
      rw [skipBlanksIn, skipBlanks]
      simp only [fgetc]
      split
      · have hscan := scanWhile_eq (fun _ c => c != lf) false false token hlen
        rw [spanWhile_eq] at hscan
        rw [skipBlanks_comment, hscan]
        have hdrop := (List.dropWhile_suffix (· != lf) (l := s)).length_le
        cases hrest : s.dropWhile (· != lf) with
        | nil => rfl
        | cons d t =>
          have hd : d = lf := by simpa [hrest] using List.head?_dropWhile_not (· != lf) s
          have hlen' : t.length < fuel := by
            rw [hrest, List.length_cons] at hdrop
            omega
          subst hd
          exact ih hlen'
      · show (if isspace c then skipBlanksIn fuel ⟨s, token⟩ else _) = _
        split
        · exact ih hlen
        · rfl

/-! ### Tokens -/

/-- The type of a token. -/
def Token.type : Token → TokType
  | .sym _ => .sym
  | .id _ => .id
  | .num _ => .num
  | .str _ => .str

/-- The buffer of a token. -/
def Token.buffer : Token → Bytes
  | .sym c => [c, nul]
  | .id text | .num text | .str text => text ++ [nul]

/-- The character at which a loop has ended is pushed back. -/
theorem ungetc_eq (s token : Bytes) : ungetc s.head? ⟨s.tail, token⟩ = ⟨s, token⟩ := by
  cases s <;> rfl

/-- **`next_token`**: the token, or the end of the file. -/
theorem nextTokenIn_eq {fuel : ℕ} (p : Parser) (hfuel : p.fp.length < fuel) :
    (nextToken p.fp = none ∧ ∃ token, nextTokenIn fuel p = .ok (.eof, ⟨[], token⟩)) ∨
      ∃ tok rest, nextToken p.fp = some (tok, rest) ∧
        nextTokenIn fuel p = .ok (tok.type, ⟨rest, tok.buffer⟩) := by
  have hskip := skipBlanksIn_eq [] hfuel
  have hle := length_skipBlanks_le false p.fp
  rw [nextTokenIn, nextToken, hskip]
  cases hs : skipBlanks false p.fp with
  | nil => exact .inl ⟨rfl, [], rfl⟩
  | cons c s =>
    have hlen : s.length < fuel := by
      rw [hs, List.length_cons] at hle
      omega
    have hpush : (⟨s, []⟩ : Parser).strpush c = ⟨s, [c] ++ [nul]⟩ := rfl
    simp only [List.head?_cons, List.tail_cons, bind, Except.bind, hpush]
    split
    · have hscan := scanWhile_eq (fun dot c => isdigit c || (c == 46 && !dot)) true false
        ([c] ++ [nul]) hlen
      rw [spanWhile_num, pushRun_text] at hscan
      simp only [hscan]
      exact .inr ⟨_, _, rfl, by rw [ungetc_eq]; rfl⟩
    split
    · have hscan := scanWhile_eq (fun _ => isIdChar) true false ([c] ++ [nul]) hlen
      rw [spanWhile_eq, pushRun_text] at hscan
      simp only [hscan]
      exact .inr ⟨_, _, rfl, by rw [ungetc_eq]; rfl⟩
    split
    · have hscan := scanWhile_eq (fun _ c => c != 34) true false [nul] hlen
      rw [spanWhile_eq, ← List.nil_append [nul], pushRun_text] at hscan
      have hpop : (⟨s, [c] ++ [nul]⟩ : Parser).strpop = ⟨s, [] ++ [nul]⟩ := rfl
      simp only [hpop, hscan]
      cases hrest : s.dropWhile (· != 34) with
      | nil => exact .inl ⟨rfl, _, rfl⟩
      | cons d t =>
        have hd : d = 34 := by simpa [hrest] using List.head?_dropWhile_not (· != 34) s
        subst hd
        exact .inr ⟨_, _, rfl, rfl⟩
    · exact .inr ⟨_, _, rfl, rfl⟩

/-- Identifiers and numbers have no zero in them. -/
def Token.NulFree : Token → Prop
  | .id text | .num text => nul ∉ text
  | _ => True

theorem nul_notMem_scanNum (foundDot : Bool) (s : Bytes) : nul ∉ (scanNum foundDot s).1 := by
  induction s generalizing foundDot with
  | nil => simp [scanNum]
  | cons c s ih =>
    rw [scanNum]
    split
    · next h =>
      have hc : nul ≠ c := by
        rintro rfl
        cases foundDot <;> exact absurd h (by decide)
      exact List.not_mem_cons_of_ne_of_not_mem hc (ih _)
    · simp

theorem nulFree_of_nextToken {s rest : Bytes} {tok : Token} (h : nextToken s = some (tok, rest)) :
    tok.NulFree := by
  have hwf := wf_of_nextToken h
  rw [nextToken] at h
  cases hs : skipBlanks false s with
  | nil => simp [hs] at h
  | cons c t =>
    rw [hs] at h
    simp only at h
    split_ifs at h with hnum halpha hquote
    · obtain ⟨rfl, -⟩ := Prod.mk.inj (Option.some.inj h)
      have hc : nul ≠ c := by
        rintro rfl
        exact absurd hnum (by decide)
      exact List.not_mem_cons_of_ne_of_not_mem hc (nul_notMem_scanNum _ _)
    · obtain ⟨rfl, -⟩ := Prod.mk.inj (Option.some.inj h)
      obtain ⟨d, u, heq, hd, hu⟩ := hwf
      intro hmem
      rw [heq] at hmem
      rcases List.mem_cons.mp hmem with rfl | hmem
      · exact absurd hd (by decide)
      · exact absurd (hu _ hmem) (by decide)
    · cases hd : t.dropWhile (· != 34) with
      | nil => simp [hd] at h
      | cons d u =>
        rw [hd] at h
        obtain ⟨rfl, -⟩ := Prod.mk.inj (Option.some.inj h)
        trivial
    · obtain ⟨rfl, -⟩ := Prod.mk.inj (Option.some.inj h)
      trivial

/-- **A token takes at least a character**, and is the next one of the file. -/
theorem nextTokenIn_cases {fuel : ℕ} (s token : Bytes) (hfuel : s.length < fuel) :
    (tokens s = [] ∧ ∃ token', nextTokenIn fuel ⟨s, token⟩ = .ok (.eof, ⟨[], token'⟩)) ∨
      ∃ tok rest, tokens s = tok :: tokens rest ∧ tok.NulFree ∧ rest.length < s.length ∧
        nextTokenIn fuel ⟨s, token⟩ = .ok (tok.type, ⟨rest, tok.buffer⟩) := by
  rcases nextTokenIn_eq ⟨s, token⟩ hfuel with ⟨hnone, heof⟩ | ⟨tok, rest, hsome, hok⟩
  · exact .inl ⟨by rw [tokens_eq, hnone], heof⟩
  · exact .inr ⟨tok, rest, by rw [tokens_eq, hsome], nulFree_of_nextToken hsome,
      length_lt_of_nextToken hsome, hok⟩

/-! ### The recursion -/

/-- The parser on the file does what the one on the tokens does, and has not gone back in the
file. -/
def Simulates {β : Type} (r : Option (β × List Token)) (res : Except Fault (Option β × Parser))
    (n : ℕ) : Prop :=
  ∃ p, res = .ok (r.map Prod.fst, p) ∧
    ∀ x ts, r = some (x, ts) → tokens p.fp = ts ∧ p.fp.length ≤ n

theorem Simulates.mono {β : Type} {r : Option (β × List Token)}
    {res : Except Fault (Option β × Parser)} {n m : ℕ} (h : Simulates r res n) (hnm : n ≤ m) :
    Simulates r res m := by
  obtain ⟨p, hres, hrest⟩ := h
  exact ⟨p, hres, fun x ts hx => ⟨(hrest x ts hx).1, (hrest x ts hx).2.trans hnm⟩⟩

/-- Either both have failed, or both have something, and are at the same place of the file. -/
theorem Simulates.cases {β : Type} {r : Option (β × List Token)}
    {res : Except Fault (Option β × Parser)} {n : ℕ} (h : Simulates r res n) :
    ∃ p, r = none ∧ res = .ok (none, p) ∨
      ∃ x, r = some (x, tokens p.fp) ∧ res = .ok (some x, p) ∧ p.fp.length ≤ n := by
  obtain ⟨p, hres, hrest⟩ := h
  refine ⟨p, ?_⟩
  cases r with
  | none => exact .inl ⟨rfl, hres⟩
  | some r =>
    obtain ⟨hts, hle⟩ := hrest r.1 r.2 rfl
    exact .inr ⟨r.1, by rw [hts], hres, hle⟩

theorem text_eq {text : Bytes} (p : Bytes) (h : nul ∉ text) :
    (⟨p, text ++ [nul]⟩ : Parser).text = .ok text := by
  rw [Parser.text, if_neg (by simp), cstr_append_nul h]

theorem text_str (p text : Bytes) : (⟨p, text ++ [nul]⟩ : Parser).text = .ok (cstr text) := by
  rw [Parser.text, if_neg (by simp), cstr_append_cons]

/-- The array is complete. -/
theorem simulates_finish {values : List TsValue} {ts : List Token} {p : Parser} {n : ℕ}
    (hts : tokens p.fp = ts) (hn : p.fp.length ≤ n) :
    Simulates (finishArray tsInitValue values ts)
      (.ok ((finishArray tsInitValue values []).map Prod.fst, p)) n := by
  refine ⟨p, ?_, fun x ts' h => ?_⟩
  · rw [finishArray, finishArray]
    split
    · rfl
    · simp [Function.comp_def]
  · rw [finishArray] at h
    split at h
    · simp at h
    · obtain ⟨v, -, hv⟩ := Option.map_eq_some_iff.mp h
      exact ⟨hts.trans (Prod.mk.inj hv).2, hn⟩

/-- **Values and arrays**: a fuel of twice what is left of the file is never used up, since a value
and an array that begins with it are at the same place, and everything else takes a token. -/
theorem simulates_values (fuel : ℕ) :
    (∀ (tok : Token) (rest : Bytes), tok.NulFree → 2 * rest.length + 3 ≤ fuel →
      Simulates (readValue fuel tok (tokens rest)) (readValueIn fuel tok.type ⟨rest, tok.buffer⟩)
        rest.length) ∧
    ∀ (endsym : Byte) (values : List TsValue) (p : Parser), values.length ≤ 31 →
      2 * p.fp.length + 2 ≤ fuel →
      Simulates (readArray fuel endsym (tokens p.fp) values) (readArrayIn fuel endsym values p)
        p.fp.length := by
  induction fuel with
  | zero =>
    exact ⟨fun tok rest _ hfuel => absurd hfuel (by omega),
      fun endsym values p _ hfuel => absurd hfuel (by omega)⟩
  | succ fuel ih =>
    obtain ⟨ihvalue, iharray⟩ := ih
    constructor
    · intro tok rest hnul hfuel
      have hdone : ∀ v : TsValue, ∀ x ts, some (v, tokens rest) = some (x, ts) →
          tokens rest = ts ∧ rest.length ≤ rest.length := by
        rintro v x ts h
        exact ⟨(Prod.mk.inj (Option.some.inj h)).2, le_rfl⟩
      cases tok with
      | num text =>
        rw [readValue, Token.type, readValueIn, Token.buffer, text_eq rest hnul]
        exact ⟨_, rfl, hdone _⟩
      | id text =>
        rw [readValue, Token.type, readValueIn, Token.buffer, readString, text_str]
        exact ⟨_, rfl, hdone _⟩
      | str text =>
        rw [readValue, Token.type, readValueIn, Token.buffer, readString, text_str]
        exact ⟨_, rfl, hdone _⟩
      | sym c =>
        rw [readValue, Token.type, readValueIn, Token.buffer]
        show Simulates _ (if opensArray c then _ else _) _
        split
        · exact iharray (c + 2) [] ⟨rest, [c, nul]⟩ (by simp) (by simp; omega)
        · exact ⟨_, rfl, hdone _⟩
    · intro endsym values p hvalues hfuel
      rw [readArrayIn]
      simp only [bind, Except.bind]
      rcases nextTokenIn_cases p.fp p.token (by omega : p.fp.length < fuel) with
        ⟨hnil, token, heof⟩ | ⟨tok, rest, htokens, hnul, hlt, hok⟩
      · rw [hnil, heof, readArray]
        exact simulates_finish rfl (Nat.zero_le _)
      have htype : tok.type ≠ .eof := by cases tok <;> simp [Token.type]
      rw [htokens, hok, readArray]
      simp only [if_neg htype, if_neg (by omega : ¬32 ≤ values.length)]
      rcases (ihvalue tok rest hnul (by omega)).cases with
        ⟨p₁, ⟨hnone, hres⟩ | ⟨v, hsome, hres, hle⟩⟩
      · rw [hnone, hres]
        exact ⟨p₁, rfl, by simp⟩
      rw [hsome, hres]
      dsimp only
      rcases nextTokenIn_cases p₁.fp p₁.token (by omega : p₁.fp.length < fuel) with
        ⟨hnil, token, heof⟩ | ⟨tok₂, rest₂, htokens₂, hnul₂, hlt₂, hok₂⟩
      · rw [hnil, heof]
        exact ⟨_, rfl, by simp⟩
      rw [htokens₂, hok₂]
      cases tok₂ with
      | sym c =>
        simp only [Token.type, Token.buffer, Parser.token0, if_true]
        set values' := if values.length < 31 then values ++ [v] else values with hv'
        have hvalues' : values'.length ≤ 31 := by
          rw [hv']
          split
          · rw [List.length_append, List.length_singleton]
            omega
          · exact hvalues
        split
        · exact simulates_finish rfl (by simp; omega)
        split
        · exact (iharray endsym values' ⟨rest₂, [c, nul]⟩ hvalues' (by simp; omega)).mono
            (by simp; omega)
        · exact ⟨_, rfl, by simp⟩
      | id text => exact ⟨_, rfl, by simp⟩
      | num text => exact ⟨_, rfl, by simp⟩
      | str text => exact ⟨_, rfl, by simp⟩

/-- **Nodes**, likewise. -/
theorem simulates_node (fuel : ℕ) (node : TsNode) (p : Parser)
    (hfuel : 2 * p.fp.length + 2 ≤ fuel) :
    Simulates (readNode fuel node (tokens p.fp)) (readNodeIn fuel node p) p.fp.length := by
  induction fuel generalizing node p with
  | zero => exact absurd hfuel (by omega)
  | succ fuel ih =>
    rw [readNodeIn]
    simp only [bind, Except.bind]
    rcases nextTokenIn_cases p.fp p.token (by omega : p.fp.length < fuel) with
      ⟨hnil, token, heof⟩ | ⟨tok, rest, htokens, hnul, hlt, hok⟩
    · rw [hnil, heof]
      exact ⟨_, rfl, by simp [readNode]⟩
    rw [htokens, hok]
    cases tok with
    | num text => exact ⟨_, rfl, by simp [readNode]⟩
    | str text => exact ⟨_, rfl, by simp [readNode]⟩
    | sym c =>
      refine ⟨⟨rest, [c, nul]⟩, ?_, fun x ts h => ?_⟩
      · simp only [Token.type, Token.buffer, Parser.token0, readNode, reduceCtorEq, if_false,
          if_true]
        split <;> rfl
      · rw [readNode] at h
        split at h
        · exact ⟨(Prod.mk.inj (Option.some.inj h)).2, hlt.le⟩
        · simp at h
    | id name =>
      simp only [Token.type, Token.buffer, if_true, text_eq rest hnul]
      rcases nextTokenIn_cases rest (name ++ [nul]) (by omega : rest.length < fuel) with
        ⟨hnil, token, heof⟩ | ⟨tok₂, rest₂, htokens₂, hnul₂, hlt₂, hok₂⟩
      · rw [hnil, heof]
        exact ⟨_, rfl, by simp [readNode]⟩
      rw [htokens₂, hok₂]
      cases tok₂ with
      | num text => exact ⟨_, rfl, by simp [readNode]⟩
      | str text => exact ⟨_, rfl, by simp [readNode]⟩
      | id text => exact ⟨_, rfl, by simp [readNode]⟩
      | sym c =>
        rw [readNode_id]
        simp only [Token.type, Token.buffer, Parser.token0, if_true]
        split
        · rcases nextTokenIn_cases rest₂ [c, nul] (by omega : rest₂.length < fuel) with
            ⟨hnil, token, heof⟩ | ⟨tok₃, rest₃, htokens₃, hnul₃, hlt₃, hok₃⟩
          · rw [hnil, heof]
            exact ⟨_, rfl, by simp⟩
          have htype : tok₃.type ≠ .eof := by cases tok₃ <;> simp [Token.type]
          rw [htokens₃, hok₃]
          simp only [if_neg htype]
          rcases ((simulates_values fuel).1 tok₃ rest₃ hnul₃ (by omega)).cases with
            ⟨p₁, ⟨hnone, hres⟩ | ⟨val, hsome, hres, hle⟩⟩
          · rw [hnone, hres]
            exact ⟨p₁, rfl, by simp⟩
          · rw [hsome, hres]
            exact (ih (tsAddAttr node ⟨name, val⟩) p₁ (by omega)).mono (by omega)
        split
        · rcases (ih tsAllocNode ⟨rest₂, [c, nul]⟩ (by simp; omega)).cases with
            ⟨p₁, ⟨hnone, hres⟩ | ⟨child, hsome, hres, hle⟩⟩
          · simp only at hnone
            rw [hnone, hres]
            exact ⟨p₁, rfl, by simp⟩
          · simp only at hsome hle
            rw [hsome, hres]
            exact (ih (tsAddChild node { child with name }) p₁ (by omega)).mono (by omega)
        · exact ⟨_, rfl, by simp⟩

/-- There are no more tokens than characters. -/
theorem length_tokens_le (s : Bytes) : (tokens s).length ≤ s.length := by
  have hupTo : ∀ (n : ℕ) (s : Bytes), (tokensUpTo n s).length ≤ n := by
    intro n
    induction n with
    | zero => exact fun s => le_rfl
    | succ n ih =>
      intro s
      rw [tokensUpTo]
      split
      · exact Nat.zero_le _
      · exact Nat.succ_le_succ (ih _)
  exact hupTo s.length s

theorem tsTextLoadIn_of_le {fuel : ℕ} (file : Bytes) (hfuel : 2 * file.length + 3 ≤ fuel) :
    tsTextLoadIn fuel file = .ok (tsTextLoad file) := by
  rw [tsTextLoadIn, tsTextLoad]
  simp only [bind, Except.bind]
  rcases nextTokenIn_cases file [] (by omega : file.length < fuel) with
    ⟨hnil, token, heof⟩ | ⟨tok, rest, htokens, hnul, hlt, hok⟩
  · rw [hnil, heof]
    rfl
  rw [htokens, hok]
  cases tok with
  | num text => rfl
  | str text => rfl
  | sym c => rfl
  | id name =>
    simp only [Token.type, Token.buffer, if_true, text_eq rest hnul]
    rcases nextTokenIn_cases rest (name ++ [nul]) (by omega : rest.length < fuel) with
      ⟨hnil, token, heof⟩ | ⟨tok₂, rest₂, htokens₂, hnul₂, hlt₂, hok₂⟩
    · rw [hnil, heof]
      rfl
    rw [htokens₂, hok₂]
    cases tok₂ with
    | num text => rfl
    | str text => rfl
    | id text => rfl
    | sym c =>
      simp only [Token.type, Token.buffer, Parser.token0, if_true, loadTokens]
      split
      · have hle := length_tokens_le rest₂
        obtain ⟨p, hres, -⟩ := simulates_node fuel tsAllocNode ⟨rest₂, [c, nul]⟩ (by simp; omega)
        simp only at hres
        rw [hres, readNode_fuel tsAllocNode (by omega) (Nat.le_succ _)]
        cases readNode ((tokens rest₂).length + 1) tsAllocNode (tokens rest₂) <;> rfl
      · rfl

/-- **Loading a file ends without a fault**, whatever is in it, with the tree of its tokens: twice
the number of its characters, and three, are enough rounds for every loop and calls on the stack.
Each call of `next_token` reports the end of the file or takes something from it. -/
theorem tsTextLoadIn_eq (file : Bytes) (more : ℕ) :
    tsTextLoadIn (2 * file.length + 3 + more) file = .ok (tsTextLoad file) ∧
      ∀ p : Parser, ∃ type p', nextTokenIn (p.fp.length + 1 + more) p = .ok (type, p') ∧
        (type = .eof ∨ p'.fp.length < p.fp.length) := by
  refine ⟨tsTextLoadIn_of_le file (by omega), fun p => ?_⟩
  rcases nextTokenIn_cases p.fp p.token (by omega : p.fp.length < p.fp.length + 1 + more) with
    ⟨-, token, heof⟩ | ⟨tok, rest, -, -, hlt, hok⟩
  · exact ⟨_, _, heof, .inl rfl⟩
  · exact ⟨_, _, hok, .inr hlt⟩

end Visftp
