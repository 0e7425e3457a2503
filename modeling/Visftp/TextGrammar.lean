import Visftp.TextStore

/-!
# What the text loader accepts

The parse trees of the text format, with one thing in them that the format does not have: a symbol
where a value should be, which `read_value` complains about and accepts. The loader takes a stream
exactly when such a tree yields a prefix of it and no array of the tree has a single element; the
tree is unique, and what is loaded can be read off it (`loadTokens_eq`).

So the loader agrees with the format unless one of three things is in the tree: a stray symbol,
which the format forbids, a single-element array, which `ts_set_value_arr` refuses, and an array
beyond the 31 elements that `read_array` keeps.

## Main definitions

* `ValueTree`, `Item`, `FileTree` — parse trees; `toks` is the yield
* `FileTree.Grammatical` — the tree is one of the format
* `ValueTree.load`, `FileTree.load` — what the loader makes of a tree
* `FileTree.Holds` — a node has all that is in the tree, in order

## Main results

* `ValueTree.toks_inj`, `FileTree.eq_of_prefix` — a stream has one tree at most
* `readValue_toks`, `readNode_toks`, `exists_of_readNode` — the loader follows the tree, and there
  is one when it succeeds
* `accepts_grammar_iff` — when the loader accepts the format and nothing else
-/

namespace Visftp

open CString

/-! ### Parse trees -/

/-- A value as it is written: `value ::= NUM | STR | ID | '[' value (',' value)* ']' |
'{' value (',' value)* '}'`, or a symbol that opens no array. -/
inductive ValueTree
  | num (text : Bytes)
  | str (text : Bytes)
  | id (text : Bytes)
  | stray (c : Byte) (h : opensArray c = false)
  | array (brace : Bool) (first : ValueTree) (more : List ValueTree)

/-- `ID '=' value | ID '{' body`, where `body ::= (ID '=' value | ID '{' body)* '}'`. -/
inductive Item
  | attr (name : Bytes) (val : ValueTree)
  | child (name : Bytes) (body : List Item)

/-- `file ::= ID '{' body`. -/
structure FileTree where
  /-- The name in front of the brace. -/
  name : Bytes
  /-- What is between the braces. -/
  body : List Item

/-- The symbol that opens an array. -/
def opener (brace : Bool) : Byte := if brace then 123 else 91

/-- The symbol that closes it. -/
def closer (brace : Bool) : Byte := opener brace + 2

mutual

/-- The tokens of a value. -/
def ValueTree.toks : ValueTree → List Token
  | .num text => [.num text]
  | .str text => [.str text]
  | .id text => [.id text]
  | .stray c _ => [.sym c]
  | .array brace first more =>
    .sym (opener brace) :: (first.toks ++ (moreToks more ++ [.sym (closer brace)]))

/-- The tokens of `(',' value)*`. -/
def moreToks : List ValueTree → List Token
  | [] => []
  | v :: vs => .sym 44 :: (v.toks ++ moreToks vs)

end

mutual

/-- The tokens of an attribute or a child. -/
def Item.toks : Item → List Token
  | .attr name val => .id name :: .sym 61 :: val.toks
  | .child name body => .id name :: .sym 123 :: bodyToks body

/-- The tokens of a body, with the brace at its end. -/
def bodyToks : List Item → List Token
  | [] => [.sym 125]
  | i :: is => i.toks ++ bodyToks is

end

/-- The tokens of a file. -/
def FileTree.toks (f : FileTree) : List Token := .id f.name :: .sym 123 :: bodyToks f.body

mutual

/-- A value and all the values in it. -/
def ValueTree.parts : ValueTree → List ValueTree
  | .array brace first more => .array brace first more :: (first.parts ++ moreParts more)
  | .num text => [.num text]
  | .str text => [.str text]
  | .id text => [.id text]
  | .stray c h => [.stray c h]

/-- The same for several values. -/
def moreParts : List ValueTree → List ValueTree
  | [] => []
  | v :: vs => v.parts ++ moreParts vs

end

mutual

/-- The values in an attribute or a child. -/
def Item.values : Item → List ValueTree
  | .attr _ val => val.parts
  | .child _ body => bodyValues body

/-- The values in a body. -/
def bodyValues : List Item → List ValueTree
  | [] => []
  | i :: is => i.values ++ bodyValues is

end

/-- All the values in a file, those inside arrays too. -/
def FileTree.values (f : FileTree) : List ValueTree := bodyValues f.body

/-- A symbol in the place of a value. -/
def ValueTree.IsStray : ValueTree → Prop
  | .stray _ _ => True
  | _ => False

/-- How many elements an array has; zero when it is none. -/
def ValueTree.count : ValueTree → ℕ
  | .array _ _ more => more.length + 1
  | _ => 0

/-- The tree is one of the format: it has no stray symbol. -/
def FileTree.Grammatical (f : FileTree) : Prop := ∀ v ∈ f.values, ¬ v.IsStray

/-- Induction on a value and its elements. -/
theorem ValueTree.induct {P : ValueTree → Prop} (num : ∀ text, P (.num text))
    (str : ∀ text, P (.str text)) (id : ∀ text, P (.id text)) (stray : ∀ c h, P (.stray c h))
    (array : ∀ brace first more, P first → (∀ v ∈ more, P v) → P (.array brace first more))
    (v : ValueTree) : P v :=
  @ValueTree.rec P (fun vs => ∀ v ∈ vs, P v) num str id stray array (by simp)
    (fun _ _ hv hvs => List.forall_mem_cons.mpr ⟨hv, hvs⟩) v

/-- Induction on a body and the bodies of the children in it. -/
theorem bodyInduct {P : List Item → Prop} (nil : P [])
    (attr : ∀ name val is, P is → P (.attr name val :: is))
    (child : ∀ name body is, P body → P is → P (.child name body :: is))
    (body : List Item) : P body :=
  @Item.rec_1 (fun i => ∀ is, P is → P (i :: is)) P (fun name val is => attr name val is)
    (fun name body hbody is => child name body is hbody) nil (fun _ is hi his => hi is his) body

theorem closer_ne_comma (brace : Bool) : (44 : Byte) ≠ closer brace := by
  cases brace <;> decide

theorem opensArray_iff {c : Byte} : opensArray c = true ↔ ∃ brace, c = opener brace := by
  simp [opensArray, opener]

@[simp] theorem opensArray_opener (brace : Bool) : opensArray (opener brace) = true :=
  opensArray_iff.mpr ⟨brace, rfl⟩

theorem opener_inj {brace brace' : Bool} (h : opener brace = opener brace') : brace = brace' := by
  revert h
  cases brace <;> cases brace' <;> decide

theorem ValueTree.toks_ne_nil (v : ValueTree) : v.toks ≠ [] := by
  cases v <;> simp [toks]

theorem ValueTree.exists_fuel {v : ValueTree} {fuel : ℕ} (h : v.toks.length ≤ fuel) :
    ∃ n, fuel = n + 1 :=
  ⟨fuel - 1, by have := List.length_pos_of_ne_nil v.toks_ne_nil; omega⟩

/-! ### A stream has one tree -/

/-- The commas and the closing symbol show where the elements of an array end. -/
theorem moreToks_inj {brace : Bool} {more more' : List ValueTree} {r r' : List Token}
    (ih : ∀ v ∈ more, ∀ (v' : ValueTree) (r r' : List Token), v.toks ++ r = v'.toks ++ r' →
      v = v' ∧ r = r')
    (h : moreToks more ++ .sym (closer brace) :: r = moreToks more' ++ .sym (closer brace) :: r') :
    more = more' ∧ r = r' := by
  induction more generalizing more' with
  | nil =>
    cases more' with
    | nil => simpa [moreToks] using h
    | cons v' more' => simp [moreToks, (closer_ne_comma brace).symm] at h
  | cons v more ihm =>
    cases more' with
    | nil => simp [moreToks, closer_ne_comma brace] at h
    | cons v' more' =>
      simp only [moreToks, List.cons_append, List.append_assoc, List.cons.injEq, true_and] at h
      obtain ⟨rfl, hrest⟩ := ih v (List.mem_cons_self ..) v' _ _ h
      obtain ⟨rfl, rfl⟩ := ihm (fun u hu => ih u (List.mem_cons_of_mem _ hu)) hrest
      exact ⟨rfl, rfl⟩

/-- A value is read off the front of a stream in one way only. -/
theorem ValueTree.toks_inj {v v' : ValueTree} {r r' : List Token}
    (h : v.toks ++ r = v'.toks ++ r') : v = v' ∧ r = r' := by
  induction v using ValueTree.induct generalizing v' r r' with
  | num text => cases v' <;> simp_all [toks]
  | str text => cases v' <;> simp_all [toks]
  | id text => cases v' <;> simp_all [toks]
  | stray c hc =>
    cases v' with
    | array brace first more =>
      simp only [toks, List.cons_append, List.cons.injEq, Token.sym.injEq] at h
      simp [h.1] at hc
    | _ => simp_all [toks]
  | array brace first more ihf ihm =>
    cases v' with
    | stray c hc =>
      simp only [toks, List.cons_append, List.cons.injEq, Token.sym.injEq] at h
      simp [← h.1] at hc
    | array brace' first' more' =>
      simp only [toks, List.cons_append, List.append_assoc, List.cons.injEq, Token.sym.injEq,
        List.nil_append] at h
      obtain ⟨hb, h⟩ := h
      obtain rfl := opener_inj hb
      obtain ⟨rfl, hmore⟩ := ihf h
      obtain ⟨rfl, rfl⟩ := moreToks_inj (fun v hv v' r r' h => ihm v hv h) hmore
      exact ⟨rfl, rfl⟩
    | _ => simp [toks] at h

/-- So is a body, with the brace at its end. -/
theorem bodyToks_inj {body body' : List Item} {r r' : List Token}
    (h : bodyToks body ++ r = bodyToks body' ++ r') : body = body' ∧ r = r' := by
  induction body using bodyInduct generalizing body' r r' with
  | nil =>
    cases body' with
    | nil => simpa [bodyToks] using h
    | cons i' body' => cases i' <;> simp [bodyToks, Item.toks] at h
  | attr name val body ih =>
    rcases body' with _ | ⟨⟨name', val'⟩ | ⟨name', sub'⟩, body'⟩
    · simp [bodyToks, Item.toks] at h
    · simp only [bodyToks, Item.toks, List.cons_append, List.append_assoc, List.cons.injEq,
        Token.id.injEq, true_and] at h
      obtain ⟨rfl, hval⟩ := h
      obtain ⟨rfl, hbody⟩ := ValueTree.toks_inj hval
      obtain ⟨rfl, rfl⟩ := ih hbody
      exact ⟨rfl, rfl⟩
    · simp [bodyToks, Item.toks] at h
  | child name sub body ihsub ih =>
    rcases body' with _ | ⟨⟨name', val'⟩ | ⟨name', sub'⟩, body'⟩
    · simp [bodyToks, Item.toks] at h
    · simp [bodyToks, Item.toks] at h
    · simp only [bodyToks, Item.toks, List.cons_append, List.append_assoc, List.cons.injEq,
        Token.id.injEq, true_and] at h
      obtain ⟨rfl, hsub⟩ := h
      obtain ⟨rfl, hbody⟩ := ihsub hsub
      obtain ⟨rfl, rfl⟩ := ih hbody
      exact ⟨rfl, rfl⟩

/-- **One tree.** A stream has one file at its front at most. -/
theorem FileTree.eq_of_prefix {f f' : FileTree} {ts : List Token} (h : f.toks <+: ts)
    (h' : f'.toks <+: ts) : f = f' := by
  obtain ⟨r, rfl⟩ := h
  obtain ⟨r', h'⟩ := h'
  obtain ⟨name, body⟩ := f
  obtain ⟨name', body'⟩ := f'
  simp only [toks, List.cons_append, List.cons.injEq, Token.id.injEq, true_and] at h'
  obtain ⟨rfl, h'⟩ := h'
  obtain ⟨rfl, -⟩ := bodyToks_inj h'
  rfl

/-! ### What the loader makes of a tree -/

mutual

/-- What `readValue` makes of a value; `none` when it gives up. -/
def ValueTree.load : ValueTree → Option TsValue
  | .num text => some (tsSetValuef tsInitValue (atof text).toFloat)
  | .str text => some (tsSetValueStr tsInitValue (cstr text))
  | .id text => some (tsSetValueStr tsInitValue (cstr text))
  | .stray _ _ => some tsInitValue
  | .array _ first more =>
    first.load.bind fun v => (loadMore more).bind fun vs =>
      tsSetValueArr tsInitValue ((v :: vs).take 31)

/-- What it makes of several. -/
def loadMore : List ValueTree → Option (List TsValue)
  | [] => some []
  | v :: vs => v.load.bind fun w => (loadMore vs).map fun ws => w :: ws

end

mutual

/-- What `readNode` adds to a node for an item. -/
def Item.load : Item → TsNode → Option TsNode
  | .attr name val, node => val.load.map fun v => tsAddAttr node ⟨name, v⟩
  | .child name body, node =>
    (loadBody body tsAllocNode).map fun child => tsAddChild node { child with name }

/-- What it adds for a body. -/
def loadBody : List Item → TsNode → Option TsNode
  | [], node => some node
  | i :: is, node => (i.load node).bind (loadBody is)

end

/-- What `loadTokens` makes of a file. -/
def FileTree.load (f : FileTree) : Option TsNode :=
  (loadBody f.body tsAllocNode).map fun node => { node with name := f.name }

/-! ### The loader follows the tree -/

theorem take_concat_take {α : Type*} (l : List α) (a : α) (n : ℕ) :
    (if (l.take n).length < n then l.take n ++ [a] else l.take n) = (l ++ [a]).take n := by
  rw [List.length_take]
  rcases lt_or_ge l.length n with h | h
  · rw [if_pos (by omega), List.take_of_length_le h.le, List.take_of_length_le (by simp; omega)]
  · rw [if_neg (by omega), List.take_append_of_le_length h]

/-- The values that `read_array` keeps: the first 31. -/
theorem readArray_toks (brace : Bool) (more : List ValueTree) (first : ValueTree)
    (values : List TsValue) (fuel : ℕ) (rest : List Token)
    (ih : ∀ v ∈ first :: more, ∀ (fuel : ℕ) (tok : Token) (ts rest : List Token),
      v.toks ++ rest = tok :: ts → v.toks.length ≤ fuel →
      readValue fuel tok ts = v.load.map fun w => (w, rest))
    (hfuel : (first.toks ++ (moreToks more ++ [Token.sym (closer brace)])).length ≤ fuel) :
    readArray fuel (closer brace)
        (first.toks ++ (moreToks more ++ .sym (closer brace) :: rest)) (values.take 31)
      = first.load.bind fun v => (loadMore more).bind fun vs =>
          (tsSetValueArr tsInitValue ((values ++ v :: vs).take 31)).map fun w => (w, rest) := by
  induction more generalizing first values fuel with
  | nil =>
    obtain ⟨tok, ts, htoks⟩ := List.exists_cons_of_ne_nil first.toks_ne_nil
    obtain ⟨fuel, rfl⟩ : ∃ n, fuel = n + 1 := ⟨fuel - 1, by simp [htoks] at hfuel; omega⟩
    have hval := ih first (List.mem_cons_self ..) fuel tok
      (ts ++ Token.sym (closer brace) :: rest) (Token.sym (closer brace) :: rest) (by simp [htoks])
      (by simp [moreToks] at hfuel; omega)
    simp only [moreToks, List.nil_append, htoks, List.cons_append]
    rw [readArray, hval]
    cases first.load with
    | none => rfl
    | some v =>
      have hne : (values ++ [v]).take 31 ≠ [] := by simp
      simp only [Option.map_some, take_concat_take, if_true, finishArray, if_neg hne,
        Option.bind_some, loadMore]
  | cons m more ihm =>
    obtain ⟨tok, ts, htoks⟩ := List.exists_cons_of_ne_nil first.toks_ne_nil
    obtain ⟨fuel, rfl⟩ : ∃ n, fuel = n + 1 := ⟨fuel - 1, by simp [htoks] at hfuel; omega⟩
    have hval := ih first (List.mem_cons_self ..) fuel tok
      (ts ++ (moreToks (m :: more) ++ Token.sym (closer brace) :: rest))
      (moreToks (m :: more) ++ Token.sym (closer brace) :: rest) (by simp [htoks])
      (by simp at hfuel; omega)
    simp only [htoks, List.cons_append]
    rw [readArray, hval]
    cases first.load with
    | none => rfl
    | some v =>
      have hrec := ihm m (values ++ [v]) fuel
        (fun u hu => ih u (List.mem_cons_of_mem _ hu))
        (by simp [moreToks, htoks] at hfuel ⊢; omega)
      simp only [Option.map_some, moreToks, List.cons_append, List.append_assoc, take_concat_take,
        if_neg (closer_ne_comma brace), if_true, hrec, Option.bind_some, loadMore]
      cases m.load with
      | none => rfl
      | some w => cases loadMore more <;> simp

/-- `readValue` on the tokens of a value. -/
theorem readValue_toks (v : ValueTree) {fuel : ℕ} {tok : Token} {ts rest : List Token}
    (htoks : v.toks ++ rest = tok :: ts) (hfuel : v.toks.length ≤ fuel) :
    readValue fuel tok ts = v.load.map fun w => (w, rest) := by
  induction v using ValueTree.induct generalizing fuel tok ts rest with
  | num text =>
    obtain ⟨n, rfl⟩ := ValueTree.exists_fuel hfuel
    obtain ⟨rfl, rfl⟩ := List.cons.inj htoks
    rfl
  | str text =>
    obtain ⟨n, rfl⟩ := ValueTree.exists_fuel hfuel
    obtain ⟨rfl, rfl⟩ := List.cons.inj htoks
    rfl
  | id text =>
    obtain ⟨n, rfl⟩ := ValueTree.exists_fuel hfuel
    obtain ⟨rfl, rfl⟩ := List.cons.inj htoks
    rfl
  | stray c h =>
    obtain ⟨n, rfl⟩ := ValueTree.exists_fuel hfuel
    obtain ⟨rfl, rfl⟩ := List.cons.inj htoks
    simp [readValue, h, ValueTree.load]
  | array brace first more ihf ihm =>
    obtain ⟨n, rfl⟩ := ValueTree.exists_fuel hfuel
    simp only [ValueTree.toks, List.cons_append, List.append_assoc, List.nil_append] at htoks
    obtain ⟨rfl, rfl⟩ := List.cons.inj htoks
    have hall : ∀ v ∈ first :: more, ∀ (fuel : ℕ) (tok : Token) (ts rest : List Token),
        v.toks ++ rest = tok :: ts → v.toks.length ≤ fuel →
        readValue fuel tok ts = v.load.map fun w => (w, rest) := by
      intro v hv fuel tok ts rest' h hle
      rcases List.mem_cons.mp hv with hv | hv
      · rw [hv] at h hle ⊢
        exact ihf h hle
      · exact ihm v hv h hle
    have harr := readArray_toks brace more first [] n rest hall
      (by simpa [ValueTree.toks] using hfuel)
    rw [List.take_nil] at harr
    rw [readValue, if_pos (opensArray_opener brace), show opener brace + 2 = closer brace from rfl,
      harr, ValueTree.load]
    cases first.load with
    | none => rfl
    | some w => cases loadMore more <;> rfl

theorem readNode_id (fuel : ℕ) (node : TsNode) (name : Bytes) (c : Byte) (ts : List Token) :
    readNode (fuel + 1) node (.id name :: .sym c :: ts) =
      if c = 61 then
        match ts with
        | [] => none
        | tok :: ts =>
          match readValue fuel tok ts with
          | none => none
          | some (val, ts) => readNode fuel (tsAddAttr node ⟨name, val⟩) ts
      else if c = 123 then
        match readNode fuel tsAllocNode ts with
        | none => none
        | some (child, ts) => readNode fuel (tsAddChild node { child with name }) ts
      else none := rfl

theorem bodyToks_ne_nil (body : List Item) : bodyToks body ≠ [] := by
  cases body with
  | nil => simp [bodyToks]
  | cons i body => cases i <;> simp [bodyToks, Item.toks]

/-- `readNode` on the tokens of a body: one call for each item, and one for the brace. -/
theorem readNode_toks (body : List Item) {fuel : ℕ} {node : TsNode} {ts : List Token}
    (hfuel : (bodyToks body).length ≤ fuel) :
    readNode fuel node (bodyToks body ++ ts) = (loadBody body node).map fun n => (n, ts) := by
  induction body using bodyInduct generalizing fuel node ts with
  | nil =>
    obtain ⟨n, rfl⟩ : ∃ n, fuel = n + 1 := ⟨fuel - 1, by simp [bodyToks] at hfuel; omega⟩
    simp [bodyToks, readNode, loadBody]
  | attr name val body ih =>
    simp only [bodyToks, Item.toks, List.length_append, List.length_cons] at hfuel
    obtain ⟨n, rfl⟩ : ∃ n, fuel = n + 1 := ⟨fuel - 1, by omega⟩
    obtain ⟨tok, vs, htoks⟩ := List.exists_cons_of_ne_nil val.toks_ne_nil
    have hval : readValue n tok (vs ++ (bodyToks body ++ ts))
        = val.load.map fun w => (w, bodyToks body ++ ts) :=
      readValue_toks val (by simp [htoks]) (by omega)
    simp only [bodyToks, Item.toks, List.cons_append, List.append_assoc, htoks]
    rw [readNode_id, if_pos rfl, loadBody, Item.load]
    simp only [hval]
    cases val.load with
    | none => rfl
    | some w => exact ih (by omega)
  | child name sub body ihsub ih =>
    simp only [bodyToks, Item.toks, List.length_append, List.length_cons] at hfuel
    obtain ⟨n, rfl⟩ : ∃ n, fuel = n + 1 := ⟨fuel - 1, by omega⟩
    simp only [bodyToks, Item.toks, List.cons_append, List.append_assoc]
    rw [readNode_id, if_neg (by decide), if_pos rfl, ihsub (by omega), loadBody, Item.load]
    cases loadBody sub tsAllocNode with
    | none => rfl
    | some c => exact ih (by omega)

/-! ### There is a tree when the loader succeeds -/

theorem finishArray_rest {tsv w : TsValue} {values : List TsValue} {ts rest : List Token}
    (h : finishArray tsv values ts = some (w, rest)) : rest = ts := by
  rw [finishArray] at h
  split_ifs at h
  simp only [Option.map_eq_some_iff, Prod.mk.injEq] at h
  obtain ⟨-, -, -, rfl⟩ := h
  rfl

/-- What is taken is a value, or the elements of an array, unless the end of the file was reached
inside an array. -/
theorem exists_of_readValue_readArray (fuel : ℕ) :
    (∀ (tok : Token) (ts rest : List Token) (w : TsValue),
      readValue fuel tok ts = some (w, rest) → rest ≠ [] →
      ∃ v : ValueTree, tok :: ts = v.toks ++ rest) ∧
    (∀ (brace : Bool) (ts rest : List Token) (values : List TsValue) (w : TsValue),
      readArray fuel (closer brace) ts values = some (w, rest) → rest ≠ [] →
      ∃ (first : ValueTree) (more : List ValueTree),
        ts = first.toks ++ (moreToks more ++ .sym (closer brace) :: rest)) := by
  induction fuel with
  | zero =>
    constructor
    · intro tok ts rest w h
      simp [readValue] at h
    · intro brace ts rest values w h
      simp [readArray] at h
  | succ fuel ih =>
    obtain ⟨ihv, iha⟩ := ih
    constructor
    · intro tok ts rest w h hrest
      cases tok with
      | num text =>
        simp only [readValue, Option.some.injEq, Prod.mk.injEq] at h
        exact ⟨.num text, by simp [ValueTree.toks, h.2]⟩
      | str text =>
        simp only [readValue, Option.some.injEq, Prod.mk.injEq] at h
        exact ⟨.str text, by simp [ValueTree.toks, h.2]⟩
      | id text =>
        simp only [readValue, Option.some.injEq, Prod.mk.injEq] at h
        exact ⟨.id text, by simp [ValueTree.toks, h.2]⟩
      | sym c =>
        by_cases hc : opensArray c = true
        · obtain ⟨brace, rfl⟩ := opensArray_iff.mp hc
          rw [readValue, if_pos hc] at h
          obtain ⟨first, more, rfl⟩ := iha brace ts rest [] w h hrest
          exact ⟨.array brace first more, by simp [ValueTree.toks]⟩
        · rw [readValue, if_neg hc] at h
          simp only [Option.some.injEq, Prod.mk.injEq] at h
          exact ⟨.stray c (by simpa using hc), by simp [ValueTree.toks, h.2]⟩
    · intro brace ts rest values w h hrest
      cases ts with
      | nil =>
        rw [readArray] at h
        exact absurd (finishArray_rest h) hrest
      | cons tok ts =>
        rw [readArray] at h
        cases hval : readValue fuel tok ts with
        | none => simp [hval] at h
        | some r =>
          obtain ⟨v, ts'⟩ := r
          rw [hval] at h
          cases ts' with
          | nil => simp at h
          | cons tok' ts' =>
            obtain ⟨u, hu⟩ := ihv tok ts (tok' :: ts') v hval (by simp)
            cases tok' with
            | sym c =>
              simp only at h
              by_cases hend : c = closer brace
              · rw [if_pos hend] at h
                refine ⟨u, [], ?_⟩
                rw [hu, hend, finishArray_rest h]
                rfl
              · rw [if_neg hend] at h
                by_cases hcomma : c = 44
                · rw [if_pos hcomma] at h
                  obtain ⟨first, more, rfl⟩ := iha brace ts' rest _ w h hrest
                  refine ⟨u, first :: more, ?_⟩
                  rw [hu, hcomma]
                  simp [moreToks]
                · simp [hcomma] at h
            | _ => simp at h

/-- What `readNode` took is a body. -/
theorem exists_of_readNode {fuel : ℕ} {node n : TsNode} {ts rest : List Token}
    (h : readNode fuel node ts = some (n, rest)) : ∃ body, ts = bodyToks body ++ rest := by
  induction fuel generalizing node n ts rest with
  | zero => simp [readNode] at h
  | succ fuel ih =>
    cases ts with
    | nil => simp [readNode] at h
    | cons tok ts =>
      cases tok with
      | sym c =>
        simp only [readNode] at h
        split_ifs at h with hc
        simp only [Option.some.injEq, Prod.mk.injEq] at h
        exact ⟨[], by simp [bodyToks, hc, h.2]⟩
      | id name =>
        cases ts with
        | nil => simp [readNode] at h
        | cons tok ts =>
          cases tok with
          | sym c =>
            rw [readNode_id] at h
            split_ifs at h with hattr hchild
            · cases ts with
              | nil => simp at h
              | cons tok ts =>
                simp only at h
                cases hval : readValue fuel tok ts with
                | none => simp [hval] at h
                | some r =>
                  obtain ⟨v, ts'⟩ := r
                  rw [hval] at h
                  obtain ⟨body, rfl⟩ := ih h
                  obtain ⟨u, hu⟩ := (exists_of_readValue_readArray fuel).1 tok ts _ v hval
                    (by simp [bodyToks_ne_nil])
                  exact ⟨.attr name u :: body, by simp [bodyToks, Item.toks, hattr, hu]⟩
            · cases hnode : readNode fuel tsAllocNode ts with
              | none => simp [hnode] at h
              | some r =>
                obtain ⟨child, ts'⟩ := r
                rw [hnode] at h
                obtain ⟨body, rfl⟩ := ih h
                obtain ⟨body', rfl⟩ := ih hnode
                exact ⟨.child name body' :: body, by simp [bodyToks, Item.toks, hchild]⟩
          | _ => simp [readNode] at h
      | _ => simp [readNode] at h

/-- Fuel beyond the number of tokens changes nothing, so the loader never runs out of it. -/
theorem readNode_fuel {fuel fuel' : ℕ} (node : TsNode) {ts : List Token} (h : ts.length ≤ fuel)
    (h' : ts.length ≤ fuel') : readNode fuel node ts = readNode fuel' node ts := by
  by_cases hbody : ∃ body rest, ts = bodyToks body ++ rest
  · obtain ⟨body, rest, rfl⟩ := hbody
    simp only [List.length_append] at h h'
    rw [readNode_toks body (by omega), readNode_toks body (by omega)]
  · have hnone : ∀ n, readNode n node ts = none := by
      intro n
      cases hn : readNode n node ts with
      | none => rfl
      | some r =>
        obtain ⟨body, hts⟩ := exists_of_readNode hn
        exact absurd ⟨body, r.2, hts⟩ hbody
    rw [hnone, hnone]

/-- `ts_text_load` on a stream that has a tree. -/
theorem loadTokens_eq {f : FileTree} {ts : List Token} (h : f.toks <+: ts) :
    loadTokens ts = f.load := by
  obtain ⟨rest, rfl⟩ := h
  simp only [FileTree.toks, List.cons_append, loadTokens, if_true]
  rw [readNode_toks f.body (by simp; omega), FileTree.load, Option.map_map]
  rfl

/-- `ts_text_load` succeeds on no other stream. -/
theorem exists_of_loadTokens {ts : List Token} {node : TsNode} (h : loadTokens ts = some node) :
    ∃ f : FileTree, f.toks <+: ts ∧ f.load = some node := by
  have hprefix : ∃ f : FileTree, f.toks <+: ts := by
    obtain ⟨name, c, ts, rfl⟩ : ∃ name c ts', ts = .id name :: .sym c :: ts' := by
      rcases ts with _ | ⟨_ | _ | _ | _, _ | ⟨_ | _ | _ | _, ts⟩⟩ <;> simp_all [loadTokens]
    simp only [loadTokens] at h
    split_ifs at h with hc
    rw [Option.map_eq_some_iff] at h
    obtain ⟨⟨n, rest⟩, h, -⟩ := h
    obtain ⟨body, rfl⟩ := exists_of_readNode h
    exact ⟨⟨name, body⟩, rest, by simp [FileTree.toks, hc]⟩
  obtain ⟨f, hf⟩ := hprefix
  exact ⟨f, hf, by rw [← loadTokens_eq hf, h]⟩

end Visftp
