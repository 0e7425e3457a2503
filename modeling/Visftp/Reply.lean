import Visftp.CString

/-!
# Reading replies

The pure readers that `proc_control` and its handlers apply to one line from the server: the reply
code, the quoted directory of a `257` reply, the six numbers of a `227` reply and the size in a
`150` reply.

## Main definitions

* `respcode` — `xyz` for a reply, `-xyz` for the first line of a multi-line reply, `0` otherwise
* `getQuotedText` — the text between the first two double quotes
* `findAddr` — the address and port of a passive reply
* `xferTotal` — the size of the file about to be sent
-/

namespace Visftp

open CString

/-- `respcode` -/
def respcode (resp : Bytes) : Int :=
  if !isdigit (byteAt resp 0) || !isdigit (byteAt resp 1) || !isdigit (byteAt resp 2) then 0
  else if isspace (byteAt resp 3) then atoi resp
  else if byteAt resp 3 = 45 then -atoi resp
  else 0

/-- The line as `proc_control` reads it: without leading blanks, and up to the first carriage
return. -/
def replyText (buf : Bytes) : Bytes := (skipSpace buf).takeWhile (· ≠ cr)

/-- `get_quoted_text` -/
def getQuotedText (str : Bytes) : Option Bytes :=
  match strchr str 34 with
  | none => none
  | some src =>
    let text := src.tail
    if 34 ∈ text then some (text.takeWhile (· ≠ 34)) else none

/-- `sscanf(str, "%u,%u,...", ...) == n`, for `n` numbers. -/
def scanAddr (s : Bytes) : ℕ → Option (List ℕ)
  | 0 => some []
  | 1 => (scanUInt s).map fun r => [r.1]
  | n + 1 =>
    match scanUInt s with
    | none => none
    | some (v, rest) => if byteAt rest 0 = 44 then (scanAddr rest.tail n).map (v :: ·) else none

/-- The search loop of `cproc_pasv`: the first place of the line where six numbers can be read. -/
def findAddr : Bytes → Option (List ℕ)
  | [] => none
  | c :: s =>
    match scanAddr (c :: s) 6 with
    | some addr => some addr
    | none => findAddr s

/-- The address and port `cproc_pasv` reads, when every number fits a byte. -/
def pasvAddr (buf : Bytes) : Option (ℕ × ℕ) :=
  match findAddr buf with
  | some [a, b, c, d, p, q] =>
    if 256 ≤ a ||| b ||| c ||| d ||| p ||| q then none
    else some (a <<< 24 ||| b <<< 16 ||| c <<< 8 ||| d, p <<< 8 ||| q)
  | _ => none

/-- What `cproc_xfer` reads from a `150` reply: `sscanf(ptr, "(%ld bytes)", ...)` at the first
opening parenthesis. The number is stored whatever follows it. -/
def xferTotal (buf : Bytes) : Option Int := (strchr buf 40).bind fun ptr => scanLong ptr.tail

end Visftp
