import Mathlib.Data.List.Sort
import Visftp.CString

/-!
# Directory listings

`parse_dirent` of `ftp.c`, which reads one line of a `ls -l` listing in place in the receive
buffer, the loop of `dproc_list` that applies it line by line, and the order in which the entries
are kept.

A pointer into the receive buffer is modelled by the memory that starts there: the received bytes
behind it followed by whatever lies behind the received part. The parser looks for the ends of
lines with `strchr`, so it may read on into that memory; `listing` takes it as an argument.

## Main definitions

* `parseDirent` — one line
* `parseListing`, `listing` — all lines, and the sorted entries
* `ftpDirentcmp` — the order
-/

namespace Visftp

open CString

/-- The `type` of a directory entry. -/
inductive FileType
  /-- `FTP_DIR` -/
  | dir
  /-- `FTP_FILE` -/
  | file
  deriving DecidableEq, Repr

/-- `struct ftp_dirent` -/
structure Dirent where
  /-- The name, as it came from the listing. -/
  name : Bytes
  /-- Directory or file. -/
  type : FileType
  /-- The size; of a directory, whatever the entry held before. -/
  size : Int
  deriving DecidableEq, Repr

/-- The offset of the first `b` of the C string at `m`. -/
def findChar (m : Bytes) (b : Byte) : Option ℕ :=
  if b ∈ cstr m then some ((cstr m).idxOf b) else none

/-- `SKIP_FIELD`: over a run of non-blanks, then over a run of blanks, never past a line feed. -/
def skipField (p : Bytes) : Bytes :=
  (p.dropWhile fun b => b != nul && b != lf && !isspace b).dropWhile fun b =>
    b != nul && b != lf && isspace b

/-- The first `->` that starts in the `n` bytes at `p`. -/
def findArrow : Bytes → ℕ → Option ℕ
  | _, 0 => none
  | p, n + 1 =>
    if byteAt p 0 = 45 ∧ byteAt p 1 = 62 then some 0 else (findArrow p.tail n).map (· + 1)

/-- `while(--ptr > name && isspace(*ptr)) end = ptr;`, started at `name + i`. -/
def trimBlank (name : Bytes) : ℕ → ℕ
  | 0 => 0
  | i + 1 => if 0 < i ∧ isspace (byteAt name i) then trimBlank name i else i + 1

/-- Where the name at `name` ends, when the line ends `n` bytes behind it: before the blanks that
precede a symbolic link's arrow. -/
def nameLength (name : Bytes) (n : ℕ) : ℕ :=
  match findArrow name n with
  | some i => trimBlank name i
  | none => n

/-- `parse_dirent`: the result, and the entry written through `ent`. -/
def parseDirent (ent : Dirent) (line : Bytes) : Int × Dirent :=
  match (findChar line cr).or (findChar line lf) with
  | none => (-1, ent)
  | some endp =>
    let ent := { ent with type := if byteAt line 0 = 100 then .dir else .file }
    let ptr := skipField (skipField (skipField (skipField line)))
    let ent := if ent.type = .file then { ent with size := atoi (cstr ptr) } else ent
    let ptr := skipField (skipField (skipField (skipField ptr)))
    let off := line.length - ptr.length
    if endp ≤ off then (-1, ent)
    else
      let len := nameLength ptr (endp - off)
      if len = 0 then (-1, ent) else (0, { ent with name := ptr.take len })

/-- A line terminator of `dproc_list`'s line loop. -/
def isEol (b : Byte) : Bool := b == lf || b == cr

/-- To the start of the next line: over the rest of this one, then over its terminators. -/
def nextLine (p : Bytes) : Bytes := (p.dropWhile fun b => !isEol b).dropWhile isEol

/-- The line loop of `dproc_list` over the received bytes `p`, with `tail` behind them in memory.
Each round takes at least one byte, so a fuel of `p.length` is never used up. -/
def parseLines (tail : Bytes) : ℕ → Bytes → Dirent → List Dirent
  | 0, _, _ => []
  | fuel + 1, p, ent =>
    if p = [] then []
    else
      let r := parseDirent ent (p ++ tail)
      if r.1 = -1 then parseLines tail fuel (nextLine p) r.2
      else r.2 :: parseLines tail fuel (nextLine p) r.2

/-- The entries of a listing in the order of its lines. `junk` is the `size` of the entry on the
stack, which is not initialised. -/
def parseListing (tail : Bytes) (junk : Int) (p : Bytes) : List Dirent :=
  parseLines tail p.length p ⟨[], .file, junk⟩

/-- `ftp_direntcmp`: directories before files, names by `strcmp`. -/
def ftpDirentcmp (a b : Dirent) : Int :=
  if a.type = b.type then strcmp a.name b.name else if a.type = .dir then -1 else 1

/-- The entries as `dproc_list` leaves them, sorted by `ftp_direntcmp`. -/
def listing (tail : Bytes) (junk : Int) (p : Bytes) : List Dirent :=
  (parseListing tail junk p).insertionSort fun a b => ftpDirentcmp a b ≤ 0

/-! ### The line loop -/

theorem nextLine_suffix (p : Bytes) : nextLine p <:+ p :=
  (List.dropWhile_suffix _).trans (List.dropWhile_suffix _)

theorem length_nextLine_lt {p : Bytes} (h : p ≠ []) : (nextLine p).length < p.length := by
  obtain ⟨b, p, rfl⟩ := List.exists_cons_of_ne_nil h
  have hle : ∀ q : Bytes, (nextLine q).length ≤ q.length := fun q => (nextLine_suffix q).length_le
  by_cases hb : isEol b
  · have : nextLine (b :: p) = p.dropWhile isEol := by simp [nextLine, hb]
    rw [this]
    exact Nat.lt_succ_of_le (List.dropWhile_suffix _).length_le
  · have : nextLine (b :: p) = nextLine p := by simp [nextLine, hb]
    rw [this]
    exact Nat.lt_succ_of_le (hle p)

@[simp] theorem parseLines_nil (tail : Bytes) (fuel : ℕ) (ent : Dirent) :
    parseLines tail fuel [] ent = [] := by
  cases fuel <;> simp [parseLines]

/-- The fuel is enough: more of it gives the same entries. -/
theorem parseLines_fuel (tail : Bytes) {fuel : ℕ} {p : Bytes} (h : p.length ≤ fuel)
    (ent : Dirent) : parseLines tail fuel p ent = parseLines tail p.length p ent := by
  induction fuel using Nat.strong_induction_on generalizing p ent with
  | _ fuel ih =>
    by_cases hp : p = []
    · simp [hp]
    obtain ⟨fuel, rfl⟩ : ∃ n, fuel = n + 1 :=
      ⟨fuel - 1, by have := List.length_pos_of_ne_nil hp; omega⟩
    obtain ⟨n, hn⟩ : ∃ n, p.length = n + 1 :=
      ⟨p.length - 1, by have := List.length_pos_of_ne_nil hp; omega⟩
    have hlt := length_nextLine_lt hp
    rw [hn, parseLines, parseLines, if_neg hp, if_neg hp]
    have hrest : ∀ e, parseLines tail fuel (nextLine p) e = parseLines tail n (nextLine p) e := by
      intro e
      rw [ih fuel (by omega) (by omega) e, ih n (by omega) (by omega) e]
    simp only [hrest]

theorem mem_listing {tail : Bytes} {junk : Int} {p : Bytes} {ent : Dirent} :
    ent ∈ listing tail junk p ↔ ent ∈ parseListing tail junk p :=
  (List.perm_insertionSort _ _).mem_iff

theorem parseDirent_fst (ent : Dirent) (line : Bytes) :
    (parseDirent ent line).1 = -1 ∨ (parseDirent ent line).1 = 0 := by
  rw [parseDirent]
  split
  · exact Or.inl rfl
  · dsimp only
    split_ifs <;> simp

/-- Where the line loop calls `parse_dirent`. -/
def lineStarts : ℕ → Bytes → List Bytes
  | 0, _ => []
  | fuel + 1, p => if p = [] then [] else p :: lineStarts fuel (nextLine p)

/-- Every entry of the line loop comes from a line that `parse_dirent` accepts. -/
theorem exists_parseDirent_of_mem_parseLines {tail : Bytes} {fuel : ℕ} {p : Bytes} {e ent : Dirent}
    (h : ent ∈ parseLines tail fuel p e) :
    ∃ e', ∃ q ∈ lineStarts fuel p, parseDirent e' (q ++ tail) = (0, ent) := by
  induction fuel generalizing p e with
  | zero => simp [parseLines] at h
  | succ fuel ih =>
    rw [parseLines] at h
    rw [lineStarts]
    split at h
    · simp at h
    · next hp =>
      rw [if_neg hp]
      dsimp only at h
      split at h
      · obtain ⟨e', q, hq, hp⟩ := ih h
        exact ⟨e', q, List.mem_cons_of_mem _ hq, hp⟩
      · next hne =>
        rcases List.mem_cons.mp h with rfl | h
        · exact ⟨e, p, List.mem_cons_self,
            Prod.ext ((parseDirent_fst _ _).resolve_left hne) rfl⟩
        · obtain ⟨e', q, hq, hp⟩ := ih h
          exact ⟨e', q, List.mem_cons_of_mem _ hq, hp⟩

/-- Every line that `parse_dirent` accepts gives an entry. -/
theorem exists_mem_parseLines {tail : Bytes} {fuel : ℕ} {p q : Bytes} {e : Dirent}
    (hq : q ∈ lineStarts fuel p) (h : ∀ e', (parseDirent e' (q ++ tail)).1 = 0) :
    ∃ e', (parseDirent e' (q ++ tail)).2 ∈ parseLines tail fuel p e := by
  induction fuel generalizing p e with
  | zero => simp [lineStarts] at hq
  | succ fuel ih =>
    rw [lineStarts] at hq
    rw [parseLines]
    split at hq
    · simp at hq
    · next hp =>
      rw [if_neg hp]
      dsimp only
      rcases List.mem_cons.mp hq with rfl | hq
      · rw [if_neg (by simp [h e])]
        exact ⟨e, List.mem_cons_self⟩
      · split
        · exact ih hq
        · obtain ⟨e', he'⟩ := ih (e := (parseDirent e (p ++ tail)).2) hq
          exact ⟨e', List.mem_cons_of_mem _ he'⟩

end Visftp
