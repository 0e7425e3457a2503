import Mathlib.Data.Fintype.EquivFin
import Visftp.Listing

/-!
# How far a listing is read

The receive buffer is not terminated, and `parse_dirent` takes its rest for a C string. It looks for
a carriage return first, up to a NUL, so a line that ends in a line feed alone is searched on into
the lines behind it and, where neither comes, out of the buffer. The fields are skipped over
carriage returns, and `atoi` goes over the blanks before the size, line feeds too.

What stops in the received bytes does not depend on the memory behind them. The entry on the stack
is not initialised either: of a directory, the size is left as it was.

## Main definitions

* `direntReads` — how many bytes `parse_dirent` looks at
* `SafeListing` — only received bytes are read, and they determine the entries
* `LineInside`, `SizeWritten` — the condition on a line, and on the order of the lines

## Main results

* `direntReads_le_iff` — the lines that are read inside the buffer
* `parseDirent_eq`, `parseDirent_append` — what is read of such a line
* `safeListing_iff` — the listings that are safe
-/

namespace Visftp

open CString

/-! ### The reads -/

/-- How many bytes `strchr` looks at. -/
def strchrReads (m : Bytes) (b : Byte) : ℕ := (m.takeWhile fun c => c != b && c != nul).length + 1

/-- How many bytes are looked at for the end of the line. -/
def endReads (line : Bytes) : ℕ :=
  if (findChar line cr).isSome then strchrReads line cr
  else max (strchrReads line cr) (strchrReads line lf)

/-- How many bytes `atoi` looks at from the size field on, and those before it. -/
def sizeReads (line : Bytes) : ℕ := line.length - (scanNumber (sizeStart line)).2.2.length + 1

/-- How many bytes `parse_dirent` looks at from `line` on: for the end of the line, for the eight
fields, for the size of a file, and for an arrow. -/
def direntReads (line : Bytes) : ℕ :=
  match lineEnd line with
  | none => endReads line
  | some endp =>
    max (max (endReads line) (nameOffset line + 1))
      (max (if byteAt line 0 = 100 then 0 else sizeReads line)
        (if nameOffset line < endp then endp + 1 else 0))

/-- **Only received bytes are read, and they determine the entries.** `tail` is what lies behind the
received bytes `p`, and `junk` what the size of the entry on the stack holds. -/
structure SafeListing (p : Bytes) : Prop where
  inside : ∀ tail, ∀ q ∈ lineStarts p.length p, direntReads (q ++ tail) ≤ q.length
  determined : ∀ tail tail' junk junk', listing tail junk p = listing tail' junk' p

/-! ### The condition -/

/-- **The line stops in the buffer**: a carriage return or a NUL comes, and if it is a line then its
eight fields and the digits of a file's size do not go up to the end of the buffer. -/
def LineInside (q : Bytes) : Prop :=
  (cr ∈ q ∨ nul ∈ q) ∧
    (lineEnd q ≠ none →
      (byteAt q 0 ≠ 100 → (scanNumber (sizeStart q)).2.2 ≠ []) ∧ nameStart q ≠ [])

instance (q : Bytes) : Decidable (LineInside q) := inferInstanceAs (Decidable (_ ∧ _))

/-- **The size is written before it is used**: no directory is accepted before the first line of a
file. -/
def SizeWritten : List Bytes → Prop
  | [] => True
  | q :: qs => (lineEnd q ≠ none ∧ byteAt q 0 ≠ 100) ∨
      ((parseDirent ⟨[], .file, 0⟩ q).1 = -1 ∧ SizeWritten qs)

/-! ### Reading on behind the received bytes -/

/-- `m` is where the reading got to in memory, and `q` where it would have got to in the received
bytes alone: to the same place, or up to their end. -/
def Follows (tail q m : Bytes) : Prop := (q ≠ [] ∧ m = q ++ tail) ∨ (q = [] ∧ m <:+ tail)

section Follows

variable {tail q m : Bytes}

theorem Follows.dropWhile (h : Follows tail q m) (test : Byte → Bool) :
    Follows tail (q.dropWhile test) (m.dropWhile test) := by
  obtain ⟨-, rfl⟩ | ⟨rfl, hm⟩ := h
  · by_cases hq : q.dropWhile test = []
    · refine .inr ⟨hq, ?_⟩
      rw [List.dropWhile_append, hq]
      exact List.dropWhile_suffix test
    · refine .inl ⟨hq, ?_⟩
      rw [List.dropWhile_append, if_neg (by simpa [List.isEmpty_iff] using hq)]
  · exact .inr ⟨rfl, (List.dropWhile_suffix test).trans hm⟩

theorem Follows.skipField (h : Follows tail q m) :
    Follows tail (Visftp.skipField q) (Visftp.skipField m) :=
  (h.dropWhile _).dropWhile _

theorem Follows.sizeStart (h : Follows tail q m) :
    Follows tail (Visftp.sizeStart q) (Visftp.sizeStart m) :=
  h.skipField.skipField.skipField.skipField

theorem Follows.nameStart (h : Follows tail q m) :
    Follows tail (Visftp.nameStart q) (Visftp.nameStart m) :=
  h.sizeStart.sizeStart

/-- Over the sign of a number. -/
def skipSign (s : Bytes) : Bytes := if byteAt s 0 = 45 ∨ byteAt s 0 = 43 then s.tail else s

theorem scanNumber_rest (s : Bytes) :
    (scanNumber s).2.2 = (skipSign (skipSpace s)).dropWhile isdigit := rfl

theorem Follows.skipSign (h : Follows tail q m) :
    Follows tail (Visftp.skipSign q) (Visftp.skipSign m) := by
  obtain ⟨hq, rfl⟩ | ⟨rfl, hm⟩ := h
  · obtain ⟨b, l, rfl⟩ := List.exists_cons_of_ne_nil hq
    have hbyte : byteAt (b :: l ++ tail) 0 = byteAt (b :: l) 0 := rfl
    unfold Visftp.skipSign
    rw [hbyte]
    split
    · by_cases hl : l = []
      · exact .inr ⟨hl, by simp [hl]⟩
      · exact .inl ⟨hl, rfl⟩
    · exact .inl ⟨hq, rfl⟩
  · have hnil : Visftp.skipSign [] = [] := rfl
    refine .inr ⟨hnil, ?_⟩
    rw [Visftp.skipSign]
    split
    · exact (List.tail_suffix m).trans hm
    · exact hm

theorem Follows.number (h : Follows tail q m) :
    Follows tail (scanNumber q).2.2 (scanNumber m).2.2 := by
  rw [scanNumber_rest, scanNumber_rest]
  exact ((h.dropWhile isspace).skipSign).dropWhile isdigit

/-- The place is in the received bytes when it would have been there in them alone. -/
theorem Follows.reads_iff (h : Follows tail q m) {l : Bytes} (hl : l ≠ []) :
    (l ++ tail).length - m.length + 1 ≤ l.length ↔ q ≠ [] := by
  have hlpos := List.length_pos_of_ne_nil hl
  rw [List.length_append]
  obtain ⟨hne, rfl⟩ | ⟨rfl, hm⟩ := h
  · have hpos := List.length_pos_of_ne_nil hne
    rw [List.length_append]
    exact ⟨fun _ => hne, fun _ => by omega⟩
  · have hlen := hm.length_le
    exact ⟨fun hle => absurd hle (by omega), fun hne => absurd rfl hne⟩

end Follows

/-! ### The end of the line -/

section End

variable {q : Bytes}

theorem cstr_append_of_mem (h : nul ∈ q) (tail : Bytes) : cstr (q ++ tail) = cstr q := by
  have hshort : (q.takeWhile (· ≠ nul)).length ≠ q.length := fun hlen => by
    have hall := (List.takeWhile_prefix _).eq_of_length hlen
    exact nul_notMem_cstr q (by rwa [cstr, hall])
  rw [cstr, cstr, List.takeWhile_append, if_neg hshort]

/-- A character that is searched for up to a NUL is found in the received bytes or not at all. -/
theorem findChar_append_of_mem {b : Byte} (h : b ∈ q ∨ nul ∈ q) (tail : Bytes) :
    findChar (q ++ tail) b = findChar q b := by
  unfold findChar
  by_cases hnul : nul ∈ q
  · rw [cstr_append_of_mem hnul]
  · have hb := h.resolve_right hnul
    rw [cstr_append hnul, cstr_eq_self hnul, if_pos hb, if_pos (List.mem_append_left _ hb),
      List.idxOf_append_of_mem hb]

theorem lineEnd_append (h : cr ∈ q ∨ nul ∈ q) (tail : Bytes) :
    lineEnd (q ++ tail) = lineEnd q := by
  rw [lineEnd, lineEnd, findChar_append_of_mem h]
  by_cases hnul : nul ∈ q
  · rw [findChar_append_of_mem (.inr hnul)]
  · have hcr : findChar q cr = some (q.idxOf cr) :=
      findChar_eq_some_iff.mpr ⟨by rw [cstr_eq_self hnul]; exact h.resolve_right hnul, rfl⟩
    rw [hcr]
    rfl

theorem lineEnd_lt {endp : ℕ} (h : lineEnd q = some endp) : endp < q.length := by
  have hcstr : (cstr q).length ≤ q.length := (List.takeWhile_prefix _).length_le
  rcases Option.or_eq_some_iff.mp h with h | ⟨-, h⟩
  · exact (findChar_lt h).trans_le hcstr
  · exact (findChar_lt h).trans_le hcstr

theorem strchrReads_le_iff {b : Byte} (tail : Bytes) :
    strchrReads (q ++ tail) b ≤ q.length ↔ b ∈ q ∨ nul ∈ q := by
  rw [strchrReads]
  constructor
  · intro hle
    by_contra hno
    rw [not_or] at hno
    have hall : ∀ c ∈ q, (c != b && c != nul) = true := fun c hc => by
      simp [ne_of_mem_of_not_mem hc hno.1, ne_of_mem_of_not_mem hc hno.2]
    rw [List.takeWhile_append_of_pos hall, List.length_append] at hle
    omega
  · intro h
    have hshort : (q.takeWhile fun c => c != b && c != nul).length ≠ q.length := fun hlen => by
      have hall := List.takeWhile_eq_self_iff.mp ((List.takeWhile_prefix _).eq_of_length hlen)
      rcases h with h | h
      · simpa using hall b h
      · simpa using hall nul h
    have hle := (List.takeWhile_prefix (l := q) fun c => c != b && c != nul).length_le
    rw [List.takeWhile_append, if_neg hshort]
    omega

/-- The search for the end of the line stops where a carriage return or a NUL comes. -/
theorem endReads_le_iff (tail : Bytes) :
    endReads (q ++ tail) ≤ q.length ↔ cr ∈ q ∨ nul ∈ q := by
  rw [endReads]
  split
  · exact strchrReads_le_iff tail
  · next hnone =>
    rw [max_le_iff, strchrReads_le_iff, strchrReads_le_iff]
    refine ⟨And.left, fun h => ⟨h, .inr ?_⟩⟩
    by_contra hnul
    have hcr : findChar (q ++ tail) cr ≠ none := by
      rw [findChar_append_of_mem h, findChar, cstr_eq_self hnul, if_pos (h.resolve_right hnul)]
      exact Option.some_ne_none _
    exact hnone (Option.isSome_iff_ne_none.mpr hcr)

end End

theorem endReads_le (line : Bytes) : endReads line ≤ direntReads line := by
  rw [direntReads]
  split
  · exact le_rfl
  · exact (le_max_left _ _).trans (le_max_left _ _)

/-- **The lines that are read inside the buffer.** -/
theorem direntReads_le_iff {q : Bytes} (hq : q ≠ []) (tail : Bytes) :
    direntReads (q ++ tail) ≤ q.length ↔ LineInside q := by
  have hstart : Follows tail q (q ++ tail) := .inl ⟨hq, rfl⟩
  have hname : nameOffset (q ++ tail) + 1 ≤ q.length ↔ nameStart q ≠ [] :=
    hstart.nameStart.reads_iff hq
  have hsize : sizeReads (q ++ tail) ≤ q.length ↔ (scanNumber (sizeStart q)).2.2 ≠ [] :=
    hstart.sizeStart.number.reads_iff hq
  have hpos : 0 < q.length := List.length_pos_of_ne_nil hq
  rw [LineInside]
  by_cases hstop : cr ∈ q ∨ nul ∈ q
  · have hends := (endReads_le_iff tail).mpr hstop
    rw [direntReads]
    rw [lineEnd_append hstop, byteAt_append hpos]
    cases hend : lineEnd q with
    | none => simpa [hstop] using hends
    | some endp =>
      -- the arrow is looked for up to the end of the line
      have harrow : (if nameOffset (q ++ tail) < endp then endp + 1 else 0) ≤ q.length := by
        have hendp : endp < q.length := lineEnd_lt hend
        split <;> omega
      have hfile : (if byteAt q 0 = 100 then 0 else sizeReads (q ++ tail)) ≤ q.length ↔
          (byteAt q 0 ≠ 100 → (scanNumber (sizeStart q)).2.2 ≠ []) := by
        split
        · next hdir => simp [hdir]
        · next hdir => simp [hdir, hsize]
      simp only [max_le_iff, hends, harrow, hname, hfile, hstop, true_and, and_true, ne_eq,
        reduceCtorEq, not_false_eq_true, forall_true_left]
      exact and_comm
  · have hends := (endReads_le_iff tail).not.mpr hstop
    exact ⟨fun hle => absurd ((endReads_le _).trans hle) hends, fun h => absurd h.1 hstop⟩

/-! ### One line -/

/-- The entry `parse_dirent` is about to name. -/
def headEntry (ent : Dirent) (line : Bytes) : Dirent :=
  { ent with
    type := if byteAt line 0 = 100 then .dir else .file
    size := if byteAt line 0 = 100 then ent.size else atoi (cstr (sizeStart line)) }

/-- **What `parse_dirent` makes of a line.** -/
theorem parseDirent_eq (ent : Dirent) {line : Bytes} {endp : ℕ} (h : lineEnd line = some endp) :
    parseDirent ent line =
      if nameOffset line < endp ∧ nameLen line endp ≠ 0 then
        (0, { headEntry ent line with name := (nameStart line).take (nameLen line endp) })
      else (-1, headEntry ent line) := by
  let typed : Dirent := { ent with type := if byteAt line 0 = 100 then .dir else .file }
  let sized : Dirent :=
    if typed.type = .file then { typed with size := atoi (cstr (sizeStart line)) } else typed
  have hhead : sized = headEntry ent line := by
    unfold sized typed headEntry
    by_cases hdir : byteAt line 0 = 100 <;> simp [hdir]
  have hsource : parseDirent ent line =
      if endp ≤ nameOffset line then (-1, sized)
      else if nameLen line endp = 0 then (-1, sized)
      else (0, { sized with name := (nameStart line).take (nameLen line endp) }) := by
    rw [lineEnd] at h
    rw [parseDirent]
    rw [h]
    rfl
  rw [hsource, hhead]
  by_cases hoff : nameOffset line < endp
  · by_cases hlen : nameLen line endp = 0
    · simp [hoff, hlen]
    · simp [hoff, hlen, not_le.mpr hoff]
  · simp [hoff, not_lt.mp hoff]

theorem parseDirent_of_none (ent : Dirent) {line : Bytes} (h : lineEnd line = none) :
    parseDirent ent line = (-1, ent) := by
  rw [lineEnd] at h
  rw [parseDirent]
  rw [h]

section Append

variable {q : Bytes}

theorem Follows.eq_append {tail m : Bytes} (h : Follows tail q m) (hq : q ≠ []) :
    m = q ++ tail := by
  rcases h with h | h
  · exact h.2
  · exact absurd h.1 hq

/-- The digits of a number end before a NUL. -/
theorem scanNumber_cstr (m : Bytes) :
    (scanNumber (cstr m)).1 = (scanNumber m).1 ∧
      (scanNumber (cstr m)).2.1 = (scanNumber m).2.1 := by
  have hnul : ∀ b : Byte, isspace b = true → b ≠ nul := fun b hb h => by simp [h] at hb
  have hskip : ∀ p : Bytes, skipSpace (cstr p) = cstr (skipSpace p) := by
    intro p
    induction p with
    | nil => rfl
    | cons b p ih =>
      by_cases hb : isspace b = true
      · have hne := hnul b hb
        simpa [skipSpace, cstr, hb, hne] using ih
      · by_cases hz : b = nul
        · simp [skipSpace, cstr, hz]
        · simp [skipSpace, cstr, hb, hz]
  have hbyte : ∀ p : Bytes, byteAt (cstr p) 0 = byteAt p 0 := by
    intro p
    cases p with
    | nil => rfl
    | cons b p =>
      by_cases hz : b = nul
      · simp [cstr, hz, byteAt]
      · simp [cstr, hz, byteAt]
  have htail : ∀ p : Bytes, byteAt p 0 ≠ nul → (cstr p).tail = cstr p.tail := by
    intro p hp
    cases p with
    | nil => rfl
    | cons b p =>
      have hz : b ≠ nul := by simpa [byteAt] using hp
      simp [cstr, hz]
  have hdigits : ∀ p : Bytes, (cstr p).takeWhile isdigit = p.takeWhile isdigit := by
    intro p
    induction p with
    | nil => rfl
    | cons b p ih =>
      by_cases hz : b = nul
      · simp [cstr, hz]
      · have hcons : cstr (b :: p) = b :: cstr p := by simp [cstr, hz]
        rw [hcons, List.takeWhile_cons, List.takeWhile_cons, ih]
  have hsign : skipSign (cstr (skipSpace m)) = cstr (skipSign (skipSpace m)) := by
    unfold skipSign
    rw [hbyte]
    split
    · next h =>
      refine htail _ fun hz => ?_
      rw [hz] at h
      exact absurd h (by decide)
    · rfl
  constructor
  · change decide (byteAt (skipSpace (cstr m)) 0 = 45) = decide (byteAt (skipSpace m) 0 = 45)
    rw [hskip, hbyte]
  · change (skipSign (skipSpace (cstr m))).takeWhile isdigit =
      (skipSign (skipSpace m)).takeWhile isdigit
    rw [hskip, hsign, hdigits]

theorem atoi_congr {m m' : Bytes} (hsign : (scanNumber m).1 = (scanNumber m').1)
    (hdigits : (scanNumber m).2.1 = (scanNumber m').2.1) : atoi (cstr m) = atoi (cstr m') := by
  have h := scanNumber_cstr m
  have h' := scanNumber_cstr m'
  rw [atoi, atoi, strtol, strtol]
  dsimp only
  rw [h.1, h.2, h'.1, h'.2, hsign, hdigits]

/-- A number that ends in the received bytes has the same value with others behind them. -/
theorem Follows.atoi {tail m : Bytes} (h : Follows tail q m) (hrest : (scanNumber q).2.2 ≠ []) :
    CString.atoi (cstr m) = CString.atoi (cstr q) := by
  rw [scanNumber_rest] at hrest
  have hnumber : Visftp.skipSign (skipSpace q) ≠ [] := fun hnil => by simp [hnil] at hrest
  have hspace : skipSpace q ≠ [] := fun hnil => hnumber (by rw [hnil]; rfl)
  have hm : skipSpace m = skipSpace q ++ tail := (h.dropWhile isspace).eq_append hspace
  have hm' : Visftp.skipSign (skipSpace m) = Visftp.skipSign (skipSpace q) ++ tail :=
    (h.dropWhile isspace).skipSign.eq_append hnumber
  refine atoi_congr ?_ ?_
  · change decide (byteAt (skipSpace m) 0 = 45) = decide (byteAt (skipSpace q) 0 = 45)
    rw [hm, byteAt_append (List.length_pos_of_ne_nil hspace)]
  · change (Visftp.skipSign (skipSpace m)).takeWhile isdigit =
      (Visftp.skipSign (skipSpace q)).takeWhile isdigit
    rw [hm', List.takeWhile_append]
    split
    · next hlen =>
      have hall := (List.takeWhile_prefix isdigit).eq_of_length hlen
      refine absurd (List.dropWhile_eq_nil_iff.mpr ?_) hrest
      exact List.takeWhile_eq_self_iff.mp hall
    · rfl

/-- **A line that stops in the buffer is read from the received bytes alone.** -/
theorem parseDirent_append (hin : LineInside q) (hq : q ≠ []) (ent : Dirent) (tail : Bytes) :
    parseDirent ent (q ++ tail) = parseDirent ent q := by
  have hend := lineEnd_append hin.1 tail
  cases hline : lineEnd q with
  | none =>
    rw [hline] at hend
    rw [parseDirent_of_none ent hend, parseDirent_of_none ent hline]
  | some endp =>
    rw [hline] at hend
    obtain ⟨hsize, hname⟩ := hin.2 (by simp [hline])
    have hstart : Follows tail q (q ++ tail) := .inl ⟨hq, rfl⟩
    have hplace := hstart.nameStart.eq_append hname
    have hpos := List.length_pos_of_ne_nil hname
    have hshort : (nameStart q).length ≤ q.length := by
      obtain ⟨pre, hpre, -⟩ := skips_nameStart q
      have := congrArg List.length hpre
      rw [List.length_append] at this
      omega
    have hoff : nameOffset (q ++ tail) = nameOffset q := by
      rw [nameOffset, nameOffset, hplace, List.length_append, List.length_append]
      omega
    have hlen : nameLen (q ++ tail) endp = nameLen q endp := by
      have hlt := lineEnd_lt hline
      rw [nameLen, nameLen, hoff, hplace]
      refine nameLength_congr fun i hi => byteAt_append ?_ tail
      rw [nameOffset] at hi
      omega
    have hhead : headEntry ent (q ++ tail) = headEntry ent q := by
      rw [headEntry, headEntry, byteAt_append (List.length_pos_of_ne_nil hq)]
      by_cases hdir : byteAt q 0 = 100
      · simp [hdir]
      · simp [hdir, hstart.sizeStart.atoi (hsize hdir)]
    have hle : nameLen q endp ≤ (nameStart q).length := by
      have hlt := lineEnd_lt hline
      have := nameLength_le (nameStart q) (endp - nameOffset q)
      rw [nameLen]
      rw [nameOffset] at this ⊢
      omega
    rw [parseDirent_eq ent hend, parseDirent_eq ent hline, hoff, hlen, hhead, hplace,
      List.take_append_of_le_length hle]

end Append

/-! ### The entry on the stack -/

section Entry

variable {ent ent' : Dirent}

/-- Whether a line is accepted does not depend on the entry. -/
theorem parseDirent_fst_congr (ent ent' : Dirent) (line : Bytes) :
    (parseDirent ent line).1 = (parseDirent ent' line).1 := by
  cases h : lineEnd line with
  | none => rw [parseDirent_of_none ent h, parseDirent_of_none ent' h]
  | some endp =>
    rw [parseDirent_eq ent h, parseDirent_eq ent' h]
    split <;> rfl

/-- Of the entry, only the size is read. -/
theorem parseDirent_congr (line : Bytes)
    (h : (headEntry ent line).size = (headEntry ent' line).size)
    (hend : lineEnd line ≠ none) :
    (parseDirent ent line).2.size = (parseDirent ent' line).2.size ∧
      ((parseDirent ent line).1 = 0 → (parseDirent ent line).2 = (parseDirent ent' line).2) := by
  obtain ⟨endp, hline⟩ := Option.ne_none_iff_exists'.mp hend
  have htype : (headEntry ent line).type = (headEntry ent' line).type := rfl
  rw [parseDirent_eq ent hline, parseDirent_eq ent' hline]
  split
  · refine ⟨h, fun _ => ?_⟩
    dsimp only
    rw [h, htype]
  · have hrej : (-1 : Int) ≠ 0 := by decide
    exact ⟨h, fun hacc => absurd hacc hrej⟩

theorem parseLines_congr (tail : Bytes) {fuel : ℕ} {p : Bytes} (h : ent.size = ent'.size) :
    parseLines tail fuel p ent = parseLines tail fuel p ent' := by
  induction fuel generalizing p ent ent' with
  | zero => rfl
  | succ fuel ih =>
    rw [parseLines, parseLines]
    split
    · rfl
    · have hfst := parseDirent_fst_congr ent ent' (p ++ tail)
      cases hend : lineEnd (p ++ tail) with
      | none =>
        rw [parseDirent_of_none ent hend, parseDirent_of_none ent' hend]
        exact ih h
      | some endp =>
        have hhead : (headEntry ent (p ++ tail)).size = (headEntry ent' (p ++ tail)).size := by
          simp [headEntry, h]
        obtain ⟨hsize, hent⟩ := parseDirent_congr (p ++ tail) hhead (by simp [hend])
        dsimp only
        rw [← hfst]
        split
        · exact ih hsize
        · next hacc =>
          rw [hent ((parseDirent_fst ent _).resolve_left hacc)]

/-- **A size that is not written comes out**: where a directory is accepted first, it has the size
the entry had before. -/
theorem exists_size_of_not_sizeWritten {fuel : ℕ} {p : Bytes}
    (h : ¬SizeWritten (lineStarts fuel p)) (ent : Dirent) :
    ∃ e ∈ parseLines [] fuel p ent, e.size = ent.size := by
  induction fuel generalizing p ent with
  | zero => exact absurd trivial h
  | succ fuel ih =>
    rw [lineStarts] at h
    rw [parseLines, List.append_nil]
    split at h
    · exact absurd trivial h
    · next hp =>
      rw [SizeWritten, not_or, not_and, not_and] at h
      obtain ⟨hdir, hrest⟩ := h
      have hsize : (parseDirent ent p).2.size = ent.size := by
        cases hend : lineEnd p with
        | none => rw [parseDirent_of_none ent hend]
        | some endp =>
          have hfirst : byteAt p 0 = 100 := not_not.mp (hdir (by simp [hend]))
          have hhead : (headEntry ent p).size = ent.size := if_pos hfirst
          rw [parseDirent_eq ent hend]
          split <;> exact hhead
      rw [if_neg hp]
      dsimp only
      split
      · next hrej =>
        rw [parseDirent_fst_congr ent ⟨[], .file, 0⟩] at hrej
        rw [← hsize]
        exact ih (hrest hrej) _
      · exact ⟨_, List.mem_cons_self, hsize⟩

/-- **A size that is written does not come out.** -/
theorem parseLines_of_sizeWritten {fuel : ℕ} {p : Bytes} (h : SizeWritten (lineStarts fuel p))
    (ent ent' : Dirent) : parseLines [] fuel p ent = parseLines [] fuel p ent' := by
  induction fuel generalizing p ent ent' with
  | zero => rfl
  | succ fuel ih =>
    rw [lineStarts] at h
    rw [parseLines, parseLines, List.append_nil]
    split at h
    · next hp => rw [if_pos hp, if_pos hp]
    · next hp =>
      rw [if_neg hp, if_neg hp]
      have hfst := parseDirent_fst_congr ent ent' p
      dsimp only
      rw [← hfst]
      rw [SizeWritten] at h
      rcases h with ⟨hend, hfile⟩ | ⟨hrej, hrest⟩
      · have hhead : (headEntry ent p).size = (headEntry ent' p).size := by
          simp [headEntry, hfile]
        obtain ⟨hsize, hent⟩ := parseDirent_congr p hhead hend
        split
        · exact parseLines_congr [] hsize
        · next hacc => rw [hent ((parseDirent_fst ent _).resolve_left hacc)]
      · rw [parseDirent_fst_congr ⟨[], .file, 0⟩ ent] at hrej
        rw [if_pos hrej, if_pos hrej]
        exact ih hrest _ _

end Entry

/-! ### A whole listing -/

theorem ne_nil_of_mem_lineStarts {fuel : ℕ} {p q : Bytes} (h : q ∈ lineStarts fuel p) : q ≠ [] := by
  induction fuel generalizing p with
  | zero => simp [lineStarts] at h
  | succ fuel ih =>
    rw [lineStarts] at h
    split at h
    · simp at h
    · next hp =>
      rcases List.mem_cons.mp h with rfl | h
      · exact hp
      · exact ih h

theorem parseLines_of_inside (tail : Bytes) {fuel : ℕ} {p : Bytes}
    (h : ∀ q ∈ lineStarts fuel p, LineInside q) (ent : Dirent) :
    parseLines tail fuel p ent = parseLines [] fuel p ent := by
  induction fuel generalizing p ent with
  | zero => rfl
  | succ fuel ih =>
    rw [lineStarts] at h
    rw [parseLines, parseLines, List.append_nil]
    split at h
    · next hp => rw [if_pos hp, if_pos hp]
    · next hp =>
      have hrest := ih fun q hq => h q (List.mem_cons_of_mem _ hq)
      rw [if_neg hp, if_neg hp, parseDirent_append (h p List.mem_cons_self) hp]
      dsimp only
      rw [hrest]

/-- **The listings that are read inside the buffer, and that determine the entries.** -/
theorem safeListing_iff (p : Bytes) :
    SafeListing p ↔
      (∀ q ∈ lineStarts p.length p, LineInside q) ∧ SizeWritten (lineStarts p.length p) := by
  constructor
  · intro h
    refine ⟨fun q hq => ?_, ?_⟩
    · exact (direntReads_le_iff (ne_nil_of_mem_lineStarts hq) []).mp (h.inside [] q hq)
    · by_contra hsize
      obtain ⟨z, hz⟩ := Infinite.exists_notMem_finset ((listing [] 0 p).map Dirent.size).toFinset
      obtain ⟨e, he, hez⟩ := exists_size_of_not_sizeWritten hsize ⟨[], .file, z⟩
      have hmem : e ∈ listing [] 0 p := by
        rw [h.determined [] [] 0 z]
        exact mem_listing.mpr he
      exact hz (List.mem_toFinset.mpr (List.mem_map.mpr ⟨e, hmem, hez⟩))
  · rintro ⟨hin, hsize⟩
    refine ⟨fun tail q hq => ?_, fun tail tail' junk junk' => ?_⟩
    · exact (direntReads_le_iff (ne_nil_of_mem_lineStarts hq) tail).mpr (hin q hq)
    · unfold listing parseListing
      rw [parseLines_of_inside tail hin, parseLines_of_inside tail' hin,
        parseLines_of_sizeWritten hsize]

/-- A line that ends in a line feed alone is searched for a carriage return. -/
theorem not_safeListing_lf :
    ¬SafeListing (ascii "-rw-r--r-- 1 u g 5 Jan 1 2024 a" ++ [lf]) := by
  intro h
  exact absurd (h.inside [] _ List.mem_cons_self) (by decide)

end Visftp
