import Visftp.Names

/-!
# Reading a listing

`dproc_list` parses the receive buffer in place: `parse_dirent` gets the whole rest of the buffer
for every line. When the lines end in CRLF and hold no other terminator and no NUL, it might as well
have got the line alone. The entries are then sorted, and `ftp_direntcmp` is a total order up to the
sizes.

## Main definitions

* `Dirent.Before`, `Dirent.key` — the order of the entries, and what is compared of them
* `Clean`, `crlf`, `parseLine` — a line, a listing of them, and one line on its own

## Main results

* `pairwise_listing` — the entries are sorted
* `parseDirent_crlf`, `parseLines_crlf` — one line of a listing, and all of them
-/

namespace Visftp

open CString

/-! ### The order of the entries -/

theorem byte_trichotomy (x y : Byte) : x < y ∨ x = y ∨ y < x := by
  by_cases h : x = y
  · exact .inr (.inl h)
  · exact (UInt8.lt_or_lt_of_ne h).imp id .inr

theorem strcmp_swap (a b : Bytes) : strcmp b a = -strcmp a b := by
  induction a generalizing b with
  | nil => cases b <;> rfl
  | cons x a ih =>
    cases b with
    | nil => rfl
    | cons y b =>
      rw [strcmp, strcmp]
      rcases byte_trichotomy x y with h | rfl | h
      · rw [if_neg (UInt8.lt_asymm h), if_pos h, if_pos h]
        rfl
      · simp only [UInt8.lt_irrefl, if_false]
        exact ih b
      · rw [if_pos h, if_neg (UInt8.lt_asymm h), if_pos h]

theorem strcmp_trans {a b c : Bytes} (hab : strcmp a b ≤ 0) (hbc : strcmp b c ≤ 0) :
    strcmp a c ≤ 0 := by
  induction a generalizing b c with
  | nil => cases c <;> simp [strcmp]
  | cons x a ih =>
    cases b with
    | nil => simp [strcmp] at hab
    | cons y b =>
      cases c with
      | nil => simp [strcmp] at hbc
      | cons z c =>
        rw [strcmp] at hab hbc ⊢
        rcases byte_trichotomy x y with hxy | rfl | hxy
        · rcases byte_trichotomy y z with hyz | rfl | hyz
          · simp [UInt8.lt_trans hxy hyz]
          · simp [hxy]
          · simp [hyz, UInt8.lt_asymm hyz] at hbc
        · rcases byte_trichotomy x z with hxz | rfl | hxz
          · simp [hxz]
          · simp only [UInt8.lt_irrefl, if_false] at hab hbc ⊢
            exact ih hab hbc
          · simp [hxz, UInt8.lt_asymm hxz] at hbc
        · simp [hxy, UInt8.lt_asymm hxy] at hab

/-- Directories come before files, and entries of one type in the order of `strcmp`. -/
def Dirent.Before (a b : Dirent) : Prop :=
  (a.type = .dir ∨ b.type = .file) ∧ (a.type = b.type → strcmp a.name b.name ≤ 0)

theorem before_iff {a b : Dirent} : a.Before b ↔ ftpDirentcmp a b ≤ 0 := by
  rw [Dirent.Before, ftpDirentcmp]
  cases ha : a.type <;> cases hb : b.type <;> simp

theorem before_total (a b : Dirent) : a.Before b ∨ b.Before a := by
  have hname : strcmp a.name b.name ≤ 0 ∨ strcmp b.name a.name ≤ 0 := by
    rw [strcmp_swap a.name b.name]
    omega
  rcases ha : a.type <;> rcases hb : b.type <;> simp [Dirent.Before, ha, hb, hname]

theorem before_trans {a b c : Dirent} (hab : a.Before b) (hbc : b.Before c) : a.Before c := by
  obtain ⟨h₁, h₂⟩ := hab
  obtain ⟨h₃, h₄⟩ := hbc
  rcases ha : a.type <;> rcases hb : b.type <;> rcases hc : c.type <;>
    simp_all [Dirent.Before]
  · exact strcmp_trans h₂ h₄
  · exact strcmp_trans h₂ h₄

/-- **The entries are sorted.** -/
theorem pairwise_listing (tail : Bytes) (junk : Int) (p : Bytes) :
    (listing tail junk p).Pairwise Dirent.Before := by
  have htotal : Std.Total fun a b : Dirent => ftpDirentcmp a b ≤ 0 :=
    ⟨fun a b => (before_total a b).imp before_iff.mp before_iff.mp⟩
  have htrans : IsTrans Dirent fun a b => ftpDirentcmp a b ≤ 0 :=
    ⟨fun a b c hab hbc => before_iff.mp (before_trans (before_iff.mpr hab) (before_iff.mpr hbc))⟩
  exact (List.pairwise_insertionSort _ (parseListing tail junk p)).imp before_iff.mpr

/-! ### A line in the buffer -/

/-- Where the size field of a line starts, behind four fields. -/
def sizeStart (line : Bytes) : Bytes := skipField (skipField (skipField (skipField line)))

theorem fields_of_parseDirent (ent : Dirent) {line : Bytes} (h : (parseDirent ent line).1 = 0) :
    (parseDirent ent line).2.type = (if byteAt line 0 = 100 then .dir else .file) ∧
      ((parseDirent ent line).2.type = .file →
        (parseDirent ent line).2.size = atoi (cstr (sizeStart line))) := by
  rw [parseDirent] at h ⊢
  cases hend : (findChar line cr).or (findChar line lf) with
  | none => simp [hend] at h
  | some endp =>
    rw [hend] at h
    dsimp only at h ⊢
    split_ifs at h ⊢ <;> simp_all [sizeStart]

/-- The bytes of a line, without a terminator and without a NUL. -/
def Clean (l : Bytes) : Prop := cr ∉ l ∧ lf ∉ l ∧ nul ∉ l

instance (l : Bytes) : Decidable (Clean l) := inferInstanceAs (Decidable (_ ∧ _ ∧ _))

theorem Clean.suffix {l q : Bytes} (h : Clean l) (hq : q <:+ l) : Clean q :=
  ⟨fun hm => h.1 (hq.subset hm), fun hm => h.2.1 (hq.subset hm), fun hm => h.2.2 (hq.subset hm)⟩

/-- Over a field of a line, and the blanks behind it. -/
def skipIn (q : Bytes) : Bytes := (q.dropWhile fun b => !isspace b).dropWhile isspace

theorem skipIn_suffix (q : Bytes) : skipIn q <:+ q :=
  (List.dropWhile_suffix _).trans (List.dropWhile_suffix _)

/-- The first byte behind the blanks is none. -/
theorem head_skipIn {q : Bytes} (h : skipIn q ≠ []) :
    ∃ b l, skipIn q = b :: l ∧ isspace b = false := by
  obtain ⟨b, l, hb⟩ := List.exists_cons_of_ne_nil h
  refine ⟨b, l, hb, ?_⟩
  have hhead : isspace ((skipIn q).head h) = false := List.head_dropWhile_not isspace h
  simpa [hb] using hhead

/-- A place in the buffer: `q` before the end of the line, or behind its carriage return. -/
def place (rest : Bytes) : Option Bytes → Bytes
  | some q => q ++ cr :: lf :: rest
  | none => lf :: rest

/-- `SKIP_FIELD` from a place in a line. -/
def skipPlace : Option Bytes → Option Bytes
  | some q => if skipIn q = [] then none else some (skipIn q)
  | none => none

/-- Within a line, the two bytes that end a field do not occur. -/
theorem dropWhile_clean (test : Byte → Bool) {q : Bytes} (hlf : lf ∉ q) (hnul : nul ∉ q) :
    (q.dropWhile fun b => b != nul && b != lf && test b) = q.dropWhile test := by
  induction q with
  | nil => rfl
  | cons b q ih =>
    rw [List.mem_cons, not_or] at hlf hnul
    have hb : (b != nul && b != lf && test b) = test b := by
      simp [Ne.symm hlf.1, Ne.symm hnul.1]
    rw [List.dropWhile_cons, List.dropWhile_cons, hb, ih hlf.2 hnul.2]

theorem skipField_place (rest : Bytes) {x : Option Bytes} (hx : ∀ q, x = some q → Clean q) :
    skipField (place rest x) = place rest (skipPlace x) := by
  cases x with
  | none => simp [place, skipPlace, skipField]
  | some q =>
    have hq := hx q rfl
    have hq' := hq.suffix (List.dropWhile_suffix (l := q) fun b => !isspace b)
    have hspace : isspace cr = true := by decide
    have hfirst : (q ++ cr :: lf :: rest).dropWhile (fun b => b != nul && b != lf && !isspace b) =
        (q.dropWhile fun b => !isspace b) ++ cr :: lf :: rest := by
      rw [List.dropWhile_append, dropWhile_clean (fun b => !isspace b) hq.2.1 hq.2.2]
      split
      · next h => simp [hspace, List.isEmpty_iff.mp h]
      · rfl
    rw [place, skipField, hfirst, List.dropWhile_append, dropWhile_clean isspace hq'.2.1 hq'.2.2]
    by_cases h : skipIn q = []
    · have h' := h
      rw [skipIn] at h'
      have hcr : cr ≠ nul ∧ cr ≠ lf := by decide
      simp [skipPlace, place, h, h', hspace, hcr]
    · have h' := h
      rw [skipIn] at h'
      simp only [skipPlace, h, h', List.isEmpty_iff, if_false]
      rfl

theorem clean_skipPlace {x : Option Bytes} (hx : ∀ q, x = some q → Clean q) :
    ∀ q, skipPlace x = some q → Clean q := by
  intro q hq
  cases x with
  | none => simp [skipPlace] at hq
  | some p =>
    rw [skipPlace] at hq
    split at hq
    · cases hq
    · cases hq
      exact (hx p rfl).suffix (skipIn_suffix p)

/-- Over `n` fields of a line. -/
def skipPlaces : ℕ → Option Bytes → Option Bytes
  | 0, x => x
  | n + 1, x => skipPlace (skipPlaces n x)

theorem clean_skipPlaces {l : Bytes} (hl : Clean l) (n : ℕ) :
    ∀ q, skipPlaces n (some l) = some q → Clean q := by
  induction n with
  | zero =>
    rintro q ⟨⟩
    exact hl
  | succ n ih => exact clean_skipPlace ih

theorem sizeStart_crlf {l : Bytes} (hl : Clean l) (rest : Bytes) :
    sizeStart (l ++ cr :: lf :: rest) = place rest (skipPlaces 4 (some l)) := by
  have h : ∀ n, skipField (place rest (skipPlaces n (some l))) =
      place rest (skipPlaces (n + 1) (some l)) := fun n =>
    skipField_place rest (clean_skipPlaces hl n)
  rw [← h 3, ← h 2, ← h 1, ← h 0]
  rfl

theorem nameStart_crlf {l : Bytes} (hl : Clean l) (rest : Bytes) :
    nameStart (l ++ cr :: lf :: rest) = place rest (skipPlaces 8 (some l)) := by
  have h : ∀ n, skipField (place rest (skipPlaces n (some l))) =
      place rest (skipPlaces (n + 1) (some l)) := fun n =>
    skipField_place rest (clean_skipPlaces hl n)
  rw [← h 7, ← h 6, ← h 5, ← h 4, ← sizeStart_crlf hl]
  rfl

/-- A field that is reached is a suffix of what was reached before, and starts with no blank. -/
theorem skipPlaces_some {l q : Bytes} {n : ℕ} (h : skipPlaces (n + 1) (some l) = some q) :
    ∃ q', skipPlaces n (some l) = some q' ∧ q <:+ q' ∧ ∃ b r, q = b :: r ∧ isspace b = false := by
  rw [skipPlaces] at h
  cases hx : skipPlaces n (some l) with
  | none => simp [hx, skipPlace] at h
  | some q' =>
    rw [hx, skipPlace] at h
    split at h
    · cases h
    · next hne =>
      cases h
      exact ⟨q', rfl, skipIn_suffix q', head_skipIn hne⟩

theorem skipPlaces_suffix {l q : Bytes} (m : ℕ) {n : ℕ} (h : skipPlaces (n + m) (some l) = some q) :
    ∃ q', skipPlaces n (some l) = some q' ∧ q <:+ q' := by
  induction m generalizing q with
  | zero => exact ⟨q, h, List.suffix_rfl⟩
  | succ m ih =>
    obtain ⟨q₁, h₁, hsub, -⟩ := skipPlaces_some (n := n + m) h
    obtain ⟨q', h', hsub'⟩ := ih h₁
    exact ⟨q', h', hsub.trans hsub'⟩

theorem lineEnd_crlf {l : Bytes} (hl : Clean l) (rest : Bytes) :
    lineEnd (l ++ cr :: lf :: rest) = some l.length := by
  have hcr : findChar (l ++ cr :: lf :: rest) cr = some l.length := by
    have hnul : cr ≠ nul := by decide
    rw [findChar_append_of_notMem hl.1 hl.2.2]
    simp [findChar, cstr, hnul]
  rw [lineEnd, hcr]
  rfl

theorem byteAt_append {p : Bytes} {i : ℕ} (hi : i < p.length) (r : Bytes) :
    byteAt (p ++ r) i = byteAt p i := by
  simp [byteAt, List.getD_eq_getElem?_getD, List.getElem?_append_left hi]

/-- An arrow is looked for up to the end of the line and no further. -/
theorem findArrow_congr {p p' : Bytes} {n : ℕ} (h : ∀ i ≤ n, byteAt p i = byteAt p' i) :
    findArrow p n = findArrow p' n := by
  have htail : ∀ (s : Bytes) i, byteAt s.tail i = byteAt s (i + 1) := fun s i => by
    cases s <;> simp [byteAt]
  induction n generalizing p p' with
  | zero => rfl
  | succ n ih =>
    have hrest : findArrow p.tail n = findArrow p'.tail n := ih fun i hi => by
      rw [htail, htail, h (i + 1) (by omega)]
    rw [findArrow, findArrow, h 0 (by omega), h 1 (by omega), hrest]

theorem trimBlank_congr {p p' : Bytes} {i : ℕ} (h : ∀ j < i, byteAt p j = byteAt p' j) :
    trimBlank p i = trimBlank p' i := by
  induction i with
  | zero => rfl
  | succ i ih =>
    rw [trimBlank, trimBlank, h i (Nat.lt_succ_self i), ih fun j hj => h j (Nat.lt_succ_of_lt hj)]

/-- The end of a name depends on the bytes of the line alone. -/
theorem nameLength_congr {p p' : Bytes} {n : ℕ} (h : ∀ i ≤ n, byteAt p i = byteAt p' i) :
    nameLength p n = nameLength p' n := by
  unfold nameLength
  rw [findArrow_congr h]
  split
  · next i hi => exact trimBlank_congr fun j hj => h j (by have := findArrow_lt hi; omega)
  · rfl

theorem nameLength_append (rest rest' q : Bytes) :
    nameLength (q ++ cr :: rest) q.length = nameLength (q ++ cr :: rest') q.length := by
  have hbyte : ∀ r, ∀ i ≤ q.length, byteAt (q ++ cr :: r) i = byteAt (q ++ [cr]) i := by
    intro r i hi
    rw [← byteAt_append (p := q ++ [cr]) (by simp; omega) r, List.append_assoc]
    rfl
  exact nameLength_congr fun i hi => (hbyte rest i hi).trans (hbyte rest' i hi).symm

/-- Digits end at a carriage return. -/
theorem takeWhile_isdigit_append (p r : Bytes) :
    (p ++ cr :: r).takeWhile isdigit = p.takeWhile isdigit := by
  have hcr : isdigit cr = false := by decide
  rw [List.takeWhile_append]
  split
  · next h => simp [hcr, (List.takeWhile_prefix isdigit).eq_of_length h]
  · rfl

/-- The size of a line depends on its bytes alone, where a field is left behind the size. -/
theorem atoi_append {q : Bytes} (hq : Clean q) (hb : ∃ b ∈ q, isspace b = false)
    (rest rest' : Bytes) : atoi (cstr (q ++ cr :: rest)) = atoi (cstr (q ++ cr :: rest')) := by
  have hnul : cr ≠ nul := by decide
  have hcstr : ∀ r, cstr (q ++ cr :: r) = q ++ cr :: cstr r := fun r => by
    rw [cstr_append hq.2.2]
    simp [cstr, hnul]
  have hne : skipSpace q ≠ [] := fun hf => by
    obtain ⟨b, hmem, hspace⟩ := hb
    have := List.dropWhile_eq_nil_iff.mp hf b hmem
    simp [hspace] at this
  have hskip : ∀ r, skipSpace (q ++ r) = skipSpace q ++ r := fun r => by
    rw [skipSpace, List.dropWhile_append, if_neg (by simpa [List.isEmpty_iff, skipSpace] using hne)]
    rfl
  obtain ⟨b, p, hp⟩ := List.exists_cons_of_ne_nil hne
  have hnumber : ∀ r, (scanNumber (q ++ cr :: r)).1 = decide (b = 45) ∧
      (scanNumber (q ++ cr :: r)).2.1 =
        (if b = 45 ∨ b = 43 then p else b :: p).takeWhile isdigit := by
    intro r
    rw [scanNumber]
    rw [hskip, hp]
    refine ⟨rfl, ?_⟩
    have hbyte : byteAt (b :: p ++ cr :: r) 0 = b := rfl
    dsimp only
    rw [hbyte]
    split
    · exact takeWhile_isdigit_append p r
    · exact takeWhile_isdigit_append (b :: p) r
  rw [hcstr, hcstr, atoi, atoi, strtol, strtol]
  dsimp only
  rw [(hnumber _).1, (hnumber _).2, (hnumber _).1, (hnumber _).2]

/-- What is compared of an entry: the size only of a file. -/
def Dirent.key (d : Dirent) : Bytes × FileType × Option Int :=
  (d.name, d.type, if d.type = .file then some d.size else none)

/-- `parse_dirent` of one line on its own. -/
def parseLine (l : Bytes) : Option Dirent :=
  if (parseDirent ⟨[], .file, 0⟩ (l ++ [cr, lf])).1 = -1 then none
  else some (parseDirent ⟨[], .file, 0⟩ (l ++ [cr, lf])).2

/-- A line that `parse_dirent` accepts has a name, and so all the fields before it. -/
theorem accepts_iff {l : Bytes} (hl : Clean l) (ent : Dirent) (rest : Bytes) :
    (parseDirent ent (l ++ cr :: lf :: rest)).1 = 0 ↔
      ∃ q, skipPlaces 8 (some l) = some q ∧ nameLength (q ++ [cr]) q.length ≠ 0 := by
  rw [(parseDirent_of_lineEnd ent (lineEnd_crlf hl rest)).1, nameLen, nameOffset,
    nameStart_crlf hl]
  cases h : skipPlaces 8 (some l) with
  | none =>
    simp only [place, List.length_append, List.length_cons]
    constructor
    · intro hlt
      omega
    · rintro ⟨q, hq, -⟩
      cases hq
  | some q =>
    obtain ⟨q', h', hsub⟩ := skipPlaces_suffix 8 (n := 0) h
    obtain rfl : l = q' := by simpa [skipPlaces] using h'
    have hlen := hsub.length_le
    have hoff : (l ++ cr :: lf :: rest).length - (q ++ cr :: lf :: rest).length =
        l.length - q.length := by
      simp only [List.length_append, List.length_cons]
      omega
    have hpos : q.length ≠ 0 := by
      obtain ⟨-, -, -, b, r, rfl, -⟩ := skipPlaces_some (n := 7) h
      simp
    have hback : l.length - (l.length - q.length) = q.length := by omega
    rw [place, hoff, hback, nameLength_append (lf :: rest) []]
    constructor
    · exact fun hacc => ⟨q, rfl, hacc.2⟩
    · rintro ⟨_, ⟨⟩, hname⟩
      exact ⟨by omega, hname⟩

/-- The name of a line that is accepted, behind its eight fields. -/
theorem name_of_accepts {l q : Bytes} (hl : Clean l) (hq : skipPlaces 8 (some l) = some q)
    (ent : Dirent) (rest : Bytes) (h : (parseDirent ent (l ++ cr :: lf :: rest)).1 = 0) :
    (parseDirent ent (l ++ cr :: lf :: rest)).2.name =
      q.take (nameLength (q ++ [cr]) q.length) := by
  obtain ⟨q₀, h₀, hsub⟩ := skipPlaces_suffix 8 (n := 0) hq
  obtain rfl : l = q₀ := by simpa [skipPlaces] using h₀
  have hlen := hsub.length_le
  have hback : l.length - ((l ++ cr :: lf :: rest).length - (q ++ cr :: lf :: rest).length) =
      q.length := by
    simp only [List.length_append, List.length_cons]
    omega
  rw [(parseDirent_of_lineEnd ent (lineEnd_crlf hl rest)).2 h, nameLen, nameOffset,
    nameStart_crlf hl, hq, place, hback, nameLength_append (lf :: rest) []]
  exact List.take_append_of_le_length (nameLength_le _ _)

/-- The entry of a line that is accepted. -/
theorem key_of_accepts {l : Bytes} (hl : Clean l) (ent ent' : Dirent) (rest rest' : Bytes)
    (h : (parseDirent ent (l ++ cr :: lf :: rest)).1 = 0) :
    (parseDirent ent (l ++ cr :: lf :: rest)).2.key =
      (parseDirent ent' (l ++ cr :: lf :: rest')).2.key := by
  have h' := (accepts_iff hl ent' rest').mpr ((accepts_iff hl ent rest).mp h)
  obtain ⟨q, hq, -⟩ := (accepts_iff hl ent rest).mp h
  obtain ⟨htype, hsize⟩ := fields_of_parseDirent ent h
  obtain ⟨htype', hsize'⟩ := fields_of_parseDirent ent' h'
  have hfirst : byteAt (l ++ cr :: lf :: rest) 0 = byteAt (l ++ cr :: lf :: rest') 0 := by
    cases l <;> rfl
  rw [hfirst, ← htype'] at htype
  have hatoi : atoi (cstr (sizeStart (l ++ cr :: lf :: rest))) =
      atoi (cstr (sizeStart (l ++ cr :: lf :: rest'))) := by
    obtain ⟨q₄, hq₄, hsub₄⟩ := skipPlaces_suffix 4 (n := 4) hq
    obtain ⟨-, -, -, b, r, rfl, hb⟩ := skipPlaces_some (n := 7) hq
    rw [sizeStart_crlf hl, sizeStart_crlf hl, hq₄]
    exact atoi_append (clean_skipPlaces hl 4 q₄ hq₄)
      ⟨b, hsub₄.subset List.mem_cons_self, hb⟩ _ _
  rw [Dirent.key, Dirent.key, name_of_accepts hl hq ent rest h, name_of_accepts hl hq ent' rest' h',
    htype]
  split
  · next hfile => rw [hsize (htype.trans hfile), hsize' hfile, hatoi]
  · rfl

/-- **A line in the buffer is read as if it stood alone.** -/
theorem parseDirent_crlf {l : Bytes} (hl : Clean l) (ent : Dirent) (rest : Bytes) :
    (if (parseDirent ent (l ++ cr :: lf :: rest)).1 = -1 then none
      else some (parseDirent ent (l ++ cr :: lf :: rest)).2.key) =
      (parseLine l).map Dirent.key := by
  have hiff := (accepts_iff hl ent rest).trans (accepts_iff hl ⟨[], .file, 0⟩ []).symm
  rw [parseLine]
  rcases parseDirent_fst ent (l ++ cr :: lf :: rest) with h | h
  · have h' := (parseDirent_fst ⟨[], .file, 0⟩ (l ++ [cr, lf])).resolve_right fun h' => by
      rw [hiff.mpr h'] at h
      exact absurd h (by decide)
    rw [if_pos h, if_pos h']
    rfl
  · have h' := hiff.mp h
    rw [if_neg (by rw [h]; decide), if_neg (by rw [h']; decide)]
    exact congrArg some (key_of_accepts hl ent _ rest [] h)

/-! ### A whole listing -/

/-- The bytes of a listing. -/
def crlf (lines : List Bytes) : Bytes := lines.flatMap (· ++ [cr, lf])

theorem crlf_cons (l : Bytes) (lines : List Bytes) :
    crlf (l :: lines) = l ++ cr :: lf :: crlf lines := by
  simp [crlf]

/-- An empty line is not accepted. -/
theorem parseLine_nil : parseLine [] = none := by decide

theorem isEol_of_clean {l : Bytes} (hl : Clean l) {b : Byte} (hb : b ∈ l) : isEol b = false := by
  have hlf := ne_of_mem_of_not_mem hb hl.2.1
  have hcr := ne_of_mem_of_not_mem hb hl.1
  simp [isEol, hlf, hcr]

/-- The next line, over empty ones. -/
theorem nextLine_crlf {lines : List Bytes} (hl : ∀ l ∈ lines, Clean l) {l : Bytes} (h : Clean l) :
    nextLine (crlf (l :: lines)) = crlf (lines.dropWhile List.isEmpty) := by
  have hline : (crlf (l :: lines)).dropWhile (fun b => !isEol b) = cr :: lf :: crlf lines := by
    rw [crlf_cons, List.dropWhile_append_of_pos fun b hb => by simp [isEol_of_clean h hb]]
    have hcr : isEol cr = true := by decide
    simp [hcr]
  have hskip : ∀ lines : List Bytes, (∀ l ∈ lines, Clean l) →
      (crlf lines).dropWhile isEol = crlf (lines.dropWhile List.isEmpty) := by
    intro lines hl
    have hcr : isEol cr = true := by decide
    have hlf : isEol lf = true := by decide
    induction lines with
    | nil => rfl
    | cons l lines ih =>
      have hlines := ih fun l' hl' => hl l' (List.mem_cons_of_mem l hl')
      cases l with
      | nil =>
        rw [crlf_cons, List.nil_append]
        simpa [hcr, hlf] using hlines
      | cons b l =>
        have hb : isEol b = false := isEol_of_clean (hl _ List.mem_cons_self) List.mem_cons_self
        rw [crlf_cons, List.cons_append, List.dropWhile_cons, if_neg (by simp [hb]),
          ← List.cons_append, ← crlf_cons]
        simp
  have hcr : isEol cr = true := by decide
  have hlf : isEol lf = true := by decide
  rw [nextLine, hline]
  simpa [hcr, hlf] using hskip lines hl

/-- **The line loop** finds the entries of the lines. -/
theorem parseLines_crlf (tail : Bytes) {lines : List Bytes} (hl : ∀ l ∈ lines, Clean l) {fuel : ℕ}
    (hfuel : (crlf lines).length ≤ fuel) (ent : Dirent) :
    (parseLines tail fuel (crlf lines) ent).map Dirent.key =
      (lines.filterMap parseLine).map Dirent.key := by
  induction fuel using Nat.strong_induction_on generalizing lines ent with
  | _ fuel ih =>
    cases lines with
    | nil => simp [crlf]
    | cons l lines =>
      have hclean := hl l List.mem_cons_self
      have hrest : ∀ l' ∈ lines, Clean l' := fun l' hl' => hl l' (List.mem_cons_of_mem l hl')
      obtain ⟨fuel, rfl⟩ : ∃ n, fuel = n + 1 := ⟨fuel - 1, by simp [crlf] at hfuel; omega⟩
      have hne : crlf (l :: lines) ≠ [] := by simp [crlf]
      have hmem : ∀ l' ∈ lines.dropWhile List.isEmpty, Clean l' := fun l' hl' =>
        hrest l' ((List.dropWhile_suffix _).subset hl')
      have hlt := length_nextLine_lt hne
      rw [nextLine_crlf hrest hclean] at hlt
      have hnext : ∀ e, (parseLines tail fuel (nextLine (crlf (l :: lines))) e).map Dirent.key =
          (lines.filterMap parseLine).map Dirent.key := by
        intro e
        rw [nextLine_crlf hrest hclean, ih fuel (by omega) hmem (by omega) e]
        -- the empty lines that are skipped have no entries
        refine congrArg _ ?_
        clear hfuel hlt hmem hne hl hrest
        induction lines with
        | nil => rfl
        | cons l' lines ih =>
          cases l' with
          | nil => simpa [parseLine_nil] using ih
          | cons b l' => rfl
      have hline := parseDirent_crlf hclean ent (crlf lines ++ tail)
      have hbuf : crlf (l :: lines) ++ tail = l ++ cr :: lf :: (crlf lines ++ tail) := by
        simp [crlf_cons]
      rw [parseLines, if_neg hne]
      dsimp only
      rw [hbuf]
      split
      · next hrej =>
        rw [if_pos hrej] at hline
        have hnone : parseLine l = none := by simpa using hline.symm
        rw [hnext, List.filterMap_cons_none hnone]
      · next hacc =>
        rw [if_neg hacc] at hline
        obtain ⟨d, hd, hkey⟩ := Option.map_eq_some_iff.mp hline.symm
        rw [List.map_cons, hnext, List.filterMap_cons_some hd, List.map_cons, hkey]

/-- The entries of a listing are those of its lines. -/
theorem perm_listing_crlf (tail : Bytes) (junk : Int) {lines : List Bytes}
    (hl : ∀ l ∈ lines, Clean l) : ((listing tail junk (crlf lines)).map Dirent.key).Perm
      ((lines.filterMap parseLine).map Dirent.key) := by
  have hkeys : (parseListing tail junk (crlf lines)).map Dirent.key =
      (lines.filterMap parseLine).map Dirent.key := parseLines_crlf tail hl le_rfl _
  rw [← hkeys]
  exact (List.perm_insertionSort _ _).map _

end Visftp
