import Mathlib.Data.List.Infix
import Visftp.Listing
import Visftp.ScanNumbers

/-!
# Lines of a Unix listing

What `ls -l` prints, and what `parse_dirent` makes of it. The name is behind eight fields, which the
parser skips one after the other. It cuts the name at an arrow whether the line is that of a link
or not, and it reads the size with `atoi`, into an `int`.

## Main definitions

* `UnixLine` — a line of `ls -l`
* `UnixLine.Parsed` — it is read as it was meant

## Main results

* `skipPlaces_spread` — fields are skipped one by one
* `atoi_sizeText` — the size as `atoi` reads it
* `parsed_iff` — the lines that are read as they were meant
-/

namespace Visftp

open CString

/-- `%ld` of a number. -/
def sizeText (z : Int) : Bytes := if z < 0 then 45 :: decimal z.natAbs else decimal z.natAbs

/-- A field: some characters, none of them blank. -/
def IsField (f : Bytes) : Prop := f ≠ [] ∧ ∀ b ∈ f, isspace b = false

theorem isField_of_all {f : Bytes} (hne : f ≠ []) (h : f.all (!isspace ·) = true) : IsField f :=
  ⟨hne, fun b hb => by simpa using List.all_eq_true.mp h b hb⟩

/-- **A line of `ls -l`**, without its CR LF. -/
structure UnixLine where
  /-- The type character. -/
  kind : Byte
  /-- The other mode characters. -/
  mode : Bytes
  links : Bytes
  owner : Bytes
  group : Bytes
  size : Int
  month : Bytes
  day : Bytes
  year : Bytes
  name : Bytes
  /-- What a link points to. -/
  target : Bytes
  /-- Behind each field there is one space, and so many more. -/
  gaps : Fin 8 → ℕ
  kind_mem : kind ∈ ascii "-dl"
  mode_solid : ∀ b ∈ mode, isspace b = false
  links_field : IsField links
  owner_field : IsField owner
  group_field : IsField group
  size_range : -2 ^ 63 ≤ size ∧ size < 2 ^ 63
  month_field : IsField month
  day_field : IsField day
  year_field : IsField year
  name_ne : name ≠ []
  name_clean : cr ∉ name ∧ lf ∉ name ∧ nul ∉ name
  name_head : isspace (byteAt name 0) = false
  target_line : cr ∉ target ∧ lf ∉ target
  /-- The name of a link can be told from what it points to. -/
  link_name : kind = 108 → ¬ascii "->" <:+: name ∧ ∀ b ∈ name.getLast?, isspace b = false

/-- Fields with spaces behind them, and what follows. -/
def spread : List (Bytes × ℕ) → Bytes → Bytes
  | [], tail => tail
  | f :: fs, tail => f.1 ++ (List.replicate (f.2 + 1) 32 ++ spread fs tail)

namespace UnixLine

/-- The fields before the name. -/
def columns (u : UnixLine) : List (Bytes × ℕ) :=
  [(u.kind :: u.mode, u.gaps 0), (u.links, u.gaps 1), (u.owner, u.gaps 2), (u.group, u.gaps 3),
    (sizeText u.size, u.gaps 4), (u.month, u.gaps 5), (u.day, u.gaps 6), (u.year, u.gaps 7)]

/-- The name, and behind the name of a link what it points to. -/
def tail (u : UnixLine) : Bytes :=
  if u.kind = 108 then u.name ++ ascii " -> " ++ u.target else u.name

/-- The bytes of the line. -/
def text (u : UnixLine) : Bytes := spread u.columns u.tail

/-- **The line is read as it was meant**: with its name, its type and the size of what is not a
directory. `rest` is what follows in the buffer, `ent` the entry that is written. -/
structure Parsed (u : UnixLine) (ent : Dirent) (rest : Bytes) : Prop where
  accepted : (parseDirent ent (u.text ++ cr :: lf :: rest)).1 = 0
  name : (parseDirent ent (u.text ++ cr :: lf :: rest)).2.name = u.name
  type : (parseDirent ent (u.text ++ cr :: lf :: rest)).2.type = .dir ↔ u.kind = 100
  size : u.kind ≠ 100 → (parseDirent ent (u.text ++ cr :: lf :: rest)).2.size = u.size

end UnixLine

/-! ### The size -/

theorem sign_mem_ite (p : Prop) [Decidable p] :
    (if p then [45] else [] : Bytes) ∈ ([[], [43], [45]] : List Bytes) := by
  split <;> simp

/-- A printed size as a number that is read. -/
def sizeNum (z : Int) : UNum where
  blanks := []
  sign := if z < 0 then [45] else []
  digits := decimal z.natAbs
  isspace_blanks := fun _ h => absurd h List.not_mem_nil
  sign_mem := sign_mem_ite _
  isdigit_digits := isdigit_of_mem_decimal _
  digits_ne := decimal_ne_nil _

theorem text_sizeNum (z : Int) : (sizeNum z).text = sizeText z := by
  rw [sizeText, UNum.text, sizeNum]
  split <;> rfl

theorem strtol_sizeText {z : Int} (hz : -2 ^ 63 ≤ z ∧ z < 2 ^ 63) {rest : Bytes}
    (hrest : isdigit (byteAt rest 0) = false) : strtol (sizeText z ++ rest) = z := by
  rw [strtol]
  rw [← text_sizeNum, scanNumber_text _ hrest]
  have hdigits : digitsValue (sizeNum z).digits = z.natAbs := digitsValue_decimal _
  dsimp only
  rw [hdigits]
  by_cases hneg : z < 0
  · have hsign : (sizeNum z).sign = [45] := if_pos hneg
    simp only [hsign, decide_true, if_true]
    omega
  · have hsign : (sizeNum z).sign = [] := if_neg hneg
    simp only [hsign, List.nil_eq, reduceCtorEq, decide_false, Bool.false_eq_true, if_false]
    omega

/-- **The size as `atoi` reads it**: an `int` holds it or it comes out as another one. -/
theorem atoi_sizeText {z : Int} (hz : -2 ^ 63 ≤ z ∧ z < 2 ^ 63) {rest : Bytes}
    (hrest : isdigit (byteAt rest 0) = false) :
    atoi (sizeText z ++ rest) = z ↔ -2 ^ 31 ≤ z ∧ z < 2 ^ 31 := by
  rw [atoi, strtol_sizeText hz hrest]
  constructor
  · intro h
    have hlo := Int.le_bmod (x := z) (m := 2 ^ 32) (by norm_num)
    have hhi := Int.bmod_lt (x := z) (m := 2 ^ 32) (by norm_num)
    rw [h] at hlo hhi
    omega
  · rintro ⟨hlo, hhi⟩
    exact Int.bmod_eq_of_le (by omega) (by omega)

/-! ### The fields -/

theorem isspace_32 : isspace 32 = true := by decide

/-- A field and the spaces behind it are skipped. -/
theorem skipIn_field {f r : Bytes} (hf : IsField f) (n : ℕ) (hr : isspace (byteAt r 0) = false) :
    skipIn (f ++ (List.replicate (n + 1) 32 ++ r)) = r := by
  have hspaces : ∀ b ∈ List.replicate (n + 1) (32 : Byte), isspace b = true := by
    intro b hb
    rw [List.eq_of_mem_replicate hb]
    exact isspace_32
  have hsolid : ∀ b ∈ f, (!isspace b) = true := fun b hb => by simp [hf.2 b hb]
  have hstop : (fun b => !isspace b) (byteAt (List.replicate (n + 1) 32 ++ r) 0) = false := by
    simp [List.replicate_succ, byteAt, isspace_32]
  rw [skipIn, (takeWhile_append_of_stop hsolid (.inr hstop)).2,
    (takeWhile_append_of_stop hspaces (.inr hr)).2]

theorem byteAt_spread {fs : List (Bytes × ℕ)} (hfs : ∀ f ∈ fs, IsField f.1) {tail : Bytes}
    (htail : isspace (byteAt tail 0) = false) : isspace (byteAt (spread fs tail) 0) = false := by
  cases fs with
  | nil => exact htail
  | cons f fs =>
    obtain ⟨hne, hsolid⟩ := hfs f List.mem_cons_self
    obtain ⟨b, g, hf⟩ := List.exists_cons_of_ne_nil hne
    simpa [spread, hf, byteAt] using hsolid b (by simp [hf])

/-- **Fields are skipped one by one.** -/
theorem skipPlaces_spread {fs : List (Bytes × ℕ)} (hfs : ∀ f ∈ fs, IsField f.1) {tail : Bytes}
    (hne : tail ≠ []) (htail : isspace (byteAt tail 0) = false) {k : ℕ} (hk : k ≤ fs.length) :
    skipPlaces k (some (spread fs tail)) = some (spread (fs.drop k) tail) := by
  induction k with
  | zero => rfl
  | succ k ih =>
    have hcons : fs.drop k = fs[k] :: fs.drop (k + 1) := List.drop_eq_getElem_cons hk
    have hrest : ∀ f ∈ fs.drop (k + 1), IsField f.1 := fun f hf => hfs f (List.mem_of_mem_drop hf)
    have hskip := skipIn_field (hfs _ (List.getElem_mem hk)) fs[k].2 (byteAt_spread hrest htail)
    have hspread : spread (fs.drop (k + 1)) tail ≠ [] := by
      cases hdrop : fs.drop (k + 1) with
      | nil => exact hne
      | cons f fs' =>
        have hf := (hfs f (List.mem_of_mem_drop (hdrop ▸ List.mem_cons_self))).1
        simp [spread, hf]
    rw [skipPlaces, ih (Nat.le_of_succ_le hk), hcons, spread, skipPlace, hskip, if_neg hspread]

/-! ### The arrow -/

theorem findArrow_succ (p : Bytes) (n : ℕ) : findArrow p (n + 1) =
    if byteAt p 0 = 45 ∧ byteAt p 1 = 62 then some 0 else (findArrow p.tail n).map (· + 1) := rfl

/-- No arrow starts in a name that holds none, so the search goes on behind it. -/
theorem findArrow_name {name s : Bytes} (h : ¬ascii "->" <:+: name) (hs : byteAt s 0 ≠ 62) (n : ℕ) :
    findArrow (name ++ s) (name.length + n) = (findArrow s n).map (name.length + ·) := by
  induction name with
  | nil => simp
  | cons b name ih =>
    have hname : ¬ascii "->" <:+: name := fun hin => h (hin.trans (List.suffix_cons b name).isInfix)
    have hno : ¬(byteAt (b :: name ++ s) 0 = 45 ∧ byteAt (b :: name ++ s) 1 = 62) := by
      rintro ⟨hb, hc⟩
      cases name with
      | nil => exact hs hc
      | cons c name =>
        obtain rfl : b = 45 := hb
        obtain rfl : c = 62 := hc
        exact h (List.prefix_append [45, 62] name).isInfix
    rw [List.length_cons, Nat.add_right_comm, findArrow_succ, if_neg hno, List.cons_append,
      List.tail_cons, ih hname, Option.map_map]
    congr 1
    funext i
    simp only [Function.comp_apply]
    omega

/-- An arrow is found. -/
theorem exists_findArrow {p : Bytes} {n i : ℕ} (hi : i < n)
    (h : byteAt p i = 45 ∧ byteAt p (i + 1) = 62) : ∃ j, findArrow p n = some j := by
  induction n generalizing p i with
  | zero => exact absurd hi (Nat.not_lt_zero i)
  | succ n ih =>
    rw [findArrow_succ]
    by_cases hhead : byteAt p 0 = 45 ∧ byteAt p 1 = 62
    · exact ⟨0, if_pos hhead⟩
    · rw [if_neg hhead]
      cases i with
      | zero => exact absurd h hhead
      | succ i =>
        have htail : ∀ k, byteAt p.tail k = byteAt p (k + 1) := by
          intro k
          cases p <;> rfl
        obtain ⟨j, hj⟩ := ih (p := p.tail) (Nat.lt_of_succ_lt_succ hi) (by rwa [htail, htail])
        exact ⟨j + 1, by rw [hj]; rfl⟩

/-- The whole name is taken when it holds no arrow, and less of it when it does. -/
theorem nameLength_eq_iff (name : Bytes) :
    nameLength (name ++ [cr]) name.length = name.length ↔ ¬ascii "->" <:+: name := by
  rw [nameLength]
  constructor
  · rintro h ⟨pre, post, rfl⟩
    have hlt : pre.length < (pre ++ ascii "->" ++ post).length := by
      simp [ascii]
    obtain ⟨j, hj⟩ := exists_findArrow (p := pre ++ ascii "->" ++ post ++ [cr]) hlt <| by
      have harrow : ascii "->" = [45, 62] := by decide
      rw [harrow, List.append_assoc, List.append_assoc]
      refine ⟨?_, ?_⟩
      · simp [byteAt]
      · simp [byteAt]
    rw [hj] at h
    have hle := trimBlank_le (pre ++ ascii "->" ++ post ++ [cr]) j
    have hj' := findArrow_lt hj
    dsimp only at h
    omega
  · intro h
    have hcr : byteAt [cr] 0 ≠ 62 := by decide
    have hnone := findArrow_name h hcr 0
    rw [Nat.add_zero] at hnone
    rw [hnone]
    rfl

/-- The name of a link ends before the blank in front of the arrow. -/
theorem nameLength_link {name target : Bytes} (hne : name ≠ []) (h : ¬ascii "->" <:+: name)
    (hlast : ∀ b ∈ name.getLast?, isspace b = false) :
    nameLength (name ++ ascii " -> " ++ target ++ [cr]) (name ++ ascii " -> " ++ target).length =
      name.length := by
  have htext : ascii " -> " = [32, 45, 62, 32] := by decide
  have hblank : byteAt ([32, 45, 62, 32] ++ target ++ [cr]) 0 ≠ 62 := by
    change (32 : Byte) ≠ 62
    decide
  have hfound : findArrow ([32, 45, 62, 32] ++ target ++ [cr]) (4 + target.length) = some 1 := by
    have hsucc : 4 + target.length = target.length + 2 + 1 + 1 := by omega
    rw [hsucc, findArrow_succ, findArrow_succ]
    simp [byteAt]
  have hlen : (name ++ [32, 45, 62, 32] ++ target).length = name.length + (4 + target.length) := by
    simp only [List.length_append, List.length_cons, List.length_nil]
    omega
  obtain ⟨k, hk⟩ := Nat.exists_eq_succ_of_ne_zero (List.length_pos_of_ne_nil hne).ne'
  have hbyte : byteAt (name ++ ([32, 45, 62, 32] ++ target ++ [cr])) (k + 1) = 32 := by
    rw [byteAt, ← Nat.succ_eq_add_one, ← hk, List.getD_append_right _ _ _ _ le_rfl]
    simp
  have hend : isspace (byteAt (name ++ ([32, 45, 62, 32] ++ target ++ [cr])) k) = false := by
    have hlt : k < name.length := by omega
    rw [byteAt, List.getD_append _ _ _ _ hlt, List.getD_eq_getElem _ _ hlt]
    refine hlast _ ?_
    rw [List.getLast?_eq_getElem?, hk]
    simp [hlt]
  rw [htext, hlen, nameLength, List.append_assoc, List.append_assoc,
    ← List.append_assoc [32, 45, 62, 32], findArrow_name h hblank, hfound]
  change trimBlank _ (name.length + 1) = _
  rw [hk, Nat.succ_eq_add_one, trimBlank, if_pos ⟨Nat.succ_pos k, by rw [hbyte]; exact isspace_32⟩,
    trimBlank, if_neg (by rw [hend]; simp)]

/-! ### The whole line -/

namespace UnixLine

variable (u : UnixLine)

/-- **The lines `parse_dirent` is made for**: without a NUL, with a size that fits an `int`, unless
it is a directory's, and without an arrow in the name, unless it is a link's. -/
structure Fits : Prop where
  nul : nul ∉ u.text
  size : u.kind ≠ 100 → -2 ^ 31 ≤ u.size ∧ u.size < 2 ^ 31
  name : u.kind ≠ 108 → ¬ascii "->" <:+: u.name

instance : Decidable u.Fits :=
  decidable_of_iff (nul ∉ u.text ∧ (u.kind ≠ 100 → -2 ^ 31 ≤ u.size ∧ u.size < 2 ^ 31) ∧
    (u.kind ≠ 108 → ¬ascii "->" <:+: u.name))
    ⟨fun h => ⟨h.1, h.2.1, h.2.2⟩, fun h => ⟨h.nul, h.size, h.name⟩⟩

theorem sizeText_field (z : Int) : IsField (sizeText z) := by
  rw [sizeText]
  have hdigits : ∀ b ∈ decimal z.natAbs, isspace b = false := fun b hb =>
    (not_sign_of_isdigit (isdigit_of_mem_decimal _ b hb)).1
  split
  · refine ⟨by simp, fun b hb => ?_⟩
    rcases List.mem_cons.mp hb with rfl | hb
    · decide
    · exact hdigits b hb
  · exact ⟨decimal_ne_nil _, hdigits⟩

theorem columns_field : ∀ f ∈ u.columns, IsField f.1 := by
  have hkind : isspace u.kind = false := by
    have hall : (ascii "-dl").all (!isspace ·) = true := by decide
    simpa using List.all_eq_true.mp hall _ u.kind_mem
  have hmode : IsField (u.kind :: u.mode) := ⟨by simp, fun b hb => by
    rcases List.mem_cons.mp hb with rfl | hb
    · exact hkind
    · exact u.mode_solid b hb⟩
  rw [columns]
  simp only [List.forall_mem_cons]
  exact ⟨hmode, u.links_field, u.owner_field, u.group_field, sizeText_field _, u.month_field,
    u.day_field, u.year_field, by simp⟩

theorem tail_ne : u.tail ≠ [] := by
  rw [tail]
  split <;> simp [u.name_ne]

theorem tail_head : isspace (byteAt u.tail 0) = false := by
  have hhead := u.name_head
  obtain ⟨b, n, hn⟩ := List.exists_cons_of_ne_nil u.name_ne
  rw [tail]
  split <;> simpa [hn, byteAt] using hhead

theorem mem_spread {b : Byte} {fs : List (Bytes × ℕ)} {tail : Bytes} (h : b ∈ spread fs tail) :
    (∃ f ∈ fs, b ∈ f.1) ∨ b = 32 ∨ b ∈ tail := by
  induction fs with
  | nil => exact .inr (.inr h)
  | cons f fs ih =>
    rcases List.mem_append.mp h with h | h
    · exact .inl ⟨f, List.mem_cons_self, h⟩
    rcases List.mem_append.mp h with h | h
    · exact .inr (.inl (List.eq_of_mem_replicate h))
    · exact (ih h).imp_left fun ⟨g, hg, hb⟩ => ⟨g, List.mem_cons_of_mem _ hg, hb⟩

/-- The line holds no line end of its own. -/
theorem eol_notMem_text : cr ∉ u.text ∧ lf ∉ u.text := by
  have hspace : ∀ b : Byte, isspace b = true → b ≠ 32 → b ∉ u.tail → b ∉ u.text := by
    intro b hb h32 htail hmem
    rcases mem_spread hmem with ⟨f, hf, hbf⟩ | h | h
    · rw [(u.columns_field f hf).2 b hbf] at hb
      exact absurd hb (by simp)
    · exact h32 h
    · exact htail h
  have hlink : cr ∉ ascii " -> " ∧ lf ∉ ascii " -> " := by decide
  have htail : cr ∉ u.tail ∧ lf ∉ u.tail := by
    rw [tail]
    split
    · simp [u.name_clean, u.target_line, hlink]
    · exact ⟨u.name_clean.1, u.name_clean.2.1⟩
  exact ⟨hspace cr (by decide) (by decide) htail.1, hspace lf (by decide) (by decide) htail.2⟩

/-- A NUL hides the end of the line. -/
theorem not_accepted_of_nul (h : CString.nul ∈ u.text) (ent : Dirent) (rest : Bytes) :
    (parseDirent ent (u.text ++ cr :: lf :: rest)).1 = -1 := by
  have hcstr : ∀ s : Bytes, cstr (u.text ++ s) ⊆ u.text := by
    intro s b hb
    obtain ⟨p, q, hpq⟩ := List.append_of_mem h
    have hshort : cstr (u.text ++ s) = cstr p := by
      rw [hpq, List.append_assoc, List.cons_append, cstr, cstr, List.takeWhile_append]
      split
      · next hlen =>
        rw [(List.takeWhile_prefix _).eq_of_length hlen]
        simp
      · rfl
    rw [hshort] at hb
    rw [hpq]
    exact List.mem_append_left _ (List.takeWhile_subset _ hb)
  obtain ⟨hcr, hlf⟩ := u.eol_notMem_text
  have hend : lineEnd (u.text ++ cr :: lf :: rest) = none := by
    rw [lineEnd, findChar, findChar, if_neg fun hmem => hcr (hcstr _ hmem),
      if_neg fun hmem => hlf (hcstr _ hmem)]
    rfl
  rw [lineEnd] at hend
  rw [parseDirent, hend]

/-- Behind the eight fields comes the name. -/
theorem skipPlaces_text : skipPlaces 8 (some u.text) = some u.tail :=
  skipPlaces_spread u.columns_field u.tail_ne u.tail_head le_rfl

/-- Behind four fields comes the size. -/
theorem skipPlaces_size : ∃ s, isdigit (byteAt s 0) = false ∧
    skipPlaces 4 (some u.text) = some (sizeText u.size ++ s) := by
  refine ⟨List.replicate (u.gaps 4 + 1) 32 ++ spread (u.columns.drop 5) u.tail, ?_,
    skipPlaces_spread u.columns_field u.tail_ne u.tail_head (k := 4) (by simp [columns])⟩
  simp [List.replicate_succ, byteAt]
  decide

/-- How much of the tail is taken for the name. -/
theorem nameLength_tail : nameLength (u.tail ++ [cr]) u.tail.length = u.name.length ↔
    (u.kind ≠ 108 → ¬ascii "->" <:+: u.name) := by
  rw [tail]
  by_cases hlink : u.kind = 108
  · obtain ⟨hname, hlast⟩ := u.link_name hlink
    rw [if_pos hlink]
    exact iff_of_true (nameLength_link u.name_ne hname hlast) fun h => absurd hlink h
  · rw [if_neg hlink, nameLength_eq_iff]
    exact ⟨fun h _ => h, fun h => h hlink⟩

theorem name_prefix_tail : u.name <+: u.tail := by
  rw [tail]
  split
  · exact (List.prefix_append _ _).trans (List.prefix_append _ _)
  · exact List.prefix_rfl

/-- The name is right exactly when its end is. -/
theorem take_tail_eq_iff {n : ℕ} (hn : n ≤ u.tail.length) :
    u.tail.take n = u.name ↔ n = u.name.length := by
  constructor
  · intro h
    rw [← h, List.length_take, min_eq_left hn]
  · rintro rfl
    exact (List.prefix_iff_eq_take.mp u.name_prefix_tail).symm

/-- A line without a NUL is one line of a buffer. -/
theorem clean_text (h : CString.nul ∉ u.text) : Clean u.text :=
  ⟨u.eol_notMem_text.1, u.eol_notMem_text.2, h⟩

/-- The size is read where it stands, and it is right when an `int` holds it. -/
theorem atoi_sizeStart_iff (h : CString.nul ∉ u.text) (rest : Bytes) :
    atoi (cstr (sizeStart (u.text ++ cr :: lf :: rest))) = u.size ↔
      -2 ^ 31 ≤ u.size ∧ u.size < 2 ^ 31 := by
  obtain ⟨s, hs, hsize⟩ := u.skipPlaces_size
  have hclean := u.clean_text h
  have hsclean : CString.nul ∉ sizeText u.size ++ s := (clean_skipPlaces hclean 4 _ hsize).2.2
  have hstop : isdigit (byteAt (s ++ cstr (cr :: lf :: rest)) 0) = false := by
    cases s with
    | nil => rfl
    | cons b s => exact hs
  rw [sizeStart_crlf hclean, hsize, place, cstr_append hsclean, List.append_assoc]
  exact atoi_sizeText u.size_range hstop

variable {u} in
/-- The lines that it is made for are read as they were meant. -/
theorem Fits.parsed (h : u.Fits) (ent : Dirent) (rest : Bytes) : u.Parsed ent rest := by
  have hclean := u.clean_text h.nul
  have hlen := u.nameLength_tail.mpr h.name
  have htake := u.take_tail_eq_iff (nameLength_le (u.tail ++ [cr]) u.tail.length)
  have hacc : (parseDirent ent (u.text ++ cr :: lf :: rest)).1 = 0 := by
    refine (accepts_iff hclean ent rest).mpr ⟨u.tail, u.skipPlaces_text, ?_⟩
    rw [hlen]
    exact (List.length_pos_of_ne_nil u.name_ne).ne'
  obtain ⟨htype, hread⟩ := fields_of_parseDirent ent hacc
  have hname := name_of_accepts hclean u.skipPlaces_text ent rest hacc
  rw [show byteAt (u.text ++ cr :: lf :: rest) 0 = u.kind from rfl] at htype
  refine ⟨hacc, hname.trans (htake.mpr hlen), ?_, fun hkind => ?_⟩
  · rw [htype]
    split <;> simp_all
  · rw [if_neg hkind] at htype
    rw [hread htype]
    exact (u.atoi_sizeStart_iff h.nul rest).mpr (h.size hkind)

end UnixLine

namespace UnixLine

/-- What is compared of an entry. -/
def key (u : UnixLine) : Bytes × FileType × Option Int :=
  (u.name, if u.kind = 100 then .dir else .file, if u.kind = 100 then none else some u.size)

theorem Fits.key_parseLine {u : UnixLine} (h : u.Fits) :
    (parseLine u.text).map Dirent.key = some u.key := by
  obtain ⟨hacc, hname, htype, hsize⟩ := h.parsed ⟨[], .file, 0⟩ []
  rw [parseLine, if_neg (by rw [hacc]; decide), Option.map_some, Dirent.key, key, hname]
  by_cases hkind : u.kind = 100
  · rw [htype.mpr hkind, if_pos hkind, if_pos hkind, if_neg (by decide)]
  · have hfile : (parseDirent ⟨[], .file, 0⟩ (u.text ++ [cr, lf])).2.type = .file := by
      cases hdir : (parseDirent ⟨[], .file, 0⟩ (u.text ++ [cr, lf])).2.type with
      | dir => exact absurd (htype.mp hdir) hkind
      | file => rfl
    rw [hfile, if_pos rfl, hsize hkind, if_neg hkind, if_neg hkind]

/-- **A whole listing** of such lines has the entries that were meant. -/
theorem perm_listing {us : List UnixLine} (h : ∀ u ∈ us, u.Fits) (rest : Bytes) (junk : Int) :
    ((listing rest junk (crlf (us.map text))).map Dirent.key).Perm (us.map key) := by
  have hclean : ∀ l ∈ us.map text, Clean l := by
    intro l hl
    obtain ⟨u, hu, rfl⟩ := List.mem_map.mp hl
    exact u.clean_text (h u hu).nul
  have hkeys : ((us.map text).filterMap parseLine).map Dirent.key = us.map key := by
    rw [List.map_filterMap, List.filterMap_map]
    rw [← List.filterMap_eq_map]
    exact List.filterMap_congr fun u hu => (h u hu).key_parseLine
  rw [← hkeys]
  exact perm_listing_crlf rest junk hclean

end UnixLine

/-- **Reading a Unix listing.** Whatever follows the line in the buffer and whatever the entry held
before, a line of `ls -l` is read as it was meant if and only if it holds no NUL, its size fits an
`int` or it is a directory's, and its name holds no arrow or it is a link's. -/
theorem parsed_iff (u : UnixLine) (ent : Dirent) (rest : Bytes) :
    u.Parsed ent rest ↔ u.Fits := by
  refine ⟨fun h => ?_, fun h => h.parsed ent rest⟩
  have hnul : nul ∉ u.text := by
    intro hnul
    have hacc := h.accepted
    rw [u.not_accepted_of_nul hnul ent rest] at hacc
    exact absurd hacc (by decide)
  have hname := name_of_accepts (u.clean_text hnul) u.skipPlaces_text ent rest h.accepted
  have htake := u.take_tail_eq_iff (nameLength_le (u.tail ++ [cr]) u.tail.length)
  obtain ⟨htype, hread⟩ := fields_of_parseDirent ent h.accepted
  rw [show byteAt (u.text ++ cr :: lf :: rest) 0 = u.kind from rfl] at htype
  refine ⟨hnul, fun hkind => (u.atoi_sizeStart_iff hnul rest).mp ?_, ?_⟩
  · rw [if_neg hkind] at htype
    rw [← hread htype]
    exact h.size hkind
  · rw [← u.nameLength_tail, ← htake, ← hname]
    exact h.name

/-- A file of 4 GiB. -/
def largeFile : UnixLine where
  kind := 45
  mode := ascii "rw-r--r--"
  links := ascii "1"
  owner := ascii "u"
  group := ascii "g"
  size := 4294967296
  month := ascii "Jan"
  day := ascii "1"
  year := ascii "2000"
  name := ascii "f"
  target := []
  gaps := fun _ => 0
  kind_mem := by decide
  mode_solid := (isField_of_all (by decide) (by decide)).2
  links_field := isField_of_all (by decide) (by decide)
  owner_field := isField_of_all (by decide) (by decide)
  group_field := isField_of_all (by decide) (by decide)
  size_range := by decide
  month_field := isField_of_all (by decide) (by decide)
  day_field := isField_of_all (by decide) (by decide)
  year_field := isField_of_all (by decide) (by decide)
  name_ne := by decide
  name_clean := by decide
  name_head := by decide
  target_line := by decide
  link_name := fun h => absurd h (by decide)

/-- Its size is read as `0`. -/
theorem not_parsed_large : ¬largeFile.Parsed ⟨[], .file, 0⟩ [] :=
  fun h => absurd (h.size (by decide)) (by decide)

end Visftp
