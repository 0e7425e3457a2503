import Mathlib.Data.List.Basic
import Mathlib.Data.List.GetD
import Visftp.Handlers

/-!
# The names of a listing

What `parse_dirent` can make of a line. It takes the line to end at the first carriage return that
is still to come, and looks for a line feed only when there is none, but it skips fields up to a
line feed. So a name never holds a carriage return, and it holds a line feed when the line ends in
one and a carriage return comes later (`Misread`).

A name with a line feed puts a second command on the control connection when it is sent.

## Main results

* `cr_notMem_name`, `lf_mem_name_iff` — one line
* `clean_names_iff` — a whole listing, and the commands that are sent with its names
-/

namespace Visftp

open CString

/-! ### Reading over the fields -/

/-- Where the name of a line starts, behind eight fields. -/
def nameStart (line : Bytes) : Bytes :=
  skipField (skipField (skipField (skipField
    (skipField (skipField (skipField (skipField line)))))))

/-- `q` is what is left of `p` behind some bytes that hold neither a line feed nor a NUL. -/
def Skips (p q : Bytes) : Prop := ∃ pre, p = pre ++ q ∧ lf ∉ pre ∧ nul ∉ pre

theorem Skips.trans {p q r : Bytes} (h : Skips p q) (h' : Skips q r) : Skips p r := by
  obtain ⟨pre, rfl, hlf, hnul⟩ := h
  obtain ⟨pre', rfl, hlf', hnul'⟩ := h'
  exact ⟨pre ++ pre', by simp, by simp [hlf, hlf'], by simp [hnul, hnul']⟩

theorem skips_dropWhile (p : Bytes) (test : Byte → Bool) :
    Skips p (p.dropWhile fun b => b != nul && b != lf && test b) := by
  refine ⟨_, (List.takeWhile_append_dropWhile).symm, fun h => ?_, fun h => ?_⟩
  · simpa using List.mem_takeWhile_imp h
  · simpa using List.mem_takeWhile_imp h

theorem skips_skipField (p : Bytes) : Skips p (skipField p) :=
  (skips_dropWhile p fun b => !isspace b).trans (skips_dropWhile _ isspace)

theorem skips_nameStart (line : Bytes) : Skips line (nameStart line) := by
  rw [nameStart]
  iterate 7 refine Skips.trans ?_ (skips_skipField _)
  exact skips_skipField line

/-! ### Where a line ends -/

theorem cstr_append {p q : Bytes} (h : nul ∉ p) : cstr (p ++ q) = p ++ cstr q := by
  rw [cstr, cstr, List.takeWhile_append_of_pos fun b hb => by simpa using ne_of_mem_of_not_mem hb h]

theorem findChar_eq_some_iff {m : Bytes} {b : Byte} {i : ℕ} :
    findChar m b = some i ↔ b ∈ cstr m ∧ m.idxOf b = i := by
  rw [findChar]
  by_cases hb : b ∈ cstr m
  · have hprefix : cstr m <+: m := List.takeWhile_prefix _
    rw [if_pos hb, Option.some.injEq, hprefix.idxOf_eq_of_mem hb]
    exact ⟨fun h => ⟨hb, h⟩, And.right⟩
  · simp [hb]

theorem findChar_append_of_notMem {p q : Bytes} {b : Byte} (hb : b ∉ p) (hn : nul ∉ p) :
    findChar (p ++ q) b = (findChar q b).map (p.length + ·) := by
  unfold findChar
  rw [cstr_append hn]
  by_cases hq : b ∈ cstr q
  · simp [hb, hq, List.idxOf_append_of_notMem hb]
  · simp [hb, hq]

/-- Where the name starts in the line. -/
def nameOffset (line : Bytes) : ℕ := line.length - (nameStart line).length

theorem nameStart_spec (line : Bytes) :
    ∃ pre, line = pre ++ nameStart line ∧ nameOffset line = pre.length ∧ lf ∉ pre ∧ nul ∉ pre := by
  obtain ⟨pre, hline, hlf, hnul⟩ := skips_nameStart line
  refine ⟨pre, hline, ?_, hlf, hnul⟩
  have := congrArg List.length hline
  rw [List.length_append] at this
  rw [nameOffset]
  omega

/-- The first line feed of a line is in the name or behind it. -/
theorem findChar_lf (line : Bytes) :
    findChar line lf = (findChar (nameStart line) lf).map (nameOffset line + ·) := by
  obtain ⟨pre, hline, hoff, hlf, hnul⟩ := nameStart_spec line
  rw [hoff]
  conv_lhs => rw [hline]
  exact findChar_append_of_notMem hlf hnul

/-- So is the first carriage return, if it is behind the start of the name. -/
theorem findChar_cr {line : Bytes} {r : ℕ} (h : findChar line cr = some r)
    (hr : nameOffset line < r) :
    findChar (nameStart line) cr = some (r - nameOffset line) := by
  obtain ⟨pre, hline, hoff, -, hnul⟩ := nameStart_spec line
  rw [hline] at h
  rw [hoff] at hr ⊢
  by_cases hcr : cr ∈ pre
  · obtain ⟨-, hidx⟩ := findChar_eq_some_iff.mp h
    rw [List.idxOf_append_of_mem hcr] at hidx
    have := List.idxOf_lt_length_of_mem hcr
    omega
  · rw [findChar_append_of_notMem hcr hnul] at h
    obtain ⟨r', hr', rfl⟩ := Option.map_eq_some_iff.mp h
    rw [hr', Nat.add_sub_cancel_left]

/-! ### Where a name ends -/

theorem findArrow_lt {p : Bytes} {n i : ℕ} (h : findArrow p n = some i) : i < n := by
  induction n generalizing p i with
  | zero => simp [findArrow] at h
  | succ n ih =>
    rw [findArrow] at h
    split at h
    · obtain rfl : 0 = i := by simpa using h
      exact Nat.succ_pos n
    · obtain ⟨j, hj, rfl⟩ := Option.map_eq_some_iff.mp h
      exact Nat.succ_lt_succ (ih hj)

theorem trimBlank_le (name : Bytes) (i : ℕ) : trimBlank name i ≤ i := by
  induction i with
  | zero => exact le_rfl
  | succ i ih =>
    rw [trimBlank]
    split
    · exact ih.trans (Nat.le_succ i)
    · exact le_rfl

theorem nameLength_le (name : Bytes) (n : ℕ) : nameLength name n ≤ n := by
  rw [nameLength]
  split
  · next i hi => exact (trimBlank_le name i).trans (findArrow_lt hi).le
  · exact le_rfl

/-- A position is kept when the blanks are cut off if it is the first one, or a character that is
not blank follows. -/
theorem lt_trimBlank_iff {name : Bytes} {i n : ℕ} :
    n < trimBlank name i ↔
      n < i ∧ (n = 0 ∨ ∃ j, n ≤ j ∧ j < i ∧ isspace (byteAt name j) = false) := by
  induction i with
  | zero => simp [trimBlank]
  | succ i ih =>
    rw [trimBlank]
    split
    · next hblank =>
      rw [ih]
      constructor
      · rintro ⟨hn, h⟩
        refine ⟨hn.trans (Nat.lt_succ_self i), h.imp_right ?_⟩
        rintro ⟨j, hj, hji, hsp⟩
        exact ⟨j, hj, hji.trans (Nat.lt_succ_self i), hsp⟩
      · rintro ⟨hn, h⟩
        have hfollow : (∃ j, n ≤ j ∧ j < i + 1 ∧ isspace (byteAt name j) = false) →
            ∃ j, n ≤ j ∧ j < i ∧ isspace (byteAt name j) = false := by
          rintro ⟨j, hj, hji, hsp⟩
          have hne : j ≠ i := fun heq => by simp [← heq, hsp] at hblank
          exact ⟨j, hj, by omega, hsp⟩
        rcases h with rfl | h
        · exact ⟨hblank.1, .inl rfl⟩
        · obtain ⟨j, hj, hji, hsp⟩ := hfollow h
          exact ⟨by omega, .inr ⟨j, hj, hji, hsp⟩⟩
    · next hstop =>
      constructor
      · intro hn
        by_cases hi : i = 0
        · exact ⟨hn, .inl (by omega)⟩
        · have hsp : isspace (byteAt name i) = false := by
            by_contra hsp
            exact hstop ⟨Nat.pos_of_ne_zero hi, by simpa using hsp⟩
          exact ⟨hn, .inr ⟨i, Nat.lt_succ_iff.mp hn, Nat.lt_succ_self i, hsp⟩⟩
      · exact And.left

/-! ### One line -/

/-- **A line that is misread**: it has a line feed before the carriage return at which it is cut,
and no arrow hides the line feed. An arrow hides it when only blanks stand between the two, and the
line feed is not the first character of the name. -/
def Misread (line : Bytes) : Prop :=
  ∃ f r, findChar line lf = some f ∧ findChar line cr = some r ∧ f < r ∧
    ∀ i, findArrow (nameStart line) (r - nameOffset line) = some i →
      f = nameOffset line ∨ ∃ j, f - nameOffset line < j ∧ j < i ∧
        isspace (byteAt (nameStart line) j) = false

/-- What the line at `line` is cut at. -/
def lineEnd (line : Bytes) : Option ℕ := (findChar line cr).or (findChar line lf)

/-- The length of the name in a line that ends at `endp`. -/
def nameLen (line : Bytes) (endp : ℕ) : ℕ := nameLength (nameStart line) (endp - nameOffset line)

theorem parseDirent_of_lineEnd (ent : Dirent) {line : Bytes} {endp : ℕ}
    (h : lineEnd line = some endp) :
    ((parseDirent ent line).1 = 0 ↔ nameOffset line < endp ∧ nameLen line endp ≠ 0) ∧
      ((parseDirent ent line).1 = 0 →
        (parseDirent ent line).2.name = (nameStart line).take (nameLen line endp)) := by
  rw [lineEnd] at h
  rw [parseDirent]
  rw [h]
  dsimp only
  have hoff : nameOffset line = line.length - (skipField (skipField (skipField (skipField
      (skipField (skipField (skipField (skipField line)))))))).length := rfl
  rw [← hoff]
  by_cases hend : endp ≤ nameOffset line
  · simp [hend]
  · by_cases hlen : nameLen line endp = 0
    · have hlen' := hlen
      rw [nameLen, nameStart] at hlen'
      simp [hend, hlen, hlen']
    · have hlen' := hlen
      rw [nameLen, nameStart] at hlen'
      simp [hend, hlen', nameLen, nameStart, lt_of_not_ge hend]

/-- A prefix that is no longer than the string lies within it. -/
theorem mem_cstr_of_mem_take {p : Bytes} {k : ℕ} {b : Byte} (hk : k ≤ (cstr p).length)
    (h : b ∈ p.take k) : b ∈ cstr p := by
  have hprefix : p.take k <+: cstr p :=
    List.prefix_of_prefix_length_le (List.take_prefix k p) (List.takeWhile_prefix _)
      ((List.length_take_le k p).trans hk)
  exact hprefix.subset h

theorem findChar_lt {p : Bytes} {b : Byte} {i : ℕ} (h : findChar p b = some i) :
    i < (cstr p).length := by
  obtain ⟨hb, rfl⟩ := findChar_eq_some_iff.mp h
  have hprefix : cstr p <+: p := List.takeWhile_prefix _
  rw [← hprefix.idxOf_eq_of_mem hb]
  exact List.idxOf_lt_length_of_mem hb

/-- What stands before the first `b` does not hold it. -/
theorem mem_take_iff_of_findChar {p : Bytes} {b : Byte} {i k : ℕ} (h : findChar p b = some i) :
    b ∈ p.take k ↔ i < k := by
  obtain ⟨hb, rfl⟩ := findChar_eq_some_iff.mp h
  exact List.mem_take_iff_idxOf_lt ((List.takeWhile_subset _) hb)

/-- Whichever character ends the line, it is behind the start of the name. -/
theorem exists_findChar_nameStart {line : Bytes} {endp : ℕ} (h : lineEnd line = some endp)
    (hoff : nameOffset line < endp) :
    ∃ b, findChar line b = some endp ∧ findChar (nameStart line) b = some (endp - nameOffset line) ∧
      (b = cr ∨ (b = lf ∧ findChar line cr = none)) := by
  rcases Option.or_eq_some_iff.mp h with hcr | ⟨hcr, hlf⟩
  · exact ⟨cr, hcr, findChar_cr hcr hoff, .inl rfl⟩
  · have hname := hlf
    rw [findChar_lf] at hname
    obtain ⟨i, hi, hend⟩ := Option.map_eq_some_iff.mp hname
    exact ⟨lf, hlf, hi.trans (congrArg some (by omega)), .inr ⟨rfl, hcr⟩⟩

/-- **A name never holds a carriage return.** -/
theorem cr_notMem_name {line : Bytes} {endp : ℕ} (h : lineEnd line = some endp)
    (hoff : nameOffset line < endp) : cr ∉ (nameStart line).take (nameLen line endp) := by
  have hlen : nameLen line endp ≤ endp - nameOffset line := nameLength_le _ _
  obtain ⟨b, -, hb, rfl | ⟨rfl, hcr⟩⟩ := exists_findChar_nameStart h hoff
  · rw [mem_take_iff_of_findChar hb]
    omega
  · intro hmem
    have hin := mem_cstr_of_mem_take (hlen.trans (findChar_lt hb).le) hmem
    obtain ⟨pre, hline, -, -, hnul⟩ := nameStart_spec line
    have hcr' : cr ∈ cstr line := by
      rw [hline, cstr_append hnul]
      exact List.mem_append_right pre hin
    simp [findChar, hcr'] at hcr

/-- A line feed at offset `f` of the name is kept unless an arrow hides it. -/
theorem lt_nameLength_iff {name : Bytes} {f n : ℕ} (hf : findChar name lf = some f) (hn : f < n) :
    f < nameLength name n ↔ ∀ i, findArrow name n = some i →
      f = 0 ∨ ∃ j, f < j ∧ j < i ∧ isspace (byteAt name j) = false := by
  have hchar : byteAt name f = lf := by
    obtain ⟨hmem, rfl⟩ := findChar_eq_some_iff.mp hf
    have hlt := List.idxOf_lt_length_of_mem ((List.takeWhile_subset _) hmem)
    rw [byteAt, List.getD_eq_getElem _ _ hlt, List.getElem_idxOf]
  rw [nameLength]
  cases ha : findArrow name n with
  | none => simpa using hn
  | some i =>
    simp only [Option.some.injEq, forall_eq']
    rw [lt_trimBlank_iff]
    constructor
    · rintro ⟨-, h⟩
      refine h.imp_right ?_
      rintro ⟨j, hj, hji, hsp⟩
      have hne : j ≠ f := by
        rintro rfl
        rw [hchar] at hsp
        exact absurd hsp (by decide)
      exact ⟨j, by omega, hji, hsp⟩
    · rintro (rfl | ⟨j, hj, hji, hsp⟩)
      · refine ⟨Nat.pos_of_ne_zero ?_, .inl rfl⟩
        -- an arrow does not start with a line feed
        rintro rfl
        obtain ⟨m, rfl⟩ : ∃ m, n = m + 1 := ⟨n - 1, by omega⟩
        rw [findArrow] at ha
        split at ha
        · next hdash => exact absurd (hchar.symm.trans hdash.1) (by decide)
        · obtain ⟨_, -, hcontra⟩ := Option.map_eq_some_iff.mp ha
          simp at hcontra
      · exact ⟨by omega, .inr ⟨j, hj.le, hji, hsp⟩⟩

/-- **A name holds a line feed exactly when its line is misread.** -/
theorem lf_mem_name_iff {line : Bytes} {endp : ℕ} (h : lineEnd line = some endp)
    (hoff : nameOffset line < endp) :
    lf ∈ (nameStart line).take (nameLen line endp) ↔ Misread line := by
  have hlen : nameLen line endp ≤ endp - nameOffset line := nameLength_le _ _
  obtain ⟨b, hb, hbname, hcase⟩ := exists_findChar_nameStart h hoff
  constructor
  · intro hmem
    have hin := mem_cstr_of_mem_take (hlen.trans (findChar_lt hbname).le) hmem
    obtain ⟨f, hf⟩ : ∃ f, findChar (nameStart line) lf = some f :=
      ⟨_, findChar_eq_some_iff.mpr ⟨hin, rfl⟩⟩
    have hlt := (mem_take_iff_of_findChar hf).mp hmem
    have hline : findChar line lf = some (nameOffset line + f) := by rw [findChar_lf, hf]; rfl
    rcases hcase with rfl | ⟨rfl, -⟩
    · refine ⟨_, endp, hline, hb, by omega, fun i hi => ?_⟩
      have := (lt_nameLength_iff hf (hlt.trans_le hlen)).mp hlt i hi
      rw [Nat.add_sub_cancel_left]
      exact this.imp_left fun hf0 => by omega
    · have hfirst : f = endp - nameOffset line := Option.some.inj (hf.symm.trans hbname)
      omega
  · rintro ⟨f, r, hf, hr, hfr, harrow⟩
    obtain rfl : r = endp := by
      rw [lineEnd, hr] at h
      exact Option.some.inj h
    rw [findChar_lf] at hf
    obtain ⟨f', hf', rfl⟩ := Option.map_eq_some_iff.mp hf
    rw [mem_take_iff_of_findChar hf', nameLen, lt_nameLength_iff hf' (by omega)]
    intro i hi
    have := harrow i hi
    rw [Nat.add_sub_cancel_left] at this
    exact this.imp_left fun hf0 => by omega

/-- A line that is misread is accepted. -/
theorem Misread.accepted {line : Bytes} (h : Misread line) (ent : Dirent) :
    (parseDirent ent line).1 = 0 := by
  obtain ⟨f, r, hf, hr, hfr, -⟩ := id h
  have hend : lineEnd line = some r := by rw [lineEnd, hr]; rfl
  have hoff : nameOffset line < r := by
    rw [findChar_lf] at hf
    obtain ⟨f', -, rfl⟩ := Option.map_eq_some_iff.mp hf
    omega
  refine (parseDirent_of_lineEnd _ hend).1.mpr ⟨hoff, fun hlen => ?_⟩
  have hmem := (lf_mem_name_iff hend hoff).mpr h
  rw [hlen, List.take_zero] at hmem
  simp at hmem

/-- The name of an entry that `parse_dirent` makes of a line. -/
theorem name_of_parseDirent {e ent : Dirent} {line : Bytes} (h : parseDirent e line = (0, ent)) :
    cr ∉ ent.name ∧ (lf ∈ ent.name ↔ Misread line) := by
  have hacc : (parseDirent e line).1 = 0 := by rw [h]
  have hent : (parseDirent e line).2 = ent := by rw [h]
  cases hend : lineEnd line with
  | none =>
    rw [lineEnd] at hend
    simp [parseDirent, hend] at hacc
  | some endp =>
    obtain ⟨hiff, hname⟩ := parseDirent_of_lineEnd e hend
    have hoff := (hiff.mp hacc).1
    rw [← hent, hname hacc]
    exact ⟨cr_notMem_name hend hoff, lf_mem_name_iff hend hoff⟩

/-! ### A listing -/

/-- No name of the listing holds a line feed if no line is misread, and the other way round. -/
theorem lf_notMem_names_iff {tail : Bytes} (junk : Int) {p : Bytes} :
    (∀ d ∈ listing tail junk p, lf ∉ d.name) ↔
      ∀ q ∈ lineStarts p.length p, ¬Misread (q ++ tail) := by
  constructor
  · intro h q hq hmis
    obtain ⟨e', hmem⟩ := exists_mem_parseLines (e := ⟨[], .file, junk⟩) hq hmis.accepted
    have hparse : parseDirent e' (q ++ tail) = (0, (parseDirent e' (q ++ tail)).2) :=
      Prod.ext (hmis.accepted e') rfl
    exact h _ (mem_listing.mpr hmem) ((name_of_parseDirent hparse).2.mpr hmis)
  · intro h d hd hlf
    obtain ⟨e', q, hq, hparse⟩ := exists_parseDirent_of_mem_parseLines (mem_listing.mp hd)
    exact h q hq ((name_of_parseDirent hparse).2.mp hlf)

theorem cr_notMem_names {tail : Bytes} {junk : Int} {p : Bytes} {d : Dirent}
    (hd : d ∈ listing tail junk p) : cr ∉ d.name := by
  obtain ⟨e', q, -, hparse⟩ := exists_parseDirent_of_mem_parseLines (mem_listing.mp hd)
  exact (name_of_parseDirent hparse).1

/-- A name is a C string: `%s` prints all of it. -/
theorem nul_notMem_name {tail : Bytes} {junk : Int} {p : Bytes} {d : Dirent}
    (hd : d ∈ listing tail junk p) : nul ∉ d.name := by
  obtain ⟨e, q, -, hparse⟩ := exists_parseDirent_of_mem_parseLines (mem_listing.mp hd)
  have hacc : (parseDirent e (q ++ tail)).1 = 0 := by rw [hparse]
  have hent : (parseDirent e (q ++ tail)).2 = d := by rw [hparse]
  cases hend : lineEnd (q ++ tail) with
  | none =>
    rw [lineEnd] at hend
    simp [parseDirent, hend] at hacc
  | some endp =>
    obtain ⟨hiff, hname⟩ := parseDirent_of_lineEnd e hend
    obtain ⟨b, -, hb, -⟩ := exists_findChar_nameStart hend (hiff.mp hacc).1
    have hlen : nameLen (q ++ tail) endp ≤ (cstr (nameStart (q ++ tail))).length :=
      (nameLength_le _ _).trans (findChar_lt hb).le
    rw [← hent, hname hacc]
    exact fun hmem => nul_notMem_cstr _ (mem_cstr_of_mem_take hlen hmem)

/-- Exactly one line terminator is sent, the final CRLF. -/
def Cmd.OneLine (c : Cmd) : Prop := c.wire.count cr = 1 ∧ c.wire.count lf = 1

instance (c : Cmd) : Decidable c.OneLine := by unfold Cmd.OneLine; infer_instance

theorem Cmd.oneLine_of_notMem {c : Cmd} (hcr : cr ∉ c.text) (hlf : lf ∉ c.text) : c.OneLine := by
  have hcr' : cr ∉ c.line := fun h => hcr (List.mem_of_mem_take h)
  have hlf' : lf ∉ c.line := fun h => hlf (List.mem_of_mem_take h)
  rw [Cmd.OneLine, Cmd.wire, List.count_append, List.count_append, List.count_eq_zero.mpr hcr',
    List.count_eq_zero.mpr hlf']
  decide

variable {α : Type}

/-- **Names that can be sent.** For every listing that has been received, in whatever chunks and
with whatever memory behind it: its names hold no line terminator, and each command that is sent
with one of them holds exactly one, if and only if no line of the listing is misread. -/
theorem clean_names_iff (r : ℕ) (w : World α) :
    (∀ d ∈ (dprocList r [] w).ftp.dirent, cr ∉ d.name ∧ lf ∉ d.name ∧
      (Cmd.cwd d.name).OneLine ∧ ∀ t, (Cmd.retr t d.name).OneLine) ↔
      ∀ q ∈ lineStarts (w.rbufs r).buf.length (w.rbufs r).buf, ¬Misread (q ++ w.env.heapTail) := by
  have hdirent : (dprocList r [] w).ftp.dirent =
      listing w.env.heapTail w.env.junk (w.rbufs r).buf := rfl
  rw [hdirent, ← lf_notMem_names_iff w.env.junk]
  refine forall₂_congr fun d hd => ⟨fun h => h.2.1, fun hlf => ?_⟩
  have hcr := cr_notMem_names hd
  refine ⟨hcr, hlf, Cmd.oneLine_of_notMem ?_ ?_, fun t => Cmd.oneLine_of_notMem ?_ ?_⟩
  all_goals
    rw [Cmd.text, List.mem_append, not_or]
    exact ⟨by decide, by assumption⟩

/-- A line that ends in a line feed only, before one that ends in CRLF. -/
def mixedListing : Bytes := ascii "-rw-r--r-- 1 u g 1 Jan 1 00:00 f\nDELE x\r\n"

/-- The two lines give one name, and asking for it sends two commands. -/
theorem not_clean_of_mixed : ∃ d ∈ listing [] 0 mixedListing, d.name = ascii "f\nDELE x" ∧
    (Cmd.retr 0 d.name).wire = ascii "retr f\nDELE x\r\n" ∧ ¬(Cmd.retr 0 d.name).OneLine := by
  decide

end Visftp
