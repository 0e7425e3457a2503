import Visftp.TextAcceptance
import Visftp.TextLexing

/-!
# Writing a value and reading it back

What `print_value` writes of a value that was loaded, and what `read_value` makes of it. Three
things get lost. A vector is written by its `vec_size`, which nothing has set, so that its text is
`[]`, and the closing bracket is then read as a value. A number is written with six digits, and
with an exponent if it is large or small, which the lexer cuts into three tokens. And a value that
a stray symbol has left without a string is written as whatever `printf` makes of a null pointer.

Everything else comes back as it was, and in lock step: where the first text that does not come
back begins, what is read differs from what was written.

## Main definitions

* `TsValue.parts`, `TsValue.Plain` — the values in a value, and what can be written and read back
* `Reloads`, `LockStep` — a value comes back, and does not come back by accident

## Main results

* `CFloat.IsShort.reload`, `exists_tokens_printG` — numbers
* `ValueTree.exists_reload`, `ValueTree.lockStep` — values that were loaded
-/

namespace Visftp

open CString

/-! ### Numbers -/

/-- Neither an identifier nor a number goes on at the front of `s`. -/
def Stops (s : Bytes) : Prop := isIdChar (byteAt s 0) = false ∧ byteAt s 0 ≠ 46

theorem Stops.isdigit {s : Bytes} (h : Stops s) : isdigit (byteAt s 0) = false := by
  have := h.1
  simp only [isIdChar, Bool.or_eq_false_iff] at this
  exact this.1.2

theorem Numeral.tokens_text (m : Numeral) {s : Bytes} (hs : isdigit (byteAt s 0) = false)
    (hdot : byteAt s 0 ≠ 46) : tokens (m.text ++ s) = .num m.text :: tokens s :=
  tokens_append_num (decimal_ne_nil _) (isdigit_of_mem_decimal _) (isdigit_of_mem_fracDigits _ _)
    hs hdot

/-- A short number is one token, which is read as that number. -/
theorem CFloat.IsShort.reload {x : CFloat} (h : x.IsShort) {s : Bytes} (hs : Stops s) :
    tokens (printG x ++ s) = .num (printG x) :: tokens s ∧ (atof (printG x)).toFloat = x := by
  rcases h with ⟨neg, rfl⟩ | ⟨m, rfl⟩
  · have htext : printG (.finite neg 0) = signText neg ++ (ascii "0" ++ pointText []) := by
      simp [printG, pointText]
    have hdigit : ∀ d ∈ ascii "0", CString.isdigit d = true :=
      List.all_eq_true.mp (by decide)
    have hzero : CFloat.ofExact binary64 neg 0 = .finite neg 0 := by
      rw [CFloat.ofExact, NNRat.cast_zero, Rounding.Format.round_zero, if_pos (by positivity)]
      rfl
    have hzero' : CFloat.ofExact binary32 neg 0 = .finite neg 0 := by
      rw [CFloat.ofExact, NNRat.cast_zero, Rounding.Format.round_zero, if_pos (by positivity)]
      rfl
    rw [htext]
    refine ⟨tokens_append_num (by decide) hdigit (by simp) hs.isdigit hs.2, ?_⟩
    rw [atof_text (by decide) hdigit (by simp)]
    simp [digitsValue, ascii, hzero, CFloat.toFloat, hzero']
  · rw [m.printG_value]
    refine ⟨m.tokens_text hs.isdigit hs.2, ?_⟩
    rw [m.atof_text]
    rfl

/-- Any other number begins with a token that is read as something else. -/
theorem exists_tokens_printG {x : CFloat} (h : ¬ x.IsShort) {s : Bytes} (hs : Stops s) :
    ∃ tok ts, tokens (printG x ++ s) = tok :: ts ∧
      ∀ text, tok = .num text → (atof text).toFloat ≠ x := by
  cases x with
  | inf neg =>
    cases neg with
    | false =>
      have hident : IsIdent (ascii "inf") :=
        ⟨105, _, rfl, by decide, List.all_eq_true.mp (by decide)⟩
      exact ⟨_, _, tokens_append_id hident hs.1, by simp⟩
    | true =>
      have htext : printG (.inf true) ++ s = 45 :: 105 :: (ascii "nf" ++ s) := rfl
      have hnext : nextToken (45 :: 105 :: (ascii "nf" ++ s))
          = some (.num [45], 105 :: (ascii "nf" ++ s)) := by
        rw [nextToken, skipBlanks_of_solid (by decide) (by decide)]
        rfl
      refine ⟨.num [45], tokens (105 :: (ascii "nf" ++ s)), ?_, ?_⟩
      · rw [htext, tokens_eq, hnext]
      · rintro text ⟨⟩
        decide +kernel
  | finite neg mag =>
    have hmag : mag ≠ 0 := by
      rintro rfl
      exact h (.inl ⟨neg, rfl⟩)
    obtain ⟨m, rfl, hm⟩ := exists_numeral_of_printG neg hmag
    have hvalue : (atof m.text).toFloat ≠ .finite m.neg mag := by
      rw [m.atof_text]
      intro hm
      exact h (.inr ⟨m, hm.symm⟩)
    rcases hm with hm | ⟨e, hm⟩
    · refine ⟨.num m.text, tokens s, by rw [hm, m.tokens_text hs.isdigit hs.2], ?_⟩
      rintro text ⟨⟩
      exact hvalue
    · refine ⟨.num m.text, tokens (exponentText e ++ s), ?_, ?_⟩
      · rw [hm, List.append_assoc, m.tokens_text (by rfl) (by simp [exponentText, byteAt])]
      · rintro text ⟨⟩
        exact hvalue

/-! ### Values that can be written -/

mutual

/-- A value and all the values in it. -/
def TsValue.parts : TsValue → List TsValue
  | ⟨type, str, inum, fnum, vec, vecSize, array⟩ =>
    ⟨type, str, inum, fnum, vec, vecSize, array⟩ :: partsOf array

/-- The same for several values. -/
def partsOf : List TsValue → List TsValue
  | [] => []
  | v :: vs => v.parts ++ partsOf vs

end

/-- A value that can be written and read back, as far as it is not a matter of its elements: it is
no vector, a string is there, and a number is short. -/
def TsValue.Plain (w : TsValue) : Prop :=
  w.type ≠ .vector ∧ (w.type = .string → w.str ≠ none) ∧ (w.type = .number → w.fnum.IsShort)

theorem mem_partsOf {p : TsValue} {vs : List TsValue} :
    p ∈ partsOf vs ↔ ∃ v ∈ vs, p ∈ v.parts := by
  induction vs with
  | nil => simp [partsOf]
  | cons v vs ih => simp [partsOf, ih]

theorem TsValue.parts_eq (w : TsValue) : w.parts = w :: partsOf w.array := by
  cases w
  rw [parts]

/-- Everything in a value is plain when it is itself, and everything in its elements is. -/
theorem TsValue.forall_parts {w : TsValue} {P : TsValue → Prop} :
    (∀ p ∈ w.parts, P p) ↔ P w ∧ ∀ e ∈ w.array, ∀ p ∈ e.parts, P p := by
  rw [parts_eq, List.forall_mem_cons]
  simp only [mem_partsOf, forall_exists_index, and_imp]
  exact and_congr_right fun _ => ⟨fun h e he p hp => h p e he hp, fun h p e he hp => h e he p hp⟩

/-- A copy is plain when the value is. -/
theorem plain_copy (w : TsValue) :
    (∀ p ∈ (tsCopyValue w).parts, p.Plain) ↔ ∀ p ∈ w.parts, p.Plain := by
  induction w using TsValue.induct with
  | h w ih =>
    have hself : (tsCopyValue w).Plain ↔ w.Plain := by simp [TsValue.Plain]
    have helems : (∀ e ∈ (tsCopyValue w).array, ∀ p ∈ e.parts, p.Plain)
        ↔ ∀ e ∈ w.array, ∀ p ∈ e.parts, p.Plain := by
      rw [tsCopyValue_array, List.forall_mem_map]
      exact forall₂_congr ih
    rw [TsValue.forall_parts, TsValue.forall_parts, hself, helems]

theorem printElems_false (vs : List TsValue) :
    printElems false vs = (vs.map fun v => ascii ", " ++ printValue v).flatten := by
  induction vs with
  | nil => rfl
  | cons v vs ih => simp [printElems, ih]

theorem printElems_true_cons (v : TsValue) (vs : List TsValue) :
    printElems true (v :: vs) = printValue v ++ printElems false vs := by
  simp [printElems]

theorem printValue_number {w : TsValue} (h : w.type = .number) :
    printValue w = printG w.fnum := by
  obtain ⟨type, str, inum, fnum, vec, vecSize, array⟩ := w
  obtain rfl : type = .number := h
  rw [printValue]

theorem printValue_string {w : TsValue} (h : w.type = .string) :
    printValue w = ascii "\"" ++ w.str.getD (ascii "(null)") ++ ascii "\"" := by
  obtain ⟨type, str, inum, fnum, vec, vecSize, array⟩ := w
  obtain rfl : type = .string := h
  rw [printValue]

theorem printValue_vector {w : TsValue} (h : w.type = .vector) :
    printValue w = ascii "[" ++ printVec (w.vec.take w.vecSize) ++ ascii "]" := by
  obtain ⟨type, str, inum, fnum, vec, vecSize, array⟩ := w
  obtain rfl : type = .vector := h
  rw [printValue]

theorem printValue_array {w : TsValue} (h : w.type = .array) :
    printValue w = ascii "[" ++ printElems true w.array ++ ascii "]" := by
  obtain ⟨type, str, inum, fnum, vec, vecSize, array⟩ := w
  obtain rfl : type = .array := h
  rw [printValue]

/-- A copy is written like the value. -/
theorem printValue_copy (w : TsValue) : printValue (tsCopyValue w) = printValue w := by
  induction w using TsValue.induct with
  | h w ih =>
    cases htype : w.type with
    | number => rw [printValue_number (by simpa), printValue_number htype, tsCopyValue_fnum]
    | string => rw [printValue_string (by simpa), printValue_string htype, tsCopyValue_str]
    | vector =>
      rw [printValue_vector (by simpa), printValue_vector htype, tsCopyValue_eq]
      simp [List.take_take]
    | array =>
      rw [printValue_array (by simpa), printValue_array htype, tsCopyValue_array]
      cases harray : w.array with
      | nil => rfl
      | cons e es =>
        rw [harray] at ih
        have hes : ∀ x ∈ es, printValue (tsCopyValue x) = printValue x := fun x hx =>
          ih x (List.mem_cons_of_mem _ hx)
        rw [List.map_cons, printElems_true_cons, printElems_true_cons, printElems_false,
          printElems_false, List.map_map, ih e (List.mem_cons_self ..)]
        congr 4
        exact List.map_congr_left fun x hx => by simp [hes x hx]

/-! ### One value -/

/-- The text of a string that is stored: it has neither a quote nor a NUL in it. -/
def IsQuotable (t : Bytes) : Prop := (34 : Byte) ∉ t ∧ cstr t = t

theorem isQuotable_cstr {t : Bytes} (h : (34 : Byte) ∉ t) : IsQuotable (cstr t) :=
  ⟨fun hmem => h ((List.takeWhile_prefix _).subset hmem), cstr_eq_self (nul_notMem_cstr t)⟩

theorem IsIdent.quote_notMem {t : Bytes} (h : IsIdent t) : (34 : Byte) ∉ t := by
  obtain ⟨c, s, rfl, hc, hs⟩ := h
  intro hmem
  rcases List.mem_cons.mp hmem with rfl | hmem
  · simp [isalpha] at hc
  · have := hs 34 hmem
    simp [isIdChar, isalpha, isdigit] at this

theorem tokens_printValue_string {w : TsValue} {t : Bytes} (htype : w.type = .string)
    (ht : w.str.getD (ascii "(null)") = t) (hquote : (34 : Byte) ∉ t) (s : Bytes) :
    tokens (printValue w ++ s) = .str t :: tokens s := by
  rw [printValue_string htype, ht]
  have htext : ascii "\"" ++ t ++ ascii "\"" ++ s = 34 :: (t ++ 34 :: s) := by
    simp [ascii]
  rw [htext, tokens_str hquote]

theorem stops_of_head {c : Byte} {s : Bytes} (h : isIdChar c = false) (hdot : c ≠ 46) :
    Stops (c :: s) := ⟨h, hdot⟩

theorem stops_printElems (vs : List TsValue) {s : Bytes} (h : Stops s) :
    Stops (printElems false vs ++ s) := by
  cases vs with
  | nil => exact h
  | cons v vs => exact stops_of_head (c := 44) (by decide) (by decide)

theorem tokens_printElems_cons (v : TsValue) (vs : List TsValue) (s : Bytes) :
    tokens (printElems false (v :: vs) ++ s)
      = .sym 44 :: tokens (printValue v ++ (printElems false vs ++ s)) := by
  have htext : printElems false (v :: vs) ++ s
      = 44 :: 32 :: (printValue v ++ (printElems false vs ++ s)) := by
    simp [printElems, ascii]
  rw [htext, tokens_cons_sym (by decide), tokens_cons_blank (by decide)]

theorem tokens_printValue_array {w e : TsValue} {es : List TsValue} (htype : w.type = .array)
    (harray : w.array = e :: es) (s : Bytes) :
    tokens (printValue w ++ s)
      = .sym 91 :: tokens (printValue e ++ (printElems false es ++ 93 :: s)) := by
  have htext : printValue w ++ s
      = 91 :: (printValue e ++ (printElems false es ++ 93 :: s)) := by
    rw [printValue_array htype, harray, printElems_true_cons]
    simp [ascii]
  rw [htext, tokens_cons_sym (by decide)]

/-- What is written of a plain value, and read back. -/
def Reloads (w : TsValue) : Prop :=
  ∃ u : ValueTree, u.load = some w ∧
    ∀ s, Stops s → tokens (printValue w ++ s) = u.toks ++ tokens s

theorem exists_reload_elems {vs : List TsValue} (h : ∀ v ∈ vs, Reloads v) :
    ∃ us, loadMore us = some vs ∧
      ∀ s, Stops s → tokens (printElems false vs ++ s) = moreToks us ++ tokens s := by
  induction vs with
  | nil => exact ⟨[], rfl, fun s _ => rfl⟩
  | cons v vs ih =>
    obtain ⟨u, hu, htoks⟩ := h v (List.mem_cons_self ..)
    obtain ⟨us, hus, hmore⟩ := ih fun x hx => h x (List.mem_cons_of_mem _ hx)
    refine ⟨u :: us, by simp [loadMore, hu, hus], fun s hs => ?_⟩
    rw [tokens_printElems_cons, htoks _ (stops_printElems vs hs), hmore s hs, moreToks]
    simp

theorem mem_of_loadMore {more : List ValueTree} {ws : List TsValue} {w : TsValue}
    (h : loadMore more = some ws) (hw : w ∈ ws) : ∃ v ∈ more, v.load = some w := by
  induction more generalizing ws with
  | nil =>
    obtain rfl := Option.some.inj h
    simp at hw
  | cons v more ih =>
    simp only [loadMore, Option.bind_eq_some_iff, Option.map_eq_some_iff] at h
    obtain ⟨w', hw', ws', hws', rfl⟩ := h
    rcases List.mem_cons.mp hw with rfl | hw
    · exact ⟨v, List.mem_cons_self .., hw'⟩
    · obtain ⟨u, hu, hload⟩ := ih hws' hw
      exact ⟨u, List.mem_cons_of_mem _ hu, hload⟩

/-- What an array was made of: its elements are copies of values that were loaded. -/
theorem exists_of_load_array {brace : Bool} {first : ValueTree} {more : List ValueTree}
    {w : TsValue} (h : (ValueTree.array brace first more).load = some w) :
    ∃ x xs ys, first.load = some x ∧ loadMore more = some ys ∧ xs = ys.take 30 ∧
      tsSetValueArr tsInitValue (x :: xs) = some w ∧
      ∀ e ∈ x :: xs, ∃ v, (v = first ∨ v ∈ more) ∧ v.load = some e := by
  simp only [ValueTree.load, Option.bind_eq_some_iff, List.take_succ_cons] at h
  obtain ⟨x, hx, ys, hys, hset⟩ := h
  refine ⟨x, ys.take 30, ys, hx, hys, rfl, hset, fun e he => ?_⟩
  rcases List.mem_cons.mp he with rfl | he
  · exact ⟨first, .inl rfl, hx⟩
  · obtain ⟨v, hv, hload⟩ := mem_of_loadMore hys (List.mem_of_mem_take he)
    exact ⟨v, .inr hv, hload⟩

/-- The strings of a value come from tokens of the lexer. -/
def ValueTree.Wf (v : ValueTree) : Prop := ∀ tok ∈ v.toks, tok.Wf

theorem ValueTree.Wf.first {brace : Bool} {first : ValueTree} {more : List ValueTree}
    (h : (ValueTree.array brace first more).Wf) : first.Wf := fun tok htok =>
  h tok (by simp [toks, htok])

theorem mem_moreToks {tok : Token} {more : List ValueTree} {v : ValueTree} (hv : v ∈ more)
    (h : tok ∈ v.toks) : tok ∈ moreToks more := by
  induction more with
  | nil => simp at hv
  | cons u more ih =>
    rcases List.mem_cons.mp hv with rfl | hv
    · simp [moreToks, h]
    · simp [moreToks, ih hv]

theorem ValueTree.Wf.more {brace : Bool} {first v : ValueTree} {more : List ValueTree}
    (h : (ValueTree.array brace first more).Wf) (hv : v ∈ more) : v.Wf := fun tok htok =>
  h tok (by simp [toks, mem_moreToks hv htok])

/-- **Plain values come back.** -/
theorem ValueTree.exists_reload {v : ValueTree} {w : TsValue} (hwf : v.Wf)
    (h : v.load = some w) (hplain : ∀ p ∈ w.parts, p.Plain) : Reloads w ∧ tsCopyValue w = w := by
  induction v using ValueTree.induct generalizing w with
  | num text =>
    obtain rfl := Option.some.inj h
    have hshort : (atof text).toFloat.IsShort :=
      (TsValue.forall_parts.mp hplain).1.2.2 rfl
    refine ⟨⟨.num (printG (atof text).toFloat), ?_, fun s hs => ?_⟩, rfl⟩
    · rw [load, (hshort.reload (s := []) ⟨by decide, by decide⟩).2]
    · rw [printValue_number rfl]
      exact (hshort.reload hs).1
  | str text =>
    obtain rfl := Option.some.inj h
    have hquote := isQuotable_cstr (hwf _ (List.mem_cons_self ..))
    refine ⟨⟨.str (cstr text), ?_, fun s _ => ?_⟩, rfl⟩
    · rw [load, hquote.2]
    · exact tokens_printValue_string (t := cstr text) rfl rfl hquote.1 s
  | id text =>
    obtain rfl := Option.some.inj h
    have hident : IsIdent text := hwf _ (List.mem_cons_self ..)
    have hquote := isQuotable_cstr hident.quote_notMem
    refine ⟨⟨.str (cstr text), ?_, fun s _ => ?_⟩, rfl⟩
    · rw [load, hquote.2]
    · exact tokens_printValue_string (t := cstr text) rfl rfl hquote.1 s
  | stray c hc =>
    obtain rfl := Option.some.inj h
    exact absurd rfl ((TsValue.forall_parts.mp hplain).1.2.1 rfl)
  | array brace first more ihf ihm =>
    obtain ⟨x, xs, ys, -, -, rfl, hset, hmem⟩ := exists_of_load_array h
    obtain ⟨hlen, ⟨-, rfl⟩ | ⟨hnum, rfl⟩⟩ := tsSetValueArr_eq_some_iff.mp hset
    · exact absurd rfl (TsValue.forall_parts.mp hplain).1.1
    · have helems : ∀ e ∈ x :: ys.take 30, Reloads e ∧ tsCopyValue e = e := by
        intro e he
        have hpe : ∀ p ∈ e.parts, p.Plain := (plain_copy e).mp
          ((TsValue.forall_parts.mp hplain).2 _ (List.mem_map_of_mem he))
        obtain ⟨v, rfl | hv, hload⟩ := hmem e he
        · exact ihf hwf.first hload hpe
        · exact ihm v hv (hwf.more hv) hload hpe
      have hcopy : (x :: ys.take 30).map tsCopyValue = x :: ys.take 30 := by
        conv_rhs => rw [← List.map_id (x :: ys.take 30)]
        exact List.map_congr_left fun e he => (helems e he).2
      obtain ⟨u, hu, htoks⟩ := (helems x (List.mem_cons_self ..)).1
      obtain ⟨us, hus, hmore⟩ := exists_reload_elems
        fun e he => (helems e (List.mem_cons_of_mem x he)).1
      refine ⟨⟨.array false u us, ?_, fun s hs => ?_⟩, ?_⟩
      · have htake : (x :: ys.take 30).take 31 = x :: ys.take 30 :=
          List.take_of_length_le (by simp)
        simp only [load, hu, hus, Option.bind_some, htake]
        exact hset
      · rw [hcopy, tokens_printValue_array rfl rfl,
          htoks _ (stops_printElems _ (stops_of_head (by decide) (by decide))),
          hmore _ (stops_of_head (by decide) (by decide)), tokens_cons_sym (by decide), toks]
        simp [opener, closer]
      · rw [tsCopyValue_eq]
        simp only [hcopy]
        rfl

/-- What was read in the place of a value, up to copying, says that the value is plain and has been
read to its end. -/
def LockStep (w : TsValue) : Prop :=
  ∀ (s : Bytes) (u : ValueTree) (w' : TsValue) (rest : List Token), Stops s →
    tokens (printValue w ++ s) = u.toks ++ rest → u.load = some w' →
    tsCopyValue w' = tsCopyValue w → (∀ p ∈ w.parts, p.Plain) ∧ rest = tokens s

theorem LockStep.copy {w : TsValue} (h : LockStep w) : LockStep (tsCopyValue w) := by
  intro s u w' rest hs htoks hload hcopy
  rw [printValue_copy] at htoks
  rw [tsCopyValue_copy] at hcopy
  rw [plain_copy]
  exact h s u w' rest hs htoks hload hcopy

theorem lockStep_elems {vs : List TsValue} (h : ∀ v ∈ vs, LockStep v) {s : Bytes}
    {us : List ValueTree} {ys : List TsValue} {n : ℕ} {rest : List Token}
    (htoks : tokens (printElems false vs ++ 93 :: s) = moreToks us ++ .sym 93 :: rest)
    (hload : loadMore us = some ys)
    (hcopy : (ys.take n).map tsCopyValue = vs.map tsCopyValue) :
    (∀ v ∈ vs, ∀ p ∈ v.parts, p.Plain) ∧ rest = tokens s := by
  induction vs generalizing us ys n with
  | nil =>
    have htext : tokens (printElems false [] ++ 93 :: s) = .sym 93 :: tokens s :=
      tokens_cons_sym (by decide) s
    rw [htext] at htoks
    cases us with
    | nil => simpa [moreToks, eq_comm] using htoks
    | cons u us => simp [moreToks] at htoks
  | cons v vs ih =>
    rw [tokens_printElems_cons] at htoks
    cases us with
    | nil => simp [moreToks] at htoks
    | cons u us =>
      simp only [loadMore, Option.bind_eq_some_iff, Option.map_eq_some_iff] at hload
      obtain ⟨y, hy, ys, hys, rfl⟩ := hload
      cases n with
      | zero => simp at hcopy
      | succ n =>
        simp only [List.take_succ_cons, List.map_cons, List.cons.injEq] at hcopy
        simp only [moreToks, List.cons_append, List.append_assoc, List.cons.injEq, true_and]
          at htoks
        obtain ⟨hplain, hrest⟩ := h v (List.mem_cons_self ..) _ u y _
          (stops_printElems vs (stops_of_head (by decide) (by decide))) htoks hy hcopy.1
        obtain ⟨hplains, hrest⟩ := ih (fun x hx => h x (List.mem_cons_of_mem _ hx)) hrest.symm
          hys hcopy.2
        exact ⟨List.forall_mem_cons.mpr ⟨hplain, hplains⟩, hrest⟩

/-- A number was read from a number token. -/
theorem ValueTree.toks_of_num {u : ValueTree} {w : TsValue} (h : u.load = some w)
    (htype : w.type = .number) : ∃ text, u = .num text ∧ w.fnum = (atof text).toFloat := by
  cases u with
  | num text =>
    obtain rfl := Option.some.inj h
    exact ⟨text, rfl, rfl⟩
  | str text =>
    obtain rfl := Option.some.inj h
    cases htype
  | id text =>
    obtain rfl := Option.some.inj h
    cases htype
  | stray c hc =>
    obtain rfl := Option.some.inj h
    cases htype
  | array brace first more =>
    obtain ⟨_, _, _, -, -, -, hset, -⟩ := exists_of_load_array h
    obtain ⟨-, ⟨-, rfl⟩ | ⟨-, rfl⟩⟩ := tsSetValueArr_eq_some_iff.mp hset <;> cases htype

/-- A vector or an array was read from between brackets. -/
theorem ValueTree.toks_of_array {u : ValueTree} {w : TsValue} {ts rest : List Token}
    (h : u.load = some w) (htype : w.type = .vector ∨ w.type = .array)
    (htoks : .sym 91 :: ts = u.toks ++ rest) :
    ∃ first more, u = .array false first more ∧
      ts = first.toks ++ (moreToks more ++ .sym 93 :: rest) := by
  cases u with
  | num text => simp [toks] at htoks
  | str text => simp [toks] at htoks
  | id text => simp [toks] at htoks
  | stray c hc =>
    obtain rfl := Option.some.inj h
    rcases htype with htype | htype <;> cases htype
  | array brace first more =>
    simp only [toks, List.cons_append, List.append_assoc, List.cons.injEq, Token.sym.injEq,
      List.nil_append] at htoks
    obtain rfl : false = brace := opener_inj htoks.1
    exact ⟨first, more, rfl, htoks.2⟩

theorem lockStep_string {t : Bytes} (hquote : (34 : Byte) ∉ t) :
    LockStep (tsSetValueStr tsInitValue t) := by
  intro s u w' rest hs htoks hload hcopy
  rw [tokens_printValue_string (t := t) rfl rfl hquote] at htoks
  obtain ⟨rfl, rfl⟩ := ValueTree.toks_inj (v := .str t) htoks
  refine ⟨TsValue.forall_parts.mpr ⟨⟨?_, ?_, ?_⟩, ?_⟩, rfl⟩ <;> simp [tsSetValueStr, tsInitValue]

theorem lockStep_number (x : CFloat) : LockStep (tsSetValuef tsInitValue x) := by
  intro s u w' rest hs htoks hload hcopy
  have htype : w'.type = .number := by
    simpa [tsSetValuef] using congrArg TsValue.type hcopy
  have hfnum : w'.fnum = x := by simpa [tsSetValuef] using congrArg TsValue.fnum hcopy
  obtain ⟨text, rfl, hval⟩ := ValueTree.toks_of_num hload htype
  rw [printValue_number rfl] at htoks
  by_cases hshort : x.IsShort
  · rw [tsSetValuef, (hshort.reload hs).1] at htoks
    refine ⟨TsValue.forall_parts.mpr ⟨⟨by simp [tsSetValuef], by simp [tsSetValuef],
      fun _ => hshort⟩, by simp [tsSetValuef, tsInitValue]⟩, ?_⟩
    exact (List.cons.inj htoks).2.symm
  · obtain ⟨tok, ts, htok, hne⟩ := exists_tokens_printG hshort hs
    rw [tsSetValuef, htok] at htoks
    exact absurd (hval.symm.trans hfnum) (hne text (List.cons.inj htoks).1)

/-- The text of a loaded vector is `[]`, and the closing bracket becomes the first element. -/
theorem lockStep_vector {w : TsValue} (htype : w.type = .vector) (hsize : w.vecSize = 0) :
    LockStep w := by
  intro s u w' rest hs htoks hload hcopy
  have htype' : w'.type = w.type := by simpa using congrArg TsValue.type hcopy
  have htext : tokens (printValue w ++ s) = .sym 91 :: .sym 93 :: tokens s := by
    rw [printValue_vector htype, hsize]
    exact (tokens_cons_sym (by decide) _).trans
      (congrArg _ (tokens_cons_sym (by decide) s))
  rw [htext] at htoks
  obtain ⟨first, more, rfl, hrest⟩ :=
    ValueTree.toks_of_array hload (.inl (htype'.trans htype)) htoks
  obtain ⟨rfl, -⟩ := ValueTree.toks_inj (v := .stray 93 (by decide)) hrest
  obtain ⟨x, xs, -, hx, -, -, hset, -⟩ := exists_of_load_array hload
  obtain rfl := Option.some.inj hx
  obtain ⟨-, ⟨hnum, -⟩ | ⟨-, hw'⟩⟩ := tsSetValueArr_eq_some_iff.mp hset
  · cases hnum _ (List.mem_cons_self ..)
  · rw [hw', htype] at htype'
    cases htype'

theorem lockStep_array {w v : TsValue} {vs : List TsValue} (htype : w.type = .array)
    (harray : w.array = v :: vs) (helems : ∀ e ∈ v :: vs, LockStep e) : LockStep w := by
  intro s u w' rest hs htoks hload hcopy
  have htype' : w'.type = w.type := by simpa using congrArg TsValue.type hcopy
  rw [tokens_printValue_array htype harray] at htoks
  obtain ⟨first, more, rfl, hrest⟩ :=
    ValueTree.toks_of_array hload (.inr (htype'.trans htype)) htoks
  obtain ⟨x, xs, ys, hx, hys, rfl, hset, -⟩ := exists_of_load_array hload
  have harray' : w'.array = tsCopyValue x :: (ys.take 30).map tsCopyValue := by
    obtain ⟨-, ⟨-, rfl⟩ | ⟨-, rfl⟩⟩ := tsSetValueArr_eq_some_iff.mp hset <;> rfl
  have hcopies : w'.array.map tsCopyValue = w.array.map tsCopyValue := by
    rw [← tsCopyValue_array, hcopy, tsCopyValue_array]
  rw [harray, harray'] at hcopies
  simp only [List.map_cons, tsCopyValue_copy, List.cons.injEq, List.map_map] at hcopies
  obtain ⟨hplain, hrest⟩ := helems v (List.mem_cons_self ..) _ first x _
    (stops_printElems _ (stops_of_head (by decide) (by decide))) hrest hx hcopies.1
  obtain ⟨hplains, hrest⟩ := lockStep_elems (n := 30)
    (fun e he => helems e (List.mem_cons_of_mem _ he)) hrest.symm hys
    (by simpa [Function.comp_def, tsCopyValue_copy] using hcopies.2)
  refine ⟨TsValue.forall_parts.mpr ⟨⟨by simp [htype], by simp [htype], by simp [htype]⟩, ?_⟩,
    hrest⟩
  rw [harray]
  exact List.forall_mem_cons.mpr ⟨hplain, hplains⟩

/-- **Lock step.** What is read in the place of a loaded value is that value only if the value is
plain. -/
theorem ValueTree.lockStep {v : ValueTree} {w : TsValue} (hwf : v.Wf) (h : v.load = some w) :
    LockStep w := by
  induction v using ValueTree.induct generalizing w with
  | num text =>
    obtain rfl := Option.some.inj h
    exact lockStep_number _
  | str text =>
    obtain rfl := Option.some.inj h
    have hquote := isQuotable_cstr (hwf _ (List.mem_cons_self ..))
    exact lockStep_string hquote.1
  | id text =>
    obtain rfl := Option.some.inj h
    have hident : IsIdent text := hwf _ (List.mem_cons_self ..)
    exact lockStep_string (isQuotable_cstr hident.quote_notMem).1
  | stray c hc =>
    obtain rfl := Option.some.inj h
    intro s u w' rest hs htoks hload hcopy
    rw [tokens_printValue_string rfl rfl (by decide)] at htoks
    obtain ⟨rfl, -⟩ := ValueTree.toks_inj (v := .str (ascii "(null)")) htoks
    obtain rfl := Option.some.inj hload
    cases congrArg TsValue.str hcopy
  | array brace first more ihf ihm =>
    obtain ⟨x, xs, ys, -, -, -, hset, hmem⟩ := exists_of_load_array h
    have helems : ∀ e ∈ x :: xs, LockStep (tsCopyValue e) := by
      intro e he
      obtain ⟨v, rfl | hv, hload⟩ := hmem e he
      · exact (ihf hwf.first hload).copy
      · exact (ihm v hv (hwf.more hv) hload).copy
    obtain ⟨-, ⟨-, rfl⟩ | ⟨-, rfl⟩⟩ := tsSetValueArr_eq_some_iff.mp hset
    · exact lockStep_vector rfl rfl
    · exact lockStep_array rfl rfl (List.forall_mem_map.mpr helems)

end Visftp
