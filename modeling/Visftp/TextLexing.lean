import Visftp.TextStore

/-!
# Cutting a text into tokens

One equation for each kind of token, saying how it is cut off the front of a text. Blanks in front
do not matter; an identifier and a number end where a character comes that they cannot go on with.

## Main results

* `tokens_eq` — the tokens of a text are the first one and those of the rest
* `tokens_cons_blank`, `tokens_cons_sym`, `tokens_append_id`, `tokens_append_num`, `tokens_str`
* `wf_of_mem_tokens` — an identifier is one, a number has no letter in it, a string no quote
-/

namespace Visftp

open CString

/-! ### One token after the other -/

theorem length_skipBlanks_le (b : Bool) (s : Bytes) : (skipBlanks b s).length ≤ s.length := by
  induction s generalizing b with
  | nil => simp [skipBlanks]
  | cons c s ih =>
    cases b with
    | true => exact (ih _).trans (Nat.le_succ _)
    | false =>
      rw [skipBlanks]
      split_ifs
      · exact (ih _).trans (Nat.le_succ _)
      · exact (ih _).trans (Nat.le_succ _)
      · exact le_rfl

theorem length_scanNum_le (b : Bool) (s : Bytes) : (scanNum b s).2.length ≤ s.length := by
  induction s generalizing b with
  | nil => simp [scanNum]
  | cons c s ih =>
    rw [scanNum]
    split_ifs
    · exact (ih _).trans (Nat.le_succ _)
    · exact le_rfl

/-- `next_token` takes at least a character. -/
theorem length_lt_of_nextToken {s rest : Bytes} {tok : Token}
    (h : nextToken s = some (tok, rest)) : rest.length < s.length := by
  have hskip := length_skipBlanks_le false s
  rw [nextToken] at h
  cases hs : skipBlanks false s with
  | nil => simp [hs] at h
  | cons c t =>
    rw [hs] at h hskip
    rw [List.length_cons] at hskip
    simp only at h
    split_ifs at h with hnum halpha hquote
    · obtain ⟨-, rfl⟩ := Prod.mk.inj (Option.some.inj h)
      have := length_scanNum_le false t
      omega
    · obtain ⟨-, rfl⟩ := Prod.mk.inj (Option.some.inj h)
      have := (List.dropWhile_suffix isIdChar (l := t)).length_le
      omega
    · have hdrop := (List.dropWhile_suffix (· != 34) (l := t)).length_le
      cases hd : t.dropWhile (· != 34) with
      | nil => simp [hd] at h
      | cons d u =>
        rw [hd] at h hdrop
        obtain ⟨-, rfl⟩ := Prod.mk.inj (Option.some.inj h)
        rw [List.length_cons] at hdrop
        omega
    · obtain ⟨-, rfl⟩ := Prod.mk.inj (Option.some.inj h)
      omega

theorem tokensUpTo_eq {n m : ℕ} {s : Bytes} (hn : s.length ≤ n) (hm : s.length ≤ m) :
    tokensUpTo n s = tokensUpTo m s := by
  induction n generalizing m s with
  | zero =>
    have hs : s = [] := List.eq_nil_of_length_eq_zero (by omega)
    subst hs
    cases m with
    | zero => rfl
    | succ m => simp [tokensUpTo, nextToken, skipBlanks]
  | succ n ih =>
    cases m with
    | zero =>
      have hs : s = [] := List.eq_nil_of_length_eq_zero (by omega)
      subst hs
      simp [tokensUpTo, nextToken, skipBlanks]
    | succ m =>
      rw [tokensUpTo, tokensUpTo]
      cases hnext : nextToken s with
      | none => rfl
      | some r =>
        have hlt : r.2.length < s.length := length_lt_of_nextToken hnext
        simp only
        rw [ih (m := m) (by omega) (by omega)]

/-- The tokens of a text are the first one and those of what is behind it. -/
theorem tokens_eq (s : Bytes) :
    tokens s = match nextToken s with
      | none => []
      | some (tok, rest) => tok :: tokens rest := by
  cases s with
  | nil => simp [tokens, tokensUpTo, nextToken, skipBlanks]
  | cons c s =>
    rw [tokens, List.length_cons, tokensUpTo]
    cases hnext : nextToken (c :: s) with
    | none => rfl
    | some r =>
      have hlt : r.2.length < s.length + 1 := length_lt_of_nextToken hnext
      simp only
      rw [tokens, tokensUpTo_eq (by omega) le_rfl]

/-! ### Each kind of token -/

/-- The first character of a text is behind no blank. -/
theorem skipBlanks_of_solid {c : Byte} (hc : c ≠ 35) (hs : isspace c = false) (s : Bytes) :
    skipBlanks false (c :: s) = c :: s := by
  rw [skipBlanks, if_neg hc, if_neg (by simp [hs])]

theorem tokens_cons_blank {c : Byte} (h : isspace c = true) (s : Bytes) :
    tokens (c :: s) = tokens s := by
  have hc : c ≠ 35 := fun hc => by simp [hc, isspace] at h
  have hskip : skipBlanks false (c :: s) = skipBlanks false s := by
    rw [skipBlanks, if_neg hc, if_pos h]
  have hnext : nextToken (c :: s) = nextToken s := by rw [nextToken, hskip, nextToken]
  rw [tokens_eq, hnext, ← tokens_eq]

theorem tokens_append_blanks {b : Bytes} (h : ∀ c ∈ b, isspace c = true) (s : Bytes) :
    tokens (b ++ s) = tokens s := by
  induction b with
  | nil => rfl
  | cons c b ih =>
    rw [List.cons_append, tokens_cons_blank (h c (List.mem_cons_self ..)),
      ih fun d hd => h d (List.mem_cons_of_mem _ hd)]

/-- A character that starts nothing else is a symbol. -/
def isSymChar (c : Byte) : Bool :=
  c != 35 && !isspace c && !isdigit c && c != 45 && c != 43 && !isalpha c && c != 34

theorem tokens_cons_sym {c : Byte} (h : isSymChar c = true) (s : Bytes) :
    tokens (c :: s) = .sym c :: tokens s := by
  simp only [isSymChar, Bool.and_eq_true, bne_iff_ne, ne_eq, Bool.not_eq_true'] at h
  obtain ⟨⟨⟨⟨⟨⟨hhash, hspace⟩, hdigit⟩, hminus⟩, hplus⟩, halpha⟩, hquote⟩ := h
  have hnext : nextToken (c :: s) = some (.sym c, s) := by
    simp [nextToken, skipBlanks_of_solid hhash hspace, hdigit, hminus, hplus, halpha, hquote]
  rw [tokens_eq, hnext]

/-- An identifier as the lexer cuts it. -/
def IsIdent (t : Bytes) : Prop :=
  ∃ c s, t = c :: s ∧ isalpha c = true ∧ ∀ b ∈ s, isIdChar b = true

theorem isalpha_props {c : Byte} (h : isalpha c = true) :
    c ≠ 35 ∧ isspace c = false ∧ isdigit c = false ∧ c ≠ 45 ∧ c ≠ 43 := by
  simp only [isalpha, isspace, isdigit, Bool.or_eq_true, Bool.and_eq_true, decide_eq_true_eq,
    Bool.or_eq_false_iff, Bool.and_eq_false_iff, decide_eq_false_iff_not, beq_eq_false_iff_ne,
    UInt8.le_iff_toNat_le, ne_eq, ← UInt8.toNat_inj, UInt8.reduceToNat] at h ⊢
  omega

theorem isdigit_props {c : Byte} (h : isdigit c = true) :
    c ≠ 35 ∧ isspace c = false ∧ c ≠ 46 := by
  simp only [isspace, isdigit, Bool.and_eq_true, decide_eq_true_eq,
    Bool.or_eq_false_iff, Bool.and_eq_false_iff, decide_eq_false_iff_not, beq_eq_false_iff_ne,
    UInt8.le_iff_toNat_le, ne_eq, ← UInt8.toNat_inj, UInt8.reduceToNat] at h ⊢
  omega

theorem tokens_append_id {name s : Bytes} (hname : IsIdent name)
    (hs : isIdChar (byteAt s 0) = false) : tokens (name ++ s) = .id name :: tokens s := by
  obtain ⟨c, t, rfl, hc, ht⟩ := hname
  obtain ⟨hhash, hspace, hdigit, hminus, hplus⟩ := isalpha_props hc
  obtain ⟨htake, hdrop⟩ := takeWhile_append_of_stop ht (.inr hs)
  have hnext : nextToken (c :: t ++ s) = some (.id (c :: t), s) := by
    simp [nextToken, skipBlanks_of_solid hhash hspace, hdigit, hminus, hplus, hc, htake, hdrop]
  rw [tokens_eq, hnext]

theorem tokens_str {t s : Bytes} (ht : (34 : Byte) ∉ t) :
    tokens (34 :: (t ++ 34 :: s)) = .str t :: tokens s := by
  have hpos : ∀ b ∈ t, (b != 34) = true := fun b hb => by
    simpa using ne_of_mem_of_not_mem hb ht
  obtain ⟨htake, hdrop⟩ := takeWhile_append_of_stop (s := 34 :: s) hpos (.inr (by simp [byteAt]))
  have hnext : nextToken (34 :: (t ++ 34 :: s)) = some (.str t, s) := by
    simp [nextToken, skipBlanks_of_solid (c := 34) (by decide) (by decide), isdigit, isalpha,
      htake, hdrop]
  rw [tokens_eq, hnext]

/-! ### Numbers -/

theorem scanNum_digits {b : Bool} {ds : Bytes} (hds : ∀ d ∈ ds, isdigit d = true) (s : Bytes) :
    scanNum b (ds ++ s) = (ds ++ (scanNum b s).1, (scanNum b s).2) := by
  induction ds with
  | nil => rfl
  | cons d ds ih =>
    have hd := hds d (List.mem_cons_self ..)
    have hdot : (b || d == 46) = b := by simp [(isdigit_props hd).2.2]
    have hrest := ih fun e he => hds e (List.mem_cons_of_mem _ he)
    simp [scanNum, hd, hdot, hrest]

theorem scanNum_stop {b : Bool} {s : Bytes} (hs : isdigit (byteAt s 0) = false)
    (hdot : b = true ∨ byteAt s 0 ≠ 46) : scanNum b s = ([], s) := by
  cases s with
  | nil => rfl
  | cons c s =>
    have hc : isdigit c = false := by simpa [byteAt] using hs
    have hcdot : b = true ∨ c ≠ 46 := by simpa [byteAt] using hdot
    rw [scanNum, if_neg]
    rcases hcdot with rfl | h <;> simp [*]

/-- A number ends where neither a digit nor a point follows. -/
theorem tokens_append_num {neg : Bool} {ip fp s : Bytes} (hne : ip ≠ [])
    (hip : ∀ d ∈ ip, isdigit d = true) (hfp : ∀ d ∈ fp, isdigit d = true)
    (hs : isdigit (byteAt s 0) = false) (hdot : byteAt s 0 ≠ 46) :
    tokens (signText neg ++ (ip ++ pointText fp) ++ s)
      = .num (signText neg ++ (ip ++ pointText fp)) :: tokens s := by
  have hpoint : scanNum false (pointText fp ++ s) = (pointText fp, s) := by
    rw [pointText]
    split_ifs with hnil
    · exact scanNum_stop hs (.inr hdot)
    · have hrest := scanNum_digits (b := true) hfp s
      rw [scanNum_stop hs (.inl rfl), List.append_nil] at hrest
      rw [List.cons_append, scanNum]
      simp [hrest]
  have hbody : ∀ ds : Bytes, (∀ d ∈ ds, isdigit d = true) →
      scanNum false (ds ++ pointText fp ++ s) = (ds ++ pointText fp, s) := fun ds hds => by
    rw [List.append_assoc, scanNum_digits hds, hpoint]
  obtain ⟨d, ip, rfl⟩ := List.exists_cons_of_ne_nil hne
  have hd := hip d (List.mem_cons_self ..)
  obtain ⟨hhash, hspace, -⟩ := isdigit_props hd
  have hnext : nextToken (signText neg ++ (d :: ip ++ pointText fp) ++ s)
      = some (.num (signText neg ++ (d :: ip ++ pointText fp)), s) := by
    cases neg with
    | true =>
      have hscan := hbody (d :: ip) hip
      simp only [List.cons_append, List.append_assoc] at hscan
      simp [nextToken, signText, skipBlanks_of_solid (c := 45) (by decide) (by decide), hscan]
    | false =>
      have hscan := hbody ip fun e he => hip e (List.mem_cons_of_mem _ he)
      simp only [List.append_assoc] at hscan
      simp [nextToken, signText, skipBlanks_of_solid hhash hspace, hd, hscan]
  rw [tokens_eq, hnext]

/-! ### What tokens are like -/

/-- An identifier is one, a number has no letter in it, and a string has no quote. -/
def Token.Wf : Token → Prop
  | .id t => IsIdent t
  | .num t => ∀ b ∈ t, isalpha b = false
  | .str t => (34 : Byte) ∉ t
  | .sym _ => True

theorem isalpha_of_isdigit {c : Byte} (h : isdigit c = true) : isalpha c = false := by
  by_contra halpha
  simp [(isalpha_props (by simpa using halpha)).2.2.1] at h

theorem isalpha_of_mem_scanNum {foundDot : Bool} {s : Bytes} :
    ∀ b ∈ (scanNum foundDot s).1, isalpha b = false := by
  induction s generalizing foundDot with
  | nil => simp [scanNum]
  | cons c s ih =>
    rw [scanNum]
    split_ifs with h
    · refine List.forall_mem_cons.mpr ⟨?_, ih⟩
      rcases Bool.or_eq_true_iff.mp h with hc | hc
      · exact isalpha_of_isdigit hc
      · simp only [Bool.and_eq_true, beq_iff_eq] at hc
        rw [hc.1]
        decide
    · simp

theorem wf_of_nextToken {s rest : Bytes} {tok : Token} (h : nextToken s = some (tok, rest)) :
    tok.Wf := by
  rw [nextToken] at h
  cases hs : skipBlanks false s with
  | nil => simp [hs] at h
  | cons c t =>
    rw [hs] at h
    simp only at h
    split_ifs at h with hnum halpha hquote
    · obtain ⟨rfl, -⟩ := Prod.mk.inj (Option.some.inj h)
      refine List.forall_mem_cons.mpr ⟨?_, isalpha_of_mem_scanNum⟩
      rcases Bool.or_eq_true_iff.mp hnum with hc | hc
      · rcases Bool.or_eq_true_iff.mp hc with hc | hc
        · exact isalpha_of_isdigit hc
        · rw [beq_iff_eq.mp hc]
          decide
      · rw [beq_iff_eq.mp hc]
        decide
    · obtain ⟨rfl, -⟩ := Prod.mk.inj (Option.some.inj h)
      exact ⟨c, _, rfl, halpha, fun b hb => List.mem_takeWhile_imp hb⟩
    · cases hd : t.dropWhile (· != 34) with
      | nil => simp [hd] at h
      | cons d u =>
        rw [hd] at h
        obtain ⟨rfl, -⟩ := Prod.mk.inj (Option.some.inj h)
        intro hmem
        simpa using List.mem_takeWhile_imp hmem
    · obtain ⟨rfl, -⟩ := Prod.mk.inj (Option.some.inj h)
      trivial

theorem wf_of_mem_tokens {s : Bytes} {tok : Token} (h : tok ∈ tokens s) : tok.Wf := by
  obtain ⟨n, hn⟩ : ∃ n, s.length = n := ⟨_, rfl⟩
  induction n using Nat.strong_induction_on generalizing s with
  | _ n ih =>
    rw [tokens_eq] at h
    cases hnext : nextToken s with
    | none => simp [hnext] at h
    | some r =>
      obtain ⟨tok', rest⟩ := r
      rw [hnext] at h
      rcases List.mem_cons.mp h with rfl | h
      · exact wf_of_nextToken hnext
      · exact ih rest.length (hn ▸ length_lt_of_nextToken hnext) h rfl

end Visftp
