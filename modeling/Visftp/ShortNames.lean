import Visftp.Downloads
import Visftp.Lib.Buffers

/-!
# Short file names

On DOS without long file names, `fixname` turns the name of an entry into the name of a local file,
in the buffer that `act_transfer` has for it: the name is cut at its last dot, both halves are
shortened where they are, and the second is moved up to the first.

## Main definitions

* `fixnameIn` — `fixname` in a buffer
* `Valid83` — a name of at most eight characters, with an extension of at most three

## Main results

* `fixnameIn_eq` — it stays in its buffer, and leaves the name that `fixname` says
* `valid_fixnameIn_iff` — the names that become valid ones
-/

namespace Visftp

open CString Buffers

/-! ### In the buffer -/

/-- `strlen` of the string at a place in a buffer. -/
def strlen (buf : Bytes) (i : ℕ) : ℕ := (cstr (buf.drop i)).length

/-- `strrchr`: where the last `b` is. -/
def strrchr (s : Bytes) (b : Byte) : Option ℕ :=
  if b ∈ s then some ((s.rdropWhile (· != b)).length - 1) else none

/-- `if(strlen(s) > n) s[n] = 0`, for the string `s` at a place in a buffer. -/
def cutIn (dest : Bytes) (i n : ℕ) : Option Bytes :=
  if n < strlen dest i then store dest (i + n) nul else some dest

/-- The DOS part of `fixname`, in the buffer `dest`: the buffer behind it, or `none` when something
was written past its end. -/
def fixnameIn (dest src : Bytes) : Option Bytes := do
  let dest ← write dest 0 (src ++ [nul])
  match strrchr (cstr dest) 46 with
  | none => cutIn dest 0 8
  | some i =>
    let dest ← store dest i nul
    let suffix := i + 1
    let dest ← cutIn dest suffix 3
    let len := min (strlen dest 0) 8
    let dest ← cutIn dest 0 8
    let dest ← store dest len 46
    let len := len + 1
    if len ≠ suffix then move dest len suffix (strlen dest suffix + 1) else some dest

/-- The buffer of `act_transfer`, for a name and its terminator. -/
def allocaName (src : Bytes) : Bytes := List.replicate (src.length + 1) nul

/-- **A valid name**: one to eight characters, and perhaps a dot with up to three more. -/
def Valid83 (name : Bytes) : Prop :=
  ∃ base ext : Bytes, (name = base ∨ name = base ++ 46 :: ext) ∧ 1 ≤ base.length ∧
    base.length ≤ 8 ∧ 46 ∉ base ∧ ext.length ≤ 3 ∧ 46 ∉ ext

/-- What stands before the last dot of a name, or all of it. -/
def stem (src : Bytes) : Bytes :=
  if 46 ∈ src then (src.rdropWhile (· != 46)).dropLast else src

/-! ### Strings in a buffer -/

variable {s : Bytes}

theorem strlen_append (pre : Bytes) (h : nul ∉ s) (post : Bytes) :
    strlen (pre ++ (s ++ nul :: post)) pre.length = s.length := by
  rw [strlen, List.drop_left, cstr_append_nul h]

theorem strlen_zero (h : nul ∉ s) (post : Bytes) : strlen (s ++ nul :: post) 0 = s.length := by
  rw [strlen, List.drop_zero, cstr_append_nul h]

/-- A string is cut to `n` characters, if it has more: there is a string of the shorter text, and
something behind it. -/
theorem cutIn_append (pre : Bytes) (h : nul ∉ s) (post : Bytes) (n : ℕ) :
    ∃ rest, cutIn (pre ++ (s ++ nul :: post)) pre.length n =
      some (pre ++ (s.take n ++ nul :: (rest ++ post))) ∧
      (s.take n).length + rest.length = s.length := by
  rw [cutIn, strlen_append pre h]
  split
  · next hlt =>
    obtain ⟨x, t, hdrop⟩ : ∃ x t, s.drop n = x :: t :=
      List.exists_cons_of_ne_nil (by simpa using hlt)
    have hs : s = s.take n ++ x :: t := by rw [← hdrop, List.take_append_drop]
    have hlen : (pre ++ s.take n).length = pre.length + n := by simp; omega
    refine ⟨t ++ [nul], ?_, ?_⟩
    · have hbuf : pre ++ (s ++ nul :: post) = (pre ++ s.take n) ++ x :: (t ++ nul :: post) := by
        conv_lhs => rw [hs]
        simp
      rw [hbuf, ← hlen, store_append]
      simp
    · have hslen := congrArg List.length hs
      simp only [List.length_append, List.length_cons, List.length_nil] at hslen ⊢
      omega
  · next hge =>
    exact ⟨[], by simp [List.take_of_length_le (not_lt.mp hge)],
      by simp [List.take_of_length_le (not_lt.mp hge)]⟩

/-! ### It stays in the buffer -/

theorem strrchr_eq {base ext : Bytes} (h : 46 ∉ ext) :
    strrchr (base ++ 46 :: ext) 46 = some base.length := by
  have hext : ext.rdropWhile (· != 46) = [] :=
    List.rdropWhile_eq_nil_iff.mpr fun b hb => by simpa using ne_of_mem_of_not_mem hb h
  have hcut : (base ++ 46 :: ext).rdropWhile (· != 46) = base ++ [46] := by
    have hassoc : base ++ 46 :: ext = (base ++ [46]) ++ ext := by simp
    rw [hassoc, List.rdropWhile, List.reverse_append,
      List.dropWhile_append_of_pos fun b hb => by
        simpa using ne_of_mem_of_not_mem (List.mem_reverse.mp hb) h]
    simp
  rw [strrchr, if_pos (by simp), hcut]
  simp

theorem notMem_rtakeWhile (l : Bytes) : 46 ∉ l.rtakeWhile (· != 46) := fun h => by
  simpa using List.mem_rtakeWhile_imp h

/-- The copy fills the buffer. -/
theorem write_allocaName (src : Bytes) : write (allocaName src) 0 (src ++ [nul]) =
    some (src ++ [nul]) := by
  have hlen : (src ++ [nul]).length = (allocaName src).length := by simp [allocaName]
  have h := write_append [] [] hlen
  simpa using h

/-- The second half is moved up to the first, if that has become shorter. -/
theorem move_up (base ext rest rest' : Bytes) : ∃ rest'',
    (if base.length + 1 ≠ base.length + rest'.length + 1 then
      move (base ++ 46 :: (rest' ++ (ext ++ nul :: rest))) (base.length + 1)
        (base.length + rest'.length + 1) (ext.length + 1)
      else some (base ++ 46 :: (rest' ++ (ext ++ nul :: rest)))) =
        some (base ++ 46 :: (ext ++ nul :: rest'')) := by
  split
  · have h := move_append (base ++ [46]) rest rest' (ext ++ [nul])
    have hsrc : base.length + 1 + rest'.length = base.length + rest'.length + 1 := by omega
    simp only [List.length_append, List.length_cons, List.length_nil, List.append_assoc,
      List.cons_append, List.nil_append, Nat.zero_add, hsrc] at h
    exact ⟨_, h⟩
  · have hnil : rest' = [] := List.eq_nil_of_length_eq_zero (by omega)
    exact ⟨rest, by rw [hnil, List.nil_append]⟩

/-- The two halves of a name are shortened and put together. -/
theorem fixnameIn_append {base ext : Bytes} (hbase : nul ∉ base) (hext : nul ∉ ext)
    (hdot : 46 ∉ ext) : ∃ rest, fixnameIn (allocaName (base ++ 46 :: ext)) (base ++ 46 :: ext) =
      some (base.take 8 ++ 46 :: (ext.take 3 ++ nul :: rest)) := by
  have hnul : nul ∉ base ++ 46 :: ext := by
    simp only [List.mem_append, List.mem_cons, hbase, hext, or_false, false_or]
    decide
  have htake : nul ∉ ext.take 3 := fun hmem => hext (List.mem_of_mem_take hmem)
  have hwrite := write_allocaName (base ++ 46 :: ext)
  have hcstr := cstr_append_nul hnul []
  have hstore := store_append base (ext ++ [nul]) 46 nul
  obtain ⟨rest, hcut, -⟩ := cutIn_append (base ++ [nul]) hext [] 3
  obtain ⟨rest', hcut', hlen⟩ := cutIn_append [] hbase (ext.take 3 ++ nul :: rest) 8
  have hlen0 := strlen_zero hbase (ext.take 3 ++ nul :: rest)
  have hback := store_append (base.take 8) (rest' ++ (ext.take 3 ++ nul :: rest)) nul 46
  have hsuffix := strlen_append (base.take 8 ++ 46 :: rest') htake rest
  obtain ⟨rest'', hmove⟩ := move_up (base.take 8) (ext.take 3) rest rest'
  have hmin : min base.length 8 = (base.take 8).length := by rw [List.length_take, min_comm]
  simp only [List.length_append, List.length_cons, List.length_nil, List.append_assoc,
    List.cons_append, List.nil_append, List.append_nil, Nat.zero_add, ← Nat.add_assoc, hlen]
    at hwrite hcstr hcut hcut' hlen hstore hsuffix hlen0 hback hmove
  refine ⟨rest'', ?_⟩
  rw [fixnameIn]
  simp only [List.append_assoc, List.cons_append, hwrite, Option.bind_eq_bind, Option.bind_some,
    hcstr, strrchr_eq hdot, hstore, hcut, hlen0, hmin, hcut', hback, hsuffix, hmove]

theorem fixnameIn_of_notMem {src : Bytes} (hsrc : nul ∉ src) (hdot : 46 ∉ src) :
    ∃ rest, fixnameIn (allocaName src) src = some (src.take 8 ++ nul :: rest) := by
  obtain ⟨rest, hcut, -⟩ := cutIn_append [] hsrc [] 8
  simp only [List.nil_append, List.append_nil, List.length_nil] at hcut
  refine ⟨rest, ?_⟩
  rw [fixnameIn]
  simp only [write_allocaName, Option.bind_eq_bind, Option.bind_some, cstr_append_nul hsrc, strrchr,
    if_neg hdot, hcut]

/-- **`fixname` stays in the buffer of `act_transfer`**, and leaves the name there. -/
theorem fixnameIn_eq {src : Bytes} (hsrc : nul ∉ src) :
    ∃ buf, fixnameIn (allocaName src) src = some buf ∧ cstr buf = fixname true src := by
  rw [fixname, if_pos rfl, cstr_eq_self hsrc]
  split
  · next hmem =>
    have hsplit := dropLast_rdropWhile hmem
    have hnul : nul ∉ (src.rdropWhile (· != 46)).dropLast := fun h =>
      hsrc ((List.rdropWhile_prefix _ _).subset (List.mem_of_mem_dropLast h))
    have hnul' : nul ∉ src.rtakeWhile (· != 46) := fun h =>
      hsrc ((List.rtakeWhile_suffix _ _).subset h)
    obtain ⟨rest, hbuf⟩ := fixnameIn_append hnul hnul' (notMem_rtakeWhile src)
    rw [hsplit] at hbuf
    refine ⟨_, hbuf, ?_⟩
    have hdot : nul ≠ 46 := by decide
    have hname : nul ∉ (src.rdropWhile (· != 46)).dropLast.take 8 ++
        46 :: (src.rtakeWhile (· != 46)).take 3 := by
      simp only [List.mem_append, List.mem_cons, not_or]
      exact ⟨fun h => hnul (List.mem_of_mem_take h), hdot,
        fun h => hnul' (List.mem_of_mem_take h)⟩
    simpa using cstr_append_nul hname rest
  · next hdot =>
    obtain ⟨rest, hbuf⟩ := fixnameIn_of_notMem hsrc hdot
    exact ⟨_, hbuf, cstr_append_nul (fun h => hsrc (List.mem_of_mem_take h)) rest⟩

/-! ### Which names become valid -/

/-- `fixname` makes no name longer. -/
theorem length_fixname_le {src : Bytes} (hsrc : nul ∉ src) :
    (fixname true src).length ≤ src.length := by
  rw [fixname, if_pos rfl, cstr_eq_self hsrc]
  split
  · next hmem =>
    have hlen := congrArg List.length (dropLast_rdropWhile hmem)
    simp only [List.length_append, List.length_cons, List.length_take] at hlen ⊢
    omega
  · rw [List.length_take]
    omega

/-- A valid name has at most one dot. -/
theorem Valid83.count_le {name : Bytes} (h : Valid83 name) : name.count 46 ≤ 1 := by
  obtain ⟨base, ext, hname, -, -, hbase, -, hext⟩ := h
  have hbase0 := List.count_eq_zero.mpr hbase
  have hext0 := List.count_eq_zero.mpr hext
  rcases hname with rfl | rfl
  · omega
  · rw [List.count_append, List.count_cons_self]
    omega

theorem valid_fixname {src : Bytes} (hsrc : nul ∉ src) (hne : src ≠ [])
    (hfirst : src.head? ≠ some 46) : Valid83 (fixname true src) ↔ 46 ∉ (stem src).take 8 := by
  rw [fixname, if_pos rfl, cstr_eq_self hsrc, stem]
  split
  · next hmem =>
    have hsplit := dropLast_rdropWhile hmem
    have hext : 46 ∉ (src.rtakeWhile (· != 46)).take 3 := fun h =>
      notMem_rtakeWhile src (List.mem_of_mem_take h)
    constructor
    · intro hvalid hdot
      -- The dot before the last one is still there, so there are two.
      have hcount := hvalid.count_le
      have hpos := List.count_pos_iff.mpr hdot
      rw [List.count_append, List.count_cons_self] at hcount
      omega
    · intro hdot
      refine ⟨_, _, Or.inr rfl, ?_, by rw [List.length_take]; omega, hdot,
        by rw [List.length_take]; omega, hext⟩
      have hbase : (src.rdropWhile (· != 46)).dropLast ≠ [] := by
        intro hnil
        rw [hnil] at hsplit
        exact hfirst (by rw [← hsplit]; rfl)
      have hpos := List.length_pos_iff.mpr hbase
      rw [List.length_take]
      omega
  · next hmem =>
    have hdot : 46 ∉ src.take 8 := fun h => hmem (List.mem_of_mem_take h)
    refine ⟨fun _ => hdot, fun _ => ⟨src.take 8, [], Or.inl rfl, ?_, ?_, hdot, by simp, by simp⟩⟩
    · have hpos := List.length_pos_iff.mpr hne
      rw [List.length_take]
      omega
    · rw [List.length_take]
      omega

/-- **Which names `fixname` makes valid.** The buffer that `act_transfer` has is always large
enough, and no name becomes longer. It becomes a valid one when the part of it that is kept from
before its last dot has no dot. -/
theorem valid_fixnameIn_iff {src : Bytes} (hsrc : nul ∉ src) (hne : src ≠ [])
    (hfirst : src.head? ≠ some 46) :
    (∃ buf, fixnameIn (allocaName src) src = some buf ∧ Valid83 (cstr buf) ∧
      (cstr buf).length ≤ src.length) ↔ 46 ∉ (stem src).take 8 := by
  obtain ⟨buf, hbuf, hcstr⟩ := fixnameIn_eq hsrc
  rw [← valid_fixname hsrc hne hfirst]
  constructor
  · rintro ⟨buf', hbuf', hvalid, -⟩
    rw [← hcstr, Option.some.inj (hbuf.symm.trans hbuf')]
    exact hvalid
  · intro hvalid
    refine ⟨buf, hbuf, ?_, ?_⟩
    · rw [hcstr]
      exact hvalid
    · rw [hcstr]
      exact length_fixname_le hsrc

/-- A long name with two dots, of which only one is kept. -/
theorem valid_fixnameIn_iff_long : ∃ buf, fixnameIn (allocaName (ascii "documents.old.text"))
    (ascii "documents.old.text") = some buf ∧ Valid83 (cstr buf) ∧
      (cstr buf).length ≤ (ascii "documents.old.text").length :=
  (valid_fixnameIn_iff (by decide) (by decide) (by decide)).mpr (by decide)

/-- A short name with two dots keeps both. -/
theorem not_valid_two_dots : nul ∉ ascii "a.b.c" ∧ (ascii "a.b.c").head? ≠ some 46 ∧
    47 ∉ ascii "a.b.c" ∧
    ¬ ∃ buf, fixnameIn (allocaName (ascii "a.b.c")) (ascii "a.b.c") = some buf ∧
      Valid83 (cstr buf) := by
  refine ⟨by decide, by decide, by decide, ?_⟩
  rintro ⟨buf, hbuf, hvalid⟩
  have hname : fixnameIn (allocaName (ascii "a.b.c")) (ascii "a.b.c") =
      some (ascii "a.b.c" ++ [nul]) := by decide
  have hcount := hvalid.count_le
  rw [← Option.some.inj (hname.symm.trans hbuf)] at hcount
  exact absurd hcount (by decide)

end Visftp
