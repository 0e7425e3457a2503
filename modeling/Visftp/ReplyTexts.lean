import Visftp.MultiLine
import Visftp.UnixListing

/-!
# Directories and sizes in replies

A reply to `PWD` has the directory between double quotes, with the quotes of its name doubled;
`get_quoted_text` takes what is between the first two. A reply to `RETR` has the size of the file
in parentheses, behind its name; `cproc_xfer` reads a number behind the first one it finds.

## Main definitions

* `quoted`, `pwdReply` — a directory as it is sent
* `SizeAt`, `SizeGroup`, `xferReply` — a number behind the first parenthesis, and a size as it is
  sent

## Main results

* `curdir_pwdReply_iff` — the directories that are read back
* `total_cprocXfer_iff` — the replies whose size is read, and those that have none
-/

namespace Visftp

open CString

variable {α : Type}

/-! ### The directory -/

/-- A name between double quotes, those in it doubled. -/
def quoted (d : Bytes) : Bytes :=
  34 :: (d.flatMap fun b => if b = 34 then [34, 34] else [b]) ++ [34]

/-- The reply to `PWD` in the directory `d`, with a comment behind it. -/
def pwdReply (d c : Bytes) : Bytes := ascii "257 " ++ quoted d ++ 32 :: c

theorem takeWhile_quoted (d r : Bytes) :
    ((d.flatMap fun b => if b = 34 then [34, 34] else [b]) ++ 34 :: r).takeWhile (· ≠ 34) =
      d.takeWhile (· ≠ 34) := by
  induction d with
  | nil => rfl
  | cons b d ih =>
    rw [List.flatMap_cons]
    by_cases hb : b = 34
    · simp [hb]
    · rw [if_neg hb, List.append_assoc, List.singleton_append, List.takeWhile_cons,
        List.takeWhile_cons, ih]

/-- **What is taken for the directory** is its name up to the first double quote, whatever comes
behind the name. -/
theorem getQuotedText_of_prefix {d buf : Bytes} (h : ascii "257 " ++ quoted d <+: buf) :
    getQuotedText buf = some (d.takeWhile (· ≠ 34)) := by
  obtain ⟨c, rfl⟩ := h
  have hstart : strchr (ascii "257 " ++ quoted d ++ c) 34 = some (34 ::
      ((d.flatMap fun b => if b = 34 then [34, 34] else [b]) ++ 34 :: c)) := by
    rw [strchr, if_pos (by simp [quoted])]
    simp [quoted, ascii]
  rw [getQuotedText, hstart]
  dsimp only
  rw [List.tail_cons, if_pos (by simp), takeWhile_quoted]

theorem getQuotedText_pwdReply (d c : Bytes) :
    getQuotedText (pwdReply d c) = some (d.takeWhile (· ≠ 34)) :=
  getQuotedText_of_prefix (List.prefix_append _ _)

/-- A name without a double quote is taken whole. -/
theorem takeWhile_eq_self_iff_notMem (d : Bytes) : d.takeWhile (· ≠ 34) = d ↔ 34 ∉ d := by
  rw [List.takeWhile_eq_self_iff]
  constructor
  · intro h hmem
    simpa using h 34 hmem
  · intro h b hb
    simpa using ne_of_mem_of_not_mem hb h

theorem replyText_pwdReply {d c : Bytes} (hd : cr ∉ d) (hc : cr ∉ c) :
    replyText (pwdReply d c) = pwdReply d c := by
  have hskip : skipSpace (pwdReply d c) = pwdReply d c := skipSpace_of_not_isspace (by rfl)
  rw [replyText, hskip, List.takeWhile_eq_self_iff]
  intro b hb
  have hne : b ≠ cr := by
    rintro rfl
    simp only [pwdReply, quoted, List.mem_append, List.mem_cons, List.mem_flatMap] at hb
    rcases hb with (hb | hb) | hb
    · exact absurd hb (by decide)
    · rcases hb with (hb | ⟨b, hb, hcr⟩) | hb
      · exact absurd hb (by decide)
      · split at hcr
        · exact absurd hcr (by decide)
        · obtain rfl : cr = b := by simpa using hcr
          exact hd hb
      · exact absurd hb (by decide)
    · rcases hb with hb | hb
      · exact absurd hb (by decide)
      · exact hc hb
  simpa using hne

theorem respcode_pwdReply (d c : Bytes) : respcode (pwdReply d c) = 257 := by
  have hcons : pwdReply d c = 50 :: 53 :: 55 :: 32 :: (quoted d ++ 32 :: c) := rfl
  rw [hcons, respcode_cons, if_pos (by decide), if_pos (by decide),
    atoi_three_digits (by decide) (by decide) (by decide) (by decide)]
  rfl

/-- A reply that goes to `cproc_pwd`. -/
theorem curdir_deliver (wait : Int → World α → Int × World α) {w : World α} {buf text : Bytes}
    (hw : w.ftp.cproc = some .pwd) (hbuf : getQuotedText buf = some text) :
    (deliver wait 257 buf w).ftp.curdir = some text := by
  rw [deliver]
  split
  · next hnone =>
    have hsome := hnone.symm.trans hw
    simp at hsome
  · next p hp =>
    obtain rfl : p = .pwd := Option.some.inj (hp.symm.trans hw)
    show (settle (cprocPwd 257 buf _)).ftp.curdir = _
    rw [cprocPwd, if_neg (by decide), hbuf]
    rfl

/-- **The directory that is read.** When the server answers `PWD` in the directory `d`, `curdir` is
`d` afterwards if and only if there is no double quote in it. -/
theorem curdir_pwdReply_iff (wait : Int → World α → Int × World α) {w : World α}
    (hw : w.ftp.cproc = some .pwd) {d c : Bytes} (hd : Clean d) (hc : Clean c) :
    (procControl wait (pwdReply d c) w).ftp.curdir = some d ↔ 34 ∉ d := by
  have hset : (procControl wait (pwdReply d c) w).ftp.curdir = some (d.takeWhile (· ≠ 34)) := by
    rw [procControl, replyText_pwdReply hd.1 hc.1, respcode_pwdReply, if_neg (by decide),
      if_neg (by decide)]
    exact curdir_deliver wait hw (getQuotedText_pwdReply d c)
  rw [hset, Option.some.injEq, takeWhile_eq_self_iff_notMem]

/-- A client that waits for the reply to `PWD`. -/
def askedPwd : World Unit :=
  (World.connected 3 none none ()).mapFtp fun f => { f with cproc := some .pwd }

theorem curdir_pwdReply_usr :
    (procControl (fun _ w => (0, w)) (pwdReply (ascii "/usr") []) askedPwd).ftp.curdir =
      some (ascii "/usr") :=
  (curdir_pwdReply_iff _ rfl (by decide) (by decide)).mpr (by decide)

/-- A directory with a double quote in its name. -/
theorem not_curdir_pwdReply : ¬∀ d c, Clean d → Clean c →
    (procControl (fun _ w => (0, w)) (pwdReply d c) askedPwd).ftp.curdir = some d := by
  intro h
  have hquote := h [97, 34, 98] [] (by decide) (by decide)
  exact absurd hquote (by decide)

/-! ### The size -/

/-- **The number `n` stands behind the first opening parenthesis** of a text. -/
def SizeAt (s : Bytes) (n : Int) : Prop :=
  ∃ (pre : Bytes) (u : UNum) (rest : Bytes), s = pre ++ 40 :: (u.text ++ rest) ∧ 40 ∉ pre ∧
    isdigit (byteAt rest 0) = false ∧ n = u.long

/-- There is a size in a text: digits and the word for bytes between parentheses. -/
def SizeGroup (s : Bytes) : Prop :=
  ∃ pre ds rest, s = pre ++ 40 :: (ds ++ ascii " bytes)" ++ rest) ∧ ds ≠ [] ∧
    ∀ b ∈ ds, isdigit b = true

/-- The reply to `RETR` of the file `f`, which has `n` bytes. -/
def xferReply (pre f : Bytes) (n : Int) (rest : Bytes) : Bytes :=
  ascii "150 " ++ pre ++ f ++ ascii " (" ++ sizeText n ++ ascii " bytes)" ++ rest

theorem strchr_append {pre : Bytes} {b : Byte} (h : b ∉ pre) (s : Bytes) :
    strchr (pre ++ b :: s) b = some (b :: s) := by
  rw [strchr, if_pos (by simp), List.dropWhile_append_of_pos]
  · simp
  · intro c hc
    simpa using ne_of_mem_of_not_mem hc h

/-- What is read from a text without an opening parenthesis, and from one with a first one. -/
theorem xferTotal_of_notMem {s : Bytes} (h : 40 ∉ s) : xferTotal s = none := by
  rw [xferTotal, strchr, if_neg h]
  rfl

theorem xferTotal_append {pre : Bytes} (h : 40 ∉ pre) (s : Bytes) :
    xferTotal (pre ++ 40 :: s) = scanLong s := by
  rw [xferTotal, strchr_append h]
  rfl

/-- **What is read** is the number behind the first opening parenthesis. -/
theorem xferTotal_eq_some_iff {s : Bytes} {n : Int} : xferTotal s = some n ↔ SizeAt s n := by
  constructor
  · intro h
    have hmem : 40 ∈ s := by
      by_contra hno
      rw [xferTotal_of_notMem hno] at h
      simp at h
    obtain ⟨pre, t, rfl, hpre⟩ := List.eq_append_cons_of_mem hmem
    rw [xferTotal_append hpre, scanLong_eq_some_iff] at h
    obtain ⟨u, rest, rfl, hrest, hn⟩ := h
    exact ⟨pre, u, rest, rfl, hpre, hrest, hn⟩
  · rintro ⟨pre, u, rest, rfl, hpre, hrest, rfl⟩
    rw [xferTotal_append hpre, scanLong_text u hrest]

theorem UNum.mem_text (u : UNum) {b : Byte} (h : b ∈ u.text) :
    isspace b = true ∨ b = 43 ∨ b = 45 ∨ isdigit b = true := by
  rw [UNum.text, List.mem_append, List.mem_append] at h
  rcases h with (h | h) | h
  · exact .inl (u.isspace_blanks b h)
  · have hsign := u.sign_mem
    simp only [List.mem_cons, List.not_mem_nil, or_false] at hsign
    rcases hsign with hsign | hsign | hsign <;> simp_all
  · exact .inr (.inr (.inr (u.isdigit_digits b h)))

/-- A number ends in a digit. -/
theorem UNum.isdigit_getLast (u : UNum) {l : Bytes} {b : Byte} (h : u.text = l ++ [b]) :
    isdigit b = true := by
  have hlast := congrArg List.getLast? h
  rw [UNum.text, List.getLast?_append_of_ne_nil _ u.digits_ne, List.getLast?_concat] at hlast
  exact u.isdigit_digits b (List.mem_of_getLast? hlast)

/-- No number goes on over a blank and a parenthesis. -/
theorem scanLong_append (r s : Bytes) : scanLong (r ++ 32 :: 40 :: s) = scanLong r := by
  refine Option.ext fun n => ?_
  rw [scanLong_eq_some_iff, scanLong_eq_some_iff]
  constructor
  · rintro ⟨u, rest, heq, hrest, hn⟩
    rcases List.append_eq_append_iff.mp heq with ⟨front, hfront, hback⟩ | ⟨back, hr, hback⟩
    · match front with
      | [] => exact ⟨u, [], by simpa using hfront.symm, isdigit_nul, hn⟩
      | [b] =>
        obtain rfl : 32 = b := (List.cons.inj hback).1
        have hlast := u.isdigit_getLast (l := r) (by simpa using hfront)
        exact absurd hlast (by decide)
      | b :: c :: front =>
        obtain rfl : 40 = c := (List.cons.inj (List.cons.inj hback).2).1
        have hmem : 40 ∈ u.text := by simp [hfront]
        exact absurd (u.mem_text hmem) (by decide)
    · refine ⟨u, back, hr, ?_, hn⟩
      cases back with
      | nil => exact isdigit_nul
      | cons b back =>
        rw [hback] at hrest
        exact hrest
  · rintro ⟨u, rest, rfl, hrest, hn⟩
    refine ⟨u, rest ++ 32 :: 40 :: s, by simp, ?_, hn⟩
    cases rest with
    | nil => exact (show isdigit 32 = false by decide)
    | cons b rest => exact hrest

theorem scanLong_sizeText {n : Int} (hn : -2 ^ 63 ≤ n ∧ n < 2 ^ 63) {rest : Bytes}
    (hrest : isdigit (byteAt rest 0) = false) : scanLong (sizeText n ++ rest) = some n := by
  have hdigits : (scanNumber (sizeText n ++ rest)).2.1 ≠ [] := by
    rw [← text_sizeNum, scanNumber_text _ hrest]
    exact (sizeNum n).digits_ne
  rw [scanLong, strtol_sizeText hn hrest]
  exact if_neg hdigits

/-- The number behind the first parenthesis of a name is read, when there is one. -/
theorem xferTotal_xferReply {pre f : Bytes} {n : Int} (rest : Bytes) (hpre : 40 ∉ pre)
    (hn : -2 ^ 63 ≤ n ∧ n < 2 ^ 63) :
    xferTotal (xferReply pre f n rest) = if 40 ∈ f then xferTotal f else some n := by
  have hcode : 40 ∉ ascii "150 " := by decide
  split
  · next hf =>
    obtain ⟨g, r, rfl, hg⟩ := List.eq_append_cons_of_mem hf
    have hcut : xferReply pre (g ++ 40 :: r) n rest = (ascii "150 " ++ pre ++ g) ++
        40 :: (r ++ 32 :: 40 :: (sizeText n ++ ascii " bytes)" ++ rest)) := by
      simp [xferReply, show ascii " (" = [32, 40] from rfl]
    rw [hcut, xferTotal_append (by simp [hcode, hpre, hg]), scanLong_append, xferTotal_append hg]
  · next hf =>
    have hcut : xferReply pre f n rest = (ascii "150 " ++ pre ++ f ++ [32]) ++
        40 :: (sizeText n ++ (ascii " bytes)" ++ rest)) := by
      simp [xferReply, show ascii " (" = [32, 40] from rfl]
    have hstop : isdigit (byteAt (ascii " bytes)" ++ rest) 0) = false :=
      show isdigit 32 = false by decide
    rw [hcut, xferTotal_append (by simp [hcode, hpre, hf]), scanLong_sizeText hn hstop]

theorem total_cprocXfer (w : World α) (t : ℕ) (buf : Bytes) :
    ((cprocXfer t 150 buf w).2.xfers t).total = (xferTotal buf).getD (w.xfers t).total := by
  rw [cprocXfer, if_pos (by decide), if_pos rfl]
  cases xferTotal buf with
  | none => rfl
  | some n => simp [World.mapXfer, World.emit]

/-- **The size that is read.** From a `150` reply with the size of a file behind its name,
`cproc_xfer` reads that size if and only if there is no opening parenthesis in the name, or that
number stands behind the first one, or it was known before and none stands there. And a `150` reply
leaves the size alone if and only if no number but that stands behind its first parenthesis. -/
theorem total_cprocXfer_iff (w : World α) (t : ℕ) :
    (∀ pre f n rest, 40 ∉ pre → -2 ^ 63 ≤ n ∧ n < 2 ^ 63 →
      (((cprocXfer t 150 (xferReply pre f n rest) w).2.xfers t).total = n ↔
        40 ∉ f ∨ SizeAt f n ∨ (∀ m, ¬SizeAt f m) ∧ (w.xfers t).total = n)) ∧
      ∀ buf, ((cprocXfer t 150 buf w).2.xfers t).total = (w.xfers t).total ↔
        ∀ n, SizeAt buf n → n = (w.xfers t).total := by
  have hnone : ∀ {s : Bytes}, xferTotal s = none → ∀ m, ¬SizeAt s m := by
    intro s hs m hm
    rw [← xferTotal_eq_some_iff, hs] at hm
    simp at hm
  have hsome : ∀ {s : Bytes} {m n : Int}, xferTotal s = some m → (SizeAt s n ↔ m = n) := by
    intro s m n hs
    rw [← xferTotal_eq_some_iff, hs, Option.some.injEq]
  refine ⟨fun pre f n rest hpre hn => ?_, fun buf => ?_⟩
  · rw [total_cprocXfer, xferTotal_xferReply rest hpre hn]
    split
    · next hf =>
      cases hs : xferTotal f with
      | none => simp [hf, hnone hs]
      | some m => simp [hf, hsome hs]
    · next hf => simp [hf]
  · rw [total_cprocXfer]
    cases hs : xferTotal buf with
    | none => simp [hnone hs]
    | some m => simp [hsome hs]

/-- A client without transfers. -/
def noTransfers : World Unit := World.connected 3 none none ()

/-- A file is announced with its size, and another one without. -/
theorem total_cprocXfer_plain :
    ((cprocXfer 0 150 (xferReply (ascii "Opening ") (ascii "f") 5 []) noTransfers).2.xfers 0).total
        = 5 ∧
      ((cprocXfer 0 150 (ascii "150 Opening f") noTransfers).2.xfers 0).total
        = (noTransfers.xfers 0).total :=
  ⟨((total_cprocXfer_iff noTransfers 0).1 _ _ _ _ (by decide) (by decide)).mpr (.inl (by decide)),
    ((total_cprocXfer_iff noTransfers 0).2 _).mpr fun _ ⟨pre, _, _, h, _⟩ =>
      absurd (h ▸ by simp : (40 : Byte) ∈ ascii "150 Opening f") (by decide)⟩

/-- The name of a file has a number in parentheses. -/
theorem not_total_cprocXfer : ¬∀ pre f n rest, 40 ∉ pre ∧ 41 ∉ pre → 40 ∉ rest ∧ 41 ∉ rest →
    ¬SizeGroup f → -2 ^ 63 ≤ n ∧ n < 2 ^ 63 →
      ((cprocXfer 0 150 (xferReply pre f n rest) noTransfers).2.xfers 0).total = n := by
  intro h
  have hgroup : ¬SizeGroup (ascii "a(1)") := by
    rintro ⟨pre, ds, rest, heq, -, -⟩
    have hblank : 32 ∈ ascii "a(1)" := by
      rw [heq]
      simp [ascii]
    exact absurd hblank (by decide)
  have htotal := h [] (ascii "a(1)") 5 [] (by decide) (by decide) hgroup (by decide)
  exact absurd htotal (by decide +kernel)

end Visftp
