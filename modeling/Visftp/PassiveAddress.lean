import Visftp.Handlers
import Visftp.ScanNumbers

/-!
# The address of a data connection

`ftp_active` prints an address and a port as six numbers with commas between them, and `cproc_pasv`
looks for six such numbers in a reply. It tries every place of the reply in turn, the digits of the
code included. So a group has to be found where it starts: no place before it may give another one.

What `%u` reads is a `UNum`. A `Group` is a list of them with commas between them.

## Main definitions

* `portNumbers` — the six numbers of a `PORT` command
* `Group`, `FirstGroup` — what `%u,%u,…` reads, and where it is found first

## Main results

* `scanAddr_eq_some_iff` — `sscanf` reads a group iff there is one
* `pasvAddr_portNumbers` — an address that was printed is read back
* `pasvAddr_of_firstGroup` — a group with a number above `255` is not accepted
* `port_pasv_agree` — the two together
-/

namespace Visftp

open CString

/-- The bytes of an address and of a port. -/
def addrBytes (addr port : ℕ) : List ℕ :=
  [addr >>> 24, addr >>> 16 &&& 255, addr >>> 8 &&& 255, addr &&& 255, port >>> 8, port &&& 255]

/-- The six numbers that `ftp_active` prints for an address and a port. -/
def portNumbers (addr port : ℕ) : Bytes :=
  List.intercalate (ascii ",") ((addrBytes addr port).map decimal)

theorem text_port (addr port : ℕ) :
    (Cmd.port addr port).text = ascii "PORT " ++ portNumbers addr port := rfl

/-! ### A group -/

/-- Numbers with commas between them. -/
def groupText : List UNum → Bytes
  | [] => []
  | [u] => u.text
  | u :: us => u.text ++ 44 :: groupText us

/-- At the beginning of `s` there is a group of `n` numbers, and no digit behind it. -/
def Group (n : ℕ) (us : List UNum) (s rest : Bytes) : Prop :=
  us.length = n ∧ s = groupText us ++ rest ∧ isdigit (byteAt rest 0) = false

theorem groupText_cons (u : UNum) {us : List UNum} (h : us ≠ []) :
    groupText (u :: us) = u.text ++ 44 :: groupText us := by
  cases us with
  | nil => exact absurd rfl h
  | cons v us => rfl

theorem scanAddr_succ (s : Bytes) {n : ℕ} (hn : n ≠ 0) : scanAddr s (n + 1) =
    (scanUInt s).bind fun r =>
      if byteAt r.2 0 = 44 then (scanAddr r.2.tail n).map (r.1 :: ·) else none := by
  obtain ⟨n, rfl⟩ := Nat.exists_eq_succ_of_ne_zero hn
  rw [scanAddr]
  · cases scanUInt s <;> rfl
  · simp

section Group

variable {n : ℕ} {us : List UNum} {s rest : Bytes}

theorem Group.scanAddr (h : Group n us s rest) : scanAddr s n = some (us.map UNum.value) := by
  obtain ⟨hlen, rfl, hrest⟩ := h
  induction us generalizing n with
  | nil =>
    subst hlen
    rfl
  | cons u us ih =>
    subst hlen
    by_cases hus : us = []
    · subst hus
      change (scanUInt (u.text ++ rest)).map _ = _
      rw [scanUInt_text u hrest]
      rfl
    · have hcomma : isdigit (byteAt (44 :: (groupText us ++ rest)) 0) = false := by
        change isdigit 44 = false
        decide
      rw [List.length_cons, scanAddr_succ _ (by simpa using hus), groupText_cons u hus,
        List.append_assoc, List.cons_append, scanUInt_text u hcomma]
      simp [byteAt, ih rfl]

/-- **`sscanf` reads a group** wherever there is one, and nowhere else. -/
theorem scanAddr_eq_some_iff {vs : List ℕ} (hn : n ≠ 0) :
    Visftp.scanAddr s n = some vs ↔ ∃ us rest, Group n us s rest ∧ vs = us.map UNum.value := by
  constructor
  · intro h
    induction n generalizing s vs with
    | zero => exact absurd rfl hn
    | succ n ih =>
      by_cases hn0 : n = 0
      · subst hn0
        change (scanUInt s).map _ = _ at h
        obtain ⟨⟨v, rest⟩, hscan, rfl⟩ := Option.map_eq_some_iff.mp h
        obtain ⟨u, rfl, hrest, rfl⟩ := exists_of_scanUInt hscan
        exact ⟨[u], rest, ⟨rfl, rfl, hrest⟩, rfl⟩
      · rw [scanAddr_succ s hn0] at h
        obtain ⟨⟨v, r⟩, hscan, h⟩ := Option.bind_eq_some_iff.mp h
        dsimp only at h
        split_ifs at h with hcomma
        obtain ⟨vs', hvs, rfl⟩ := Option.map_eq_some_iff.mp h
        obtain ⟨u, rfl, -, rfl⟩ := exists_of_scanUInt hscan
        obtain ⟨us, rest, ⟨hlen, hr, hrest⟩, rfl⟩ := ih hn0 hvs
        have hus : us ≠ [] := by
          rintro rfl
          exact hn0 hlen.symm
        have hcons : r = 44 :: r.tail := by
          cases r with
          | nil => exact absurd hcomma (by decide)
          | cons b r =>
            have hb : b = 44 := by simpa [byteAt] using hcomma
            rw [hb, List.tail_cons]
        refine ⟨u :: us, rest, ⟨by simp [hlen], ?_, hrest⟩, rfl⟩
        rw [groupText_cons u hus, List.append_assoc, List.cons_append, ← hr, ← hcons]
  · rintro ⟨us, rest, hgroup, rfl⟩
    exact hgroup.scanAddr

/-- The first group of six numbers of `s` stands behind `pre`. -/
def FirstGroup (us : List UNum) (pre s : Bytes) : Prop :=
  (∃ q rest, s = pre ++ q ∧ Group 6 us q rest) ∧
    ∀ p q, s = p ++ q → p.length < pre.length → ∀ us' rest, ¬Group 6 us' q rest

/-- A group is the first one if `sscanf` fails at every place before it. -/
theorem firstGroup_of_scanAddr {pre q : Bytes} (h : Group 6 us q rest)
    (hnone : ∀ k < pre.length, Visftp.scanAddr ((pre ++ q).drop k) 6 = none) :
    FirstGroup us pre (pre ++ q) := by
  refine ⟨⟨q, rest, rfl, h⟩, fun p r hpr hlt us' rest' hgroup => ?_⟩
  have hfail := hnone p.length hlt
  rw [hpr, List.drop_left, hgroup.scanAddr] at hfail
  simp at hfail

theorem findAddr_of_none {s : Bytes} (hs : s ≠ []) (h : Visftp.scanAddr s 6 = none) :
    findAddr s = findAddr s.tail := by
  obtain ⟨c, s, rfl⟩ := List.exists_cons_of_ne_nil hs
  rw [findAddr, h, List.tail_cons]

theorem groupText_ne_nil (h : us ≠ []) : groupText us ≠ [] := by
  obtain ⟨u, us, rfl⟩ := List.exists_cons_of_ne_nil h
  have hu : u.text ≠ [] := by simp [UNum.text, u.digits_ne]
  by_cases hus : us = []
  · subst hus
    exact hu
  · rw [groupText_cons u hus]
    simp

theorem Group.findAddr (h : Group 6 us s rest) : findAddr s = some (us.map UNum.value) := by
  have hscan := h.scanAddr
  obtain ⟨hlen, rfl, -⟩ := h
  have hne : groupText us ++ rest ≠ [] := by
    have hus : us ≠ [] := by rintro rfl; simp at hlen
    simp [groupText_ne_nil hus]
  obtain ⟨c, s, hcs⟩ := List.exists_cons_of_ne_nil hne
  rw [hcs] at hscan ⊢
  rw [Visftp.findAddr, hscan]

/-- **The search finds the first group.** -/
theorem FirstGroup.findAddr {pre : Bytes} (h : FirstGroup us pre s) :
    Visftp.findAddr s = some (us.map UNum.value) := by
  obtain ⟨⟨q, rest, rfl, hgroup⟩, hfirst⟩ := h
  induction pre with
  | nil => exact hgroup.findAddr
  | cons c pre ih =>
    have hnone : Visftp.scanAddr (c :: pre ++ q) 6 = none := by
      by_contra hsome
      obtain ⟨vs, hvs⟩ := Option.ne_none_iff_exists'.mp hsome
      obtain ⟨us', rest', hgroup', -⟩ := (scanAddr_eq_some_iff (by decide)).mp hvs
      exact hfirst [] _ rfl (by simp) us' rest' hgroup'
    rw [findAddr_of_none (by simp) hnone, List.cons_append, List.tail_cons]
    exact ih fun p r hpr hlt us' rest' =>
      hfirst (c :: p) r (by simp [hpr]) (by simpa using hlt) us' rest'

end Group

/-! ### Behind a text without digits -/

section Behind

variable {us : List UNum} {u : UNum} {t rest : Bytes}

/-- Blanks in front of a number, and a plus sign, belong to it. -/
theorem value_signed {v : UNum} (hd : v.digits = u.digits) (hv : v.sign ≠ [45])
    (hu : u.sign ≠ [45]) : v.value = u.value := by
  simp [UNum.value, hd, hv, hu]

/-- **A text without digits and minus signs** in front of a group is skipped, or it ends in blanks
and a plus sign that are read with the first number. -/
theorem scanAddr_behind (hu : u.blanks = [] ∧ u.sign = []) (hlen : (u :: us).length = 6)
    (hrest : isdigit (byteAt rest 0) = false) (ht : ∀ b ∈ t, isdigit b = false ∧ b ≠ 45) :
    scanAddr (t ++ (groupText (u :: us) ++ rest)) 6 = none ∨
      scanAddr (t ++ (groupText (u :: us) ++ rest)) 6 = some ((u :: us).map UNum.value) := by
  have hus : us ≠ [] := by rintro rfl; simp at hlen
  have htext : u.text = u.digits := by rw [UNum.text, hu.1, hu.2]; rfl
  -- a number with other blanks and another sign in front of the digits of `u`
  have hsigned : ∀ v : UNum, v.digits = u.digits → v.sign ≠ [45] → t = v.blanks ++ v.sign →
      scanAddr (t ++ (groupText (u :: us) ++ rest)) 6 = some ((u :: us).map UNum.value) := by
    intro v hd hv htv
    have hgroup : Group 6 (v :: us) (t ++ (groupText (u :: us) ++ rest)) rest := by
      refine ⟨hlen, ?_, hrest⟩
      rw [groupText_cons u hus, groupText_cons v hus, htext, UNum.text, ← hd, htv]
      simp
    rw [hgroup.scanAddr, List.map_cons, List.map_cons, value_signed hd hv (by simp [hu.2])]
  have hcut : t.takeWhile isspace ++ skipSpace t = t := List.takeWhile_append_dropWhile
  have hblank : ∀ b ∈ t.takeWhile isspace, isspace b = true := fun b hb => List.mem_takeWhile_imp hb
  cases hskip : skipSpace t with
  | nil =>
    refine .inr (hsigned ⟨t, [], u.digits, ?_, by simp, u.isdigit_digits, u.digits_ne⟩ rfl
      (by simp) (by simp))
    rw [hskip, List.append_nil] at hcut
    rwa [hcut] at hblank
  | cons b q =>
    have hb : b ∈ t := skipSpace_subset (hskip ▸ List.mem_cons_self)
    obtain ⟨hdigit, hminus⟩ := ht b hb
    have hspace : isspace b = false := stop_of_dropWhile hskip
    by_cases hplus : b = 43 ∧ q = []
    · obtain ⟨rfl, rfl⟩ := hplus
      exact .inr (hsigned ⟨t.takeWhile isspace, [43], u.digits, hblank, by simp, u.isdigit_digits,
        u.digits_ne⟩ rfl (by simp) (by rw [hskip] at hcut; exact hcut.symm))
    · -- a character that no number starts with, or a plus sign with one behind it
      have hnumber : skipSpace (t ++ (groupText (u :: us) ++ rest)) =
          b :: (q ++ (groupText (u :: us) ++ rest)) := by
        rw [← hcut, List.append_assoc, skipSpace_append hblank, hskip]
        exact skipSpace_of_not_isspace hspace
      have hbyte : ∀ s : Bytes, byteAt (b :: s) 0 = b := fun _ => rfl
      have hnone : scanUInt (t ++ (groupText (u :: us) ++ rest)) = none := by
        rw [scanUInt, scanNumber]
        dsimp only
        rw [hnumber, hbyte]
        by_cases h43 : b = 43
        · obtain ⟨c, q', hq⟩ := List.exists_cons_of_ne_nil fun hq => hplus ⟨h43, hq⟩
          have hc : c ∈ t := (List.dropWhile_suffix isspace).subset <| by
            change c ∈ skipSpace t
            simp [hskip, hq]
          simp [h43, hq, (ht c hc).1]
        · simp [h43, hminus, hdigit]
      rw [scanAddr_succ _ (by decide), hnone]
      exact .inl rfl

/-- Digits that no comma follows are no first number of a group. -/
theorem scanAddr_of_code {ds : Bytes} {b : Byte} (hne : ds ≠ []) (hds : ∀ d ∈ ds, isdigit d = true)
    (hb : isdigit b = false ∧ b ≠ 44) (s : Bytes) : scanAddr (ds ++ b :: s) 6 = none := by
  have hstop : isdigit (byteAt (b :: s) 0) = false := hb.1
  let u : UNum := ⟨[], [], ds, by simp, by simp, hds, hne⟩
  have htext : ds = u.text := rfl
  have hcomma : byteAt (b :: s) 0 ≠ 44 := hb.2
  rw [scanAddr_succ _ (by decide), htext, scanUInt_text u hstop, Option.bind_some, if_neg hcomma]

/-- The search over a text that a group follows. -/
theorem findAddr_append {pre s : Bytes} {vs : List ℕ} (hs : findAddr s = some vs)
    (h : ∀ q, q <:+ pre → q ≠ [] → scanAddr (q ++ s) 6 = none ∨ scanAddr (q ++ s) 6 = some vs) :
    findAddr (pre ++ s) = some vs := by
  induction pre with
  | nil => exact hs
  | cons c pre ih =>
    have hrest := ih fun q hq => h q (hq.trans (List.suffix_cons c pre))
    rw [List.cons_append, findAddr]
    rcases h (c :: pre) List.suffix_rfl (by simp) with hnone | hsome
    · rw [← List.cons_append, hnone]
      exact hrest
    · rw [← List.cons_append, hsome]

/-- Behind the code of the reply and a text without digits and minus signs, the group is read. -/
theorem findAddr_reply (hu : u.blanks = [] ∧ u.sign = []) (hlen : (u :: us).length = 6)
    (hrest : isdigit (byteAt rest 0) = false) (ht : ∀ b ∈ t, isdigit b = false ∧ b ≠ 45) :
    findAddr (ascii "227 " ++ t ++ (groupText (u :: us) ++ rest)) =
      some ((u :: us).map UNum.value) := by
  have hgroup : Group 6 (u :: us) (groupText (u :: us) ++ rest) rest := ⟨hlen, rfl, hrest⟩
  refine findAddr_append hgroup.findAddr fun q hq hne => ?_
  have hblank : isdigit 32 = false ∧ (32 : Byte) ≠ 44 := by decide
  have hcode : ∀ ds : Bytes, ds ≠ [] → ds.all isdigit = true →
      scanAddr (ds ++ 32 :: (t ++ (groupText (u :: us) ++ rest))) 6 = none :=
    fun ds hne hds => scanAddr_of_code hne (List.all_eq_true.mp hds) hblank _
  change q <:+ 50 :: 50 :: 55 :: 32 :: t at hq
  rcases List.suffix_cons_iff.mp hq with rfl | hq
  · exact .inl (hcode [50, 50, 55] (by simp) (by decide))
  rcases List.suffix_cons_iff.mp hq with rfl | hq
  · exact .inl (hcode [50, 55] (by simp) (by decide))
  rcases List.suffix_cons_iff.mp hq with rfl | hq
  · exact .inl (hcode [55] (by simp) (by decide))
  refine scanAddr_behind hu hlen hrest fun b hb => ?_
  rcases List.mem_cons.mp (hq.subset hb) with rfl | hb
  · decide
  · exact ht b hb

end Behind

/-! ### The address -/

/-- Bytes put together are added up. -/
theorem or_eq_add {x y k : ℕ} (hy : y < 2 ^ k) : x <<< k ||| y = 2 ^ k * x + y := by
  rw [Nat.shiftLeft_eq, Nat.mul_comm, Nat.two_pow_add_eq_or_of_lt hy]

theorem and_255 (x : ℕ) : x &&& 255 = x % 256 := Nat.and_two_pow_sub_one_eq_mod x 8

/-- The four bytes of an address and the two of a port give them back. -/
theorem join_addr {a : ℕ} (ha : a < 2 ^ 32) :
    (a >>> 24) <<< 24 ||| (a >>> 16 &&& 255) <<< 16 ||| (a >>> 8 &&& 255) <<< 8 |||
      (a &&& 255) = a := by
  have hshift : ∀ x : ℕ, x <<< 24 = (x <<< 16) <<< 8 ∧ x <<< 16 = (x <<< 8) <<< 8 := fun x => by
    simp [← Nat.shiftLeft_add]
  have h₁ : (a >>> 16 &&& 255) < 2 ^ 8 := by rw [and_255]; omega
  have h₂ : (a >>> 8 &&& 255) < 2 ^ 8 := by rw [and_255]; omega
  have h₃ : (a &&& 255) < 2 ^ 8 := by rw [and_255]; omega
  rw [(hshift _).1, (hshift (a >>> 24)).2, (hshift (a >>> 16 &&& 255)).2,
    ← Nat.shiftLeft_or_distrib, ← Nat.shiftLeft_or_distrib, ← Nat.shiftLeft_or_distrib,
    or_eq_add h₁, or_eq_add h₂, or_eq_add h₃, and_255, and_255, and_255]
  simp only [Nat.shiftRight_eq_div_pow]
  omega

theorem join_port (p : ℕ) : (p >>> 8) <<< 8 ||| (p &&& 255) = p := by
  rw [or_eq_add (by rw [and_255]; omega), and_255, Nat.shiftRight_eq_div_pow]
  omega

theorem intercalate_decimal (ns : List ℕ) :
    List.intercalate (ascii ",") (ns.map decimal) = groupText (ns.map UNum.ofNat) := by
  have hcomma : ascii "," = [44] := by decide
  induction ns with
  | nil => rfl
  | cons n ns ih =>
    cases ns with
    | nil => simp [List.intercalate, groupText]
    | cons m ns =>
      rw [List.map_cons (f := UNum.ofNat), groupText_cons _ (by simp), ← ih]
      simp [List.intercalate, hcomma]

theorem map_value_ofNat {ns : List ℕ} (h : ∀ n ∈ ns, n < 2 ^ 32) :
    (ns.map UNum.ofNat).map UNum.value = ns := by
  rw [List.map_map]
  conv_rhs => rw [← List.map_id ns]
  exact List.map_congr_left fun n hn => UNum.value_ofNat (h n hn)

/-- The address and the port of six numbers, if `cproc_pasv` takes them. -/
theorem pasvAddr_of_findAddr {buf : Bytes} {a b c d p q : ℕ}
    (h : findAddr buf = some [a, b, c, d, p, q]) : pasvAddr buf =
      if 256 ≤ a ||| b ||| c ||| d ||| p ||| q then none
      else some (a <<< 24 ||| b <<< 16 ||| c <<< 8 ||| d, p <<< 8 ||| q) := by
  rw [pasvAddr, h]

/-- **An address that was printed is read back**, whatever text without digits and minus signs is
in front of it and whatever text that does not start with a digit behind it. -/
theorem pasvAddr_portNumbers {addr port : ℕ} (ha : addr < 2 ^ 32) (hp : port < 2 ^ 16)
    {text rest : Bytes} (htext : ∀ b ∈ text, isdigit b = false ∧ b ≠ 45)
    (hrest : isdigit (byteAt rest 0) = false) :
    pasvAddr (ascii "227 " ++ text ++ (portNumbers addr port ++ rest)) = some (addr, port) := by
  have hlt : ∀ n ∈ addrBytes addr port, n < 2 ^ 8 := by
    simp only [addrBytes, List.forall_mem_cons, and_255, Nat.shiftRight_eq_div_pow]
    refine ⟨?_, ?_, ?_, ?_, ?_, ?_, by simp⟩ <;> omega
  have hfind : findAddr (ascii "227 " ++ text ++ (portNumbers addr port ++ rest)) =
      some (addrBytes addr port) := by
    have hfound := @findAddr_reply ((addrBytes addr port).tail.map UNum.ofNat)
      (.ofNat (addr >>> 24)) text rest ⟨rfl, rfl⟩ rfl hrest htext
    rw [portNumbers, intercalate_decimal]
    refine hfound.trans (congrArg some ?_)
    exact map_value_ofNat fun n hn => (hlt n hn).trans (by decide)
  have hor : ¬256 ≤ addr >>> 24 ||| (addr >>> 16 &&& 255) ||| (addr >>> 8 &&& 255) |||
      (addr &&& 255) ||| port >>> 8 ||| (port &&& 255) := by
    simp only [addrBytes, List.forall_mem_cons] at hlt
    obtain ⟨h₁, h₂, h₃, h₄, h₅, h₆, -⟩ := hlt
    exact not_le.mpr (Nat.or_lt_two_pow (Nat.or_lt_two_pow (Nat.or_lt_two_pow (Nat.or_lt_two_pow
      (Nat.or_lt_two_pow h₁ h₂) h₃) h₄) h₅) h₆)
  rw [pasvAddr_of_findAddr hfind, if_neg hor, join_addr ha, join_port]

/-- **A group with a number above `255` is not accepted**: the numbers are taken as `%u` reads
them. -/
theorem pasvAddr_of_firstGroup {us : List UNum} {pre buf : Bytes} (h : FirstGroup us pre buf)
    (hlarge : ∃ u ∈ us, 255 < u.value) : pasvAddr buf = none := by
  have hfind := h.findAddr
  obtain ⟨⟨q, rest, -, hlen, -⟩, -⟩ := h
  obtain ⟨a, b, c, d, p, q, hus⟩ : ∃ a b c d p q, us.map UNum.value = [a, b, c, d, p, q] := by
    rcases us with - | ⟨a, - | ⟨b, - | ⟨c, - | ⟨d, - | ⟨p, - | ⟨q, - | ⟨r, us⟩⟩⟩⟩⟩⟩⟩
    · simp at hlen
    · simp at hlen
    · simp at hlen
    · simp at hlen
    · simp at hlen
    · simp at hlen
    · exact ⟨_, _, _, _, _, _, rfl⟩
    · simp at hlen
  rw [hus] at hfind
  have hmem : ∃ n ∈ [a, b, c, d, p, q], 255 < n := by
    obtain ⟨u, hu, hlt⟩ := hlarge
    exact ⟨_, hus ▸ List.mem_map_of_mem hu, hlt⟩
  rw [pasvAddr_of_findAddr hfind, if_pos]
  by_contra hsmall
  have hor : a ||| b ||| c ||| d ||| p ||| q < 2 ^ 8 := not_le.mp hsmall
  have hleft : ∀ x y : ℕ, x ||| y < 2 ^ 8 → x < 2 ^ 8 ∧ y < 2 ^ 8 := fun x y hxy =>
    ⟨Nat.left_le_or.trans_lt hxy, Nat.right_le_or.trans_lt hxy⟩
  obtain ⟨h₅, hq⟩ := hleft _ _ hor
  obtain ⟨h₄, hp⟩ := hleft _ _ h₅
  obtain ⟨h₃, hd⟩ := hleft _ _ h₄
  obtain ⟨h₂, hc⟩ := hleft _ _ h₃
  obtain ⟨ha, hb⟩ := hleft _ _ h₂
  obtain ⟨n, hn, hlt⟩ := hmem
  simp only [List.mem_cons, List.not_mem_nil, or_false] at hn
  omega

/-- **The `PORT` encoder and the `PASV` decoder agree.** The six numbers that `ftp_active` prints
for an address and a port are read back by `cproc_pasv`, behind any text without digits and minus
signs and before any text that does not start with a digit; and a reply whose first group of six
numbers has one above `255` is not accepted. -/
theorem port_pasv_agree :
    (∀ addr port numbers text rest, addr < 2 ^ 32 → port < 2 ^ 16 →
        (Cmd.port addr port).text = ascii "PORT " ++ numbers →
        (∀ b ∈ text, isdigit b = false ∧ b ≠ 45) → isdigit (byteAt rest 0) = false →
        pasvAddr (ascii "227 " ++ text ++ (numbers ++ rest)) = some (addr, port)) ∧
      ∀ us pre buf, FirstGroup us pre buf → (∃ u ∈ us, 255 < u.value) →
        pasvAddr buf = none ∧ ∀ (α : Type) (w : World α), cprocPasv 227 buf w = noPasv
          (errmsg (ascii "ftp_passive: failed to parse response: " ++ buf ++ ascii "\n") w) := by
  refine ⟨fun addr port numbers text rest ha hp hnumbers htext hrest => ?_,
    fun us pre buf hgroup hlarge => ?_⟩
  · obtain rfl : portNumbers addr port = numbers :=
      List.append_cancel_left ((text_port addr port).symm.trans hnumbers)
    exact pasvAddr_portNumbers ha hp htext hrest
  · have hnone := pasvAddr_of_firstGroup hgroup hlarge
    refine ⟨hnone, fun α w => ?_⟩
    rw [cprocPasv, if_neg (by decide), hnone]

theorem plain_of_all {t : Bytes} (h : t.all (fun b => !isdigit b && b != 45) = true) :
    ∀ b ∈ t, isdigit b = false ∧ b ≠ 45 := fun b hb => by
  simpa using List.all_eq_true.mp h b hb

/-- A reply as servers send it, and one with a number that is too large. -/
theorem port_pasv_agree_replies :
    pasvAddr (ascii "227 Entering Passive Mode (127,0,0,1,16,1).") = some (2130706433, 4097) ∧
      pasvAddr (ascii "227 (300,0,0,1,16,1)") = none :=
  ⟨port_pasv_agree.1 2130706433 4097 (ascii "127,0,0,1,16,1") (ascii "Entering Passive Mode (")
      (ascii ").") (by decide) (by decide) (by decide) (plain_of_all (by decide)) (by decide),
    (port_pasv_agree.2 ([300, 0, 0, 1, 16, 1].map UNum.ofNat) (ascii "227 (")
      (ascii "227 (300,0,0,1,16,1)")
      (@firstGroup_of_scanAddr _ (ascii ")") _ _ ⟨rfl, by decide, by decide⟩ (by decide))
      ⟨.ofNat 300, by simp, by decide⟩).1⟩

end Visftp
