import Mathlib.Data.List.Sublists
import Visftp.Lib.Lines
import Visftp.Growth
import Visftp.Moves

/-!
# Lines of the control connection

`handle_control` cuts what `recv` delivers into lines and keeps the unfinished line at the end for
the next time. It keeps it only when a line has ended in the same result of `recv`: the bytes of a
result without a line feed are dropped, with the part of the line that was kept before them.
`proc_control` is handed a C string, which ends at the first carriage return or NUL of a line.

`assemble` is what the code makes of a sequence of `recv` results, `streamLines` are the lines of
the stream they are cut from. The strings are the texts of the lines as long as the stream is
`Unbroken` and its lines are plain. When it is not, there are still as many strings, but one of them
is shorter than the text of its line.

## Main definitions

* `lineText`, `PlainLine` — the text of a line
* `Unbroken` — where a stream is cut
* `ReadRight` — the lines are read as they were sent

## Main results

* `cstr_nulled_eq_iff`, `map_cstr_assemble_iff` — one line, and all of them
* `scanBytes_spec`, `assembled_run` — the client computes `assemble`
* `readRight_run_iff` — when the lines are read right
-/

namespace Visftp

open CString Lines Session Relation

/-! ### Lines from chunks -/

/-- Received bytes with every carriage return overwritten by a NUL. -/
def nulled (b : Bytes) : Bytes := b.map fun x => if x = cr then nul else x

/-- What one `recv` result adds: the lines passed on so far, and the bytes kept for the next. -/
def feed (st : List Bytes × Bytes) (b : Bytes) : List Bytes × Bytes :=
  (st.1 ++ (splitFrom lf st.2 (nulled b)).1,
    if lf ∈ b then (splitFrom lf st.2 (nulled b)).2 else [])

/-- The lines passed on for a sequence of `recv` results, and the bytes kept. -/
def assemble (chunks : List Bytes) : List Bytes × Bytes := chunks.foldl feed ([], [])

/-- The lines of a stream, without their line feeds. -/
def streamLines (chunks : List Bytes) : List Bytes := lines lf chunks.flatten

/-- The text of a line: a carriage return at its end belongs to its terminator. -/
def lineText (l : Bytes) : Bytes := if l.getLast? = some cr then l.dropLast else l

/-- A line with a text that is a C string, and no carriage return in it. -/
def PlainLine (l : Bytes) : Prop := nul ∉ lineText l ∧ cr ∉ lineText l

/-- **No line is broken**: when a chunk with a line feed comes directly behind one without, that one
is the carriage return of an empty line, which ends at once. -/
def Unbroken (chunks : List Bytes) : Prop :=
  ∀ pre b b' post, chunks = pre ++ b :: b' :: post → lf ∈ b' →
    lf ∈ b ∨ b = [cr] ∧ rest lf pre.flatten = [] ∧ b'.head? = some lf

theorem nulled_append (b b' : Bytes) : nulled (b ++ b') = nulled b ++ nulled b' :=
  List.map_append

theorem lf_mem_nulled {b : Bytes} : lf ∈ nulled b ↔ lf ∈ b := by
  simp only [nulled, List.mem_map]
  constructor
  · rintro ⟨x, hx, h⟩
    split at h
    · exact absurd h (by decide)
    · exact h ▸ hx
  · intro h
    exact ⟨lf, h, by decide⟩

theorem assemble_concat (chunks : List Bytes) (b : Bytes) :
    assemble (chunks ++ [b]) = feed (assemble chunks) b := by
  simp [assemble]

theorem splitFrom_nulled (cur b : Bytes) : splitFrom lf (nulled cur) (nulled b) =
    ((splitFrom lf cur b).1.map nulled, nulled (splitFrom lf cur b).2) := by
  refine splitFrom_map (fun x => ?_) cur b
  split
  · next h => subst h; decide
  · exact Iff.rfl

theorem streamLines_concat (chunks : List Bytes) (b : Bytes) :
    streamLines (chunks ++ [b]) =
      streamLines chunks ++ (splitFrom lf (rest lf chunks.flatten) b).1 := by
  simp [streamLines, lines, rest, splitFrom_append]

/-- As many lines are passed on as the stream has. -/
theorem length_assemble (chunks : List Bytes) :
    (assemble chunks).1.length = (streamLines chunks).length := by
  induction chunks using List.reverseRecOn with
  | nil => rfl
  | append_singleton chunks b ih =>
    have hcount : (nulled b).count lf = b.count lf := by
      have h := congrArg (fun r => r.1.length) (splitFrom_nulled [] b)
      dsimp only at h
      rwa [length_splitFrom, List.length_map, length_splitFrom] at h
    rw [assemble_concat, streamLines_concat, feed, List.length_append, List.length_append, ih,
      length_splitFrom, length_splitFrom, hcount]

/-- **What is lost of the unfinished line**: nothing when the last chunk has a line feed, and else
all of it. -/
theorem assemble_snd_concat (chunks : List Bytes) (b : Bytes) :
    (lf ∈ b → (assemble (chunks ++ [b])).2 = nulled (rest lf (chunks ++ [b]).flatten)) ∧
      (lf ∉ b → (assemble (chunks ++ [b])).2 = [] ∧
        rest lf (chunks ++ [b]).flatten = rest lf chunks.flatten ++ b) := by
  have hrest : rest lf (chunks ++ [b]).flatten = (splitFrom lf (rest lf chunks.flatten) b).2 := by
    simp [rest, splitFrom_append]
  rw [assemble_concat, feed, hrest]
  refine ⟨fun hlf => ?_, fun hlf => ⟨if_neg hlf, ?_⟩⟩
  · rw [if_pos hlf, splitFrom_snd_of_mem (lf_mem_nulled.mpr hlf) _
      (nulled (rest lf chunks.flatten)), splitFrom_nulled]
  · rw [splitFrom_of_notMem hlf]

/-! ### Strings from lines -/

theorem length_lineText (l : Bytes) :
    (lineText l).length + (if l.getLast? = some cr then 1 else 0) = l.length := by
  rw [lineText]
  split
  · next h =>
    have hne : l ≠ [] := by
      rintro rfl
      simp at h
    rw [List.length_dropLast, Nat.sub_add_cancel (List.length_pos_iff.mpr hne)]
  · rfl

theorem nulled_eq_self {l : Bytes} (h : cr ∉ l) : nulled l = l := by
  refine (List.map_congr_left fun x hx => if_neg ?_).trans (List.map_id l)
  rintro rfl
  exact h hx

theorem cr_notMem_nulled (l : Bytes) : cr ∉ nulled l := by
  intro h
  obtain ⟨x, -, hx⟩ := List.mem_map.mp h
  split at hx
  · exact absurd hx (by decide)
  · next hne => exact hne hx

/-- The string of a whole line is its text, if that is plain. -/
theorem cstr_nulled_of_plainLine {l : Bytes} (h : PlainLine l) : cstr (nulled l) = lineText l := by
  obtain ⟨hnul, hcr⟩ := h
  rw [lineText] at *
  split at hnul
  · next hlast =>
    rw [if_pos hlast] at hcr ⊢
    obtain ⟨front, rfl⟩ := List.getLast?_eq_some_iff.mp hlast
    rw [List.dropLast_concat] at hnul hcr ⊢
    rw [nulled_append, nulled_eq_self hcr]
    exact cstr_append_nul hnul []
  · next hlast =>
    rw [if_neg hlast] at hcr ⊢
    rw [nulled_eq_self hcr, cstr_eq_self hnul]

/-- **One line**: what is left of it when the bytes `lost` are dropped makes the string of the whole
line if and only if the line is plain and nothing of its text is lost. -/
theorem cstr_nulled_eq_iff (lost l : Bytes) : cstr (nulled l) = lineText (lost ++ l) ↔
    PlainLine (lost ++ l) ∧ (lost = [] ∨ lost = [cr] ∧ l = []) := by
  constructor
  · intro h
    have hsub : cstr (nulled l) ⊆ nulled l := (List.takeWhile_sublist _).subset
    refine ⟨⟨h ▸ nul_notMem_cstr _, fun hmem => cr_notMem_nulled l (hsub (h ▸ hmem))⟩, ?_⟩
    have hle : (cstr (nulled l)).length ≤ l.length :=
      (List.takeWhile_sublist _).length_le.trans (List.length_map _).le
    have hlen := length_lineText (lost ++ l)
    rw [← h, List.length_append] at hlen
    rcases lost.eq_nil_or_concat' with rfl | ⟨lost, x, rfl⟩
    · exact .inl rfl
    rw [List.length_append, List.length_singleton] at hlen
    split at hlen
    swap
    · omega
    next hlast =>
    -- the string is as long as what is left, so there is no carriage return in it
    obtain rfl : lost = [] := List.eq_nil_of_length_eq_zero (by omega)
    have hsame : (cstr (nulled l)).length = (nulled l).length := by
      rw [show (nulled l).length = l.length from List.length_map _]
      omega
    have hall : cstr (nulled l) = nulled l := (List.takeWhile_prefix _).eq_of_length hsame
    have hcr : cr ∉ l := by
      intro hmem
      have hnul : nul ∈ nulled l := List.mem_map.mpr ⟨cr, hmem, if_pos rfl⟩
      exact nul_notMem_cstr (nulled l) (by rwa [hall])
    rcases l.eq_nil_or_concat' with rfl | ⟨l, y, rfl⟩
    · exact .inr ⟨by simpa using hlast, rfl⟩
    · rw [← List.append_assoc, List.getLast?_concat] at hlast
      exact absurd (by simp [Option.some.inj hlast]) hcr
  · rintro ⟨hplain, rfl | ⟨rfl, rfl⟩⟩
    · exact cstr_nulled_of_plainLine hplain
    · rfl

theorem cstr_nulled_eq_lineText_iff {l : Bytes} : cstr (nulled l) = lineText l ↔ PlainLine l := by
  have h := cstr_nulled_eq_iff [] l
  simpa using h

theorem map_cstr_nulled_iff (ls : List Bytes) :
    (ls.map nulled).map cstr = ls.map lineText ↔ ∀ l ∈ ls, PlainLine l := by
  rw [List.map_map, List.map_inj_left]
  exact forall₂_congr fun l _ => cstr_nulled_eq_lineText_iff

/-! ### Streams that are cut -/

theorem unbroken_concat {chunks : List Bytes} {b : Bytes} (h : lf ∉ b ∨ chunks = []) :
    Unbroken (chunks ++ [b]) ↔ Unbroken chunks := by
  constructor
  · rintro hu pre c c' post rfl
    exact hu pre c c' (post ++ [b]) (by simp)
  · rintro hu pre c c' post heq hc'
    rcases post.eq_nil_or_concat' with rfl | ⟨post, x, rfl⟩
    · have hends : chunks ++ [b] = (pre ++ [c]) ++ [c'] := by simpa using heq
      obtain ⟨hfront, hb⟩ := List.append_inj' hends rfl
      rcases h with h | h
      · exact absurd (List.singleton_inj.mp hb ▸ hc') h
      · simp [h] at hfront
    · have hends : chunks ++ [b] = (pre ++ c :: c' :: post) ++ [x] := by simpa using heq
      exact hu pre c c' post (List.append_inj' hends rfl).1 hc'

theorem unbroken_concat_of_mem {chunks : List Bytes} {b b' : Bytes} (h : lf ∈ b') :
    Unbroken (chunks ++ [b] ++ [b']) ↔ Unbroken (chunks ++ [b]) ∧
      (lf ∈ b ∨ b = [cr] ∧ rest lf chunks.flatten = [] ∧ b'.head? = some lf) := by
  constructor
  · intro hu
    refine ⟨?_, hu chunks b b' [] (by simp) h⟩
    rintro pre c c' post heq
    exact hu pre c c' (post ++ [b']) (by rw [heq]; simp)
  · rintro ⟨hu, hlast⟩ pre c c' post heq hc'
    rcases post.eq_nil_or_concat' with rfl | ⟨post, x, rfl⟩
    · have hends : chunks ++ [b] ++ [b'] = (pre ++ [c]) ++ [c'] := by simpa using heq
      obtain ⟨hfront, hb'⟩ := List.append_inj' hends rfl
      obtain ⟨rfl, hb⟩ := List.append_inj' hfront rfl
      rw [← List.singleton_inj.mp hb, ← List.singleton_inj.mp hb']
      exact hlast
    · have hends : chunks ++ [b] ++ [b'] = (pre ++ c :: c' :: post) ++ [x] := by simpa using heq
      exact hu pre c c' post (List.append_inj' hends rfl).1 hc'

/-- **The line that ends first in a chunk**: behind an unbroken stream, its string is its text if
and only if it is not broken there and is plain. -/
theorem unbroken_line_iff {chunks : List Bytes} (hne : ∀ c ∈ chunks, c ≠ []) {q : Bytes}
    (hq : lf ∉ q) (more : Bytes) :
    Unbroken (chunks ++ [q ++ lf :: more]) ∧ PlainLine (rest lf chunks.flatten ++ q) ↔
      Unbroken chunks ∧
        cstr ((assemble chunks).2 ++ nulled q) = lineText (rest lf chunks.flatten ++ q) := by
  rcases chunks.eq_nil_or_concat' with rfl | ⟨before, c, rfl⟩
  · rw [unbroken_concat (.inr rfl)]
    exact and_congr_right fun _ => cstr_nulled_eq_lineText_iff.symm
  · have hc : c ≠ [] := hne c (by simp)
    have hhead : (q ++ lf :: more).head? = some lf ↔ q = [] := by
      cases q with
      | nil => simp
      | cons x q =>
        have hx : x ≠ lf := fun hx => hq (by simp [hx])
        simp [hx]
    rw [unbroken_concat_of_mem (by simp), and_assoc]
    refine and_congr_right fun _ => ?_
    by_cases hclf : lf ∈ c
    · rw [(assemble_snd_concat before c).1 hclf, ← nulled_append, cstr_nulled_eq_lineText_iff]
      simp [hclf]
    · -- the chunk before has been dropped, with what was kept before it
      obtain ⟨hsnd, hrest⟩ := (assemble_snd_concat before c).2 hclf
      rw [hsnd, hrest, List.nil_append, cstr_nulled_eq_iff, hhead, and_comm]
      refine and_congr_right fun _ => ?_
      simp only [hclf, false_or, List.append_eq_nil_iff, hc, and_false]
      rw [List.append_eq_singleton_iff]
      simp only [hc, and_false, or_false]
      tauto

/-- **All lines**: the strings are the texts of the lines if and only if no line is broken and all
are plain. -/
theorem map_cstr_assemble_iff {chunks : List Bytes} (hne : ∀ c ∈ chunks, c ≠ []) :
    (assemble chunks).1.map cstr = (streamLines chunks).map lineText ↔
      Unbroken chunks ∧ ∀ l ∈ streamLines chunks, PlainLine l := by
  induction chunks using List.reverseRecOn with
  | nil => exact iff_of_true rfl ⟨by simp [Unbroken], by simp [streamLines, lines]⟩
  | append_singleton chunks b ih =>
    have hne' : ∀ c ∈ chunks, c ≠ [] := fun c hc => hne c (List.mem_append_left _ hc)
    have hlen : ((assemble chunks).1.map cstr).length =
        ((streamLines chunks).map lineText).length := by
      rw [List.length_map, List.length_map, length_assemble]
    rw [assemble_concat, streamLines_concat, feed, List.map_append, List.map_append,
      List.forall_mem_append]
    by_cases hlf : lf ∉ b
    · rw [splitFrom_of_notMem hlf, splitFrom_of_notMem (mt lf_mem_nulled.mp hlf),
        unbroken_concat (.inl hlf)]
      simpa using ih hne'
    obtain ⟨q, more, rfl, hq⟩ := List.eq_append_cons_of_mem (not_not.mp hlf)
    have hnulled : nulled (q ++ lf :: more) = nulled q ++ lf :: nulled more := by
      rw [nulled_append]
      rfl
    have hlines : lines lf (nulled more) = (lines lf more).map nulled :=
      congrArg Prod.fst (splitFrom_nulled [] more)
    have hfirst := unbroken_line_iff hne' hq more
    rw [hnulled, splitFrom_line hq, splitFrom_line (mt lf_mem_nulled.mp hq), hlines,
      List.map_cons, List.map_cons, List.forall_mem_cons]
    constructor
    · intro h
      obtain ⟨hold, hnew⟩ := List.append_inj h hlen
      obtain ⟨hline, hmore⟩ := List.cons_eq_cons.mp hnew
      obtain ⟨hu, hplain⟩ := (ih hne').mp hold
      obtain ⟨hu', hplain'⟩ := hfirst.mpr ⟨hu, hline⟩
      exact ⟨hu', hplain, hplain', (map_cstr_nulled_iff _).mp hmore⟩
    · rintro ⟨hu, hplain, hfirstplain, hmore⟩
      obtain ⟨hu', hline⟩ := hfirst.mp ⟨hu, hfirstplain⟩
      rw [(ih hne').mpr ⟨hu', hplain⟩, hline, (map_cstr_nulled_iff _).mpr hmore]

/-! ### Lines from the control connection -/

/-- The bytes an event received. -/
def Event.chunk? : Event → Option Bytes
  | .recv b => some b
  | _ => none

/-- The line an event passed to `proc_control`, up to its line feed. -/
def Event.line? : Event → Option Bytes
  | .line buf => some buf
  | _ => none

/-- The results of `recv` on the control connection, in order. -/
def received (log : List Event) : List Bytes := (log.filterMap Event.chunk?).reverse

/-- The lines passed to `proc_control`, in order. -/
def passed (log : List Event) : List Bytes := (log.filterMap Event.line?).reverse

@[simp] theorem received_line (buf : Bytes) (log : List Event) :
    received (.line buf :: log) = received log := rfl

@[simp] theorem passed_line (buf : Bytes) (log : List Event) :
    passed (.line buf :: log) = passed log ++ [buf] := by
  simp [passed, Event.line?]

theorem received_passed_append {new : List Event}
    (hnew : ∀ e ∈ new, e.chunk? = none ∧ e.line? = none) (log : List Event) :
    received (new ++ log) = received log ∧ passed (new ++ log) = passed log := by
  have hchunk : new.filterMap Event.chunk? = [] :=
    List.filterMap_eq_nil_iff.mpr fun e he => (hnew e he).1
  have hline : new.filterMap Event.line? = [] :=
    List.filterMap_eq_nil_iff.mpr fun e he => (hnew e he).2
  simp [received, passed, hchunk, hline]

theorem Session.Extends.received_passed {s s' : Session} (h : Extends s s') :
    received s'.log = received s.log ∧ passed s'.log = passed s.log := by
  obtain ⟨new, hlog, hnew⟩ := h
  rw [hlog]
  refine received_passed_append (fun e he => ?_) s.log
  have := hnew e he
  cases e <;> first | exact ⟨rfl, rfl⟩ | cases this

theorem Session.received_passed_meet {s : Session} {e : Event}
    (he : e.chunk? = none ∧ e.line? = none) :
    received (s.meet e).log = received s.log ∧ passed (s.meet e).log = passed s.log := by
  have hnew : ∀ e' ∈ s.response e ++ [e], e'.chunk? = none ∧ e'.line? = none := by
    intro e' he'
    rcases List.mem_append.mp he' with he' | he'
    · obtain ⟨t, rfl | rfl⟩ := eq_of_mem_response he' <;> exact ⟨rfl, rfl⟩
    · exact List.mem_singleton.mp he' ▸ he
  have h := received_passed_append hnew s.log
  rwa [List.append_assoc] at h

theorem Session.Act.received_passed {s s' : Session} (h : Act s s') :
    received s'.log = received s.log ∧ passed s'.log = passed s.log := by
  rcases h.extends with h | ⟨e, -, he, h⟩
  · exact h.received_passed
  · have hmeet : received (s.meet e).log = received s.log ∧ passed (s.meet e).log = passed s.log :=
      received_passed_meet (by cases e <;> first | exact ⟨rfl, rfl⟩ | cases he)
    exact ⟨h.received_passed.1.trans hmeet.1, h.received_passed.2.trans hmeet.2⟩

theorem Session.Reply.received_passed {code : Int} {buf : Bytes} {s s' : Session}
    (h : Reply code buf s s') : received s'.log = received s.log ∧ passed s'.log = passed s.log :=
  have hmeet := received_passed_meet (s := s) (e := .reply code s.cproc s.busy buf) ⟨rfl, rfl⟩
  ⟨h.extends.received_passed.1.trans hmeet.1, h.extends.received_passed.2.trans hmeet.2⟩

variable {α : Type} {w w' : World α}

/-- A line is passed on without another being received or passed on. -/
theorem received_passed_procControl (wait : Int → World α → Int × World α) (buf : Bytes)
    (hs : w.view.ctl = true ∨ w.view.cproc = some .active) :
    received (procControl wait buf w).log = received w.log ∧
      passed (procControl wait buf w).log = passed w.log ∧
      ((procControl wait buf w).view.ctl = true ∨
        (procControl wait buf w).view.cproc = some .active) := by
  rcases reply_procControl wait buf hs with ⟨-, h⟩ | ⟨-, hr⟩
  · have hlog : (procControl wait buf w).log = w.log := congrArg Session.log h
    rw [hlog, h]
    exact ⟨rfl, rfl, hs⟩
  · exact ⟨hr.received_passed.1, hr.received_passed.2, hr.keeps_open hs⟩

/-- **The scan of received bytes**: which lines it passes on, and what it keeps. -/
theorem scanBytes_spec (wait : Int → World α → Int × World α) (bs cur : Bytes) (seen : Bool)
    (hs : w.view.ctl = true ∨ w.view.cproc = some .active) :
    received (scanBytes wait bs cur seen w).log = received w.log ∧
      passed (scanBytes wait bs cur seen w).log =
        passed w.log ++ (splitFrom lf cur (nulled bs)).1 ∧
      (scanBytes wait bs cur seen w).ftp.crecv =
        if seen = true ∨ lf ∈ bs then (splitFrom lf cur (nulled bs)).2 else [] := by
  induction bs generalizing cur seen w with
  | nil => exact ⟨rfl, by simp [scanBytes, nulled, World.mapFtp], by
      simp [scanBytes, nulled, World.mapFtp]⟩
  | cons b bs ih =>
    rw [scanBytes]
    split
    · next hcr =>
      have hnul : nulled (b :: bs) = nul :: nulled bs := by simp [nulled, hcr]
      have hmem : lf ∈ b :: bs ↔ lf ∈ bs := by
        simp [hcr, show lf ≠ cr by decide]
      rw [hnul, splitFrom_cons_of_ne (by decide)]
      simpa only [hmem] using ih (cur ++ [nul]) seen hs
    split
    · next hcr hlf =>
      subst hlf
      have hlf : nulled (lf :: bs) = lf :: nulled bs := by simp [nulled, hcr]
      set g := w.emit (.line cur) with hg
      obtain ⟨hrec, hpass, hopen⟩ := received_passed_procControl wait (cstr cur) (w := g) hs
      obtain ⟨hrec', hpass', hcrecv⟩ := ih [] true hopen
      rw [hlf, splitFrom_cons_self]
      refine ⟨hrec'.trans hrec, ?_, by simpa using hcrecv⟩
      rw [hpass', hpass, hg, World.emit, passed_line, List.append_assoc]
      rfl
    · next hcr hlf =>
      have hkeep : nulled (b :: bs) = b :: nulled bs := by simp [nulled, hcr]
      have hmem : lf ∈ b :: bs ↔ lf ∈ bs := by simp [Ne.symm hlf]
      rw [hkeep, splitFrom_cons_of_ne hlf]
      simpa only [hmem] using ih (cur ++ [b]) seen hs

/-- The line buffer and the lines passed on are those of the chunks received. -/
structure Assembled (w : World α) : Prop where
  /-- No chunk is empty. -/
  nonempty : ∀ c ∈ received w.log, c ≠ []
  /-- The lines. -/
  passed_eq : passed w.log = (assemble (received w.log)).1
  /-- The line buffer, while there is a connection. -/
  crecv_eq : w.ftp.ctl ≠ none → w.ftp.crecv = (assemble (received w.log)).2
  /-- It is never full. -/
  length_lt : w.ftp.ctl ≠ none → w.ftp.crecv.length < crecvSize

theorem Assembled.scan (h : Assembled w) (wait : Int → World α → Int × World α) {b : Bytes}
    (hctl : w.ftp.ctl ≠ none) (hb : b ≠ []) (hlen : b.length ≤ crecvSize - w.ftp.crecv.length) :
    Assembled (scanBytes wait b w.ftp.crecv false (w.emit (.recv b))) := by
  have hopen : (w.emit (.recv b)).view.ctl = true := view_ctl_of_ne_none hctl
  obtain ⟨hrec, hpass, hcrecv⟩ := scanBytes_spec wait b w.ftp.crecv false (w := w.emit (.recv b))
    (.inl hopen)
  have hrec' : received (w.emit (.recv b)).log = received w.log ++ [b] := by
    simp [received, World.emit, Event.chunk?]
  have hpass' : passed (w.emit (.recv b)).log = passed w.log := rfl
  rw [hrec'] at hrec
  rw [hpass', h.passed_eq, h.crecv_eq hctl] at hpass
  rw [h.crecv_eq hctl] at hcrecv
  have hsize := size_splitFrom (d := lf) (assemble (received w.log)).2 (nulled b)
  have hcount := length_splitFrom (d := lf) (assemble (received w.log)).2 (nulled b)
  have hroom := h.length_lt hctl
  rw [h.crecv_eq hctl] at hlen hroom
  refine ⟨?_, ?_, fun _ => ?_, fun _ => ?_⟩
  · rw [hrec]
    intro c hc
    rcases List.mem_append.mp hc with hc | hc
    · exact h.nonempty c hc
    · exact List.mem_singleton.mp hc ▸ hb
  · rw [hrec, assemble_concat, feed, h.crecv_eq hctl]
    exact hpass
  · rw [hrec, assemble_concat, feed, h.crecv_eq hctl]
    simpa using hcrecv
  · rw [h.crecv_eq hctl, hcrecv]
    split
    · next hseen =>
      have hlf : lf ∈ nulled b := lf_mem_nulled.mpr (by simpa using hseen)
      have hpos : 0 < (nulled b).count lf := List.count_pos_iff.mpr hlf
      have hle := length_le_size (splitFrom lf (assemble (received w.log)).2 (nulled b)).1
      have hnlen : (nulled b).length = b.length := List.length_map _
      omega
    · exact Nat.zero_lt_succ _

theorem Assembled.congr (h : Assembled w) (hrec : received w'.log = received w.log)
    (hpass : passed w'.log = passed w.log)
    (hctl : w'.ftp.ctl ≠ none → w.ftp.ctl ≠ none ∧ w'.ftp.crecv = w.ftp.crecv) :
    Assembled w' := by
  refine ⟨by rw [hrec]; exact h.nonempty, by rw [hpass, hrec, h.passed_eq], fun hw => ?_,
    fun hw => ?_⟩
  · rw [hrec, (hctl hw).2, h.crecv_eq (hctl hw).1]
  · rw [(hctl hw).2]
    exact h.length_lt (hctl hw).1

/-- **Every move keeps the line buffer and the lines passed on together.** -/
theorem Assembled.move (h : Assembled w) (hm : Move w w') : Assembled w' := by
  cases hm with
  | quiet hv =>
    have hlog : w'.log = w.log := congrArg Session.log hv
    have hctl : w'.ftp.ctl.isSome = w.ftp.ctl.isSome := congrArg Session.ctl hv
    refine h.congr (by rw [hlog]) (by rw [hlog]) fun hw => ⟨?_, congrArg Session.crecv hv⟩
    rwa [← Option.isSome_iff_ne_none, ← hctl, Option.isSome_iff_ne_none]
  | act ha =>
    obtain ⟨hrec, hpass⟩ := ha.received_passed
    have hctl : w'.ftp.ctl.isSome = w.ftp.ctl.isSome := ha.frame.1
    refine h.congr hrec hpass fun hw => ⟨?_, ha.frame.2⟩
    rwa [← Option.isSome_iff_ne_none, ← hctl, Option.isSome_iff_ne_none]
  | discard hfull =>
    refine h.congr rfl rfl fun hw => absurd (h.length_lt hw) (not_lt.mpr hfull)
  | scan wait b hctl hb hlen => exact h.scan wait hctl hb hlen
  | hangup hctl =>
    have hlog : (ftpClose w).log = w.view.close.log := congrArg Session.log (view_ftpClose w)
    obtain ⟨hrec, hpass⟩ := (Extends.refl w.view).close.received_passed
    have hnone : (ftpClose w).ftp.ctl = none := by
      simp [ftpClose, World.mapFtp, World.emit, hctl]
    exact h.congr (by rw [hlog, hrec]; rfl) (by rw [hlog, hpass]; rfl) fun hw => absurd hnone hw

theorem assembled_connected (ctl : Fd) (user pass : Option Bytes) (app : α) :
    Assembled (World.connected ctl user pass app) :=
  ⟨by simp [World.connected, received], rfl, fun _ => rfl, fun _ => Nat.zero_lt_succ _⟩

/-- In every state of every run. -/
theorem assembled_run (ctl : Fd) (user pass : Option Bytes) (app : α)
    (inputs : List (Env × Input α)) :
    Assembled ((World.connected ctl user pass app).run inputs) :=
  run_induction (fun _ _ h hm => h.move hm) rfl (assembled_connected ctl user pass app) inputs

/-! ### The streams that are read right -/

/-- A line that fits the buffer, terminator included. -/
def isShort (l : Bytes) : Bool := decide (l.length + 1 ≤ 255)

/-- The strings that `proc_control` was called with, in order. -/
def handed (log : List Event) : List Bytes := (passed log).map cstr

/-- **The lines are read as they were sent**: the strings handed to `proc_control` are the texts of
lines of the stream, in order, and no short line is missing. -/
def ReadRight (log : List Event) : Prop :=
  ∃ kept : List Bytes, kept.Sublist (streamLines (received log)) ∧
    kept.filter isShort = (streamLines (received log)).filter isShort ∧
      handed log = kept.map lineText

instance : DecidablePred ReadRight := fun log =>
  decidable_of_iff (∃ kept ∈ (streamLines (received log)).sublists,
    kept.filter isShort = (streamLines (received log)).filter isShort ∧
      handed log = kept.map lineText) <| by
    simp only [List.mem_sublists, ReadRight]

theorem readRight_iff {w : World α} (h : Assembled w) :
    ReadRight w.log ↔
      Unbroken (received w.log) ∧ ∀ l ∈ streamLines (received w.log), PlainLine l := by
  rw [← map_cstr_assemble_iff h.nonempty, ← h.passed_eq]
  constructor
  · rintro ⟨kept, hsub, -, hkept⟩
    have hlen : kept.length = (streamLines (received w.log)).length := by
      rw [← List.length_map lineText, ← hkept, handed, List.length_map, h.passed_eq,
        length_assemble]
    rw [← hsub.eq_of_length hlen]
    exact hkept
  · intro hall
    exact ⟨_, List.Sublist.refl _, rfl, hall⟩

/-- **When the lines of the control connection are read right.** In every run, the strings handed to
`proc_control` are the texts of whole lines of the stream, in order and without a gap, exactly when
no line is broken and every line is plain. They are then the texts of all lines of the stream, so
they do not depend on where it was cut. -/
theorem readRight_run_iff (ctl : Fd) (user pass : Option Bytes) (app : α)
    (inputs : List (Env × Input α)) :
    let log := ((World.connected ctl user pass app).run inputs).log
    (ReadRight log ↔
      Unbroken (received log) ∧ ∀ l ∈ streamLines (received log), PlainLine l) ∧
    (Unbroken (received log) → (∀ l ∈ streamLines (received log), PlainLine l) →
      handed log = (streamLines (received log)).map lineText) := by
  have h := assembled_run ctl user pass app inputs
  refine ⟨readRight_iff h, fun hu hplain => ?_⟩
  rw [handed, h.passed_eq]
  exact (map_cstr_assemble_iff h.nonempty).mpr ⟨hu, hplain⟩

/-- A line that arrives in two parts loses the first: `220` and the rest of a greeting. -/
theorem not_readRight_of_greeting_in_two : ¬ReadRight ((World.connected 3 none none ()).run
    [({ Env.quiet with ctlIn := [.data (ascii "220"), .data (ascii " ready\r\n")] },
      .handle 3)]).log := by
  decide

end Visftp
