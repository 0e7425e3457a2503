import Mathlib.Data.List.Induction
import Visftp.Client
import Visftp.Viewer

/-!
# Viewing a remote file

`act_view` retrieves a file into memory, and `view_done` opens the viewer on it when the transfer is
done. How much of the memory is the file is told by `count`, which `dproc_xfer` never lets exceed
`total`. But `total` is what the listing said, or the last `150` reply, and need not be the size of
the data: then the viewer gets less than was received, or nothing.

## Main definitions

* `viewDone`, `viewXfer` — the callback, and the transfer `act_view` makes
* `XferEvent`, `serveXfer` — what comes for a transfer before it is done
* `Viewed` — everything received is kept, counted and shown

## Main results

* `xfers_serveXfer` — the transfer after so many chunks and replies
* `viewed_iff` — the retrievals whose data is shown
-/

namespace Visftp

open CString

/-- `view_done`, as far as the viewer is concerned. `view_memopen` is given `count` bytes. -/
def viewDone (x : XferData) (v : Viewer) : Viewer :=
  if 0 < x.count then viewMemopen x.rname (x.mem.map (·.take x.count.toNat)) v else v

/-- The transfer that `act_view` makes for an entry of the listing. -/
def viewXfer (rname : Bytes) (size : Int) : Xfer Viewer where
  op := .retr
  rname := rname
  fp := none
  mem := some []
  total := size
  count := 0
  done := viewDone

/-- What comes for a transfer before it is done. -/
inductive XferEvent
  /-- A `150` reply. -/
  | reply (buf : Bytes)
  /-- Bytes on the data connection. -/
  | chunk (b : Bytes) (h : b ≠ [])

/-- What the handlers of a transfer make of it. -/
def serveXfer (t : ℕ) (w : World Viewer) : XferEvent → World Viewer
  | .reply buf => (cprocXfer t 150 buf w).2
  | .chunk b _ => dprocXfer t b w

/-- The bytes of an event. -/
def XferEvent.bytes : XferEvent → Bytes
  | .reply _ => []
  | .chunk b _ => b

/-- All bytes that have been received. -/
def retrieved (evs : List XferEvent) : Bytes := evs.flatMap XferEvent.bytes

/-- The size an event announces, if it does. -/
def XferEvent.size? : XferEvent → Option Int
  | .reply buf => xferTotal buf
  | .chunk _ _ => none

/-- The size announced last, `size` at first. -/
def announced (size : Int) (evs : List XferEvent) : Int :=
  evs.foldl (fun total e => e.size?.getD total) size

/-- What an event makes of `total` and `count`. -/
def progress (p : Int × Int) : XferEvent → Int × Int
  | .reply buf => ((xferTotal buf).getD p.1, p.2)
  | .chunk b _ => (p.1, min (p.2 + b.length) p.1)

/-- The count after the events, from `0` on. -/
def counted (size : Int) (evs : List XferEvent) : Int := (evs.foldl progress (size, 0)).2

section Counting

variable {size : Int} {evs : List XferEvent}

@[simp] theorem retrieved_append (evs evs' : List XferEvent) :
    retrieved (evs ++ evs') = retrieved evs ++ retrieved evs' := List.flatMap_append

@[simp] theorem retrieved_singleton (e : XferEvent) : retrieved [e] = e.bytes := by simp [retrieved]

theorem foldl_progress_fst (p : Int × Int) :
    (evs.foldl progress p).1 = announced p.1 evs := by
  induction evs generalizing p with
  | nil => rfl
  | cons e evs ih =>
    rw [List.foldl_cons, ih]
    cases e <;> rfl

@[simp] theorem announced_append_singleton (e : XferEvent) :
    announced size (evs ++ [e]) = e.size?.getD (announced size evs) := by
  simp [announced]

@[simp] theorem counted_append_reply (buf : Bytes) :
    counted size (evs ++ [.reply buf]) = counted size evs := by
  simp [counted, progress]

@[simp] theorem counted_append_chunk (b : Bytes) (h : b ≠ []) :
    counted size (evs ++ [.chunk b h]) =
      min (counted size evs + b.length) (announced size evs) := by
  simp [counted, progress, foldl_progress_fst]

/-- The count never exceeds what was received. -/
theorem counted_le : counted size evs ≤ (retrieved evs).length := by
  induction evs using List.reverseRecOn with
  | nil => exact le_rfl
  | append_singleton evs e ih =>
    cases e with
    | reply buf => simpa [XferEvent.bytes] using ih
    | chunk b h =>
      rw [counted_append_chunk, retrieved_append, retrieved_singleton, List.length_append]
      push_cast
      refine (min_le_left _ _).trans ?_
      have hbytes : (XferEvent.chunk b h).bytes = b := rfl
      rw [hbytes]
      omega

/-- No chunk brings more than has been announced by then. -/
def WithinSize (size : Int) (evs : List XferEvent) : Prop :=
  ∀ past b h, past ++ [.chunk b h] <+: evs →
    ((retrieved (past ++ [.chunk b h])).length : Int) ≤ announced size past

theorem withinSize_append_singleton (e : XferEvent) :
    WithinSize size (evs ++ [e]) ↔ WithinSize size evs ∧
      ∀ b h, e = .chunk b h →
        ((retrieved (evs ++ [.chunk b h])).length : Int) ≤ announced size evs := by
  constructor
  · intro h
    refine ⟨fun past b hb hpast => h past b hb (hpast.trans (List.prefix_append evs [e])), ?_⟩
    rintro b hb rfl
    exact h evs b hb (List.prefix_refl _)
  · rintro ⟨h, he⟩ past b hb hpast
    rcases List.prefix_concat_iff.mp hpast with heq | hpast
    · obtain ⟨rfl, hlast⟩ := List.append_inj' heq rfl
      exact he b hb (List.singleton_inj.mp hlast).symm
    · exact h past b hb hpast

/-- **The count is the number of bytes received** exactly when no chunk went beyond the size
announced. -/
theorem counted_eq_iff : counted size evs = (retrieved evs).length ↔ WithinSize size evs := by
  induction evs using List.reverseRecOn with
  | nil =>
    refine iff_of_true rfl fun past b h hpast => ?_
    simpa using List.prefix_nil.mp hpast
  | append_singleton evs e ih =>
    rw [withinSize_append_singleton, ← ih]
    cases e with
    | reply buf => simp [XferEvent.bytes]
    | chunk b h =>
      have hle : counted size evs ≤ (retrieved evs).length := counted_le
      have hlen : ((retrieved (evs ++ [.chunk b h])).length : Int) =
          (retrieved evs).length + b.length := by
        rw [retrieved_append, retrieved_singleton, List.length_append]
        push_cast
        rfl
      rw [counted_append_chunk, hlen]
      constructor
      · intro hmin
        refine ⟨by omega, ?_⟩
        rintro b' h' heq
        obtain rfl := (XferEvent.chunk.inj heq)
        rw [hlen]
        omega
      · rintro ⟨hcount, htotal⟩
        have htotal := htotal b h rfl
        rw [hlen] at htotal
        omega

end Counting

/-! ### The transfer -/

section Transfer

variable {t : ℕ} {w : World Viewer} {x : Xfer Viewer}

theorem serveXfer_chunk {b : Bytes} (hb : b ≠ []) (hx : w.xfers t = x) (hop : x.op = .retr)
    (hfp : x.fp = none) :
    (serveXfer t w (.chunk b hb)).xfers t =
        { x with mem := x.mem.map (· ++ b), count := min (x.count + b.length) x.total } ∧
      (serveXfer t w (.chunk b hb)).app = w.app := by
  subst hx
  simp [serveXfer, dprocXfer, storeBytes, World.emit, World.mapXfer, hop, hfp, hb]

theorem serveXfer_reply (buf : Bytes) (hx : w.xfers t = x) :
    (serveXfer t w (.reply buf)).xfers t =
        { x with total := (xferTotal buf).getD x.total } ∧
      (serveXfer t w (.reply buf)).app = w.app := by
  subst hx
  cases htotal : xferTotal buf <;>
    simp [serveXfer, cprocXfer, htotal, World.emit, World.mapXfer]

/-- **The transfer after so many chunks and replies**, in whatever order they came. -/
theorem xfers_serveXfer {rname : Bytes} {size : Int} (hx : w.xfers t = viewXfer rname size)
    (evs : List XferEvent) :
    (evs.foldl (serveXfer t) w).xfers t =
        { viewXfer rname size with
          mem := some (retrieved evs), total := announced size evs, count := counted size evs } ∧
      (evs.foldl (serveXfer t) w).app = w.app := by
  induction evs using List.reverseRecOn with
  | nil => exact ⟨hx, rfl⟩
  | append_singleton evs e ih =>
    rw [List.foldl_append, List.foldl_cons, List.foldl_nil]
    cases e with
    | reply buf =>
      obtain ⟨hxfer, happ⟩ := serveXfer_reply buf ih.1
      refine ⟨hxfer.trans ?_, happ.trans ih.2⟩
      simp [XferEvent.bytes, XferEvent.size?]
    | chunk b hb =>
      obtain ⟨hxfer, happ⟩ := serveXfer_chunk hb ih.1 rfl rfl
      refine ⟨hxfer.trans ?_, happ.trans ih.2⟩
      simp [XferEvent.bytes, XferEvent.size?]

/-- The end of the data calls `done`, and so does a reply that reports a failure. -/
theorem app_dprocXfer_nil (hop : (w.xfers t).op = .retr) (hfp : (w.xfers t).fp = none) :
    (dprocXfer t [] w).app = (w.xfers t).done (w.xfers t).toXferData w.app := by
  have hclosed : { (w.xfers t).toXferData with fp := none } = (w.xfers t).toXferData := by
    rw [← hfp]
  have hop' : ((w.emit (.touch t)).xfers t).op = .retr := hop
  rw [dprocXfer]
  dsimp only
  rw [if_pos hop', if_pos rfl, ← hclosed]
  simp only [callDone, World.emit, World.mapXfer, World.mapFtp, infomsg, World.message,
    Function.update_self]

theorem app_cprocXfer_fail {code : Int} (hcode : 400 ≤ code) (buf : Bytes) :
    (cprocXfer t code buf w).2.app = (w.xfers t).done (w.xfers t).toXferData w.app := by
  rw [cprocXfer]
  rw [if_neg (by omega), if_pos hcode]
  rfl

end Transfer

/-- **Everything received is kept, counted and shown**, if the transfer at `t` is done now: the
memory holds it, `count` is its length, and the viewer is opened on it, unless there is nothing. -/
structure Viewed (t : ℕ) (rname got : Bytes) (w : World Viewer) : Prop where
  mem : (w.xfers t).mem = some got
  count : (w.xfers t).count = got.length
  eof : (dprocXfer t [] w).app = if got = [] then w.app else viewMemopen rname (some got) w.app
  fail : ∀ code buf, 400 ≤ code → (cprocXfer t code buf w).2.app =
    if got = [] then w.app else viewMemopen rname (some got) w.app

theorem viewDone_of_count {x : XferData} {got : Bytes} (hmem : x.mem = some got)
    (hcount : x.count = got.length) (v : Viewer) :
    viewDone x v = if got = [] then v else viewMemopen x.rname (some got) v := by
  rw [viewDone]
  rw [hmem, hcount]
  by_cases hgot : got = []
  · simp [hgot]
  · have hpos := List.length_pos_of_ne_nil hgot
    rw [if_pos (by omega), if_neg hgot]
    simp

/-- **Viewing what was received.** For every retrieval into memory that `act_view` starts, with
any size in the listing, any replies and chunks: when it is done, everything received is kept,
counted and shown if and only if no chunk brings more than the size announced by then. -/
theorem viewed_iff (rname : Bytes) (size : Int) (w : World Viewer) (evs : List XferEvent) :
    Viewed w.nxfer rname (retrieved evs)
        (evs.foldl (serveXfer w.nxfer) (w.newXfer (viewXfer rname size))) ↔
      WithinSize size evs := by
  have hx : (w.newXfer (viewXfer rname size)).xfers w.nxfer = viewXfer rname size := by
    simp [World.newXfer, World.emit, viewXfer, Job.fresh]
  obtain ⟨hxfer, -⟩ := xfers_serveXfer hx evs
  rw [← counted_eq_iff]
  constructor
  · intro h
    have hcount := h.count
    rwa [hxfer] at hcount
  · intro h
    have hdone : ∀ v, viewDone
        ((evs.foldl (serveXfer w.nxfer) (w.newXfer (viewXfer rname size))).xfers
          w.nxfer).toXferData v =
        if retrieved evs = [] then v else viewMemopen rname (some (retrieved evs)) v := by
      intro v
      rw [hxfer]
      exact viewDone_of_count rfl h v
    refine ⟨by rw [hxfer], by rw [hxfer]; exact h, ?_, fun code buf hcode => ?_⟩
    · rw [app_dprocXfer_nil (by rw [hxfer]; rfl) (by rw [hxfer]; rfl), ← hdone]
      rw [hxfer]
      rfl
    · rw [app_cprocXfer_fail hcode, ← hdone]
      rw [hxfer]
      rfl

/-- A client with a data connection, that has made no transfer yet. -/
def readyWorld : World Viewer :=
  (World.connected 3 none none Viewer.init).mapFtp fun f => { f with data := some 4, busy := 2 }

/-- A file of two bytes that the listing calls empty: nothing is shown of it. -/
theorem not_viewed_empty : ¬Viewed 0 (ascii "f") (ascii "hi")
    ([XferEvent.chunk (ascii "hi") (by decide)].foldl (serveXfer 0)
      (readyWorld.newXfer (viewXfer (ascii "f") 0))) :=
  fun hview => absurd hview.count (by decide)

end Visftp
