import Visftp.Rounds

/-!
# The keyboard of the DOS version

`dos/input.c`: `getch` gives a byte for a key, or a zero and then a byte for a key without a
character. `poll_input` reads one byte at a time and remembers the zero in a static variable; it
gives `0` when it has only read the zero, or does not know the key, or there is nothing to read, and
`proc_input` then ends. So a round of the main loop may leave bytes in the buffer of the keyboard.
Whatever the rounds are, the keys that are handled are those that were pressed, in this order.

A byte comes with the system for the calls into the client that its key leads to. The codes of
`input.h` begin where ASCII ends, so that a character above it is taken for one of its keys.

## Main definitions

* `convSpecial`, `pollByte` — a byte that is read
* `pollLoop`, `keysOf` — `proc_input`, and the keys that it handles
* `keyRounds` — the keys of whole runs
* `Keystroke` — what is pressed

## Main results

* `pollLoop_eq` — `proc_input` as `Visftp.Rounds` has it
* `keystrokes_run` — whole runs
-/

namespace Visftp

/-- `conv_special`, with `none` for `-1`. The codes of `input.h` begin with `KB_DEL`, which is
128. -/
def convSpecial (key : ℕ) : Option ℕ :=
  match key with
  | 72 => some 130
  | 80 => some 131
  | 75 => some 132
  | 77 => some 133
  | 71 => some 134
  | 79 => some 135
  | 82 => some 129
  | 83 => some 128
  | 73 => some 136
  | 81 => some 137
  | key => if 58 ≤ key ∧ key ≤ 70 then some (138 + key - 59) else none

/-- The key with a code, as `keypress` and `view_input` tell them apart. -/
def Key.ofCode (code : ℕ) : Key :=
  match code with
  | 8 => .backspace
  | 9 => .tab
  | 10 => .enter
  | 27 => .esc
  | 96 => .backquote
  | 113 => .q
  | 129 => .ins
  | 130 => .up
  | 131 => .down
  | 132 => .left
  | 133 => .right
  | 134 => .home
  | 135 => .fin
  | 136 => .pgup
  | 137 => .pgdn
  | 140 => .f3
  | 142 => .f5
  | 145 => .f8
  | 147 => .esc
  | _ => .other

/-- The buffer of the keyboard, and `special` of `poll_input`. -/
structure Keyboard where
  pending : List (Env × Byte)
  special : Bool

/-- What `poll_input` makes of a byte, and `special` after it. -/
def pollByte (special : Bool) (c : Byte) : Option ℕ × Bool :=
  if c = 0 then (none, true)
  else if special then (convSpecial c.toNat, false)
  else (some (if c = 13 then 10 else c.toNat), special)

/-- `proc_input`, of the bytes there are: the program after it, and what is left of the bytes. -/
def pollLoop (special : Bool) : List (Env × Byte) → Display → Display × Keyboard
  | [], d => (d, ⟨[], special⟩)
  | (env, c) :: pending, d =>
    let r := pollByte special c
    match r.1 with
    | none => (d, ⟨pending, r.2⟩)
    | some key =>
      let d := d.step (.key env (Key.ofCode key))
      if d.ui.running then pollLoop r.2 pending d else (d, ⟨pending, r.2⟩)

/-- The keys that `proc_input` handles, and what is left of the bytes, unless the program ends. -/
def keysOf (special : Bool) : List (Env × Byte) → List (Env × Key) × Keyboard
  | [] => ([], ⟨[], special⟩)
  | (env, c) :: pending =>
    let r := pollByte special c
    match r.1 with
    | none => ([], ⟨pending, r.2⟩)
    | some key =>
      let rest := keysOf r.2 pending
      ((env, Key.ofCode key) :: rest.1, rest.2)

/-- The keys of the rounds of the main loop, in each of which some bytes arrive before
`proc_input`, as long as the program runs. -/
def keyRounds (k : Keyboard) : List (List (Env × Byte)) → List (List (Env × Key)) × Keyboard
  | [] => ([], k)
  | arrived :: rounds =>
    let r := keysOf k.special (k.pending ++ arrived)
    let rest := keyRounds r.2 rounds
    (r.1 :: rest.1, rest.2)

/-- The keys of all bytes. -/
def keysIn (special : Bool) : List (Env × Byte) → List (Env × Key)
  | [] => []
  | (env, c) :: pending =>
    let r := pollByte special c
    ((r.1.map fun key => (env, Key.ofCode key)).toList) ++ keysIn r.2 pending

/-! ### What is pressed -/

/-- A key with a character, or one without. -/
inductive Keystroke
  | plain (c : Byte)
  | special (code : Byte)
  deriving DecidableEq, Repr

namespace Keystroke

/-- Zero is neither a character nor the code of a key. -/
def Sent : Keystroke → Prop
  | .plain c => c ≠ 0
  | .special code => code ≠ 0

/-- The bytes of a key. -/
def bytes (s : Env × Keystroke) : List (Env × Byte) :=
  match s.2 with
  | .plain c => [(s.1, c)]
  | .special code => [(s.1, 0), (s.1, code)]

/-- The key that is handled, if it is known. -/
def key (s : Env × Keystroke) : Option (Env × Key) :=
  match s.2 with
  | .plain c => some (s.1, Key.ofCode (if c = 13 then 10 else c.toNat))
  | .special code => (convSpecial code.toNat).map fun key => (s.1, Key.ofCode key)

end Keystroke

/-! ### One round -/

theorem pollByte_zero (special : Bool) : pollByte special 0 = (none, true) := rfl

theorem pollByte_plain {c : Byte} (hc : c ≠ 0) :
    pollByte false c = (some (if c = 13 then 10 else c.toNat), false) := by
  rw [pollByte, if_neg hc, if_neg Bool.false_ne_true]

theorem pollByte_special {c : Byte} (hc : c ≠ 0) :
    pollByte true c = (convSpecial c.toNat, false) := by
  rw [pollByte, if_neg hc, if_pos rfl]

/-- **`proc_input`** handles these keys until the program ends, and leaves the same bytes when it
does not end. -/
theorem pollLoop_eq (special : Bool) (pending : List (Env × Byte)) (d : Display) :
    (pollLoop special pending d).1 = d.procInput (keysOf special pending).1 ∧
      ((pollLoop special pending d).1.ui.running = true →
        (pollLoop special pending d).2 = (keysOf special pending).2) := by
  induction pending generalizing special d with
  | nil => exact ⟨rfl, fun _ => rfl⟩
  | cons b pending ih =>
    obtain ⟨env, c⟩ := b
    rw [pollLoop, keysOf]
    dsimp only
    cases (pollByte special c).1 with
    | none => exact ⟨rfl, fun _ => rfl⟩
    | some key =>
      dsimp only
      rw [Display.procInput]
      split
      · exact ih _ _
      · next hend => exact ⟨rfl, fun hrun => absurd hrun hend⟩

/-- The bytes that a round leaves are read later, before those that arrive then. -/
theorem keysIn_append (special : Bool) (pending tail : List (Env × Byte)) :
    keysIn special (pending ++ tail) = (keysOf special pending).1 ++
      keysIn (keysOf special pending).2.special ((keysOf special pending).2.pending ++ tail) := by
  induction pending generalizing special with
  | nil => rfl
  | cons b pending ih =>
    obtain ⟨env, c⟩ := b
    rw [List.cons_append, keysIn, keysOf]
    dsimp only
    cases (pollByte special c).1 with
    | none => rfl
    | some key =>
      dsimp only [Option.map_some, Option.toList_some]
      rw [List.singleton_append, ih, List.cons_append]

/-- A round reads something, if there is something. -/
theorem length_pending_keysOf (special : Bool) (pending : List (Env × Byte)) :
    (keysOf special pending).2.pending.length ≤ pending.length - 1 := by
  induction pending generalizing special with
  | nil => exact Nat.le_refl _
  | cons b pending ih =>
    obtain ⟨env, c⟩ := b
    rw [keysOf]
    dsimp only
    cases (pollByte special c).1 with
    | none => exact Nat.le_refl _
    | some key =>
      dsimp only
      have hrest := ih (pollByte special c).2
      rw [List.length_cons]
      omega

/-! ### Whole runs -/

/-- **Any rounds**: what was handled and what is still to be read are the keys of all bytes. -/
theorem flatten_keyRounds (k : Keyboard) (rounds : List (List (Env × Byte)))
    (tail : List (Env × Byte)) :
    keysIn k.special (k.pending ++ rounds.flatten ++ tail) = (keyRounds k rounds).1.flatten ++
      keysIn (keyRounds k rounds).2.special ((keyRounds k rounds).2.pending ++ tail) := by
  induction rounds generalizing k with
  | nil => rw [keyRounds, List.flatten_nil, List.append_nil]; rfl
  | cons arrived rounds ih =>
    have hround := keysIn_append k.special (k.pending ++ arrived) (rounds.flatten ++ tail)
    rw [keyRounds, List.flatten_cons, List.flatten_cons, List.append_assoc (keysOf _ _).1, ← ih,
      List.append_assoc _ rounds.flatten, ← hround]
    simp only [List.append_assoc]

/-- Rounds in which nothing arrives read what there is. -/
theorem length_pending_replicate (k : Keyboard) (n : ℕ) :
    (keyRounds k (List.replicate n [])).2.pending.length ≤ k.pending.length - n := by
  induction n generalizing k with
  | zero => exact Nat.le_refl _
  | succ n ih =>
    have hround := length_pending_keysOf k.special (k.pending ++ [])
    have hrest := ih (keysOf k.special (k.pending ++ [])).2
    rw [List.append_nil] at hround hrest
    rw [List.replicate_succ, keyRounds, List.append_nil]
    dsimp only
    omega

theorem keyRounds_append (k : Keyboard) (a b : List (List (Env × Byte))) :
    (keyRounds k (a ++ b)).2 = (keyRounds (keyRounds k a).2 b).2 := by
  induction a generalizing k with
  | nil => rfl
  | cons arrived a ih => exact ih (keysOf k.special (k.pending ++ arrived)).2

/-- No more is left than has arrived. -/
theorem length_pending_keyRounds (k : Keyboard) (rounds : List (List (Env × Byte))) :
    (keyRounds k rounds).2.pending.length ≤ k.pending.length + rounds.flatten.length := by
  induction rounds generalizing k with
  | nil => exact Nat.le_add_right _ _
  | cons arrived rounds ih =>
    have hround := length_pending_keysOf k.special (k.pending ++ arrived)
    have hrest := ih (keysOf k.special (k.pending ++ arrived)).2
    rw [List.length_append] at hround
    rw [keyRounds, List.flatten_cons, List.length_append]
    dsimp only
    omega

/-- The bytes of keys give the keys. -/
theorem keysIn_bytes {strokes : List (Env × Keystroke)} (h : ∀ s ∈ strokes, s.2.Sent) :
    keysIn false (strokes.flatMap Keystroke.bytes) = strokes.filterMap Keystroke.key := by
  induction strokes with
  | nil => rfl
  | cons s strokes ih =>
    rw [List.forall_mem_cons] at h
    obtain ⟨env, s⟩ := s
    rw [List.flatMap_cons, List.filterMap_cons, ← ih h.2]
    cases s with
    | plain c =>
      have hc : c ≠ 0 := h.1
      simp only [Keystroke.bytes, Keystroke.key, List.singleton_append, keysIn, pollByte_plain hc]
      rfl
    | special code =>
      have hcode : code ≠ 0 := h.1
      simp only [Keystroke.bytes, Keystroke.key, List.cons_append, List.nil_append, keysIn,
        pollByte_zero, pollByte_special hcode, Option.map_none, Option.toList_none]
      cases convSpecial code.toNat <;> rfl

/-- **Every key is handled once.** However the bytes of the keys that are pressed are divided among
the rounds of the main loop, the keys that `proc_input` handles are the first ones of those that
were pressed and are known, in this order. When all bytes have arrived, they are all of them after
as many rounds more as there are bytes. All this is while the program runs: a round handles its keys
until the program ends, and leaves the bytes behind them when it does not. -/
theorem keystrokes_run (strokes : List (Env × Keystroke)) (hsent : ∀ s ∈ strokes, s.2.Sent)
    (rounds : List (List (Env × Byte))) (h : rounds.flatten <+: strokes.flatMap Keystroke.bytes) :
    (keyRounds ⟨[], false⟩ rounds).1.flatten <+: strokes.filterMap Keystroke.key ∧
      (rounds.flatten = strokes.flatMap Keystroke.bytes →
        ∀ n, rounds.flatten.length ≤ n →
          (keyRounds ⟨[], false⟩ (rounds ++ List.replicate n [])).1.flatten =
            strokes.filterMap Keystroke.key) ∧
      ∀ special pending d, (pollLoop special pending d).1 =
        d.procInput (keysOf special pending).1 ∧
          ((pollLoop special pending d).1.ui.running = true →
            (pollLoop special pending d).2 = (keysOf special pending).2) := by
  refine ⟨?_, ?_, pollLoop_eq⟩
  · obtain ⟨tail, htail⟩ := h
    have hall := flatten_keyRounds ⟨[], false⟩ rounds tail
    rw [List.nil_append, htail, keysIn_bytes hsent] at hall
    exact ⟨_, hall.symm⟩
  · intro hall n hn
    have hflat : (rounds ++ List.replicate n []).flatten = strokes.flatMap Keystroke.bytes := by
      rw [List.flatten_append, hall, List.flatten_replicate_nil, List.append_nil]
    have hkeys := flatten_keyRounds ⟨[], false⟩ (rounds ++ List.replicate n []) []
    have hnone : (keyRounds ⟨[], false⟩ (rounds ++ List.replicate n [])).2.pending = [] := by
      have hleft := length_pending_keyRounds ⟨[], false⟩ rounds
      have hread := length_pending_replicate (keyRounds ⟨[], false⟩ rounds).2 n
      rw [keyRounds_append]
      refine List.eq_nil_of_length_eq_zero ?_
      rw [List.length_nil] at hleft
      omega
    rw [hnone, List.nil_append, List.append_nil, List.append_nil, hflat, keysIn_bytes hsent]
      at hkeys
    exact (hkeys.trans (List.append_nil _)).symm

/-- The arrow up, whose two bytes come in two rounds, and a backquote. -/
theorem keystrokes_run_up :
    let strokes := [(Env.quiet, Keystroke.special 72), (Env.quiet, .plain 0x60)]
    let rounds := [[(Env.quiet, (0 : Byte))], [(Env.quiet, 72), (Env.quiet, 0x60)]]
    (keyRounds ⟨[], false⟩ rounds).1.flatten <+: strokes.filterMap Keystroke.key ∧
      (rounds.flatten = strokes.flatMap Keystroke.bytes →
        ∀ n, rounds.flatten.length ≤ n →
          (keyRounds ⟨[], false⟩ (rounds ++ List.replicate n [])).1.flatten =
            strokes.filterMap Keystroke.key) ∧
      ∀ special pending d, (pollLoop special pending d).1 =
        d.procInput (keysOf special pending).1 ∧
          ((pollLoop special pending d).1.ui.running = true →
            (pollLoop special pending d).2 = (keysOf special pending).2) := by
  intro strokes rounds
  refine keystrokes_run strokes ?_ rounds List.prefix_rfl
  rintro s hs
  rcases List.mem_cons.mp hs with rfl | hs
  · exact fun h => absurd h (by decide)
  · rw [List.mem_singleton.mp hs]
    exact fun h => absurd h (by decide)

end Visftp
