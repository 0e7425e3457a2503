import Visftp.TextGrammar
import Visftp.TextLexing

/-!
# The list of servers

`read_servers` of `main.c`: the configuration file is a tree with the name `servers`, and every
child with the name `server` that has a name and a host becomes an entry. What is written in the
file are tokens; what the entry gets is the string of the stored value. The two are the same for an
identifier, for a string without a NUL, and for a number that `%g` writes the way it is written in
the file. An array or a stray symbol has no string, so an entry whose name or host is one of these
is missing.

## Main definitions

* `Server`, `readServers`
* `ValueTree.text`, `Item.server` — what the file says
* `IsNumeralText`, `Item.Faithful` — when it is what the entry gets

## Main results

* `printG_atof_iff` — the numbers that are printed as they were written
* `readServers_iff` — when the list is what the file says
-/

namespace Visftp

open CString

/-- `struct server`. -/
structure Server where
  /-- The name it is found by. -/
  name : Option Bytes
  /-- The host to connect to. -/
  host : Option Bytes
  /-- The user to log in as. -/
  user : Option Bytes
  /-- The password. -/
  pass : Option Bytes
  /-- A directory. -/
  dir : Option Bytes
  deriving DecidableEq

/-- The body of the loop of `read_servers`: the entry for a child, if it does not get skipped. -/
def readServer (node : TsNode) : Option Server :=
  if node.name = ascii "server" then
    match tsGetAttrStr node (ascii "name") none with
    | none => none
    | some name =>
      match tsGetAttrStr node (ascii "host") none with
      | none => none
      | some host => some {
          name := some name
          host := some host
          user := tsGetAttrStr node (ascii "user") none
          pass := tsGetAttrStr node (ascii "pass") none
          dir := tsGetAttrStr node (ascii "dir") none }
  else none

/-- `read_servers`, from what is in the file, if there is one: the contents of `srvlist`, or `none`
for `-1`. -/
def readServers (file : Option Bytes) : Option (List Server) :=
  match file.bind tsTextLoad with
  | none => none
  | some ts =>
    if ts.name = ascii "servers" then some (ts.children.filterMap readServer) else none

/-! ### What the file says -/

/-- The text of a value as it is written: what is between the quotes of a string, and the token
itself of an identifier or a number. -/
def ValueTree.text : ValueTree → Option Bytes
  | .num text => some text
  | .str text => some text
  | .id text => some text
  | .stray _ _ => none
  | .array _ _ _ => none

/-- The value of the first attribute with a name. -/
def firstAttr (name : Bytes) : List Item → Option ValueTree
  | [] => none
  | .attr n val :: is => if n = name then some val else firstAttr name is
  | .child _ _ :: is => firstAttr name is

/-- The text of an attribute. -/
def attrText (name : Bytes) (body : List Item) : Option Bytes :=
  (firstAttr name body).bind ValueTree.text

/-- The entry the file has in it for a child. -/
def Item.server : Item → Option Server
  | .attr _ _ => none
  | .child name body =>
    if name = ascii "server" ∧ (firstAttr (ascii "name") body).isSome ∧
        (firstAttr (ascii "host") body).isSome then
      some {
        name := attrText (ascii "name") body
        host := attrText (ascii "host") body
        user := attrText (ascii "user") body
        pass := attrText (ascii "pass") body
        dir := attrText (ascii "dir") body }
    else none

/-- The text of a number as `%g` writes it without an exponent: zero, or a numeral. -/
def IsNumeralText (t : Bytes) : Prop :=
  (∃ neg, t = signText neg ++ ascii "0") ∨ ∃ m : Numeral, t = m.text

/-- A value whose text is stored as it is written. -/
def ValueTree.Faithful : ValueTree → Prop
  | .num text => IsNumeralText text
  | .str text => nul ∉ text
  | _ => True

/-- An attribute whose text is stored as it is written, if it is there. -/
def FaithfulAttr (name : Bytes) (body : List Item) : Prop :=
  ∀ v, firstAttr name body = some v → v.Faithful

/-- A child for which there is no entry, or one whose name and host have a text and whose fields are
all stored as they are written. -/
def Item.Faithful : Item → Prop
  | .attr _ _ => True
  | .child name body =>
    name = ascii "server" → (firstAttr (ascii "name") body).isSome →
      (firstAttr (ascii "host") body).isSome →
      attrText (ascii "name") body ≠ none ∧ attrText (ascii "host") body ≠ none ∧
      FaithfulAttr (ascii "name") body ∧ FaithfulAttr (ascii "host") body ∧
      FaithfulAttr (ascii "user") body ∧ FaithfulAttr (ascii "pass") body ∧
      FaithfulAttr (ascii "dir") body

/-! ### The strings of stored values -/

theorem printG_zero (neg : Bool) : printG (.finite neg 0) = signText neg ++ ascii "0" := by
  rw [printG, if_pos rfl]

/-- **Numbers as text.** A number token is printed as it was written when it is the text of zero or
of a numeral. -/
theorem printG_atof_iff {t : Bytes} (h : ∀ b ∈ t, isalpha b = false) :
    printG (atof t).toFloat = t ↔ IsNumeralText t := by
  constructor
  · intro ht
    cases hx : (atof t).toFloat with
    | inf neg =>
      rw [hx] at ht
      have hmem : (105 : Byte) ∈ t := by
        rw [← ht]
        exact List.mem_append_right _ (by decide)
      cases h 105 hmem
    | finite neg mag =>
      rw [hx] at ht
      by_cases hmag : mag = 0
      · rw [hmag, printG_zero] at ht
        exact .inl ⟨neg, ht.symm⟩
      · obtain ⟨m, -, hm | ⟨e, hm⟩⟩ := exists_numeral_of_printG neg hmag
        · exact .inr ⟨m, by rw [← hm, ht]⟩
        · have hmem : (101 : Byte) ∈ t := by
            rw [← ht, hm]
            exact List.mem_append_right _ (List.mem_cons_self ..)
          cases h 101 hmem
  · rintro (⟨neg, rfl⟩ | ⟨m, rfl⟩)
    · cases neg <;> decide +kernel
    · rw [m.atof_text]
      exact m.printG_value

/-- What is stored as the string of a value. -/
def ValueTree.stored (v : ValueTree) : Option Bytes := v.load.bind TsValue.str

theorem str_tsSetValueArr {arr : List TsValue} {w : TsValue}
    (h : tsSetValueArr tsInitValue arr = some w) : w.str = none := by
  obtain ⟨-, ⟨-, rfl⟩ | ⟨-, rfl⟩⟩ := tsSetValueArr_eq_some_iff.mp h <;> rfl

theorem ValueTree.stored_array (brace : Bool) (first : ValueTree) (more : List ValueTree) :
    (array brace first more).stored = none := by
  rw [stored, load, Option.bind_eq_none_iff]
  intro w h
  simp only [Option.bind_eq_some_iff] at h
  obtain ⟨v, -, vs, -, hset⟩ := h
  exact str_tsSetValueArr hset

/-- There is a string when there is a text. -/
theorem ValueTree.stored_eq_none_iff (v : ValueTree) : v.stored = none ↔ v.text = none := by
  cases v with
  | num t => simp [stored, load, text, tsSetValuef]
  | str t => simp [stored, load, text, tsSetValueStr]
  | id t => simp [stored, load, text, tsSetValueStr]
  | stray c h => simp [stored, load, text, tsInitValue]
  | array brace first more => simp [stored_array, text]

/-- And it is the text when the value is faithful. -/
theorem ValueTree.stored_eq_text_iff {v : ValueTree} (hwf : ∀ tok ∈ v.toks, tok.Wf) :
    v.stored = v.text ↔ v.Faithful := by
  cases v with
  | num t =>
    have hiff := printG_atof_iff (hwf (.num t) (List.mem_cons_self ..))
    simpa [stored, load, text, tsSetValuef, Faithful] using hiff
  | str t =>
    have hiff : cstr t = t ↔ nul ∉ t :=
      ⟨fun h => h ▸ nul_notMem_cstr t, cstr_eq_self⟩
    simpa [stored, load, text, tsSetValueStr, Faithful] using hiff
  | id t =>
    obtain ⟨c, s, rfl, hc, hs⟩ : IsIdent t := hwf (.id t) (List.mem_cons_self ..)
    have hnul : nul ∉ c :: s := by
      intro hmem
      rcases List.mem_cons.mp hmem with rfl | hmem
      · simp [isalpha] at hc
      · have := hs nul hmem
        revert this
        decide
    simp [stored, load, text, tsSetValueStr, Faithful, cstr_eq_self hnul]
  | stray c h => simp [stored, load, text, tsInitValue, Faithful]
  | array brace first more => simp [stored_array, text, Faithful]

/-! ### Looking into a loaded node -/

/-- What the entry gets for an attribute. -/
def attrStored (name : Bytes) (body : List Item) : Option Bytes :=
  (firstAttr name body).bind ValueTree.stored

/-- `read_server` on the node that an item becomes. -/
def Item.readServer : Item → Option Server
  | .attr _ _ => none
  | .child name body =>
    (loadBody body tsAllocNode).bind fun c => Visftp.readServer { c with name }

/-- The attributes of a node can be looked up in its body, and its children are those of the
body. -/
theorem exists_of_loadBody {body : List Item} {node n : TsNode} (h : loadBody body node = some n) :
    ∃ attrs children, n.attrs = node.attrs ++ attrs ∧ n.children = node.children ++ children ∧
      (∀ name, (attrs.find? fun a => a.name = name).bind (fun a => a.val.str)
        = attrStored name body) ∧
      children.filterMap readServer = body.filterMap Item.readServer := by
  induction body using bodyInduct generalizing node n with
  | nil =>
    obtain rfl := Option.some.inj h
    exact ⟨[], [], by simp, by simp, fun name => rfl, rfl⟩
  | attr name val body ih =>
    simp only [loadBody, Item.load, Option.bind_eq_some_iff, Option.map_eq_some_iff] at h
    obtain ⟨_, ⟨w, hw, rfl⟩, h⟩ := h
    obtain ⟨attrs, children, hattrs, hchildren, hfind, hread⟩ := ih h
    refine ⟨⟨name, w⟩ :: attrs, children, by simp [hattrs, tsAddAttr],
      by simp [hchildren, tsAddAttr], fun aname => ?_, ?_⟩
    · have htail := hfind aname
      rw [attrStored] at htail ⊢
      rw [List.find?_cons, firstAttr]
      by_cases hname : name = aname
      · simp [hname, ValueTree.stored, hw]
      · simpa [hname] using htail
    · rw [hread, List.filterMap_cons_none rfl]
  | child name sub body ihsub ih =>
    simp only [loadBody, Item.load, Option.bind_eq_some_iff, Option.map_eq_some_iff] at h
    obtain ⟨_, ⟨c, hc, rfl⟩, h⟩ := h
    obtain ⟨attrs, children, hattrs, hchildren, hfind, hread⟩ := ih h
    refine ⟨attrs, { c with name } :: children, by simp [hattrs, tsAddChild],
      by simp [hchildren, tsAddChild], fun aname => ?_, ?_⟩
    · exact hfind aname
    · rw [List.filterMap_cons, List.filterMap_cons, hread, Item.readServer, hc,
        Option.bind_some]

theorem tsGetAttrStr_of_loadBody {body : List Item} {c : TsNode}
    (h : loadBody body tsAllocNode = some c) (name aname : Bytes) :
    tsGetAttrStr { c with name } aname none = attrStored aname body := by
  obtain ⟨attrs, -, hattrs, -, hfind, -⟩ := exists_of_loadBody h
  rw [← hfind aname, tsGetAttrStr, tsGetAttr]
  simp only [hattrs, tsAllocNode, List.nil_append]
  cases attrs.find? fun a => decide (a.name = aname) <;> simp

/-- The entry for a child, from its body. -/
theorem Item.readServer_child {name : Bytes} {body : List Item} {c : TsNode}
    (h : loadBody body tsAllocNode = some c) : (Item.child name body).readServer =
      if name = ascii "server" ∧ (attrStored (ascii "name") body).isSome ∧
          (attrStored (ascii "host") body).isSome then
        some {
          name := attrStored (ascii "name") body
          host := attrStored (ascii "host") body
          user := attrStored (ascii "user") body
          pass := attrStored (ascii "pass") body
          dir := attrStored (ascii "dir") body }
      else none := by
  rw [readServer, h, Option.bind_some, Visftp.readServer]
  simp only [tsGetAttrStr_of_loadBody h]
  by_cases hname : name = ascii "server"
  · cases hn : attrStored (ascii "name") body with
    | none => simp
    | some n =>
      cases hh : attrStored (ascii "host") body with
      | none => simp
      | some host => simp [hname]
  · simp [hname]

/-! ### The list -/

theorem attrStored_eq_none_iff (name : Bytes) (body : List Item) :
    attrStored name body = none ↔ attrText name body = none := by
  rw [attrStored, attrText]
  cases firstAttr name body with
  | none => simp
  | some v => exact v.stored_eq_none_iff

theorem isSome_attrStored (name : Bytes) (body : List Item) :
    (attrStored name body).isSome = (attrText name body).isSome := by
  rw [Bool.eq_iff_iff, Option.isSome_iff_ne_none, Option.isSome_iff_ne_none, ne_eq, ne_eq,
    attrStored_eq_none_iff]

theorem isSome_firstAttr {name : Bytes} {body : List Item} (h : (attrText name body).isSome) :
    (firstAttr name body).isSome := by
  rw [attrText] at h
  exact Option.isSome_of_isSome_bind h

theorem toks_of_firstAttr {name : Bytes} {body : List Item} {v : ValueTree}
    (h : firstAttr name body = some v) : ∀ tok ∈ v.toks, tok ∈ bodyToks body := by
  induction body with
  | nil => simp [firstAttr] at h
  | cons i body ih =>
    intro tok htok
    cases i with
    | attr n val =>
      rw [firstAttr] at h
      split_ifs at h with hn
      · obtain rfl := Option.some.inj h
        simp [bodyToks, Item.toks, htok]
      · simp [bodyToks, ih h tok htok]
    | child n sub =>
      rw [firstAttr] at h
      simp [bodyToks, ih h tok htok]

theorem attrStored_eq_attrText_iff {name : Bytes} {body : List Item}
    (hwf : ∀ tok ∈ bodyToks body, tok.Wf) :
    attrStored name body = attrText name body ↔ FaithfulAttr name body := by
  rw [attrStored, attrText, FaithfulAttr]
  cases h : firstAttr name body with
  | none => simp
  | some v =>
    have hiff := ValueTree.stored_eq_text_iff (v := v)
      fun tok htok => hwf tok (toks_of_firstAttr h tok htok)
    simpa using hiff

/-- Two lists that are picked from one list at the same places are the same only place by place. -/
theorem filterMap_eq_iff {α β : Type*} {f g : α → Option β} {l : List α}
    (h : ∀ a ∈ l, (f a).isSome = (g a).isSome) :
    l.filterMap f = l.filterMap g ↔ ∀ a ∈ l, f a = g a := by
  refine ⟨fun heq => ?_, List.filterMap_congr⟩
  induction l with
  | nil => simp
  | cons a l ih =>
    have ha := h a (List.mem_cons_self ..)
    have hl := fun b hb => h b (List.mem_cons_of_mem a hb)
    rw [List.filterMap_cons, List.filterMap_cons] at heq
    cases hf : f a with
    | none =>
      have hg : g a = none := by simpa [hf] using ha
      simp only [hf, hg] at heq
      exact List.forall_mem_cons.mpr ⟨by rw [hf, hg], ih hl heq⟩
    | some b =>
      obtain ⟨b', hg⟩ : ∃ b', g a = some b' := by
        rw [← Option.isSome_iff_exists, ← ha, hf]
        rfl
      simp only [hf, hg] at heq
      obtain ⟨rfl, htail⟩ := List.cons.inj heq
      exact List.forall_mem_cons.mpr ⟨by rw [hf, hg], ih hl htail⟩

/-- An entry of the list has a name and a host. -/
theorem Item.isSome_of_readServer {i : Item} {e : Server} (h : i.readServer = some e) :
    e.name.isSome ∧ e.host.isSome := by
  cases i with
  | attr name val => cases h
  | child name body =>
    obtain ⟨c, hc⟩ : ∃ c, loadBody body tsAllocNode = some c := by
      rw [readServer, Option.bind_eq_some_iff] at h
      obtain ⟨c, hc, -⟩ := h
      exact ⟨c, hc⟩
    rw [readServer_child hc] at h
    split_ifs at h with hcond
    obtain rfl := Option.some.inj h
    exact hcond.2

/-- A child has an entry in the list when the file has one for it that has a name and a host. -/
theorem Item.isSome_readServer_iff {name : Bytes} {body : List Item}
    (hload : (loadBody body tsAllocNode).isSome) :
    (Item.child name body).readServer.isSome ↔
      ∃ e, (Item.child name body).server = some e ∧ e.name.isSome ∧ e.host.isSome := by
  obtain ⟨c, hc⟩ := Option.isSome_iff_exists.mp hload
  rw [readServer_child hc, server, isSome_attrStored, isSome_attrStored]
  constructor
  · intro h
    split_ifs at h with hcond
    · rw [if_pos ⟨hcond.1, isSome_firstAttr hcond.2.1, isSome_firstAttr hcond.2.2⟩]
      exact ⟨_, rfl, hcond.2⟩
    · cases h
  · rintro ⟨e, he, hname, hhost⟩
    split_ifs at he with hcond
    obtain rfl := Option.some.inj he
    rw [if_pos ⟨hcond.1, hname, hhost⟩]
    rfl

/-- A child gives the entry that the file has for it, when it is faithful. -/
theorem Item.readServer_eq_iff {name : Bytes} {body : List Item}
    (hload : (loadBody body tsAllocNode).isSome) (hwf : ∀ tok ∈ bodyToks body, tok.Wf) :
    (Item.child name body).readServer = (Item.child name body).server ↔
      (Item.child name body).Faithful := by
  obtain ⟨c, hc⟩ := Option.isSome_iff_exists.mp hload
  rw [readServer_child hc, server, Faithful, isSome_attrStored, isSome_attrStored]
  by_cases hattrs : name = ascii "server" ∧ (firstAttr (ascii "name") body).isSome ∧
      (firstAttr (ascii "host") body).isSome
  · obtain ⟨hname, hn, hh⟩ := hattrs
    by_cases htexts : (attrText (ascii "name") body).isSome ∧ (attrText (ascii "host") body).isSome
    · rw [if_pos ⟨hname, htexts⟩, if_pos ⟨hname, hn, hh⟩]
      simp only [Option.some.injEq, Server.mk.injEq, attrStored_eq_attrText_iff hwf, hname, hn, hh,
        Option.isSome_iff_ne_none.mp htexts.1, Option.isSome_iff_ne_none.mp htexts.2,
        forall_const, ne_eq, not_false_eq_true, true_and]
    · rw [if_neg fun h => htexts h.2, if_pos ⟨hname, hn, hh⟩]
      refine iff_of_false (by simp) fun h => htexts ?_
      obtain ⟨hn', hh', -⟩ := h hname hn hh
      exact ⟨Option.isSome_iff_ne_none.mpr hn', Option.isSome_iff_ne_none.mpr hh'⟩
  · rw [if_neg fun h => hattrs ⟨h.1, isSome_firstAttr h.2.1, isSome_firstAttr h.2.2⟩,
      if_neg hattrs]
    exact iff_of_true rfl fun hname hn hh => absurd ⟨hname, hn, hh⟩ hattrs

/-- When a body is loaded, the bodies of its children are. -/
theorem isSome_of_mem {body sub : List Item} {name : Bytes} {node : TsNode}
    (h : (loadBody body node).isSome) (hmem : Item.child name sub ∈ body) :
    (loadBody sub tsAllocNode).isSome := by
  induction body generalizing node with
  | nil => simp at hmem
  | cons i body ih =>
    obtain ⟨n, hn⟩ := Option.isSome_iff_exists.mp h
    simp only [loadBody, Option.bind_eq_some_iff] at hn
    obtain ⟨node', hi, hn⟩ := hn
    rcases List.mem_cons.mp hmem with rfl | hmem
    · simp only [Item.load, Option.map_eq_some_iff] at hi
      obtain ⟨c, hc, -⟩ := hi
      simp [hc]
    · exact ih (by rw [hn]; rfl) hmem

theorem mem_bodyToks {tok : Token} {i : Item} {body : List Item} (hi : i ∈ body)
    (h : tok ∈ i.toks) : tok ∈ bodyToks body := by
  induction body with
  | nil => simp at hi
  | cons j body ih =>
    rcases List.mem_cons.mp hi with rfl | hi
    · simp [bodyToks, h]
    · simp [bodyToks, ih hi]

/-- **The servers.** On a file that is loaded and has the name for it, the list is what the file
says exactly when every server in it is faithful: its name and host have a text, a string has no NUL
in it, and a number is zero or a numeral in the text that `%g` gives it. -/
theorem readServers_iff {file : Bytes} {f : FileTree} (hf : f.toks <+: tokens file)
    (hload : (tsTextLoad file).isSome) (hname : f.name = ascii "servers") :
    readServers (some file) = some (f.body.filterMap Item.server) ↔ ∀ i ∈ f.body, i.Faithful := by
  obtain ⟨tree, htree⟩ := Option.isSome_iff_exists.mp hload
  have hread : readServers (some file) = some (f.body.filterMap Item.readServer) := by
    have hload' : f.load = some tree := by rw [← loadTokens_eq hf, ← htree, tsTextLoad]
    simp only [FileTree.load, Option.map_eq_some_iff] at hload'
    obtain ⟨node, hnode, rfl⟩ := hload'
    obtain ⟨attrs, children, -, hchildren, -, hmap⟩ := exists_of_loadBody hnode
    rw [readServers, Option.bind_some, htree]
    simp only [hname, if_true]
    rw [hchildren]
    exact congrArg some hmap
  have hbody : (loadBody f.body tsAllocNode).isSome := by
    have hload' : f.load.isSome := by rwa [← loadTokens_eq hf]
    rwa [FileTree.load, Option.isSome_map] at hload'
  have hwf : ∀ tok ∈ bodyToks f.body, tok.Wf := fun tok htok =>
    wf_of_mem_tokens (hf.subset (List.mem_cons_of_mem _ (List.mem_cons_of_mem _ htok)))
  -- item by item
  have hitem : ∀ i ∈ f.body, i.readServer = i.server ↔ i.Faithful := by
    intro i hi
    cases i with
    | attr name val => exact iff_of_true rfl trivial
    | child name sub =>
      refine Item.readServer_eq_iff (isSome_of_mem hbody hi) fun tok htok => hwf tok ?_
      exact mem_bodyToks hi (List.mem_cons_of_mem _ (List.mem_cons_of_mem _ htok))
  rw [hread, Option.some.injEq]
  constructor
  · intro heq
    -- an entry that the file has is one of the list, so it has a name and a host
    have hentry : ∀ e ∈ f.body.filterMap Item.server, e.name.isSome ∧ e.host.isSome := by
      intro e he
      rw [← heq, List.mem_filterMap] at he
      obtain ⟨i, hi, hie⟩ := he
      exact Item.isSome_of_readServer hie
    have hsome : ∀ i ∈ f.body, i.readServer.isSome = i.server.isSome := by
      intro i hi
      cases i with
      | attr name val => rfl
      | child name sub =>
        rw [Bool.eq_iff_iff, Item.isSome_readServer_iff (isSome_of_mem hbody hi)]
        constructor
        · rintro ⟨e, he, -⟩
          rw [he]
          rfl
        · intro hs
          obtain ⟨e, he⟩ := Option.isSome_iff_exists.mp hs
          exact ⟨e, he, hentry e (List.mem_filterMap.mpr ⟨_, hi, he⟩)⟩
    exact fun i hi => (hitem i hi).mp ((filterMap_eq_iff hsome).mp heq i hi)
  · exact fun h => List.filterMap_congr fun i hi => (hitem i hi).mpr (h i hi)

/-- A configuration with one server, and the value of its password. -/
def oneServer (pass : ValueTree) : FileTree where
  name := ascii "servers"
  body := [.child (ascii "server") [.attr (ascii "name") (.id (ascii "work")),
    .attr (ascii "host") (.str (ascii "localhost")), .attr (ascii "pass") pass]]

/-- A password of four digits is stored as it is written. -/
theorem readServers_short : readServers (some (ascii
    "servers \x7b server \x7b name = work host = \"localhost\" pass = 1234 \x7d \x7d")) =
      some ((oneServer (.num (ascii "1234"))).body.filterMap Item.server) ↔
    ∀ i ∈ (oneServer (.num (ascii "1234"))).body, i.Faithful :=
  readServers_iff (by decide +kernel) (by decide +kernel) rfl

/-- A password of eight digits becomes `1.23457e+07`. -/
theorem readServers_long : (oneServer (.num (ascii "12345678"))).toks <+: tokens (ascii
      "servers \x7b server \x7b name = work host = \"localhost\" pass = 12345678 \x7d \x7d") ∧
    readServers (some (ascii
        "servers \x7b server \x7b name = work host = \"localhost\" pass = 12345678 \x7d \x7d")) =
      some [⟨some (ascii "work"), some (ascii "localhost"), none,
        some (ascii "1.23457e+07"), none⟩] ∧
    readServers (some (ascii
        "servers \x7b server \x7b name = work host = \"localhost\" pass = 12345678 \x7d \x7d")) ≠
      some ((oneServer (.num (ascii "12345678"))).body.filterMap Item.server) := by
  decide +kernel

end Visftp
