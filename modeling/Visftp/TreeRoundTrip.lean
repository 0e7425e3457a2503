import Visftp.ValueRoundTrip

/-!
# Saving a tree and loading it again

`ts_text_save` writes the attributes of a node and then its children, `ts_text_load` keeps the two
apart, so the tree that comes back is the one that was saved as soon as every value in it comes
back. The values that do not are those that are not plain, and one of them is enough to make the
tree another one, or to make the file unreadable.

## Main definitions

* `TsNode.values` — all the values in a tree
* `TsNode.Loaded` — a node as the loader makes them

## Main results

* `TsNode.exists_reload`, `TsNode.lockStep` — nodes, both ways
* `load_save_iff` — a loaded tree comes back from being saved when all its values are plain
-/

namespace Visftp

open CString

/-! ### Nodes that were loaded -/

mutual

/-- All the values in a tree. -/
def TsNode.values : TsNode → List TsValue
  | ⟨_, attrs, children⟩ => partsOf (attrs.map TsAttr.val) ++ valuesOf children

/-- All the values in several trees. -/
def valuesOf : List TsNode → List TsValue
  | [] => []
  | c :: cs => c.values ++ valuesOf cs

end

theorem mem_valuesOf {p : TsValue} {cs : List TsNode} :
    p ∈ valuesOf cs ↔ ∃ c ∈ cs, p ∈ c.values := by
  induction cs with
  | nil => simp [valuesOf]
  | cons c cs ih => simp [valuesOf, ih]

theorem TsNode.forall_values {node : TsNode} {P : TsValue → Prop} :
    (∀ p ∈ node.values, P p) ↔ (∀ a ∈ node.attrs, ∀ p ∈ a.val.parts, P p) ∧
      ∀ c ∈ node.children, ∀ p ∈ c.values, P p := by
  obtain ⟨name, attrs, children⟩ := node
  rw [values, List.forall_mem_append]
  simp only [mem_partsOf, mem_valuesOf, List.mem_map, forall_exists_index, and_imp]
  refine and_congr ⟨fun h a ha p hp => h p _ a ha rfl hp, ?_⟩
    ⟨fun h c hc p hp => h p c hc hp, fun h p c hc hp => h c hc p hp⟩
  rintro h p _ a ha rfl hp
  exact h a ha p hp

/-- An attribute that was loaded. -/
def TsAttr.Loaded (a : TsAttr) : Prop :=
  IsIdent a.name ∧ ∃ v : ValueTree, v.Wf ∧ v.load = some a.val

/-- A node as the loader makes them; the name of the node itself is left open. -/
inductive TsNode.Loaded : TsNode → Prop
  | mk {name : Bytes} {attrs : List TsAttr} {children : List TsNode}
    (hattrs : ∀ a ∈ attrs, a.Loaded) (hnames : ∀ c ∈ children, IsIdent c.name)
    (hchildren : ∀ c ∈ children, Loaded c) : Loaded ⟨name, attrs, children⟩

theorem TsNode.Loaded.rename {node : TsNode} (h : node.Loaded) (name : Bytes) :
    TsNode.Loaded { node with name } := by
  obtain ⟨hattrs, hnames, hchildren⟩ := h
  exact ⟨hattrs, hnames, hchildren⟩

theorem loaded_of_loadBody {body : List Item} {node n : TsNode}
    (hwf : ∀ tok ∈ bodyToks body, tok.Wf) (h : loadBody body node = some n)
    (hnode : node.Loaded) : n.Loaded := by
  induction body using bodyInduct generalizing node n with
  | nil =>
    obtain rfl := Option.some.inj h
    exact hnode
  | attr name val body ih =>
    simp only [bodyToks, Item.toks, List.cons_append, List.forall_mem_cons,
      List.forall_mem_append] at hwf
    simp only [loadBody, Item.load, Option.bind_eq_some_iff, Option.map_eq_some_iff] at h
    obtain ⟨_, ⟨w, hw, rfl⟩, h⟩ := h
    refine ih hwf.2.2.2 h ?_
    obtain ⟨hattrs, hnames, hchildren⟩ := hnode
    refine ⟨fun a ha => ?_, hnames, hchildren⟩
    rcases List.mem_append.mp ha with ha | ha
    · exact hattrs a ha
    · obtain rfl := List.mem_singleton.mp ha
      exact ⟨hwf.1, val, hwf.2.2.1, hw⟩
  | child name sub body ihsub ih =>
    simp only [bodyToks, Item.toks, List.cons_append, List.forall_mem_cons,
      List.forall_mem_append] at hwf
    simp only [loadBody, Item.load, Option.bind_eq_some_iff, Option.map_eq_some_iff] at h
    obtain ⟨_, ⟨c, hc, rfl⟩, h⟩ := h
    have halloc : TsNode.Loaded tsAllocNode := ⟨by simp, by simp, by simp⟩
    have hloaded := ihsub hwf.2.2.1 hc halloc
    refine ih hwf.2.2.2 h ?_
    obtain ⟨hattrs, hnames, hchildren⟩ := hnode
    refine ⟨hattrs, fun d hd => ?_, fun d hd => ?_⟩
    · rcases List.mem_append.mp hd with hd | hd
      · exact hnames d hd
      · obtain rfl := List.mem_singleton.mp hd
        exact hwf.1
    · rcases List.mem_append.mp hd with hd | hd
      · exact hchildren d hd
      · obtain rfl := List.mem_singleton.mp hd
        exact hloaded.rename name

/-! ### The text of a node -/

/-- What is written of a node behind its opening brace. -/
def bodyText (lvl : ℕ) (node : TsNode) : Bytes :=
  (node.attrs.map fun attr => printAttr attr lvl).flatten ++
    (saveNodes (lvl + 1) node.children ++ (indent lvl ++ ascii "\x7d\n"))

theorem isspace_of_mem_indent {lvl : ℕ} {c : Byte} (h : c ∈ indent lvl) : isspace c = true := by
  obtain rfl := List.eq_of_mem_replicate h
  decide

theorem tokens_indent (lvl : ℕ) (s : Bytes) : tokens (indent lvl ++ s) = tokens s :=
  tokens_append_blanks (fun _ h => isspace_of_mem_indent h) s

theorem tokens_saveNode {node : TsNode} (h : IsIdent node.name) (lvl : ℕ) (s : Bytes) :
    tokens (saveNode lvl node ++ s)
      = .id node.name :: .sym 123 :: tokens (bodyText lvl node ++ s) := by
  obtain ⟨name, attrs, children⟩ := node
  have htext : saveNode lvl ⟨name, attrs, children⟩ ++ s
      = indent lvl ++ (name ++ 32 :: 123 :: 10 :: (bodyText lvl ⟨name, attrs, children⟩ ++ s)) := by
    simp [saveNode, bodyText, ascii]
  rw [htext, tokens_indent, tokens_append_id h (by simp [byteAt, isIdChar, isalpha, isdigit]),
    tokens_cons_blank (by decide), tokens_cons_sym (by decide), tokens_cons_blank (by decide)]

theorem tokens_printAttr {attr : TsAttr} (h : IsIdent attr.name) (lvl : ℕ) (s : Bytes) :
    tokens (printAttr attr lvl ++ s)
      = .id attr.name :: .sym 61 :: tokens (printValue attr.val ++ 10 :: s) := by
  have htext : printAttr attr lvl ++ s = indent (lvl + 1) ++
      (attr.name ++ 32 :: 61 :: 32 :: (printValue attr.val ++ 10 :: s)) := by
    simp [printAttr, ascii]
  rw [htext, tokens_indent, tokens_append_id h (by simp [byteAt, isIdChar, isalpha, isdigit]),
    tokens_cons_blank (by decide), tokens_cons_sym (by decide), tokens_cons_blank (by decide)]

theorem tokens_close (lvl : ℕ) (s : Bytes) :
    tokens (indent lvl ++ ascii "\x7d\n" ++ s) = .sym 125 :: tokens s := by
  have htext : indent lvl ++ ascii "\x7d\n" ++ s = indent lvl ++ 125 :: 10 :: s := by
    simp [ascii]
  rw [htext, tokens_indent, tokens_cons_sym (by decide), tokens_cons_blank (by decide)]

theorem tokens_newline (s : Bytes) : tokens (10 :: s) = tokens s := tokens_cons_blank (by decide) s

/-! ### Plain trees come back -/

/-- A node with its values plain comes back, up to its name, which is not in the text. -/
def TsNode.Reloads (node : TsNode) : Prop :=
  ∃ body, loadBody body tsAllocNode = some { node with name := [] } ∧
    ∀ lvl s, tokens (bodyText lvl node ++ s) = bodyToks body ++ tokens s

/-- In front of a text that is read as a body, attributes are read as attributes. -/
theorem exists_body_attrs {attrs : List TsAttr} (hloaded : ∀ a ∈ attrs, a.Loaded)
    (hplain : ∀ a ∈ attrs, ∀ p ∈ a.val.parts, p.Plain) (body : List Item) (node n : TsNode)
    (h : loadBody body { node with attrs := node.attrs ++ attrs } = some n) :
    ∃ body', loadBody body' node = some n ∧ ∀ (lvl : ℕ) (s : Bytes) (rest : List Token),
      tokens s = bodyToks body ++ rest →
      tokens ((attrs.map fun attr => printAttr attr lvl).flatten ++ s)
        = bodyToks body' ++ rest := by
  induction attrs generalizing node with
  | nil =>
    rw [List.append_nil, TsNode.eta] at h
    exact ⟨body, h, fun _ _ _ hs => hs⟩
  | cons a attrs ih =>
    obtain ⟨hident, v, hv, hload⟩ := hloaded a (List.mem_cons_self ..)
    obtain ⟨⟨u, hu, htoks⟩, -⟩ :=
      v.exists_reload hv hload (hplain a (List.mem_cons_self ..))
    obtain ⟨body', hbody', htokens⟩ := ih (fun b hb => hloaded b (List.mem_cons_of_mem _ hb))
      (fun b hb => hplain b (List.mem_cons_of_mem _ hb)) (tsAddAttr node a)
      (by simpa [tsAddAttr] using h)
    refine ⟨.attr a.name u :: body', by simpa [loadBody, Item.load, hu] using hbody',
      fun lvl s rest hs => ?_⟩
    rw [List.map_cons, List.flatten_cons, List.append_assoc, tokens_printAttr hident,
      htoks _ (stops_of_head (by decide) (by decide)), tokens_newline, htokens lvl s rest hs]
    simp [bodyToks, Item.toks]

/-- And children are read as children. -/
theorem exists_body_children {children : List TsNode} (hnames : ∀ c ∈ children, IsIdent c.name)
    (hreload : ∀ c ∈ children, c.Reloads) (body : List Item) (node n : TsNode)
    (h : loadBody body { node with children := node.children ++ children } = some n) :
    ∃ body', loadBody body' node = some n ∧ ∀ (lvl : ℕ) (s : Bytes) (rest : List Token),
      tokens s = bodyToks body ++ rest →
      tokens (saveNodes lvl children ++ s) = bodyToks body' ++ rest := by
  induction children generalizing node with
  | nil =>
    rw [List.append_nil, TsNode.eta] at h
    exact ⟨body, h, fun _ _ _ hs => hs⟩
  | cons c children ih =>
    obtain ⟨sub, hsub, htoks⟩ := hreload c (List.mem_cons_self ..)
    obtain ⟨body', hbody', htokens⟩ := ih (fun d hd => hnames d (List.mem_cons_of_mem _ hd))
      (fun d hd => hreload d (List.mem_cons_of_mem _ hd)) (tsAddChild node c)
      (by simpa [tsAddChild] using h)
    refine ⟨.child c.name sub :: body', ?_, fun lvl s rest hs => ?_⟩
    · rw [loadBody, Item.load, hsub, Option.map_some, TsNode.eta]
      exact hbody'
    rw [saveNodes, List.append_assoc, tokens_saveNode (hnames c (List.mem_cons_self ..)),
      htoks, htokens lvl s rest hs]
    simp [bodyToks, Item.toks]

/-- **Plain trees come back.** -/
theorem TsNode.exists_reload {node : TsNode} (h : node.Loaded)
    (hplain : ∀ p ∈ node.values, p.Plain) : node.Reloads := by
  induction h with
  | @mk name attrs children hattrs hnames hchildren ih =>
    obtain ⟨hpattrs, hpchildren⟩ := TsNode.forall_values.mp hplain
    obtain ⟨body₁, hbody₁, htoks₁⟩ := exists_body_children hnames
      (fun c hc => ih c hc (hpchildren c hc)) [] ⟨[], attrs, []⟩ ⟨[], attrs, children⟩ rfl
    obtain ⟨body₂, hbody₂, htoks₂⟩ := exists_body_attrs hattrs hpattrs body₁ tsAllocNode
      ⟨[], attrs, children⟩ hbody₁
    refine ⟨body₂, hbody₂, fun lvl s => ?_⟩
    rw [bodyText, List.append_assoc, List.append_assoc]
    exact htoks₂ lvl _ _ (htoks₁ (lvl + 1) _ _ (tokens_close lvl s))

/-! ### And nothing else does -/

/-- What was read in the place of a node, its name apart, says that all of it is plain and has been
read to its end. -/
def TsNode.LockStep (node : TsNode) : Prop :=
  ∀ (lvl : ℕ) (s : Bytes) (body : List Item) (rest : List Token),
    tokens (bodyText lvl node ++ s) = bodyToks body ++ rest →
    loadBody body tsAllocNode = some { node with name := [] } →
    (∀ p ∈ node.values, p.Plain) ∧ rest = tokens s

/-- Loading only adds to what a node has. -/
theorem prefix_of_loadBody {body : List Item} {node n : TsNode} (h : loadBody body node = some n) :
    node.attrs <+: n.attrs ∧ node.children <+: n.children := by
  obtain ⟨attrs, children, hattrs, hchildren, -⟩ := holdsBody_iff h
  exact ⟨⟨attrs, hattrs.symm⟩, ⟨children, hchildren.symm⟩⟩

theorem name_of_loadBody {body : List Item} {node n : TsNode} (h : loadBody body node = some n) :
    n.name = node.name := by
  induction body generalizing node with
  | nil =>
    obtain rfl := Option.some.inj h
    rfl
  | cons i body ih =>
    simp only [loadBody, Option.bind_eq_some_iff] at h
    obtain ⟨node', hi, h⟩ := h
    rw [ih h]
    cases i with
    | attr name val =>
      simp only [Item.load, Option.map_eq_some_iff] at hi
      obtain ⟨_, -, rfl⟩ := hi
      rfl
    | child name sub =>
      simp only [Item.load, Option.map_eq_some_iff] at hi
      obtain ⟨_, -, rfl⟩ := hi
      rfl

/-- Two lists that go on after the same front have the same next element. -/
theorem eq_of_prefix_concat {α : Type*} {front back : List α} {a b : α}
    (h : front ++ [a] <+: front ++ b :: back) : a = b := by
  obtain ⟨t, ht⟩ := h
  rw [List.append_assoc, List.singleton_append] at ht
  exact (List.cons.inj (List.append_cancel_left ht)).1

/-- The attributes that were written are the first ones that are read. -/
theorem lockStep_attrs {attrs : List TsAttr} (hloaded : ∀ a ∈ attrs, a.Loaded) {lvl : ℕ}
    {s : Bytes} {body : List Item} {rest : List Token} {node n : TsNode}
    (htoks : tokens ((attrs.map fun attr => printAttr attr lvl).flatten ++ s)
      = bodyToks body ++ rest)
    (h : loadBody body node = some n) (hn : n.attrs = node.attrs ++ attrs) :
    (∀ a ∈ attrs, ∀ p ∈ a.val.parts, p.Plain) ∧ ∃ body', tokens s = bodyToks body' ++ rest ∧
      loadBody body' { node with attrs := n.attrs } = some n := by
  induction attrs generalizing body node with
  | nil =>
    rw [List.append_nil] at hn
    exact ⟨by simp, body, htoks, by rw [hn, TsNode.eta, h]⟩
  | cons a attrs ih =>
    obtain ⟨hident, v, hv, hload⟩ := hloaded a (List.mem_cons_self ..)
    rw [List.map_cons, List.flatten_cons, List.append_assoc, tokens_printAttr hident] at htoks
    rcases body with _ | ⟨⟨name, u⟩ | ⟨name, sub⟩, body⟩
    · simp [bodyToks] at htoks
    · simp only [bodyToks, Item.toks, List.cons_append, List.append_assoc, List.cons.injEq,
        Token.id.injEq, true_and] at htoks
      obtain ⟨rfl, htoks⟩ := htoks
      simp only [loadBody, Item.load, Option.bind_eq_some_iff, Option.map_eq_some_iff] at h
      obtain ⟨_, ⟨w, hw, rfl⟩, h⟩ := h
      have ha : (⟨a.name, w⟩ : TsAttr) = a := by
        have hprefix := (prefix_of_loadBody h).1
        rw [hn] at hprefix
        exact eq_of_prefix_concat hprefix
      have hval : w = a.val := congrArg TsAttr.val ha
      obtain ⟨hplain, hrest⟩ := v.lockStep hv hload _ u w _
        (stops_of_head (by decide) (by decide)) htoks hw (by rw [hval])
      rw [tokens_newline] at hrest
      have hn' : n.attrs = (tsAddAttr node ⟨a.name, w⟩).attrs ++ attrs := by
        rw [hn, ha, tsAddAttr]
        simp
      obtain ⟨hplains, body', htoks', hbody'⟩ :=
        ih (fun b hb => hloaded b (List.mem_cons_of_mem _ hb)) hrest.symm h hn'
      exact ⟨List.forall_mem_cons.mpr ⟨hplain, hplains⟩, body', htoks', hbody'⟩
    · simp [bodyToks, Item.toks] at htoks

/-- And the children are the first ones behind them. -/
theorem lockStep_children {children : List TsNode} (hnames : ∀ c ∈ children, IsIdent c.name)
    (hstep : ∀ c ∈ children, c.LockStep) {lvl : ℕ} {s : Bytes} {body : List Item}
    {rest : List Token} {node n : TsNode}
    (htoks : tokens (saveNodes lvl children ++ s) = bodyToks body ++ rest)
    (h : loadBody body node = some n) (hn : n.children = node.children ++ children) :
    (∀ c ∈ children, ∀ p ∈ c.values, p.Plain) ∧ ∃ body', tokens s = bodyToks body' ++ rest := by
  induction children generalizing body node with
  | nil => exact ⟨by simp, body, htoks⟩
  | cons c children ih =>
    rw [saveNodes, List.append_assoc, tokens_saveNode (hnames c (List.mem_cons_self ..))] at htoks
    rcases body with _ | ⟨⟨name, u⟩ | ⟨name, sub⟩, body⟩
    · simp [bodyToks] at htoks
    · simp [bodyToks, Item.toks] at htoks
    · simp only [bodyToks, Item.toks, List.cons_append, List.append_assoc, List.cons.injEq,
        Token.id.injEq, true_and] at htoks
      obtain ⟨rfl, htoks⟩ := htoks
      simp only [loadBody, Item.load, Option.bind_eq_some_iff, Option.map_eq_some_iff] at h
      obtain ⟨_, ⟨d, hd, rfl⟩, h⟩ := h
      have hc : ({ d with name := c.name } : TsNode) = c := by
        have hprefix := (prefix_of_loadBody h).2
        rw [hn] at hprefix
        exact eq_of_prefix_concat hprefix
      have hname : d.name = [] := name_of_loadBody hd
      have hd' : d = { c with name := [] } := by
        rw [← hc, ← hname, TsNode.eta]
      obtain ⟨hplain, hrest⟩ := hstep c (List.mem_cons_self ..) lvl _ sub _ htoks (hd' ▸ hd)
      have hn' : n.children = (tsAddChild node { d with name := c.name }).children ++ children := by
        rw [hn, hc, tsAddChild]
        simp
      obtain ⟨hplains, body', htoks'⟩ := ih (fun e he => hnames e (List.mem_cons_of_mem _ he))
        (fun e he => hstep e (List.mem_cons_of_mem _ he)) hrest.symm h hn'
      exact ⟨List.forall_mem_cons.mpr ⟨hplain, hplains⟩, body', htoks'⟩

/-- **Lock step.** What is read in the place of a loaded node is that node only if everything in it
is plain. -/
theorem TsNode.Loaded.lockStep {node : TsNode} (h : node.Loaded) : node.LockStep := by
  induction h with
  | @mk name attrs children hattrs hnames hchildren ih =>
    intro lvl s body rest htoks hload
    rw [bodyText, List.append_assoc, List.append_assoc] at htoks
    obtain ⟨hpattrs, body₁, htoks₁, hload₁⟩ := lockStep_attrs hattrs htoks hload rfl
    obtain ⟨hpchildren, body₂, htoks₂⟩ := lockStep_children hnames ih htoks₁ hload₁ rfl
    refine ⟨TsNode.forall_values.mpr ⟨hpattrs, hpchildren⟩, ?_⟩
    rw [tokens_close] at htoks₂
    rcases body₂ with _ | ⟨⟨name, u⟩ | ⟨name, sub⟩, body₂⟩
    · exact (List.cons.inj htoks₂).2.symm
    · simp [bodyToks, Item.toks] at htoks₂
    · simp [bodyToks, Item.toks] at htoks₂

/-! ### The whole file -/

theorem loaded_of_tsTextLoad {file : Bytes} {tree : TsNode} (h : tsTextLoad file = some tree) :
    IsIdent tree.name ∧ tree.Loaded := by
  obtain ⟨f, hf, hload⟩ := exists_of_loadTokens h
  have hwf : ∀ tok ∈ f.toks, tok.Wf := fun tok htok => wf_of_mem_tokens (hf.subset htok)
  simp only [FileTree.load, Option.map_eq_some_iff] at hload
  obtain ⟨node, hnode, rfl⟩ := hload
  have halloc : TsNode.Loaded tsAllocNode := ⟨by simp, by simp, by simp⟩
  have hbody := loaded_of_loadBody
    (fun tok htok => hwf tok (List.mem_cons_of_mem _ (List.mem_cons_of_mem _ htok))) hnode halloc
  exact ⟨hwf _ (List.mem_cons_self ..), hbody.rename f.name⟩

/-- **Save and load.** A tree that was loaded comes back from being saved exactly when there is no
vector in it, no value without a string, and no number but short ones. -/
theorem load_save_iff {file : Bytes} {tree : TsNode} (h : tsTextLoad file = some tree) :
    tsTextLoad (tsTextSave tree) = some tree ↔ ∀ p ∈ tree.values, p.Plain := by
  obtain ⟨hident, hloaded⟩ := loaded_of_tsTextLoad h
  have htoks : tokens (tsTextSave tree)
      = .id tree.name :: .sym 123 :: tokens (bodyText 0 tree ++ []) := by
    rw [tsTextSave, ← List.append_nil (saveNode 0 tree), tokens_saveNode hident]
  constructor
  · intro hreload
    obtain ⟨f, ⟨rest, hf⟩, hload⟩ := exists_of_loadTokens hreload
    rw [htoks, FileTree.toks] at hf
    simp only [List.cons_append, List.cons.injEq, Token.id.injEq, true_and] at hf
    simp only [FileTree.load, Option.map_eq_some_iff] at hload
    obtain ⟨node, hnode, htree⟩ := hload
    have hname : node.name = [] := name_of_loadBody hnode
    have hnode' : node = { tree with name := [] } := by
      rw [← htree, ← hname, TsNode.eta]
    exact (hloaded.lockStep 0 [] f.body rest hf.2.symm (hnode' ▸ hnode)).1
  · intro hplain
    obtain ⟨body, hbody, htokens⟩ := TsNode.exists_reload hloaded hplain
    have hprefix : FileTree.toks ⟨tree.name, body⟩ <+: tokens (tsTextSave tree) := by
      rw [htoks, htokens 0 []]
      exact ⟨tokens [], rfl⟩
    rw [tsTextLoad, loadTokens_eq hprefix, FileTree.load, hbody, Option.map_some, TsNode.eta]

/-- A file that comes back. -/
theorem load_save_scalars :
    ∃ tree, tsTextLoad (ascii "a \x7b b = [1, \"x\"] c \x7b d = -2.5 \x7d \x7d") = some tree ∧
      (tsTextLoad (tsTextSave tree) = some tree ↔ ∀ p ∈ tree.values, p.Plain) := by
  have hsome : (tsTextLoad
      (ascii "a \x7b b = [1, \"x\"] c \x7b d = -2.5 \x7d \x7d")).isSome := by
    decide +kernel
  obtain ⟨tree, htree⟩ := Option.isSome_iff_exists.mp hsome
  exact ⟨tree, htree, load_save_iff htree⟩

/-- Two numbers in brackets are loaded as a vector, saved as `[]`, and that is refused. -/
theorem load_save_vector : ∃ tree, tsTextLoad (ascii "a \x7b b = [1, 2] \x7d") = some tree ∧
    tsTextLoad (tsTextSave tree) ≠ some tree := by
  have hsome : (tsTextLoad (ascii "a \x7b b = [1, 2] \x7d")).isSome := by decide +kernel
  have hnone : (((tsTextLoad (ascii "a \x7b b = [1, 2] \x7d")).map tsTextSave).bind
      tsTextLoad).isNone := by decide +kernel
  obtain ⟨tree, htree⟩ := Option.isSome_iff_exists.mp hsome
  refine ⟨tree, htree, fun h => ?_⟩
  rw [htree, Option.map_some, Option.bind_some, h] at hnone
  cases hnone

end Visftp
