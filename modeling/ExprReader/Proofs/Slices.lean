import ExprReader.Proofs.Grammar
import ExprReader.Proofs.Layout
import ExprReader.Proofs.Nodes
import ExprReader.Proofs.Shapes

/-! # Reading a part of a source

An expression of a source about which nothing is reported can be cut out and read alone. Its tokens are
consecutive tokens of the source, the text from the first to the last of them is scanned as these tokens, and
since the expression is canonical it is what they are read as. -/

namespace ExprReader

/-! ### Expressions inside a canonical tree -/

namespace Expr

/-- A canonical expression that nests no deeper than a tree and is made of consecutive tokens of it. -/
structure Inside (d root : Expr) : Prop where
  canonical : d.Canonical
  nest : d.nest ≤ root.nest
  leaves : d.leaves <:+: root.leaves

theorem isInfix_flatMap_leaves {e : Expr} {es : List Expr} (h : e ∈ es) : e.leaves <:+: es.flatMap leaves := by
  obtain ⟨front, back, rfl⟩ := List.append_of_mem h
  exact ⟨front.flatMap leaves, back.flatMap leaves, by simp⟩

/-! ### Walks that meet an expression -/

section
variable {e : Expr} {depth found : Nat}

/-- A header of a function is no expression, nor are its parameters and types. -/
theorem toNode_ne_branch {tag : NodeTag} {children : List Node}
    (htag : tag = .parametersList ∨ tag = .parameter ∨ tag = .namedType) : e.toNode ≠ .branch tag children := by
  intro h
  have hsame := e.tag?_toNode
  rw [h, Node.tag?_branch, Option.some.injEq] at hsame
  subst hsame
  cases e <;> simp [tag] at htag

theorem not_mem_leaf {token : Token} : (found, e.toNode) ∉ (Node.leaf token).preorder depth := by
  simp [toNode_ne_leaf]

theorem not_mem_ofToken? {token : Option Token} {child : Node} (hchild : child ∈ Node.ofToken? token) :
    (found, e.toNode) ∉ child.preorder depth := by
  obtain ⟨token, -, rfl⟩ : ∃ t, token = some t ∧ Node.leaf t = child := by
    simpa [Node.ofToken?] using hchild
  exact not_mem_leaf

theorem eq_ofName_of_mem {token : Token} (hm : (found, e.toNode) ∈ (Node.ofName token).preorder depth) :
    e.toNode = Node.ofName token := by
  rcases Node.mem_preorder_branch.mp hm with ⟨-, heq⟩ | ⟨child, hchild, hm⟩
  · exact heq
  · rw [List.mem_singleton.mp hchild] at hm
    exact absurd hm not_mem_leaf

/-- The only expressions in a parameter are its name and its type. -/
theorem eq_ofName_of_mem_parameter {p : Parameter} (hm : (found, e.toNode) ∈ p.toNode.preorder depth) :
    ∃ token, (token = p.name ∨ p.typeName = some token) ∧ e.toNode = Node.ofName token := by
  rcases Node.mem_preorder_branch.mp hm with ⟨-, heq⟩ | ⟨child, hchild, hm⟩
  · exact absurd heq (toNode_ne_branch (by simp))
  · simp only [List.mem_append, List.mem_singleton, Option.mem_toList, Option.map_eq_some_iff] at hchild
    rcases hchild with ((hchild | rfl) | hchild) | ⟨name, hname, rfl⟩
    · exact absurd hm (not_mem_ofToken? hchild)
    · exact ⟨p.name, Or.inl rfl, eq_ofName_of_mem hm⟩
    · exact absurd hm (not_mem_ofToken? hchild)
    · rcases Node.mem_preorder_branch.mp hm with ⟨-, heq⟩ | ⟨child, hchild, hm⟩
      · exact absurd heq (toNode_ne_branch (by simp))
      · rw [List.mem_singleton.mp hchild] at hm
        exact ⟨name, Or.inr hname, eq_ofName_of_mem hm⟩

theorem eq_ofName_of_mem_list {l : ParameterList} (hk : l.KindsFit)
    (hm : (found, e.toNode) ∈ l.toNode.preorder depth) :
    ∃ token ∈ l.leaves, token.kind = .identifier ∧ e.toNode = Node.ofName token := by
  rcases Node.mem_preorder_branch.mp hm with ⟨-, heq⟩ | ⟨child, hchild, hm⟩
  · exact absurd heq (toNode_ne_branch (by simp))
  · simp only [List.cons_append, List.mem_cons, List.mem_append, List.mem_map] at hchild
    rcases hchild with rfl | ⟨p, hp, rfl⟩ | hchild
    · exact absurd hm not_mem_leaf
    · obtain ⟨token, htoken, heq⟩ := eq_ofName_of_mem_parameter hm
      have hleaf : p.leaves ⊆ l.leaves := fun token hm => by
        simp only [ParameterList.leaves, List.mem_cons, List.mem_append, List.mem_flatMap]
        exact Or.inr (Or.inl ⟨p, hp, hm⟩)
      rcases htoken with rfl | htype
      · exact ⟨p.name, hleaf (by simp [Parameter.leaves]), (hk.each p hp).name, heq⟩
      · exact ⟨token, hleaf (by simp [Parameter.leaves, htype]), (hk.each p hp).typeName token htype, heq⟩
    · exact absurd hm (not_mem_ofToken? hchild)

/-- A walk through braces meets expressions only inside them. -/
theorem exists_mem_of_mem_braces {opening : Token} {es : List Expr} {closing : Option Token} {child : Node}
    (hchild : child ∈ Node.leaf opening :: toNodes es ++ Node.ofToken? closing)
    (hm : (found, e.toNode) ∈ child.preorder depth) : ∃ x ∈ es, (found, e.toNode) ∈ x.toNode.preorder depth := by
  simp only [toNodes_eq_map, List.cons_append, List.mem_cons, List.mem_append, List.mem_map] at hchild
  rcases hchild with rfl | ⟨x, hx, rfl⟩ | hchild
  · exact absurd hm not_mem_leaf
  · exact ⟨x, hx, hm⟩
  · exact absurd hm (not_mem_ofToken? hchild)

end

/-- An expression has the node of one inside a tree. -/
def StandsIn (e root : Expr) : Prop :=
  ∃ d : Expr, d.toNode = e.toNode ∧ d.Inside root

theorem StandsIn.of_part {e part root : Expr} (h : e.StandsIn part) (hnest : part.nest ≤ root.nest)
    (hleaves : part.leaves <:+: root.leaves) : e.StandsIn root := by
  obtain ⟨d, heq, hd⟩ := h
  exact ⟨d, heq, hd.canonical, Nat.le_trans hd.nest hnest, hd.leaves.trans hleaves⟩

theorem Canonical.standsIn {e root : Expr} (h : root.Canonical) (heq : e.toNode = root.toNode) : e.StandsIn root :=
  ⟨root, heq.symm, h, Nat.le_refl _, List.infix_rfl⟩

theorem StandsIn.of_name {e root : Expr} {token : Token} (heq : e.toNode = Node.ofName token)
    (hk : token.kind = .identifier) (h : root.Canonical) (hm : token ∈ root.leaves) : e.StandsIn root := by
  obtain ⟨front, back, hleaves⟩ := List.append_of_mem hm
  exact ⟨identifier token, heq.symm, canonical_identifier hk, h.clean.nest_pos, front, back, by simp [hleaves]⟩

theorem StandsIn.of_block {e x : Expr} {body : Block Expr} (hx : x ∈ body.expressions) (h : e.StandsIn x) :
    e.StandsIn (block body) := by
  refine h.of_part ?_ ?_
  · obtain ⟨opening, es, closing⟩ := body
    have hle := nestAll_le_iff.mp (Nat.le_refl (nestAll es)) x hx
    rw [nest]
    omega
  · rw [leaves_block]
    exact ((isInfix_flatMap_leaves hx).trans (List.prefix_append _ _).isInfix).trans (List.suffix_cons _ _).isInfix

/-- The body of a canonical function is a canonical block. -/
theorem Canonical.inside_body {keyword : Token} {name : Option Token} {parameters : Option ParameterList}
    {b : Block Expr} (h : (function keyword name parameters (some b)).Canonical) :
    (block b).Inside (function keyword name parameters (some b)) := by
  obtain ⟨⟨⟨-, -, b', hb', hclosed⟩, ⟨-, -, -, hbraces⟩, -, hseparated⟩, hinside⟩ := everywhere_function.mp h
  cases hb'
  refine ⟨everywhere_block.mpr ⟨⟨hclosed, hbraces b rfl, trivial, hseparated b rfl⟩, hinside b rfl⟩, ?_, ?_⟩
  · obtain ⟨opening, es, closing⟩ := b
    simp [nest]
  · rw [leaves_function, Option.toList_some, List.flatMap_singleton]
    exact ((List.suffix_append _ _).trans (List.suffix_cons _ _)).isInfix

/-- Every expression that a walk through a canonical tree meets stands in the tree. -/
theorem Canonical.standsIn_of_mem {root e : Expr} {depth found : Nat} (h : root.Canonical)
    (hm : (found, e.toNode) ∈ root.toNode.preorder depth) : e.StandsIn root := by
  induction root generalizing depth with
  | literal token =>
    rcases Node.mem_preorder_branch.mp hm with ⟨-, heq⟩ | ⟨child, hchild, hm⟩
    · exact h.standsIn heq
    · rw [List.mem_singleton.mp hchild] at hm
      exact absurd hm not_mem_leaf
  | identifier token => exact h.standsIn (eq_ofName_of_mem hm)
  | unary operator operand ih =>
    obtain ⟨hnode, hinner⟩ := everywhere_unary.mp h
    obtain ⟨inner, rfl⟩ := Option.isSome_iff_exists.mp hnode.complete
    rcases Node.mem_preorder_branch.mp hm with ⟨-, heq⟩ | ⟨child, hchild, hm⟩
    · exact h.standsIn heq
    · simp only [List.mem_cons, List.not_mem_nil, or_false] at hchild
      rcases hchild with rfl | rfl
      · exact absurd hm not_mem_leaf
      · exact (ih inner rfl (hinner inner rfl) hm).of_part (by simp [nest]) ⟨[operator], [], by simp⟩
  | binary left operator right ih ih' =>
    obtain ⟨-, hleft, hright⟩ := everywhere_binary.mp h
    obtain ⟨hnestl, hnestr⟩ := nest_binary_le_iff.mp (Nat.le_refl (binary left operator right).nest)
    rcases Node.mem_preorder_branch.mp hm with ⟨-, heq⟩ | ⟨child, hchild, hm⟩
    · exact h.standsIn heq
    · simp only [List.mem_cons, List.not_mem_nil, or_false] at hchild
      rcases hchild with rfl | rfl | rfl
      · exact (ih hleft hm).of_part hnestl ⟨[], operator :: right.leaves, by simp⟩
      · exact absurd hm not_mem_leaf
      · exact (ih' hright hm).of_part (Nat.le_of_lt hnestr) ⟨left.leaves ++ [operator], [], by simp⟩
  | parenthesis opening inner closing ih =>
    obtain ⟨hnode, hinner⟩ := everywhere_parenthesis.mp h
    obtain ⟨inner, rfl⟩ := Option.isSome_iff_exists.mp hnode.complete.1
    rcases Node.mem_preorder_branch.mp hm with ⟨-, heq⟩ | ⟨child, hchild, hm⟩
    · exact h.standsIn heq
    · simp only [List.mem_cons] at hchild
      rcases hchild with rfl | rfl | hchild
      · exact absurd hm not_mem_leaf
      · exact (ih inner rfl (hinner inner rfl) hm).of_part (by simp [nest]) ⟨[opening], closing.toList, by simp⟩
      · exact absurd hm (not_mem_ofToken? hchild)
  | block body ih =>
    obtain ⟨-, hinner⟩ := everywhere_block.mp h
    rcases Node.mem_preorder_branch.mp hm with ⟨-, heq⟩ | ⟨child, hchild, hm⟩
    · exact h.standsIn heq
    · obtain ⟨x, hx, hm⟩ := exists_mem_of_mem_braces hchild hm
      exact .of_block hx (ih x hx (hinner x hx) hm)
  | function keyword name parameters body ih =>
    obtain ⟨hnode, hinner⟩ := everywhere_function.mp h
    obtain ⟨-, ⟨list, rfl, -⟩, ⟨b, rfl, -⟩⟩ := hnode.complete
    obtain ⟨-, hname, hlist, -⟩ := hnode.kinds
    rcases Node.mem_preorder_branch.mp hm with ⟨-, heq⟩ | ⟨child, hchild, hm⟩
    · exact h.standsIn heq
    · simp only [List.cons_append, List.mem_cons, List.mem_append, Option.mem_toList, Option.map_eq_some_iff,
        List.not_mem_nil, or_false] at hchild
      rcases hchild with rfl | (⟨n, rfl, rfl⟩ | ⟨_, ⟨⟩, rfl⟩) | rfl
      · exact absurd hm not_mem_leaf
      · exact .of_name (eq_ofName_of_mem hm) (hname n rfl) h (by simp)
      · obtain ⟨token, htoken, hk, heq⟩ := eq_ofName_of_mem_list (hlist list rfl) hm
        exact .of_name heq hk h (by simp [htoken])
      · have hbody := h.inside_body
        refine StandsIn.of_part ?_ hbody.nest hbody.leaves
        rcases Node.mem_preorder_branch.mp hm with ⟨-, heq⟩ | ⟨child, hchild, hm⟩
        · exact hbody.canonical.standsIn heq
        · obtain ⟨x, hx, hm⟩ := exists_mem_of_mem_braces hchild hm
          exact .of_block hx (ih b rfl x hx (hinner b rfl x hx) hm)
  | invalidToken token => exact h.clean.complete.elim
  | invalidExpr inner _ => exact h.clean.complete.elim

end Expr

/-! ### Slices -/

/-- The text that a span covers. There is none where the ends are reversed, where one lies beyond the source or
where one lies inside a character. -/
def Span.slice? (span : Span) (source : String) : Option String :=
  match span.length?, splitBytes? source.toList span.start with
  | some length, some (_, rest) => (splitBytes? rest length).map fun parts => String.ofList parts.1
  | _, _ => none

theorem Span.slice?_eq {source : String} {before text after : List Char} {start stop : Nat}
    (h : source.toList = before ++ (text ++ after)) (hstart : byteLength before = start)
    (hstop : start + byteLength text = stop) : Span.slice? ⟨start, stop⟩ source = some (String.ofList text) := by
  have hlength : Span.length? ⟨start, stop⟩ = some (byteLength text) := by
    rw [Span.length?, if_pos (show start ≤ stop by omega)]
    exact congrArg some (show stop - start = byteLength text by omega)
  rw [slice?, hlength, splitBytes?_eq_some_iff.mpr ⟨h, hstart⟩]
  simp only [splitBytes?_eq_some_iff.mpr (⟨rfl, rfl⟩ : text ++ after = text ++ after ∧ _), Option.map_some]

/-- The text from one token to another is scanned as the tokens from the one to the other. -/
theorem scan_slice {source : String} {front tokens back : List Token} {first last : Token}
    (h : (scan source).1.tokens.toList = front ++ (tokens ++ back)) (hfirst : tokens.head? = some first)
    (hlast : tokens.getLast? = some last) : ∃ slice, Span.slice? ⟨first.start, last.stop⟩ source = some slice ∧
      (scan slice).1.tokens.toList.map Token.face = tokens.map Token.face := by
  obtain ⟨rest, rfl⟩ := List.head?_eq_some_iff.mp hfirst
  obtain ⟨before, after, hsource, hstart, hafter⟩ := (scan_eq_iff.mp h).drop
  obtain ⟨init, hinit⟩ := List.getLast?_eq_some_iff.mp hlast
  have hsplit : first :: (rest ++ back) = init ++ last :: back := by
    rw [← List.cons_append, hinit]
    simp
  obtain ⟨text, tail, rfl, hstop, htext⟩ := Scans.take (hsplit ▸ hafter)
  obtain ⟨others, hothers, hfaces⟩ := htext.elsewhere 0 {}
  rw [← String.toList_ofList (l := text)] at hothers
  refine ⟨String.ofList text, Span.slice?_eq hsource (by simpa using hstart) hstop, ?_⟩
  rw [scan_eq_iff.mpr hothers, hfaces, hinit]

/-! ### Reading the same tokens elsewhere -/

section
variable {buffer other : TokenBuffer}
  (h : other.tokens.toList.map Token.face = buffer.tokens.toList.map Token.face)
  (hending : other.ending.text = buffer.ending.text)
include h hending

theorem TokenBuffer.face_get (index : Nat) : (other.get index).face = (buffer.get index).face := by
  have hends : other.ending.face = buffer.ending.face := by
    simp [Token.face, hending, other.ending_kind, buffer.ending_kind]
  rw [get_eq_getD, get_eq_getD, ← Option.getD_map Token.face, ← Option.getD_map Token.face, ← List.getElem?_map,
    ← List.getElem?_map, h, hends]

/-- Tokens that differ in their places only are read as trees that do. -/
theorem TokenBuffer.parse_alike (sink sink' : Array Diagnostic) :
    ∃ shapes : List Expr, ∃ new new' : Array Diagnostic,
    (Parser.ofBuffer buffer sink).parse = ⟨shapes.map (Expr.fill buffer), sink ++ new⟩ ∧
    (Parser.ofBuffer other sink').parse = ⟨shapes.map (Expr.fill other), sink' ++ new'⟩ ∧
    new'.map Diagnostic.kind = new.map Diagnostic.kind ∧
    ∀ shape : Expr, (shape.fill other).alike (shape.fill buffer) = true := by
  have hfaces := TokenBuffer.face_get h hending
  have hself : buffer.SameKinds buffer := fun _ _ => rfl
  have hsame : buffer.SameKinds other := fun index _ => congrArg Prod.fst (hfaces index)
  refine ⟨_, _, _, hself.parse sink, hsame.parse sink', by simp [Relocation.report, Function.comp_def], ?_⟩
  intro shape
  exact Expr.alike_map (fun token => ⟨congrArg Prod.fst (hfaces _), congrArg Prod.snd (hfaces _)⟩) shape

end

/-- A text with the tokens of a canonical expression is read as that expression. -/
theorem Expr.Canonical.parse_alike {e : Expr} {source : String} (h : e.Canonical) (hnest : e.nest ≤ maxNesting)
    (hfaces : (scan source).1.tokens.toList.map Token.face = e.leaves.map Token.face) :
    ∃ d, parse source = ⟨[d], #[]⟩ ∧ d.alike e = true := by
  have hforest : CanonicalForest [e] := ⟨List.forall_mem_singleton.mpr h, by simp [Separated]⟩
  let buffer : TokenBuffer := ⟨e.leaves.toArray, ⟨.eof, "", 0, {}⟩, rfl⟩
  have hbuffer : (Parser.ofBuffer buffer #[]).parse = ⟨[e], #[]⟩ :=
    hforest.parse_eq (by simp [buffer]) #[] (List.forall_mem_singleton.mpr hnest)
  have hsilent : (scan source).2 = #[] := by
    rw [scan_silent_iff]
    intro token hm
    have hface : token.face ∈ e.leaves.map Token.face := hfaces ▸ List.mem_map_of_mem (Array.mem_toList_iff.mpr hm)
    obtain ⟨leaf, hleaf, hsame⟩ := List.mem_map.mp hface
    rw [show token.kind = leaf.kind from congrArg Prod.fst hsame.symm]
    exact (h.clean.solid h.kindsFit leaf hleaf).1
  have hsame : (scan source).1.tokens.toList.map Token.face = buffer.tokens.toList.map Token.face := hfaces
  obtain ⟨shapes, new, new', hparse, hparse', hkinds, halike⟩ := TokenBuffer.parse_alike hsame rfl #[] #[]
  rw [hbuffer, Array.empty_append] at hparse
  obtain ⟨hes, rfl⟩ := Parsed.mk.inj hparse
  obtain ⟨shape, rfl, hfill⟩ := List.map_eq_singleton_iff.mp hes.symm
  have hnone : new' = #[] := by simpa using hkinds
  refine ⟨shape.fill (scan source).1, ?_, hfill ▸ halike shape⟩
  rw [parse, Parser.ofSource]
  simp only [hsilent, hparse', hnone, Array.append_empty, List.map_cons, List.map_nil]

/-- The trees of a source about which nothing is reported are canonical. -/
theorem canonicalForest_of_parse_silent {source : String} (h : (parse source).diagnostics = #[]) :
    CanonicalForest (parse source).expressions ∧ ∀ e ∈ (parse source).expressions, e.nest ≤ maxNesting := by
  obtain ⟨hleaves, heach⟩ := clean_of_silent h
  have hsolid : ∀ token ∈ (scan source).1.tokens, token.Solid := by
    intro token hm
    rw [← Array.mem_toList_iff, ← hleaves] at hm
    obtain ⟨e, he, hm⟩ := List.mem_flatMap.mp hm
    exact (heach e he).1.solid (heach e he).2 token hm
  have hscan : (scan source).2 = #[] := (scan_silent_iff source).mpr fun token hm => (hsolid token hm).1
  obtain ⟨hforest, -, hnest⟩ := canonicalForest_of_silent hsolid (h.trans hscan.symm)
  exact ⟨hforest, hnest⟩

/-- Every expression of a source about which nothing is reported covers a slice of the source that is read, again
without a report, as that expression alone. -/
theorem parse_slice {source : String} (h : (parse source).hasErrors = false) :
    ∀ root ∈ (parse source).expressions, ∀ (depth : Nat) (e : Expr), (depth, e.toNode) ∈ root.toNode.preorder 0 →
      ∃ slice d, e.span.slice? source = some slice ∧ parse slice = ⟨[d], #[]⟩ ∧ d.alike e = true := by
  intro root hroot depth e hm
  have hsilent : (parse source).diagnostics = #[] := by simpa [Parsed.hasErrors] using h
  obtain ⟨hforest, hnest⟩ := canonicalForest_of_parse_silent hsilent
  obtain ⟨inner, hnode, hcanonical, hinner, hleaves⟩ := (hforest.each root hroot).standsIn_of_mem hm
  obtain ⟨front, back, htokens⟩ := hleaves.trans (Expr.isInfix_flatMap_leaves hroot)
  rw [(clean_of_silent hsilent).1, List.append_assoc] at htokens
  have hfirst := List.head?_eq_some_head inner.leaves_ne_nil
  have hlast := List.getLast?_eq_some_getLast inner.leaves_ne_nil
  obtain ⟨slice, hslice, hfaces⟩ := scan_slice htokens.symm hfirst hlast
  obtain ⟨d, hparse, halike⟩ := hcanonical.parse_alike (Nat.le_trans hinner (hnest root hroot)) hfaces
  refine ⟨slice, d, ?_, hparse, ?_⟩
  · rw [Expr.span, ← hnode, ← Expr.span, Expr.span_eq hfirst hlast]
    exact hslice
  · rw [Expr.alike, ← hnode]
    exact halike

/-- The sum in `x * (a + b)` is read alone as well. -/
theorem parse_slice_sum :
    let source := "x * (a + b)"
    let sum : Expr := .binary (.identifier ⟨.identifier, "a", 5, ⟨1, 5⟩⟩) ⟨.plus, "+", 7, ⟨1, 7⟩⟩
      (.identifier ⟨.identifier, "b", 9, ⟨1, 9⟩⟩)
    let root : Expr := .binary (.identifier ⟨.identifier, "x", 0, ⟨1, 0⟩⟩) ⟨.asterisk, "*", 2, ⟨1, 2⟩⟩
      (.parenthesis ⟨.openParen, "(", 4, ⟨1, 4⟩⟩ (some sum) (some ⟨.closeParen, ")", 10, ⟨1, 10⟩⟩))
    (parse source).hasErrors = false ∧ root ∈ (parse source).expressions ∧
      ∃ slice d, sum.span.slice? source = some slice ∧ parse slice = ⟨[d], #[]⟩ ∧ d.alike sum = true := by
  intro source sum root
  have hsilent : (parse source).hasErrors = false := by decide +kernel
  have hroot : root ∈ (parse source).expressions := by decide +kernel
  exact ⟨hsilent, hroot, parse_slice hsilent root hroot 2 sum (by simp [root, sum, Expr.toNode])⟩

end ExprReader
