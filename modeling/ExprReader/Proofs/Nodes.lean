import ExprReader.Proofs.Parts

/-! # The nodes of a tree

A walk through a tree meets the tree itself and then what a walk through each of its children meets. No node
of a tree is an empty branch, so every node starts where its first token does and ends where its last token
does. -/

namespace ExprReader

namespace Node

/-- What a node stands for, if it is not a token. -/
def tag? : Node → Option NodeTag
  | .leaf _ => none
  | .branch tag _ => some tag

@[simp] theorem tag?_leaf (token : Token) : (leaf token).tag? = none := rfl

@[simp] theorem tag?_branch (tag : NodeTag) (children : List Node) : (branch tag children).tag? = some tag := rfl

/-! ### Walks -/

section
variable {node : Node} {depth found : Nat}

@[simp] theorem mem_preorder_leaf {token : Token} :
    (found, node) ∈ (leaf token).preorder depth ↔ found = depth ∧ node = leaf token := by
  show (found, node) ∈ [(depth, leaf token)] ↔ _
  simp

theorem mem_preorderAll {nodes : List Node} :
    (found, node) ∈ preorderAll depth nodes ↔ ∃ child ∈ nodes, (found, node) ∈ child.preorder depth := by
  induction nodes with
  | nil => exact iff_of_false List.not_mem_nil (by simp)
  | cons child nodes ih =>
    show (found, node) ∈ child.preorder depth ++ preorderAll depth nodes ↔ _
    simp [ih]

@[simp] theorem mem_preorder_branch {tag : NodeTag} {children : List Node} :
    (found, node) ∈ (branch tag children).preorder depth ↔ (found = depth ∧ node = branch tag children) ∨
      ∃ child ∈ children, (found, node) ∈ child.preorder (depth + 1) := by
  show (found, node) ∈ (depth, branch tag children) :: preorderAll (depth + 1) children ↔ _
  simp [mem_preorderAll]

end

/-! ### Spans -/

/-- A node in which no branch is empty. -/
inductive Filled : Node → Prop where
  | leaf {token} : Filled (.leaf token)
  | branch {tag children} : children ≠ [] → (∀ child ∈ children, Filled child) → Filled (.branch tag children)

theorem stopAll_concat (front : List Node) (last : Node) : stopAll (front ++ [last]) = last.stop := by
  induction front with
  | nil => rfl
  | cons node front ih =>
    -- What follows the node is not empty, so its own end does not count.
    cases front with
    | nil => exact ih
    | cons _ _ => exact ih

namespace Filled
variable {node : Node}

theorem leaves_ne_nil (h : node.Filled) : node.leaves ≠ [] := by
  induction h with
  | leaf => simp
  | @branch tag children hne _ ih =>
    cases children with
    | nil => contradiction
    | cons child children => simp [ih child (List.mem_cons_self ..)]

theorem start_eq (h : node.Filled) : ∀ first ∈ node.leaves.head?, node.start = first.start := by
  induction h with
  | leaf =>
    rintro _ ⟨⟩
    rfl
  | @branch tag children hne hchildren ih =>
    cases children with
    | nil => contradiction
    | cons child children =>
      have hm : child ∈ child :: children := List.mem_cons_self ..
      have hsome := List.head?_eq_some_head (hchildren child hm).leaves_ne_nil
      intro first hfirst
      rw [leaves_branch, leavesAll_cons, List.head?_append, hsome, Option.some_or, ← hsome] at hfirst
      exact ih child hm first hfirst

theorem stop_eq (h : node.Filled) : ∀ last ∈ node.leaves.getLast?, node.stop = last.stop := by
  induction h with
  | leaf =>
    rintro _ ⟨⟩
    rfl
  | @branch tag children hne hchildren ih =>
    rcases List.eq_nil_or_concat children with rfl | ⟨front, child, rfl⟩
    · contradiction
    · rw [List.concat_eq_append] at *
      have hm : child ∈ front ++ [child] := by simp
      have hsome := List.getLast?_eq_some_getLast (hchildren child hm).leaves_ne_nil
      intro last hlast
      rw [leaves_branch, leavesAll_append, leavesAll_cons, leavesAll_nil, List.append_nil, List.getLast?_append,
        hsome, Option.some_or, ← hsome] at hlast
      exact (stopAll_concat front child).trans (ih child hm last hlast)

/-- A node lies between its first and its last token. -/
theorem span_eq (h : node.Filled) {first last : Token} (hfirst : node.leaves.head? = some first)
    (hlast : node.leaves.getLast? = some last) : node.span = ⟨first.start, last.stop⟩ := by
  rw [span, h.start_eq first hfirst, h.stop_eq last hlast]

end Filled

theorem filled_ofName (token : Token) : (ofName token).Filled :=
  .branch (by simp) (by simp [Filled.leaf])

theorem filled_ofToken? {token : Option Token} : ∀ node ∈ ofToken? token, node.Filled := by
  cases token <;> simp [ofToken?, Filled.leaf]

end Node

open Node

theorem Parameter.filled (p : Parameter) : p.toNode.Filled := by
  refine .branch (by simp) fun child hm => ?_
  simp only [List.mem_append, List.mem_singleton, Option.mem_toList, Option.map_eq_some_iff] at hm
  rcases hm with ((hm | rfl) | hm) | ⟨name, -, rfl⟩
  · exact filled_ofToken? child hm
  · exact filled_ofName p.name
  · exact filled_ofToken? child hm
  · exact .branch (by simp) (by simp [filled_ofName])

theorem ParameterList.filled (l : ParameterList) : l.toNode.Filled := by
  refine .branch (by simp) fun child hm => ?_
  simp only [List.cons_append, List.mem_cons, List.mem_append, List.mem_map] at hm
  rcases hm with rfl | ⟨p, -, rfl⟩ | hm
  · exact .leaf
  · exact p.filled
  · exact filled_ofToken? child hm

namespace Expr

/-- The tag of the node of an expression. -/
def tag : Expr → NodeTag
  | .literal _ => .literal
  | .identifier _ => .identifier
  | .unary _ _ => .unary
  | .binary _ _ _ => .binary
  | .parenthesis _ _ _ => .parenthesis
  | .block _ => .block
  | .function _ _ _ _ => .function
  | .invalidToken _ | .invalidExpr _ => .invalid

theorem tag?_toNode (e : Expr) : e.toNode.tag? = some e.tag := by
  cases e with
  | unary operator operand => cases operand <;> rfl
  | parenthesis opening inner closing => cases inner <;> rfl
  | function keyword name parameters body => cases body <;> rfl
  | _ => rfl

theorem toNode_ne_leaf (e : Expr) (token : Token) : e.toNode ≠ .leaf token := by
  intro h
  have htag := e.tag?_toNode
  rw [h] at htag
  cases htag

theorem filled (e : Expr) : e.toNode.Filled := by
  have hbody {opening : Token} {es : List Expr} {closing : Option Token} (h : ∀ e ∈ es, e.toNode.Filled) :
      (branch .block (.leaf opening :: toNodes es ++ ofToken? closing)).Filled := by
    refine .branch (by simp) fun child hm => ?_
    simp only [toNodes_eq_map, List.cons_append, List.mem_cons, List.mem_append, List.mem_map] at hm
    rcases hm with rfl | ⟨e, he, rfl⟩ | hm
    · exact .leaf
    · exact h e he
    · exact filled_ofToken? child hm
  induction e with
  | literal token => exact .branch (by simp) (by simp [Filled.leaf])
  | identifier token => exact filled_ofName token
  | unary operator operand ih =>
    cases operand with
    | none => exact .branch (by simp) (by simp [Filled.leaf])
    | some e => exact .branch (by simp) (by simp [Filled.leaf, ih e rfl])
  | binary left operator right ih ih' => exact .branch (by simp) (by simp [Filled.leaf, ih, ih'])
  | parenthesis opening inner closing ih =>
    cases inner with
    | none => exact .branch (by simp) (List.forall_mem_cons.mpr ⟨.leaf, filled_ofToken?⟩)
    | some e =>
      refine .branch (by simp) (List.forall_mem_cons.mpr ⟨.leaf, List.forall_mem_cons.mpr ⟨ih e rfl, ?_⟩⟩)
      exact filled_ofToken?
  | block body ih => exact hbody ih
  | function keyword name parameters body ih =>
    have hname : ∀ node ∈ (name.map ofName).toList, node.Filled := by
      cases name <;> simp [filled_ofName]
    have hlist : ∀ node ∈ (parameters.map ParameterList.toNode).toList, node.Filled := by
      cases parameters <;> simp [ParameterList.filled]
    cases body with
    | none =>
      refine .branch (by simp) ?_
      exact List.forall_mem_append.mpr ⟨List.forall_mem_cons.mpr ⟨.leaf, hname⟩, hlist⟩
    | some body =>
      refine .branch (by simp) (List.forall_mem_append.mpr ⟨?_, List.forall_mem_singleton.mpr (hbody (ih body rfl))⟩)
      exact List.forall_mem_append.mpr ⟨List.forall_mem_cons.mpr ⟨.leaf, hname⟩, hlist⟩
  | invalidToken token => exact .branch (by simp) (by simp [Filled.leaf])
  | invalidExpr inner ih => exact .branch (by simp) (by simp [ih])

/-- An expression lies between its first and its last token. -/
theorem span_eq {e : Expr} {first last : Token} (hfirst : e.leaves.head? = some first)
    (hlast : e.leaves.getLast? = some last) : e.span = ⟨first.start, last.stop⟩ :=
  e.filled.span_eq hfirst hlast

end Expr

end ExprReader
