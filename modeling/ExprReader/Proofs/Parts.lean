import ExprReader.Tree.Node

/-! # Leaves and parts of a tree

The tokens of a tree, slot by slot, and the expressions that a tree is made of. A property of single
expressions holds everywhere in a tree when it holds of each of its parts. -/

namespace ExprReader

/-! ### Leaves -/

namespace Node

@[simp] theorem leaves_leaf (token : Token) : (leaf token).leaves = [token] := rfl

@[simp] theorem leaves_branch (tag : NodeTag) (children : List Node) :
    (branch tag children).leaves = leavesAll children := rfl

@[simp] theorem leavesAll_nil : leavesAll [] = [] := rfl

@[simp] theorem leavesAll_cons (node : Node) (nodes : List Node) :
    leavesAll (node :: nodes) = node.leaves ++ leavesAll nodes := rfl

@[simp] theorem leavesAll_ofToken? (token : Option Token) : leavesAll (ofToken? token) = token.toList := by
  cases token <;> rfl

@[simp] theorem leaves_ofName (token : Token) : (ofName token).leaves = [token] := rfl

@[simp] theorem leaves_ofTypeName (token : Token) : (ofTypeName token).leaves = [token] := rfl

theorem leavesAll_map {α : Type} (f : α → Node) (l : List α) :
    leavesAll (l.map f) = l.flatMap fun x => (f x).leaves := by
  induction l with
  | nil => simp
  | cons x l ih => simp [ih]

end Node

namespace Parameter

/-- The tokens of a parameter. -/
def leaves (p : Parameter) : List Token :=
  p.comma.toList ++ p.name :: (p.colon.toList ++ p.typeName.toList)

@[simp] theorem leaves_toNode (p : Parameter) : p.toNode.leaves = p.leaves := by
  cases ht : p.typeName <;> simp [toNode, leaves, ht]

theorem leaves_of_comma {p : Parameter} {comma : Token} (h : p.comma = some comma) :
    p.leaves = comma :: p.name :: (p.colon.toList ++ p.typeName.toList) := by
  simp [leaves, h]

theorem leaves_of_no_comma {p : Parameter} (h : p.comma = none) :
    p.leaves = p.name :: (p.colon.toList ++ p.typeName.toList) := by
  simp [leaves, h]

end Parameter

namespace ParameterList

/-- The tokens of a list of parameters. -/
def leaves (l : ParameterList) : List Token :=
  l.opening :: (l.parameters.flatMap Parameter.leaves ++ l.closing.toList)

@[simp] theorem leaves_toNode (l : ParameterList) : l.toNode.leaves = l.leaves := by
  simp [toNode, leaves, Node.leavesAll_map]

end ParameterList

namespace Expr

@[simp] theorem leaves_literal (token : Token) : (literal token).leaves = [token] := rfl

@[simp] theorem leaves_identifier (token : Token) : (identifier token).leaves = [token] := rfl

@[simp] theorem leaves_unary (operator : Token) (operand : Option Expr) :
    (unary operator operand).leaves = operator :: operand.toList.flatMap leaves := by
  cases operand <;> rfl

@[simp] theorem leaves_binary (left : Expr) (operator : Token) (right : Expr) :
    (binary left operator right).leaves = left.leaves ++ operator :: right.leaves :=
  congrArg (left.leaves ++ operator :: ·) (List.append_nil right.leaves)

@[simp] theorem leaves_parenthesis (opening : Token) (inner : Option Expr) (closing : Option Token) :
    (parenthesis opening inner closing).leaves = opening :: (inner.toList.flatMap leaves ++ closing.toList) := by
  cases inner with
  | none => cases closing <;> rfl
  | some inner =>
    show opening :: (inner.leaves ++ Node.leavesAll (Node.ofToken? closing)) = _
    simp

@[simp] theorem leaves_block (body : Block Expr) :
    (block body).leaves = body.opening :: (body.expressions.flatMap leaves ++ body.closing.toList) := by
  show body.opening :: Node.leavesAll (toNodes body.expressions ++ Node.ofToken? body.closing) = _
  rw [toNodes_eq_map, Node.leavesAll_append, Node.leavesAll_map, Node.leavesAll_ofToken?]
  rfl

@[simp] theorem leaves_function (keyword : Token) (name : Option Token) (parameters : Option ParameterList)
    (body : Option (Block Expr)) : (function keyword name parameters body).leaves =
      keyword :: (name.toList ++ parameters.toList.flatMap ParameterList.leaves ++
        body.toList.flatMap fun b => (block b).leaves) := by
  have hheader : Node.leavesAll ((name.map Node.ofName).toList ++ (parameters.map ParameterList.toNode).toList) =
      name.toList ++ parameters.toList.flatMap ParameterList.leaves := by
    cases name <;> cases parameters <;> simp
  cases body with
  | none =>
    show keyword :: Node.leavesAll ((name.map Node.ofName).toList ++ (parameters.map ParameterList.toNode).toList) = _
    rw [hheader]
    simp
  | some body =>
    show keyword :: Node.leavesAll ((name.map Node.ofName).toList ++ (parameters.map ParameterList.toNode).toList ++
      [(block body).toNode]) = _
    rw [Node.leavesAll_append, hheader]
    simp [leaves]

@[simp] theorem leaves_invalidToken (token : Token) : (invalidToken token).leaves = [token] := rfl

@[simp] theorem leaves_invalidExpr (inner : Expr) : (invalidExpr inner).leaves = inner.leaves :=
  List.append_nil inner.leaves

/-- Every expression has a token. -/
theorem leaves_ne_nil (e : Expr) : e.leaves ≠ [] := by
  induction e with
  | invalidExpr inner ih => simpa using ih
  | binary left operator right ih ih' => simp
  | _ => simp

/-! ### Parts -/

mutual

/-- An expression and all expressions inside it. -/
def parts : Expr → List Expr
  | .literal token => [.literal token]
  | .identifier token => [.identifier token]
  | .unary operator none => [.unary operator none]
  | .unary operator (some operand) => .unary operator (some operand) :: operand.parts
  | .binary left operator right => .binary left operator right :: (left.parts ++ right.parts)
  | .parenthesis opening none closing => [.parenthesis opening none closing]
  | .parenthesis opening (some inner) closing => .parenthesis opening (some inner) closing :: inner.parts
  | .block ⟨opening, expressions, closing⟩ => .block ⟨opening, expressions, closing⟩ :: partsAll expressions
  | .function keyword name parameters none => [.function keyword name parameters none]
  | .function keyword name parameters (some ⟨opening, expressions, closing⟩) =>
    .function keyword name parameters (some ⟨opening, expressions, closing⟩) :: partsAll expressions
  | .invalidToken token => [.invalidToken token]
  | .invalidExpr inner => .invalidExpr inner :: inner.parts

/-- The parts of some expressions, one expression after the other. -/
def partsAll : List Expr → List Expr
  | [] => []
  | e :: es => e.parts ++ partsAll es

end

/-- The expressions directly inside an expression. -/
def children : Expr → List Expr
  | .unary _ operand => operand.toList
  | .binary left _ right => [left, right]
  | .parenthesis _ inner _ => inner.toList
  | .block body => body.expressions
  | .function _ _ _ body => (body.map Block.expressions).getD []
  | .invalidExpr inner => [inner]
  | _ => []

theorem mem_partsAll {d : Expr} {es : List Expr} : d ∈ partsAll es ↔ ∃ e ∈ es, d ∈ e.parts := by
  induction es with
  | nil => exact iff_of_false List.not_mem_nil (by simp)
  | cons e es ih =>
    show d ∈ e.parts ++ partsAll es ↔ _
    simp [ih]

/-- An expression comes before the parts of what is directly inside it. -/
theorem parts_eq_cons (e : Expr) : e.parts = e :: partsAll e.children := by
  have hlast (d : Expr) : d.parts = partsAll [d] := (List.append_nil d.parts).symm
  cases e with
  | unary operator operand =>
    cases operand with
    | none => rfl
    | some operand => exact congrArg (unary operator (some operand) :: ·) (hlast operand)
  | binary left operator right =>
    exact congrArg (binary left operator right :: left.parts ++ ·) (hlast right)
  | parenthesis opening inner closing =>
    cases inner with
    | none => rfl
    | some inner => exact congrArg (parenthesis opening (some inner) closing :: ·) (hlast inner)
  | function keyword name parameters body => cases body <;> rfl
  | invalidExpr inner => exact congrArg (invalidExpr inner :: ·) (hlast inner)
  | _ => rfl

theorem mem_parts_self (e : Expr) : e ∈ e.parts := by
  rw [parts_eq_cons]
  exact List.mem_cons_self ..

/-- Whether a property holds of an expression and of all expressions inside it. -/
def Everywhere (P : Expr → Prop) (e : Expr) : Prop :=
  ∀ d ∈ e.parts, P d

variable {P Q : Expr → Prop}

theorem Everywhere.self {e : Expr} (h : e.Everywhere P) : P e :=
  h e (mem_parts_self e)

theorem Everywhere.imp (hPQ : ∀ e, P e → Q e) {e : Expr} (h : e.Everywhere P) : e.Everywhere Q :=
  fun d hd => hPQ d (h d hd)

theorem everywhere_iff {e : Expr} : e.Everywhere P ↔ P e ∧ ∀ d ∈ e.children, d.Everywhere P := by
  rw [Everywhere, parts_eq_cons, List.forall_mem_cons]
  refine and_congr_right fun _ => ⟨fun h d hd part hpart => h part (mem_partsAll.mpr ⟨d, hd, hpart⟩), ?_⟩
  intro h part hpart
  obtain ⟨d, hd, hpart⟩ := mem_partsAll.mp hpart
  exact h d hd part hpart

theorem everywhere_iff_self {e : Expr} (h : e.children = []) : e.Everywhere P ↔ P e := by
  rw [everywhere_iff, h]
  exact and_iff_left (List.forall_mem_nil _)

theorem forall_mem_toList {o : Option Expr} : (∀ d ∈ o.toList, P d) ↔ ∀ e, o = some e → P e := by
  simp

@[simp] theorem everywhere_literal {token : Token} : (literal token).Everywhere P ↔ P (literal token) :=
  everywhere_iff_self rfl

@[simp] theorem everywhere_identifier {token : Token} :
    (identifier token).Everywhere P ↔ P (identifier token) :=
  everywhere_iff_self rfl

@[simp] theorem everywhere_unary {operator : Token} {operand : Option Expr} :
    (unary operator operand).Everywhere P ↔
      P (unary operator operand) ∧ ∀ e, operand = some e → e.Everywhere P :=
  Iff.trans everywhere_iff (and_congr_right fun _ => forall_mem_toList)

@[simp] theorem everywhere_binary {left right : Expr} {operator : Token} :
    (binary left operator right).Everywhere P ↔
      P (binary left operator right) ∧ left.Everywhere P ∧ right.Everywhere P :=
  Iff.trans everywhere_iff (and_congr_right fun _ => List.forall_mem_cons.trans
    (and_congr_right fun _ => List.forall_mem_singleton))

@[simp] theorem everywhere_parenthesis {opening : Token} {inner : Option Expr} {closing : Option Token} :
    (parenthesis opening inner closing).Everywhere P ↔
      P (parenthesis opening inner closing) ∧ ∀ e, inner = some e → e.Everywhere P :=
  Iff.trans everywhere_iff (and_congr_right fun _ => forall_mem_toList)

@[simp] theorem everywhere_block {body : Block Expr} :
    (block body).Everywhere P ↔ P (block body) ∧ ∀ e ∈ body.expressions, e.Everywhere P :=
  everywhere_iff

@[simp] theorem everywhere_function {keyword : Token} {name : Option Token} {parameters : Option ParameterList}
    {body : Option (Block Expr)} : (function keyword name parameters body).Everywhere P ↔
      P (function keyword name parameters body) ∧ ∀ b, body = some b → ∀ e ∈ b.expressions, e.Everywhere P := by
  refine Iff.trans everywhere_iff (and_congr_right fun _ => ?_)
  cases body with
  | none => exact iff_of_true (List.forall_mem_nil _) (by simp)
  | some body =>
    show (∀ d ∈ body.expressions, d.Everywhere P) ↔ _
    simp

@[simp] theorem everywhere_invalidToken {token : Token} :
    (invalidToken token).Everywhere P ↔ P (invalidToken token) :=
  everywhere_iff_self rfl

@[simp] theorem everywhere_invalidExpr {inner : Expr} :
    (invalidExpr inner).Everywhere P ↔ P (invalidExpr inner) ∧ inner.Everywhere P :=
  Iff.trans everywhere_iff (and_congr_right fun _ => List.forall_mem_singleton)

end Expr

end ExprReader
