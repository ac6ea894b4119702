import ExprReader.Tree.Basic

/-! # Trees as nodes

All parts of a tree, tokens included, seen alike: a node is a token or a tag with the parts that are
present, in the order of the source. Spans, walks and the comparison that ignores positions need no more
than this. -/

namespace ExprReader

/-- What a node other than a token stands for. -/
inductive NodeTag where
  | literal
  | identifier
  | unary
  | binary
  | parenthesis
  | block
  | function
  | parametersList
  | parameter
  | namedType
  | invalid
deriving DecidableEq, Repr, Inhabited

/-- A part of a tree: a token, or a tag and the parts below it. -/
inductive Node where
  | leaf (token : Token)
  | branch (tag : NodeTag) (children : List Node)
deriving Inhabited

namespace Node

mutual

/-- The byte offset at which a node starts: that of a token, or that of the first child. -/
def start : Node → Nat
  | .leaf token => token.start
  | .branch _ children => startAll children

/-- The byte offset at which the first of some nodes starts. -/
def startAll : List Node → Nat
  | [] => 0
  | node :: _ => node.start

end

mutual

/-- The byte offset at which a node ends: that of a token, or that of the last child. -/
def stop : Node → Nat
  | .leaf token => token.stop
  | .branch _ children => stopAll children

/-- The byte offset at which the last of some nodes ends. -/
def stopAll : List Node → Nat
  | [] => 0
  | [node] => node.stop
  | _ :: nodes => stopAll nodes

end

/-- The bytes from the start of a node to its end. -/
def span (node : Node) : Span :=
  ⟨node.start, node.stop⟩

/-- The bytes from the start of the first of some nodes to the end of the last, and none at the start of
the source if there are no nodes. -/
def spanAll (nodes : List Node) : Span :=
  ⟨startAll nodes, stopAll nodes⟩

mutual

/-- The tokens of a node in the order of the source. -/
def leaves : Node → List Token
  | .leaf token => [token]
  | .branch _ children => leavesAll children

/-- The tokens of some nodes, one node after the other. -/
def leavesAll : List Node → List Token
  | [] => []
  | node :: nodes => node.leaves ++ leavesAll nodes

end

mutual

/-- A node and all below it, every node before its children, each with its depth below a given one. -/
def preorder (depth : Nat) : Node → List (Nat × Node)
  | .leaf token => [(depth, .leaf token)]
  | .branch tag children => (depth, .branch tag children) :: preorderAll (depth + 1) children

/-- The walks through some nodes, one after the other. -/
def preorderAll (depth : Nat) : List Node → List (Nat × Node)
  | [] => []
  | node :: nodes => node.preorder depth ++ preorderAll depth nodes

end

mutual

/-- Whether two nodes agree in all but the places of their tokens. -/
def alike : Node → Node → Bool
  | .leaf s, .leaf t => s.kind == t.kind && s.text == t.text
  | .branch s first, .branch t second => s == t && alikeAll first second
  | _, _ => false

/-- Whether some nodes agree with as many others, one by one. -/
def alikeAll : List Node → List Node → Bool
  | [], [] => true
  | first :: firsts, second :: seconds => alike first second && alikeAll firsts seconds
  | _, _ => false

end

@[simp] theorem leavesAll_append (front back : List Node) :
    leavesAll (front ++ back) = leavesAll front ++ leavesAll back := by
  induction front with
  | nil => rfl
  | cons node front ih => exact (congrArg (node.leaves ++ ·) ih).trans (List.append_assoc ..).symm

@[simp] theorem span_leaf (token : Token) : (leaf token).span = token.span := rfl

@[simp] theorem span_branch (tag : NodeTag) (children : List Node) :
    (branch tag children).span = spanAll children := rfl

/-- The node of a name. -/
def ofName (token : Token) : Node :=
  .branch .identifier [.leaf token]

/-- The node of a type given by its name. -/
def ofTypeName (token : Token) : Node :=
  .branch .namedType [ofName token]

/-- The nodes of a token that may be absent. -/
def ofToken? (token : Option Token) : List Node :=
  (token.map Node.leaf).toList

end Node

namespace Parameter

/-- A parameter as a node. -/
def toNode (parameter : Parameter) : Node :=
  .branch .parameter
    (Node.ofToken? parameter.comma ++ [Node.ofName parameter.name] ++ Node.ofToken? parameter.colon ++
      (parameter.typeName.map Node.ofTypeName).toList)

end Parameter

namespace ParameterList

/-- A list of parameters as a node. -/
def toNode (list : ParameterList) : Node :=
  .branch .parametersList (.leaf list.opening :: list.parameters.map Parameter.toNode ++ Node.ofToken? list.closing)

end ParameterList

namespace Expr

mutual

/-- An expression as a node. -/
def toNode : Expr → Node
  | .literal token => .branch .literal [.leaf token]
  | .identifier token => Node.ofName token
  | .unary operator none => .branch .unary [.leaf operator]
  | .unary operator (some operand) => .branch .unary [.leaf operator, operand.toNode]
  | .binary left operator right => .branch .binary [left.toNode, .leaf operator, right.toNode]
  | .parenthesis opening none closing => .branch .parenthesis (.leaf opening :: Node.ofToken? closing)
  | .parenthesis opening (some inner) closing =>
    .branch .parenthesis (.leaf opening :: inner.toNode :: Node.ofToken? closing)
  | .block ⟨opening, expressions, closing⟩ =>
    .branch .block (.leaf opening :: toNodes expressions ++ Node.ofToken? closing)
  | .function keyword name parameters none =>
    .branch .function (.leaf keyword :: (name.map Node.ofName).toList ++ (parameters.map ParameterList.toNode).toList)
  | .function keyword name parameters (some ⟨opening, expressions, closing⟩) =>
    .branch .function (.leaf keyword :: (name.map Node.ofName).toList ++
      (parameters.map ParameterList.toNode).toList ++
      [.branch .block (.leaf opening :: toNodes expressions ++ Node.ofToken? closing)])
  | .invalidToken token => .branch .invalid [.leaf token]
  | .invalidExpr inner => .branch .invalid [inner.toNode]

/-- Expressions as nodes. -/
def toNodes : List Expr → List Node
  | [] => []
  | e :: es => e.toNode :: toNodes es

end

theorem toNodes_eq_map (es : List Expr) : toNodes es = es.map toNode := by
  induction es with
  | nil => rfl
  | cons e es ih => exact congrArg (e.toNode :: ·) ih

/-- The span of an expression. -/
def span (e : Expr) : Span :=
  e.toNode.span

/-- The tokens of an expression in the order of the source. -/
def leaves (e : Expr) : List Token :=
  e.toNode.leaves

/-- Whether two expressions agree in all but the places of their tokens. -/
def alike (d e : Expr) : Bool :=
  d.toNode.alike e.toNode

end Expr

namespace Block

/-- A block as a node. -/
def toNode (block : Block Expr) : Node :=
  (Expr.block block).toNode

end Block

end ExprReader
