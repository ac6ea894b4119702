import ExprReader.Tree.Basic

/-! # Trees as text

Expressions are shown on one line. Parentheses around every binary expression show how the operators
group; parentheses of the source are shown as well. -/

namespace ExprReader

/-- Texts joined by a separator. -/
def joined (separator : String) : List String → String
  | [] => ""
  | [text] => text
  | text :: texts => text ++ separator ++ joined separator texts

namespace Parameter

/-- The name and, where there is one, the type after a colon. -/
def display (parameter : Parameter) : String :=
  match parameter.typeName with
  | some typeName => parameter.name.text ++ ": " ++ typeName.text
  | none => parameter.name.text

end Parameter

namespace ParameterList

/-- The parameters in parentheses, with commas between them. -/
def display (list : ParameterList) : String :=
  "(" ++ joined ", " (list.parameters.map Parameter.display) ++ ")"

end ParameterList

namespace Block

/-- Braces around the texts of expressions, with semicolons between them. -/
def enclose : List String → String
  | [] => "\x7b \x7d"
  | texts => "\x7b " ++ joined "; " texts ++ " \x7d"

end Block

namespace Expr

/-- A function up to its body. -/
def header (name : Option Token) (parameters : Option ParameterList) : String :=
  "function" ++ (match name with
    | some token => " " ++ token.text
    | none => "") ++
  match parameters with
  | some list => list.display
  | none => ""

mutual

/-- An expression as text. -/
def display : Expr → String
  | .literal token => token.display
  | .identifier token => token.text
  | .unary operator none => operator.display
  | .unary operator (some operand) => operator.display ++ operand.display
  | .binary left operator right => "(" ++ left.display ++ " " ++ operator.display ++ " " ++ right.display ++ ")"
  | .parenthesis _ none _ => "()"
  | .parenthesis _ (some inner) _ => "(" ++ inner.display ++ ")"
  | .block ⟨_, expressions, _⟩ => Block.enclose (displayAll expressions)
  | .function _ name parameters none => header name parameters
  | .function _ name parameters (some ⟨_, expressions, _⟩) =>
    header name parameters ++ " " ++ Block.enclose (displayAll expressions)
  | .invalidToken token => token.display
  | .invalidExpr inner => inner.display

/-- Expressions as texts. -/
def displayAll : List Expr → List String
  | [] => []
  | e :: es => e.display :: displayAll es

end

instance : ToString Expr := ⟨display⟩

theorem displayAll_eq_map (es : List Expr) : displayAll es = es.map display := by
  induction es with
  | nil => rfl
  | cons e es ih => simp [displayAll, ih]

end Expr

namespace Block

/-- A block as text. -/
def display (block : Block Expr) : String :=
  (Expr.block block).display

end Block

end ExprReader
