import ExprReader.Token.Basic

/-! # Expressions

Every construct of the language is an expression. A tree holds the tokens it was read from, and a part
that was not found is absent: trees exist for wrong input too. What could not be read at all stands as
an invalid expression, around a token or around the construct that was left incomplete. -/

namespace ExprReader

/-- A parameter `name` or `name: Type`, with the comma that stands before it. -/
structure Parameter where
  comma : Option Token
  name : Token
  colon : Option Token
  typeName : Option Token
deriving DecidableEq, Repr, Inhabited

/-- Parameters in parentheses. -/
structure ParameterList where
  opening : Token
  parameters : List Parameter
  closing : Option Token
deriving DecidableEq, Repr, Inhabited

/-- Expressions in braces. The type of the expressions is left open to let expressions hold blocks. -/
@[ext] structure Block (α : Type) where
  opening : Token
  expressions : List α
  closing : Option Token
deriving DecidableEq, Repr, Inhabited

/-- An expression. -/
inductive Expr where
  /-- A number or a string. -/
  | literal (token : Token)
  /-- A name. -/
  | identifier (token : Token)
  /-- An operator before its operand. -/
  | unary (operator : Token) (operand : Option Expr)
  /-- An operator between its operands. -/
  | binary (left : Expr) (operator : Token) (right : Expr)
  /-- An expression in parentheses. -/
  | parenthesis (opening : Token) (inner : Option Expr) (closing : Option Token)
  /-- Expressions in braces. -/
  | block (body : Block Expr)
  /-- A function with its name, its parameters and its body. -/
  | function (keyword : Token) (name : Option Token) (parameters : Option ParameterList) (body : Option (Block Expr))
  /-- A token that belongs to no construct. -/
  | invalidToken (token : Token)
  /-- A construct that was left incomplete. -/
  | invalidExpr (inner : Expr)
deriving Inhabited

namespace Expr

/-- Whether the expression marks a place where none could be read. -/
def isInvalid : Expr → Bool
  | invalidToken _ | invalidExpr _ => true
  | _ => false

/-- Induction over an expression and the expressions directly inside it. -/
@[elab_as_elim, induction_eliminator]
theorem inductionOn {motive : Expr → Prop}
    (literal : ∀ token, motive (.literal token))
    (identifier : ∀ token, motive (.identifier token))
    (unary : ∀ operator operand, (∀ e ∈ operand, motive e) → motive (.unary operator operand))
    (binary : ∀ left operator right, motive left → motive right → motive (.binary left operator right))
    (parenthesis : ∀ opening inner closing, (∀ e ∈ inner, motive e) →
      motive (.parenthesis opening inner closing))
    (block : ∀ body, (∀ e ∈ body.expressions, motive e) → motive (.block body))
    (function : ∀ keyword name parameters body, (∀ b ∈ body, ∀ e ∈ b.expressions, motive e) →
      motive (.function keyword name parameters body))
    (invalidToken : ∀ token, motive (.invalidToken token))
    (invalidExpr : ∀ inner, motive inner → motive (.invalidExpr inner)) (e : Expr) : motive e :=
  @Expr.rec motive (fun operand => ∀ e ∈ operand, motive e) (fun body => ∀ e ∈ body.expressions, motive e)
    (fun body => ∀ b ∈ body, ∀ e ∈ b.expressions, motive e) (fun expressions => ∀ e ∈ expressions, motive e)
    literal identifier (fun operator operand => unary operator operand) binary
    (fun opening inner closing => parenthesis opening inner closing) block
    (fun keyword name parameters body => function keyword name parameters body) invalidToken invalidExpr
    (by simp) (by simp) (fun _ _ _ all => all) (by simp) (by simp) (by simp)
    (fun _ _ first others => List.forall_mem_cons.mpr ⟨first, others⟩) e

/-! ### Equality -/

mutual

/-- Whether two expressions are the same, token by token. -/
def same : Expr → Expr → Bool
  | .literal s, .literal t => s == t
  | .identifier s, .identifier t => s == t
  | .unary s none, .unary t none => s == t
  | .unary s (some d), .unary t (some e) => s == t && same d e
  | .binary d s d', .binary e t e' => same d e && s == t && same d' e'
  | .parenthesis s none s', .parenthesis t none t' => s == t && s' == t'
  | .parenthesis s (some d) s', .parenthesis t (some e) t' => s == t && same d e && s' == t'
  | .block ⟨s, ds, s'⟩, .block ⟨t, es, t'⟩ => s == t && sameAll ds es && s' == t'
  | .function s n p none, .function t m q none => s == t && n == m && p == q
  | .function s n p (some ⟨s', ds, s''⟩), .function t m q (some ⟨t', es, t''⟩) =>
    s == t && n == m && p == q && s' == t' && sameAll ds es && s'' == t''
  | .invalidToken s, .invalidToken t => s == t
  | .invalidExpr d, .invalidExpr e => same d e
  | _, _ => false

/-- Whether two lists of expressions are the same, one by one. -/
def sameAll : List Expr → List Expr → Bool
  | [], [] => true
  | d :: ds, e :: es => same d e && sameAll ds es
  | _, _ => false

end

theorem sameAll_iff_of_same_iff {ds : List Expr} (h : ∀ d ∈ ds, ∀ e, same d e = true ↔ d = e) (es : List Expr) :
    sameAll ds es = true ↔ ds = es := by
  induction ds generalizing es with
  | nil => cases es <;> simp [sameAll]
  | cons d ds ih =>
    cases es with
    | nil => simp [sameAll]
    | cons e es => simp [sameAll, h d (by simp) e, ih (fun x hx => h x (by simp [hx])) es]

theorem same_iff (d e : Expr) : same d e = true ↔ d = e := by
  induction d generalizing e with
  | literal s => cases e <;> simp [same]
  | identifier s => cases e <;> simp [same]
  | unary s d ih =>
    cases e with
    | unary t e => cases d <;> cases e <;> simp_all [same]
    | _ => cases d <;> simp [same]
  | binary d s d' ih ih' => cases e <;> simp [same, ih, ih', and_assoc]
  | parenthesis s d s' ih =>
    cases e with
    | parenthesis t e t' => cases d <;> cases e <;> simp_all [same, and_assoc]
    | _ => cases d <;> simp [same]
  | block body ih =>
    cases e with
    | block other => simp [same, sameAll_iff_of_same_iff ih, and_assoc, Block.ext_iff]
    | _ => simp [same]
  | function s n p body ih =>
    cases e with
    | function t m q other =>
      cases body with
      | none => cases other <;> simp [same, and_assoc]
      | some body =>
        cases other with
        | none => simp [same]
        | some other => simp [same, sameAll_iff_of_same_iff (ih body rfl), and_assoc, Block.ext_iff]
    | _ => cases body <;> simp [same]
  | invalidToken s => cases e <;> simp [same]
  | invalidExpr d ih => cases e <;> simp [same, ih]

instance : DecidableEq Expr := fun d e => decidable_of_iff _ (same_iff d e)

end Expr

end ExprReader
