import ExprReader.Proofs.Moves
import ExprReader.Proofs.Parts

/-! # How operators group

The operators of a tree are grouped by their strengths on every input. A right operand contains only
operators that may extend an expression of the strength it was read at, and the operator above a left
operand could have extended none of the operands on its right edge, except where one of them is invalid:
an invalid primary is not extended, so the operator after it goes to an expression further out. -/

namespace ExprReader

namespace Expr

/-- An expression and its left operands, down to the first that is not binary. -/
def leftSpine : Expr → List Expr
  | .binary left operator right => .binary left operator right :: left.leftSpine
  | _ => []

/-- An expression and its right operands, down to the first that is not binary. -/
def rightSpine : Expr → List Expr
  | .binary left operator right => .binary left operator right :: right.rightSpine
  | _ => []

/-- Every operator down the left of an expression may extend an expression of a strength. -/
def Within (least : Precedence) (e : Expr) : Prop :=
  ∀ l op r, binary l op r ∈ e.leftSpine → op.kind.continues least = true

/-- An operator of a kind extends no operand down the right of an expression that it could have extended. -/
def Settled (kind : TokenKind) (e : Expr) : Prop :=
  ∀ l op r, binary l op r ∈ e.rightSpine → kind.continues op.kind.precedence = false ∨ r.isInvalid = true

/-- The operands of a binary expression fit its operator. -/
def Grouped : Expr → Prop
  | .binary left operator right =>
    right.Within operator.kind.precedence ∧ left.Settled operator.kind ∧ left.isInvalid = false
  | _ => True

theorem within_binary {left right : Expr} {operator : Token} {least : Precedence} :
    (binary left operator right).Within least ↔ operator.kind.continues least = true ∧ left.Within least := by
  simp only [Within, leftSpine, List.mem_cons]
  constructor
  · intro h
    exact ⟨h left operator right (Or.inl rfl), fun l op r hm => h l op r (Or.inr hm)⟩
  · rintro ⟨hop, hl⟩ l op r (heq | hm)
    · cases heq
      exact hop
    · exact hl l op r hm

theorem settled_binary {left right : Expr} {operator : Token} {kind : TokenKind} :
    (binary left operator right).Settled kind ↔
      (kind.continues operator.kind.precedence = false ∨ right.isInvalid = true) ∧ right.Settled kind := by
  simp only [Settled, rightSpine, List.mem_cons]
  constructor
  · intro h
    exact ⟨h left operator right (Or.inl rfl), fun l op r hm => h l op r (Or.inr hm)⟩
  · rintro ⟨hop, hr⟩ l op r (heq | hm)
    · cases heq
      exact hop
    · exact hr l op r hm

/-- An expression without operators of its own, around which every tree is grouped. -/
structure Atomic (e : Expr) : Prop where
  left : e.leftSpine = []
  right : e.rightSpine = []
  grouped : e.Everywhere Grouped

theorem Atomic.within {e : Expr} (h : e.Atomic) (least : Precedence) : e.Within least := by
  intro l op r hm
  simp [h.left] at hm

theorem Atomic.settled {e : Expr} (h : e.Atomic) (kind : TokenKind) : e.Settled kind := by
  intro l op r hm
  simp [h.right] at hm

/-- An expression read at a strength and followed by a token of a kind. -/
structure Read (least : Precedence) (kind : TokenKind) (e : Expr) : Prop where
  within : e.Within least
  settled : e.Settled kind
  stopped : e.isInvalid = true ∨ kind.continues least = false
  grouped : e.Everywhere Grouped

theorem Atomic.read {e : Expr} (h : e.Atomic) (least : Precedence) {kind : TokenKind}
    (hs : e.isInvalid = true ∨ kind.continues least = false) : e.Read least kind :=
  ⟨h.within least, h.settled kind, hs, h.grouped⟩

theorem atomic_invalidToken (token : Token) : (invalidToken token).Atomic :=
  ⟨rfl, rfl, by simp [Grouped]⟩

end Expr

open Expr

/-- How the result of a task groups, given that what the task started from does. -/
def Task.Groups (ctx : Context) : Task → State → Expr → State → Prop
  | expr least, _, e, t | operand least, _, e, t => e.Read least (ctx.kind t)
  | primary _, _, e, _ | construct _ _, _, e, _ => e.Atomic
  | extend least left, s, e, t =>
    left.Within least → left.Settled (ctx.kind s) → left.isInvalid = false → left.Everywhere Grouped →
      e.Read least (ctx.kind t)
  | block _ done, _, e, _ => (∀ d ∈ done, d.Everywhere Grouped) → e.Atomic

section
variable {ctx : Context} {room : Nat} {s t : State}

theorem Reads.groups {task : Task} {e : Expr} (h : Reads ctx room task s e t) : task.Groups ctx s e t := by
  induction h with
  | exprInvalid _ _ hi ih => exact ih.read _ (Or.inl hi)
  | exprExtended _ _ hi _ ih ih' => exact ih' (ih.within _) (ih.settled _) hi ih.grouped
  | primaryDeepest => exact atomic_invalidToken _
  | primaryUnknown _ => exact atomic_invalidToken _
  | primaryKnown _ _ ih => exact ih
  | extendStop hk =>
    intro hw hs _ hg
    exact ⟨hw, hs, Or.inr hk, hg⟩
  | extendOperator hk _ _ ih ih' =>
    -- The operator becomes the root: what was read before it stands on its left, settled before its kind.
    intro hw hs hi hg
    refine ih' (within_binary.mpr ⟨hk, hw⟩) (settled_binary.mpr ⟨ih.stopped.symm, ih.settled⟩) rfl ?_
    exact everywhere_binary.mpr ⟨⟨ih.within, hs, hi⟩, hg, ih.grouped⟩
  | operandEnd _ => exact (atomic_invalidToken _).read _ (Or.inl rfl)
  | operandDeepest _ => exact (atomic_invalidToken _).read _ (Or.inl rfl)
  | operandExpr _ _ ih => exact ih
  | literal => exact ⟨rfl, rfl, by simp [Grouped]⟩
  | identifier => exact ⟨rfl, rfl, by simp [Grouped]⟩
  | unary _ _ ih => exact ⟨rfl, rfl, by simpa [Grouped] using ih.grouped⟩
  | unaryMissing _ => exact ⟨rfl, rfl, by simp [Grouped]⟩
  | parenthesisEmpty _ => exact ⟨rfl, rfl, by simp [Grouped]⟩
  | parenthesisEnd _ => exact ⟨rfl, rfl, by simp [Grouped]⟩
  | parenthesisClosed _ _ _ ih => exact ⟨rfl, rfl, by simpa [Grouped] using ih.grouped⟩
  | parenthesisOpen _ _ _ ih => exact ⟨rfl, rfl, by simpa [Grouped] using ih.grouped⟩
  | block _ ih => exact ih (by simp)
  | function _ _ _ _ ih =>
    have hbody := (everywhere_block.mp (ih (by simp)).grouped).2
    exact ⟨rfl, rfl, by simpa [Grouped] using hbody⟩
  | functionOpen _ _ _ => exact ⟨rfl, rfl, by simp [Grouped]⟩
  | again _ ih => exact ih
  | blockClosed _ =>
    intro hd
    exact ⟨rfl, rfl, by simpa [Grouped] using hd⟩
  | blockEnd _ =>
    intro hd
    exact ⟨rfl, rfl, by simpa [Grouped] using hd⟩
  | blockNext _ _ _ _ ih ih' =>
    intro hd
    refine ih' fun d hm => ?_
    rcases List.mem_append.mp hm with hm | hm
    · exact hd d hm
    · rw [List.mem_singleton.mp hm]
      exact ih.grouped

theorem ReadsProgram.grouped {es : List Expr} (h : ReadsProgram ctx room s es t) :
    ∀ e ∈ es, e.Everywhere Grouped := by
  induction h with
  | finish _ => simp
  | stray _ _ ih => exact List.forall_mem_cons.mpr ⟨(atomic_invalidToken _).grouped, ih⟩
  | next _ _ he _ ih => exact List.forall_mem_cons.mpr ⟨he.groups.grouped, ih⟩

end

/-- In every tree of every parse, whatever the tokens: the operators down the left of a right operand may
extend an expression of the strength of the operator, the operator could extend no operand down the right
of its left operand but an invalid one, and the left operand itself is not invalid. -/
theorem operators_grouped (p : Parser) : ∀ e ∈ p.parse.expressions, ∀ left operator right,
    binary left operator right ∈ e.parts →
      (∀ l op r, binary l op r ∈ right.leftSpine → op.kind.continues operator.kind.precedence = true) ∧
      (∀ l op r, binary l op r ∈ left.rightSpine →
        operator.kind.continues op.kind.precedence = false ∨ r.isInvalid = true) ∧
      left.isInvalid = false := by
  intro e he left operator right hm
  obtain ⟨t, hrun, -⟩ := p.parse_run
  exact hrun.grouped e he _ hm

/-- After an invalid operand a stronger operator stands above a weaker one. -/
theorem operators_grouped_past_invalid :
    let weak : Token := ⟨.plus, "+", 2, ⟨1, 2⟩⟩
    let strong : Token := ⟨.asterisk, "*", 6, ⟨1, 6⟩⟩
    let left : Expr := .binary (.identifier ⟨.identifier, "a", 0, ⟨1, 0⟩⟩) weak
      (.invalidToken ⟨.closeParen, ")", 4, ⟨1, 4⟩⟩)
    let whole : Expr := .binary left strong (.identifier ⟨.identifier, "b", 8, ⟨1, 8⟩⟩)
    whole ∈ (Parser.ofSource "a + ) * b").parse.expressions ∧ strong.kind.continues weak.kind.precedence = true ∧
      (∀ l op r, binary l op r ∈ left.rightSpine →
        strong.kind.continues op.kind.precedence = false ∨ r.isInvalid = true) ∧ left.isInvalid = false := by
  intro weak strong left whole
  have hmem : whole ∈ (Parser.ofSource "a + ) * b").parse.expressions := by decide +kernel
  obtain ⟨-, hsettled, hvalid⟩ := operators_grouped (Parser.ofSource "a + ) * b") whole hmem left strong _
    (mem_parts_self whole)
  exact ⟨hmem, by decide, hsettled, hvalid⟩

end ExprReader
