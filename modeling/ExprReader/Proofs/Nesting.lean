import ExprReader.Proofs.Clean

/-! # Nesting

Every primary and every right operand is one level of nesting, and a parser has room for so many levels.
No tree is nested deeper than the room that it was read in. A quiet run that has more room than it needs
takes the same course with less; where the room is too small, the first thing reported is the token that
would open one level too many. -/

namespace ExprReader

namespace Expr

mutual

/-- The number of levels on which an expression nests. -/
def nest : Expr → Nat
  | .literal _ | .identifier _ => 1
  | .unary _ none => 1
  | .unary _ (some operand) => 1 + operand.nest
  | .binary left _ right => max left.nest (1 + right.nest)
  | .parenthesis _ none _ => 1
  | .parenthesis _ (some inner) _ => 1 + inner.nest
  | .block ⟨_, expressions, _⟩ => 1 + nestAll expressions
  | .function _ _ _ none => 1
  | .function _ _ _ (some ⟨_, expressions, _⟩) => 1 + nestAll expressions
  | .invalidToken _ => 0
  | .invalidExpr inner => inner.nest

/-- The largest number of levels of some expressions. -/
def nestAll : List Expr → Nat
  | [] => 0
  | e :: es => max e.nest (nestAll es)

end

attribute [local simp] nest nestAll

theorem nestAll_le_iff {es : List Expr} {n : Nat} : nestAll es ≤ n ↔ ∀ e ∈ es, e.nest ≤ n := by
  induction es with
  | nil => simp
  | cons e es ih => simp [Nat.max_le, ih]

theorem nest_unary_le_iff {operator : Token} {operand : Option Expr} {n : Nat} :
    (unary operator operand).nest ≤ n + 1 ↔ ∀ e, operand = some e → e.nest ≤ n := by
  cases operand with
  | none => simp
  | some e => simp [Nat.add_comm 1]

theorem nest_binary_le_iff {left right : Expr} {operator : Token} {n : Nat} :
    (binary left operator right).nest ≤ n ↔ left.nest ≤ n ∧ right.nest < n := by
  rw [nest, Nat.max_le, Nat.add_comm, Nat.succ_le_iff]

theorem nest_parenthesis_le_iff {opening : Token} {inner : Option Expr} {closing : Option Token} {n : Nat} :
    (parenthesis opening inner closing).nest ≤ n + 1 ↔ ∀ e, inner = some e → e.nest ≤ n := by
  cases inner with
  | none => simp
  | some e => simp [Nat.add_comm 1]

theorem nest_block_le_iff {body : Block Expr} {n : Nat} :
    (block body).nest ≤ n + 1 ↔ ∀ e ∈ body.expressions, e.nest ≤ n := by
  obtain ⟨opening, expressions, closing⟩ := body
  rw [nest, Nat.add_comm, Nat.add_le_add_iff_right, nestAll_le_iff]

theorem nest_function_le_iff {keyword : Token} {name : Option Token} {parameters : Option ParameterList}
    {body : Option (Block Expr)} {n : Nat} : (function keyword name parameters body).nest ≤ n + 1 ↔
      ∀ b, body = some b → ∀ e ∈ b.expressions, e.nest ≤ n := by
  rcases body with _ | ⟨opening, expressions, closing⟩
  · simp
  · rw [nest, Nat.add_comm, Nat.add_le_add_iff_right, nestAll_le_iff]
    simp

/-- Clean trees have at least one level. -/
theorem Clean.nest_pos {e : Expr} (h : e.Clean) : 0 < e.nest := by
  cases e with
  | literal token => simp
  | identifier token => simp
  | unary operator operand => cases operand <;> simp [Nat.add_comm 1]
  | binary left operator right =>
    rw [nest]
    exact Nat.lt_of_lt_of_le (Nat.add_pos_left Nat.one_pos _) (Nat.le_max_right ..)
  | parenthesis opening inner closing => cases inner <;> simp [Nat.add_comm 1]
  | block body => simp [Nat.add_comm 1]
  | function keyword name parameters body => cases body <;> simp [Nat.add_comm 1]
  | invalidToken token => exact h.complete.elim
  | invalidExpr inner => exact h.complete.elim

end Expr

open Expr

/-! ### Trees nest within the room they are read in -/

/-- How deep the result of a task nests, given how deep what the task started from does. On the deepest
level there are only invalid primaries, and no operator is reached. -/
def Task.Nests (room : Nat) : Task → Expr → Prop
  | expr _, e => e.nest ≤ room
  | primary _, e => e.nest ≤ room ∧ (e.isInvalid = false → 0 < room)
  | construct _ _, e => e.nest ≤ room + 1
  | extend _ left, e => 0 < room → left.nest ≤ room → e.nest ≤ room
  | operand _, e => 0 < room → e.nest < room
  | block _ done, e => (∀ d ∈ done, d.nest ≤ room) → e.nest ≤ room + 1

section
variable {ctx : Context} {room : Nat} {s t : State}

theorem Reads.nests {task : Task} {e : Expr} (h : Reads ctx room task s e t) : task.Nests room e := by
  induction h with
  | exprInvalid _ _ _ ih => exact ih.1
  | exprExtended _ _ hi _ ih ih' => exact ih' (ih.2 hi) ih.1
  | primaryDeepest => exact ⟨by simp [nest], by simp [isInvalid]⟩
  | primaryUnknown _ => exact ⟨by simp [nest], by simp [isInvalid]⟩
  | primaryKnown _ _ ih => exact ⟨ih, fun _ => Nat.succ_pos _⟩
  | extendStop _ => exact fun _ hleft => hleft
  | extendOperator _ _ _ ih ih' =>
    intro hroom hleft
    exact ih' hroom (nest_binary_le_iff.mpr ⟨hleft, ih hroom⟩)
  | operandEnd _ => exact fun hroom => by simpa [nest] using hroom
  | operandDeepest _ => exact fun hroom => absurd hroom (Nat.lt_irrefl 0)
  | operandExpr _ _ ih => exact fun _ => Nat.lt_succ_of_le ih
  | literal => simp [Task.Nests, nest]
  | identifier => simp [Task.Nests, nest]
  | unary _ _ ih =>
    refine nest_unary_le_iff.mpr fun e he => ?_
    cases he
    exact ih.1
  | unaryMissing _ => exact nest_unary_le_iff.mpr (by simp)
  | parenthesisEmpty _ => exact nest_parenthesis_le_iff.mpr (by simp)
  | parenthesisEnd _ => exact nest_parenthesis_le_iff.mpr (by simp)
  | parenthesisClosed _ _ _ ih =>
    refine nest_parenthesis_le_iff.mpr fun e he => ?_
    cases he
    exact ih
  | parenthesisOpen _ _ _ ih =>
    show (Expr.parenthesis _ _ _).nest ≤ _
    refine nest_parenthesis_le_iff.mpr fun e he => ?_
    cases he
    exact ih
  | block _ ih => exact ih (by simp)
  | function _ _ _ _ ih =>
    refine nest_function_le_iff.mpr fun b hb => ?_
    cases hb
    exact nest_block_le_iff.mp (ih (by simp))
  | functionOpen _ _ _ => exact nest_function_le_iff.mpr (by simp)
  | again _ ih => exact Nat.le_succ_of_le ih.1
  | blockClosed _ => exact fun hd => nest_block_le_iff.mpr hd
  | blockEnd _ => exact fun hd => nest_block_le_iff.mpr hd
  | blockNext _ _ _ _ ih ih' =>
    intro hd
    refine ih' fun d hm => ?_
    rcases List.mem_append.mp hm with hm | hm
    · exact hd d hm
    · rw [List.mem_singleton.mp hm]
      exact ih

theorem ReadsProgram.nests {es : List Expr} (h : ReadsProgram ctx room s es t) : ∀ e ∈ es, e.nest ≤ room := by
  induction h with
  | finish _ => simp
  | stray _ _ ih => exact List.forall_mem_cons.mpr ⟨Nat.zero_le _, ih⟩
  | next _ _ he _ ih => exact List.forall_mem_cons.mpr ⟨he.nests, ih⟩

end

/-! ### Less room -/

/-- What is new from `s` to `t` begins with the report that one of some tokens is unexpected. -/
def Overflows (tokens : List Token) (s t : State) : Prop :=
  ∃ token ∈ tokens, (s.diagnostics.push ⟨.expressionExpected, token.span⟩).toList <+: t.diagnostics.toList

namespace Overflows
variable {ctx : Context} {s s' t u : State} {tokens : List Token}

theorem trans (h : Overflows tokens s t) (h' : Moves ctx t u) : Overflows tokens s u := by
  obtain ⟨token, hm, hfirst⟩ := h
  exact ⟨token, hm, hfirst.trans h'.reports⟩

theorem of_silent (h : Overflows tokens s' t) (hs : s'.diagnostics = s.diagnostics) {more : List Token}
    (hsub : ∀ token ∈ tokens, token ∈ more) : Overflows more s t := by
  obtain ⟨token, hm, hfirst⟩ := h
  exact ⟨token, hsub token hm, hs ▸ hfirst⟩

theorem unexpected {token : Token} (hm : token ∈ tokens) (hk : token.kind ≠ .invalid) :
    Overflows tokens s (unexpected token s).2 := by
  refine ⟨token, hm, ?_⟩
  rw [ExprReader.unexpected, if_neg hk]
  exact List.prefix_rfl

end Overflows

/-- Every run for a task with this room overflows at one of some tokens. -/
def Blocked (ctx : Context) (room : Nat) (task : Task) (s : State) (tokens : List Token) : Prop :=
  ∀ e t, Reads ctx room task s e t → Overflows tokens s t

section
variable {ctx : Context} {room small : Nat} {s t : State}

/-- With less room a quiet run takes the same course or overflows. -/
theorem Reads.shallower {task : Task} {e : Expr} (h : Reads ctx room task s e t) (hq : Quiet ctx s t)
    (hv : ∀ token ∈ task.token?, token.kind ≠ .invalid) (hle : small ≤ room) :
    Reads ctx small task s e t ∨ Blocked ctx small task s (task.token?.toList ++ ctx.passed s t) := by
  -- The induction follows the run that has the room. The other one takes the same rules until a level is
  -- missing; there it reports, and what it does afterwards only adds to that.
  induction h generalizing small with
  | exprInvalid hk hp hi ih =>
    obtain ⟨hfirst, hq'⟩ := hq.tail hp.moves.cursor
    rcases ih hq' (by simpa [Task.token?] using hfirst) hle with hp' | hblocked
    · exact Or.inl (.exprInvalid hk hp' hi)
    · refine Or.inr fun e' t' hrun => ?_
      rw [Context.passed_eq_cons hp.moves.cursor]
      cases hrun with
      | exprInvalid _ hp' _ => exact hblocked _ _ hp'
      | exprExtended _ hp' _ he' => exact (hblocked _ _ hp').trans he'.moves
  | exprExtended hk hp hi he ih ih' =>
    have hle₁ := hp.moves.cursor
    have hle₂ := he.moves.cursor
    obtain ⟨hfirst, hq'⟩ := hq.tail (Nat.le_trans hle₁ hle₂)
    obtain ⟨hq₁, hq₂⟩ := (Quiet.iff_trans hp.moves he.moves).mp hq'
    rw [Context.passed_eq_cons (Nat.le_trans hle₁ hle₂), Context.passed_trans hle₁ hle₂]
    rcases ih hq₁ (by simpa [Task.token?] using hfirst) hle with hp' | hblocked
    · rcases ih' hq₂ (by simp [Task.token?]) hle with he' | hblocked
      · exact Or.inl (.exprExtended hk hp' hi he')
      · refine Or.inr fun e' t' hrun => ?_
        cases hrun with
        | exprInvalid _ hp'' hi' =>
          obtain ⟨rfl, -⟩ := hp'.unique hp''
          rw [hi] at hi'
          cases hi'
        | exprExtended _ hp'' _ he'' =>
          obtain ⟨rfl, rfl⟩ := hp'.unique hp''
          exact (hblocked _ _ he'').of_silent hq₁.silent (by simp +contextual [Task.token?])
    · refine Or.inr fun e' t' hrun => ?_
      cases hrun with
      | exprInvalid _ hp' _ => exact (hblocked _ _ hp').of_silent rfl (by simp +contextual [Task.token?, or_imp])
      | exprExtended _ hp' _ he' =>
        exact ((hblocked _ _ hp').trans he'.moves).of_silent rfl (by simp +contextual [Task.token?, or_imp])
  | primaryDeepest => exact absurd hq (Quiet.not_unexpected (hv _ rfl))
  | primaryUnknown _ => exact absurd hq (Quiet.not_unexpected (hv _ rfl))
  | primaryKnown hc _ ih =>
    cases small with
    | zero =>
      refine Or.inr fun e' t' hrun => ?_
      cases hrun with
      | primaryDeepest => exact .unexpected (by simp [Task.token?]) (hv _ rfl)
    | succ small =>
      rcases ih hq hv (Nat.le_of_succ_le_succ hle) with he' | hblocked
      · exact Or.inl (.primaryKnown hc he')
      · refine Or.inr fun e' t' hrun => ?_
        cases hrun with
        | primaryUnknown hc' => simp [hc] at hc'
        | primaryKnown hc' he' =>
          rw [hc] at hc'
          cases hc'
          exact hblocked _ _ he'
  | extendStop hk => exact Or.inl (.extendStop hk)
  | extendOperator hk hr he ih ih' =>
    have hle₁ := hr.moves.cursor
    have hle₂ := he.moves.cursor
    obtain ⟨-, hq'⟩ := hq.tail (Nat.le_trans hle₁ hle₂)
    obtain ⟨hq₁, hq₂⟩ := (Quiet.iff_trans hr.moves he.moves).mp hq'
    rw [Context.passed_eq_cons (Nat.le_trans hle₁ hle₂), Context.passed_trans hle₁ hle₂]
    rcases ih hq₁ (by simp [Task.token?]) hle with hr' | hblocked
    · rcases ih' hq₂ (by simp [Task.token?]) hle with he' | hblocked
      · exact Or.inl (.extendOperator hk hr' he')
      · refine Or.inr fun e' t' hrun => ?_
        cases hrun with
        | extendStop hk' => simp [hk] at hk'
        | extendOperator _ hr'' he'' =>
          obtain ⟨rfl, rfl⟩ := hr'.unique hr''
          exact (hblocked _ _ he'').of_silent hq₁.silent (by simp +contextual [Task.token?])
    · refine Or.inr fun e' t' hrun => ?_
      cases hrun with
      | extendStop hk' => simp [hk] at hk'
      | extendOperator _ hr' he' =>
        exact ((hblocked _ _ hr').trans he'.moves).of_silent rfl (by simp +contextual [Task.token?])
  | operandEnd _ => exact absurd hq Quiet.not_report
  | operandDeepest hk =>
    obtain ⟨hfirst, hq'⟩ := hq.tail (Nat.le_of_eq (unexpected_cursor _ _).symm)
    exact absurd hq' (Quiet.not_unexpected hfirst)
  | operandExpr hk he ih =>
    cases small with
    | zero =>
      refine Or.inr fun e' t' hrun => ?_
      cases hrun with
      | operandEnd hk' => exact absurd hk' hk
      | operandDeepest _ =>
        obtain ⟨hfirst, -⟩ := hq.tail he.advance_le
        rw [Context.passed_eq_cons he.advance_le]
        exact Overflows.of_silent (.unexpected (List.mem_cons_self ..) hfirst) (State.advance_diagnostics _)
          fun token hm => hm
    | succ small =>
      rcases ih hq (by simp [Task.token?]) (Nat.le_of_succ_le_succ hle) with he' | hblocked
      · exact Or.inl (.operandExpr hk he')
      · refine Or.inr fun e' t' hrun => ?_
        cases hrun with
        | operandEnd hk' => exact absurd hk' hk
        | operandExpr _ he' => exact hblocked _ _ he'
  | literal => exact Or.inl .literal
  | identifier => exact Or.inl .identifier
  | unary hk hp ih =>
    obtain ⟨hfirst, hq'⟩ := hq.tail hp.moves.cursor
    rcases ih hq' (by simpa [Task.token?] using hfirst) hle with hp' | hblocked
    · exact Or.inl (.unary hk hp')
    · refine Or.inr fun e' t' hrun => ?_
      rw [Context.passed_eq_cons hp.moves.cursor]
      cases hrun with
      | unary _ hp' =>
        exact (hblocked _ _ hp').of_silent rfl fun token hm => List.mem_append_right _ hm
      | unaryMissing hk' => exact absurd hk hk'
  | unaryMissing hk => exact Or.inl (.unaryMissing hk)
  | parenthesisEmpty hk => exact Or.inl (.parenthesisEmpty hk)
  | parenthesisEnd hk => exact Or.inl (.parenthesisEnd hk)
  | parenthesisClosed hk he hk' ih =>
    have hclose : Moves ctx _ _ := Moves.advance_of_kind hk' (by simp)
    obtain ⟨hq', -⟩ := (Quiet.iff_trans he.moves hclose).mp hq
    rcases ih hq' (by simp [Task.token?]) hle with he' | hblocked
    · exact Or.inl (.parenthesisClosed hk he' hk')
    · refine Or.inr fun e' t' hrun => ?_
      rw [Context.passed_trans he.moves.cursor hclose.cursor]
      cases hrun with
      | parenthesisEmpty hk'' => exact absurd hk'' hk
      | parenthesisEnd hend => exact absurd hend he.kind_ne_eof
      | parenthesisClosed _ he' hk'' =>
        exact ((hblocked _ _ he').trans (Moves.advance_of_kind hk'' (by simp))).of_silent rfl
          (by simp +contextual [Task.token?])
      | parenthesisOpen _ he' _ =>
        exact ((hblocked _ _ he').trans (Moves.reportAt _)).of_silent rfl (by simp +contextual [Task.token?])
  | parenthesisOpen _ he _ _ => exact absurd hq.silent (he.moves.report_ne _ _)
  | block _ ih =>
    rcases ih hq (by simp [Task.token?]) hle with hb | hblocked
    · exact Or.inl (.block hb)
    · refine Or.inr fun e' t' hrun => ?_
      cases hrun with
      | block hb =>
        exact (hblocked _ _ hb).of_silent rfl fun token hm => List.mem_append_right _ hm
  | function hn hp hk hb ih =>
    have hparams := (Moves.functionName hn).trans (Moves.functionParameters hp)
    have hbrace := Moves.advance_of_kind hk (by simp)
    obtain ⟨hq₁, hq'⟩ := (Quiet.iff_trans hparams (hbrace.trans hb.moves)).mp hq
    obtain ⟨-, hq₂⟩ := hq'.tail hb.moves.cursor
    rcases ih hq₂ (by simp [Task.token?]) hle with hb' | hblocked
    · exact Or.inl (.function hn hp hk hb')
    · refine Or.inr fun e' t' hrun => ?_
      rw [Context.passed_trans hparams.cursor (hbrace.trans hb.moves).cursor,
        Context.passed_eq_cons hb.moves.cursor]
      cases hrun with
      | function hn' hp' _ hb' =>
        rw [hn] at hn'
        cases hn'
        rw [hp] at hp'
        cases hp'
        exact (hblocked _ _ hb').of_silent hq₁.silent (by simp +contextual [Task.token?])
      | functionOpen hn' hp' hk' =>
        rw [hn] at hn'
        cases hn'
        rw [hp] at hp'
        cases hp'
        exact absurd hk hk'
  | functionOpen hn hp hk => exact Or.inl (.functionOpen hn hp hk)
  | again _ ih =>
    rcases ih hq hv hle with hp' | hblocked
    · exact Or.inl (.again hp')
    · refine Or.inr fun e' t' hrun => ?_
      cases hrun with
      | again hp' => exact hblocked _ _ hp'
  | blockClosed hk => exact Or.inl (.blockClosed hk)
  | blockEnd hk => exact Or.inl (.blockEnd hk)
  | blockNext hk hk' he hb ih ih' =>
    obtain ⟨hq₁, hq₂⟩ := (Quiet.iff_trans he.moves hb.moves).mp hq
    rw [Context.passed_trans he.moves.cursor hb.moves.cursor]
    rcases ih hq₁ (by simp [Task.token?]) hle with he' | hblocked
    · rcases ih' hq₂ (by simp [Task.token?]) hle with hb' | hblocked
      · exact Or.inl (.blockNext hk hk' he' hb')
      · refine Or.inr fun e' t' hrun => ?_
        cases hrun with
        | blockClosed hclose => exact absurd hclose hk
        | blockEnd hend => exact absurd hend hk'
        | blockNext _ _ he'' hb'' =>
          obtain ⟨rfl, rfl⟩ := he'.unique he''
          exact (hblocked _ _ hb'').of_silent hq₁.silent (by simp +contextual [Task.token?])
    · refine Or.inr fun e' t' hrun => ?_
      cases hrun with
      | blockClosed hclose => exact absurd hclose hk
      | blockEnd hend => exact absurd hend hk'
      | blockNext _ _ he' hb' =>
        exact ((hblocked _ _ he').trans hb'.moves).of_silent rfl (by simp +contextual [Task.token?])

theorem ReadsProgram.shallower {es : List Expr} (h : ReadsProgram ctx room s es t) (hq : Quiet ctx s t)
    (hle : small ≤ room) : ReadsProgram ctx small s es t ∨
      ∀ es' t', ReadsProgram ctx small s es' t' → Overflows (ctx.passed s t) s t' := by
  induction h with
  | finish hk => exact Or.inl (.finish hk)
  | stray hk hes _ => exact absurd hq (hes.not_quiet_of_stray hk)
  | next hk hk' he hes ih =>
    obtain ⟨hq₁, hq₂⟩ := (Quiet.iff_trans he.moves hes.moves).mp hq
    rw [Context.passed_trans he.moves.cursor hes.moves.cursor]
    rcases he.shallower hq₁ (by simp [Task.token?]) hle with he' | hblocked
    · rcases ih hq₂ with hes' | hblocked
      · exact Or.inl (.next hk hk' he' hes')
      · refine Or.inr fun es' t' hrun => ?_
        cases hrun with
        | finish hend => exact absurd hend hk
        | stray hstray _ => exact absurd hstray hk'
        | next _ _ he'' hes'' =>
          obtain ⟨rfl, rfl⟩ := he'.unique he''
          exact (hblocked _ _ hes'').of_silent hq₁.silent fun token hm => List.mem_append_right _ hm
    · refine Or.inr fun es' t' hrun => ?_
      cases hrun with
      | finish hend => exact absurd hend hk
      | stray hstray _ => exact absurd hstray hk'
      | next _ _ he' hes' =>
        exact ((hblocked _ _ he').trans hes'.moves).of_silent rfl (by simp +contextual [Task.token?])

end

end ExprReader
