import ExprReader.Proofs.Routines

/-! # What reading leaves alone

A routine gives the parser back with its buffer, its rules and its depth, with everything it had reported, and
never before the token where it stood. On the way it is never less deep than it was, and never deeper than
constructs may nest. By the rules of the language it does not move past the end of the input. -/

namespace ExprReader

section
variable (ctx : Context) (s : State)

theorem Moves.expr (room : Nat) (least : Precedence) : Moves ctx s ((Level.ofRoom ctx room).expr least s).2 := by
  by_cases hk : ctx.kind s = .eof
  · rw [Level.ofRoom_expr_of_eof room least hk]
    exact .refl ctx s
  · obtain ⟨e, t, he⟩ := (derived ctx room).expr_some least s hk
    rw [he]
    exact ((derived ctx room).expr _ _ _ _ he).moves

theorem Moves.typeName : Moves ctx s (ctx.typeName s).2 := by
  unfold Context.typeName
  split
  · rename_i htype
    exact .advance fun hr => hr.names htype
  · exact .report _ _

theorem Moves.expect {kind : TokenKind} (missing : DiagnosticKind) (hk : kind ≠ .eof) :
    Moves ctx s (ctx.expect kind missing s).2 := by
  unfold Context.expect
  split
  · exact .advance_of_kind ‹_› hk
  · exact .report _ _

theorem Moves.parameterFrom (comma : Option Token) (skipped : Bool) :
    Moves ctx s (ctx.parameterFrom comma skipped s).2 := by
  have found := Moves.skipToName ctx s
  unfold Context.parameterFrom
  dsimp only
  split
  · exact found.trans (.parameter (readsParameter_iff.mpr rfl))
  · split
    · exact found
    · exact found.trans (.report _ _)

theorem Moves.parametersFrom (opening : Token) (gathered : List Parameter) :
    Moves ctx s (ctx.parametersFrom opening gathered s).2 := by
  have others := Moves.others (readsOthers_iff.mpr (rfl : ctx.otherParameters s = _))
  exact others.trans (.expect ctx _ _ (by decide))

end

/-- A routine moves on, whatever it gives. -/
theorem Routine.moves (routine : Routine) (p : Parser) : Moves p.context p.state (routine.answer p).2.state := by
  have hreads (task : Task) {e : Expr} {t : State}
      (h : task.Returns p.context (maxNesting - p.depth) p.state e t) : Moves p.context p.state t :=
    (reads_iff.mpr h).moves
  cases routine with
  | expr least => exact .expr p.context p.state _ least
  | operators least left => exact hreads (.extend least left) rfl
  | operand strength => exact hreads (.operand strength) rfl
  | construct found token => exact hreads (.construct found token) rfl
  | block opening gathered => exact hreads (.block opening gathered) ⟨rfl, rfl⟩
  | parameterList opening => exact .list (readsList_iff.mpr (rfl : p.context.parameterList opening p.state = _))
  | parameters opening gathered => exact .parametersFrom p.context p.state opening gathered
  | parameter comma skipped => exact .parameterFrom p.context p.state comma skipped
  | typeName => exact .typeName p.context p.state
  | program gathered => exact (readsProgram_iff.mpr rfl).moves

theorem Routine.answer_context (routine : Routine) (p : Parser) : (routine.answer p).2.context = p.context := by
  cases routine <;> rfl

theorem Routine.answer_depth (routine : Routine) (p : Parser) : (routine.answer p).2.depth = p.depth := by
  cases routine <;> rfl

/-- Called on any parser, a routine returns with the buffer, the rules and the depth that it found, has added
reports only behind the old ones, and stands no earlier than before; on the way it stays between its own depth
and the deepest level. By the rules of the language it stops at the first end of the input at the latest. -/
theorem routine_frame (routine : Routine) (p : Parser) :
    let last := (routine.answer p).2
    routine.Returns p (routine.answer p) ∧ last.context = p.context ∧ last.depth = p.depth ∧
      p.state.diagnostics.toList <+: last.state.diagnostics.toList ∧ p.state.cursor ≤ last.state.cursor ∧
      (∀ steps, let between := ((Machine.calling routine p).run steps).parser
        between.context = p.context ∧ p.depth ≤ between.depth ∧ between.depth ≤ maxNesting) ∧
      (p.context.rules = .standard → ∀ index, p.state.cursor ≤ index → (p.context.buffer.get index).kind = .eof →
        last.state.cursor ≤ index) := by
  obtain ⟨hreturns, honward⟩ := routine.returns p
  have hmoves := routine.moves p
  refine ⟨hreturns, routine.answer_context p, routine.answer_depth p, hmoves.reports, hmoves.cursor, fun steps => ?_,
    fun hrules index hle hend => ?_⟩
  · exact ⟨(honward steps).context, (honward steps).depth, Parser.depth_le _⟩
  · by_contra hpast
    exact hmoves.before (hrules ▸ Rules.standard_endsAtEof) index hle (Nat.lt_of_not_le hpast) hend

end ExprReader
