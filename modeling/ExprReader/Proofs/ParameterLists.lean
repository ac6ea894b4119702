import ExprReader.Proofs.Accounting
import ExprReader.Proofs.Grammar

/-! # Where a list of parameters ends

By the rules of the language a list of parameters is read up to the first closing parenthesis, opening brace or
end of the input, whatever stands before it. A closing parenthesis there is taken and anything else is left. Nothing
is reported exactly when the list is closed and the tokens in it are derived from the grammar. -/

namespace ExprReader

theorem TokenKind.endsParameters_iff {kind : TokenKind} :
    kind.endsParameters = true ↔ kind ∈ [TokenKind.closeParen, .openCurly, .eof] := by
  cases kind <;> decide

theorem Rules.standard_namesType_ends {kind : TokenKind} (h : standard.namesType kind = true) :
    kind.endsParameters = false := by
  rw [standard_namesType h]
  rfl

/-! ### Tokens inside a list -/

/-- No token from `s` to `t` ends a list of parameters. -/
def Context.InsideList (ctx : Context) (s t : State) : Prop :=
  ∀ i, s.cursor ≤ i → i < t.cursor → (ctx.buffer.get i).kind.endsParameters = false

namespace Context.InsideList
variable {ctx : Context} {s t u : State}

theorem of_cursor_eq (h : t.cursor = s.cursor) : ctx.InsideList s t := by
  intro i hs ht
  omega

theorem trans (h : ctx.InsideList s t) (h' : ctx.InsideList t u) : ctx.InsideList s u := by
  intro i hs hu
  rcases Nat.lt_or_ge i t.cursor with hlt | hge
  · exact h i hs hlt
  · exact h' i hge hu

theorem advance (h : (ctx.kind s).endsParameters = false) : ctx.InsideList s s.advance := by
  intro i hs ht
  have hsame : i = s.cursor := Nat.le_antisymm (Nat.le_of_lt_succ ht) hs
  rw [hsame]
  exact h

theorem advance_of_kind {kind : TokenKind} (h : ctx.kind s = kind) (hk : kind.endsParameters = false) :
    ctx.InsideList s s.advance :=
  advance (h ▸ hk)

theorem skipToName (ctx : Context) (s : State) : ctx.InsideList s (ctx.skipToName s) := by
  fun_induction ctx.skipToName s with
  | case1 s _ => exact of_cursor_eq rfl
  | case2 s _ _ => exact of_cursor_eq rfl
  | case3 s _ hk ih =>
    have hpassed : ctx.InsideList s (ctx.reportAt .parameterExpected s).advance := advance (s := s) (by simpa using hk)
    exact hpassed.trans ih

variable (standard : ctx.rules = .standard)
include standard

theorem parameter {comma : Option Token} {p : Option Parameter} (h : ReadsParameter ctx comma s p t) :
    ctx.InsideList s t := by
  have found := skipToName ctx s
  cases h with
  | plain hname _ => exact found.trans (advance_of_kind hname rfl)
  | typed hname hcolon htype =>
    rw [standard] at htype
    exact found.trans ((advance_of_kind hname rfl).trans ((advance_of_kind hcolon rfl).trans
      (advance (Rules.standard_namesType_ends htype))))
  | untyped hname hcolon _ =>
    exact found.trans ((advance_of_kind hname rfl).trans ((advance_of_kind hcolon rfl).trans (of_cursor_eq rfl)))
  | missing _ _ => exact found.trans (of_cursor_eq rfl)
  | skipped _ _ => exact found

theorem others {ps : List Parameter} (h : ReadsOthers ctx s ps t) : ctx.InsideList s t := by
  induction h with
  | finish _ => exact of_cursor_eq rfl
  | comma hk hp _ ih => exact (advance_of_kind hk rfl).trans ((parameter standard hp).trans ih)
  | noComma _ _ hp _ ih => exact (of_cursor_eq rfl).trans ((parameter standard hp).trans ih)

theorem parameters {ps : List Parameter} (h : ReadsParameters ctx s ps t) : ctx.InsideList s t := by
  cases h with
  | empty _ => exact of_cursor_eq rfl
  | filled _ hp ho => exact (parameter standard hp).trans (others standard ho)

end Context.InsideList

section
variable {ctx : Context} {s t : State} {ps : List Parameter}

/-- The parameters after the first are read up to the end of the list. -/
theorem ReadsOthers.ends (h : ReadsOthers ctx s ps t) : (ctx.kind t).endsParameters = true := by
  induction h with
  | finish hk => exact hk
  | comma _ _ _ ih => exact ih
  | noComma _ _ _ _ ih => exact ih

theorem ReadsParameters.ends (h : ReadsParameters ctx s ps t) : (ctx.kind t).endsParameters = true := by
  cases h with
  | empty hk => exact hk
  | filled _ _ ho => exact ho.ends

/-- Reading up to the end of a list from within the buffer stays within it. -/
theorem Context.InsideList.cursor_le (h : ctx.InsideList s t) (hs : s.cursor ≤ ctx.buffer.size) :
    t.cursor ≤ ctx.buffer.size := by
  refine Nat.le_of_not_lt fun hpast => ?_
  have hend := h ctx.buffer.size hs hpast
  rw [TokenBuffer.get_of_size_le (Nat.le_refl _), ctx.buffer.ending_kind] at hend
  cases hend

/-! ### The tokens of the parameters -/

variable (standard : ctx.rules = .standard)
include standard

/-- The tokens of the parameters are some of the tokens that were passed, in their order. -/
theorem ReadsParameters.leaves_sublist (h : ReadsParameters ctx s ps t) :
    (ps.flatMap Parameter.leaves).Sublist (ctx.passed s t) := by
  have hgathers := h.gathers (standard ▸ Rules.standard_endsAtEof)
  obtain ⟨kept, placeholder, htokens, hsifted, hend⟩ := hgathers.sifted
  cases placeholder with
  | none =>
    rw [htokens, Option.toList_none, List.append_nil]
    exact hsifted.sublist
  | some ending =>
    -- No slot of a parameter takes the end of the input.
    have hm : ending ∈ ps.flatMap Parameter.leaves := by simp [htokens]
    obtain ⟨p, hp, hm⟩ := List.mem_flatMap.mp hm
    have hsolid := ((h.kindsFit standard).1 p hp).solid ending hm
    obtain ⟨rfl, hk, -⟩ := hend ending rfl
    exact absurd hk hsolid.2

/-- Parameters are read up to a closing parenthesis without a report exactly when their tokens are derived. -/
theorem ReadsParameters.silent_iff (h : ReadsParameters ctx s ps t) (hclose : ctx.kind t = .closeParen) :
    t.diagnostics = s.diagnostics ↔ Derives .parameters ((ctx.passed s t).map Token.kind) := by
  constructor
  · intro hsilent
    obtain ⟨hkinds, -⟩ := h.kindsFit standard
    obtain ⟨hcomplete, hfirst, hcommas, hleaves⟩ := h.quiet hsilent
    rw [← hleaves]
    exact .list hkinds hcomplete hfirst hcommas
  · intro hderives
    obtain ⟨qs, hqs, hfirst, hcommas, hleaves⟩ := hderives.realised _ rfl
    -- The tokens that were passed are those of complete parameters, and these are what is read.
    have hpast : (s.past (qs.flatMap Parameter.leaves)).cursor = t.cursor := by
      rw [hleaves, State.past, Context.length_passed]
      exact Nat.add_sub_cancel' (Moves.parameters h).cursor
    have hahead : ctx.Ahead s (qs.flatMap Parameter.leaves) := by
      rw [Context.ahead_iff_passed, Context.passed, hpast, hleaves]
      rfl
    have hend : ctx.kind (s.past (qs.flatMap Parameter.leaves)) = .closeParen := by
      rw [Context.kind, Context.current, hpast]
      exact hclose
    have hread := ReadsParameters.of_ahead standard (fun p hp => (hqs p hp).kinds) (fun p hp => (hqs p hp).complete)
      hfirst hcommas hahead hend
    have hsame := (readsParameters_iff.mp h).symm.trans (readsParameters_iff.mp hread)
    rw [(Prod.mk.inj hsame).2]
    rfl

end

/-! ### Whole lists -/

/-- A list is its parameters and what stands behind them. -/
theorem ReadsList.cases {ctx : Context} {opening : Token} {s t : State} {l : ParameterList}
    (h : ReadsList ctx opening s l t) : ∃ u, ReadsParameters ctx s l.parameters u ∧
      ((ctx.kind u = .closeParen ∧ l.closing = some (ctx.current u) ∧ t = u.advance) ∨
        (ctx.kind u ≠ .closeParen ∧ l.closing = none ∧ t = ctx.reportAfter .closeParenthesisExpected u)) := by
  cases h with
  | closed hp hk => exact ⟨_, hp, Or.inl ⟨hk, rfl, rfl⟩⟩
  | unclosed hp hk => exact ⟨_, hp, Or.inr ⟨hk, rfl, rfl⟩⟩

/-- Some of the tokens that were passed, by their indices. -/
theorem Context.exists_indices {ctx : Context} {s t : State} {tokens : List Token}
    (h : tokens.Sublist (ctx.passed s t)) : ∃ indices : List Nat, indices.Pairwise (· < ·) ∧
      (∀ i ∈ indices, s.cursor ≤ i ∧ i < t.cursor) ∧ tokens = indices.map ctx.buffer.get := by
  obtain ⟨indices, hsub, rfl⟩ := List.sublist_map_iff.mp h
  refine ⟨indices, (List.pairwise_lt_range' ..).sublist hsub, fun i hi => ?_, rfl⟩
  have hrange := List.mem_range'_1.mp (hsub.subset hi)
  omega

/-- Wherever a parser stands in its buffer, a list of parameters is read up to the first token that ends one. A closing
parenthesis there closes the list and is read; anything else is left. The tokens of the parameters stand before it, in
their order. Nothing is reported exactly when the list is closed and the kinds in it make parameters with commas
between them. -/
theorem parameterList_recovers {p : Parser} (hrules : p.context.rules = .standard)
    (hcursor : p.state.cursor ≤ p.context.buffer.size) (opening : Token) :
    let buffer := p.context.buffer
    let start := p.state.cursor
    let list := (p.parameterList opening).1
    let last := (p.parameterList opening).2.state
    ∃ stop, start ≤ stop ∧ stop ≤ buffer.size ∧
      (buffer.get stop).kind ∈ [TokenKind.closeParen, .openCurly, .eof] ∧
      (∀ i, start ≤ i → i < stop → (buffer.get i).kind ∉ [TokenKind.closeParen, .openCurly, .eof]) ∧
      ((buffer.get stop).kind = .closeParen → last.cursor = stop + 1 ∧ list.closing = some (buffer.get stop)) ∧
      ((buffer.get stop).kind ≠ .closeParen → last.cursor = stop ∧ list.closing = none) ∧
      (∃ indices : List Nat, indices.Pairwise (· < ·) ∧ (∀ i ∈ indices, start ≤ i ∧ i < stop) ∧
        list.parameters.flatMap Parameter.leaves = indices.map buffer.get) ∧
      (last.diagnostics = p.state.diagnostics ↔ (buffer.get stop).kind = .closeParen ∧
        Derives .parameters ((List.range' start (stop - start)).map fun i => (buffer.get i).kind)) := by
  intro buffer start list last
  have hread : ReadsList p.context opening p.state list last := readsList_iff.mpr rfl
  obtain ⟨t, hparameters, hclosing⟩ := hread.cases
  have hinside := Context.InsideList.parameters hrules hparameters
  refine ⟨t.cursor, (Moves.parameters hparameters).cursor, hinside.cursor_le hcursor,
    TokenKind.endsParameters_iff.mp hparameters.ends, fun i hstart hstop hends => ?_, fun hk => ?_, fun hk => ?_,
    Context.exists_indices (hparameters.leaves_sublist hrules), ?_⟩
  · rw [← TokenKind.endsParameters_iff, hinside i hstart hstop] at hends
    cases hends
  · rcases hclosing with ⟨-, hclosed, hlast⟩ | ⟨hother, -, -⟩
    · rw [hlast]
      exact ⟨rfl, hclosed⟩
    · exact absurd hk hother
  · rcases hclosing with ⟨hclose, -, -⟩ | ⟨-, hclosed, hlast⟩
    · exact absurd hclose hk
    · rw [hlast]
      exact ⟨rfl, hclosed⟩
  · rcases hclosing with ⟨hclose, -, hlast⟩ | ⟨hother, -, hlast⟩
    · rw [hlast, State.advance_diagnostics, hparameters.silent_iff hrules hclose, Context.passed, List.map_map]
      exact (and_iff_right hclose).symm
    · rw [hlast]
      exact ⟨fun hsilent => absurd hsilent ((Moves.parameters hparameters).report_ne _ _), fun h => absurd h.1 hother⟩

/-- A number, a type that is missing, a second name without a comma and a comma before the end: the list still ends at
its closing parenthesis. -/
theorem parameterList_recovers_garbled :
    let source := "function f(1 a: , b c, ) \x7b \x7d"
    let p : Parser := { Parser.ofSource source with state := { cursor := 3 } }
    let opening := (scan source).1.get 2
    p.context.rules = .standard ∧ p.state.cursor ≤ p.context.buffer.size ∧
      (p.parameterList opening).2.state.cursor = 11 ∧
      (p.parameterList opening).1.closing = some ⟨.closeParen, ")", 23, ⟨1, 23⟩⟩ := by
  intro source p opening
  have hcursor : p.state.cursor ≤ p.context.buffer.size := by decide +kernel
  have hnone : ∀ i < 10, 3 ≤ i → (p.context.buffer.get i).kind ∉ [TokenKind.closeParen, .openCurly, .eof] := by
    decide +kernel
  have hclose : p.context.buffer.get 10 = ⟨.closeParen, ")", 23, ⟨1, 23⟩⟩ := by decide +kernel
  obtain ⟨stop, hstart, -, hends, hbefore, hclosed, -, -, -⟩ := parameterList_recovers rfl hcursor opening
  have hstop : stop = 10 := by
    rcases Nat.lt_trichotomy stop 10 with hlt | heq | hgt
    · exact absurd hends (hnone stop hlt hstart)
    · exact heq
    · exact absurd (by simp [hclose]) (hbefore 10 (by decide) hgt)
  rw [hstop, hclose] at hclosed
  obtain ⟨hlast, hclosing⟩ := hclosed rfl
  exact ⟨rfl, hcursor, hlast, hclosing⟩

end ExprReader
