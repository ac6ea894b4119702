import ExprReader.Tree.Parser.Header

/-! # What is read of the header of a function, as a relation

The rules for parameters and their lists, in the manner of the rules for expressions: one rule for each way
in which reading can go, and the functions of the reader are exactly what the rules derive. -/

namespace ExprReader

/-- One run over a parameter after an optional comma. -/
inductive ReadsParameter (ctx : Context) (comma : Option Token) (s : State) : Option Parameter → State → Prop where
  | plain : ctx.kind (ctx.skipToName s) = .identifier → ctx.kind (ctx.skipToName s).advance ≠ .colon →
      ReadsParameter ctx comma s (some ⟨comma, ctx.current (ctx.skipToName s), none, none⟩) (ctx.skipToName s).advance
  | typed : ctx.kind (ctx.skipToName s) = .identifier → ctx.kind (ctx.skipToName s).advance = .colon →
      ctx.rules.namesType (ctx.kind (ctx.skipToName s).advance.advance) = true →
      ReadsParameter ctx comma s
        (some ⟨comma, ctx.current (ctx.skipToName s), some (ctx.current (ctx.skipToName s).advance),
          some (ctx.current (ctx.skipToName s).advance.advance)⟩)
        (ctx.skipToName s).advance.advance.advance
  | untyped : ctx.kind (ctx.skipToName s) = .identifier → ctx.kind (ctx.skipToName s).advance = .colon →
      ctx.rules.namesType (ctx.kind (ctx.skipToName s).advance.advance) = false →
      ReadsParameter ctx comma s
        (some ⟨comma, ctx.current (ctx.skipToName s), some (ctx.current (ctx.skipToName s).advance), none⟩)
        (ctx.reportAfter .typeExpected (ctx.skipToName s).advance.advance)
  | missing : ctx.kind (ctx.skipToName s) ≠ .identifier → (ctx.skipToName s).cursor = s.cursor →
      ReadsParameter ctx comma s none (ctx.reportAfter .parameterExpected (ctx.skipToName s))
  | skipped : ctx.kind (ctx.skipToName s) ≠ .identifier → (ctx.skipToName s).cursor ≠ s.cursor →
      ReadsParameter ctx comma s none (ctx.skipToName s)

/-- One run over the parameters after the first. -/
inductive ReadsOthers (ctx : Context) : State → List Parameter → State → Prop where
  | finish {s} : (ctx.kind s).endsParameters = true → ReadsOthers ctx s [] s
  | comma {s p t ps u} : ctx.kind s = .comma → ReadsParameter ctx (some (ctx.current s)) s.advance p t →
      ReadsOthers ctx t ps u → ReadsOthers ctx s (p.toList ++ ps) u
  | noComma {s p t ps u} : (ctx.kind s).endsParameters = false → ctx.kind s ≠ .comma →
      ReadsParameter ctx none (ctx.reportAfter .commaExpected s) p t → ReadsOthers ctx t ps u →
      ReadsOthers ctx s (p.toList ++ ps) u

/-- One run over all parameters of a list. -/
inductive ReadsParameters (ctx : Context) (s : State) : List Parameter → State → Prop where
  | empty : (ctx.kind s).endsParameters = true → ReadsParameters ctx s [] s
  | filled {p t ps u} : (ctx.kind s).endsParameters = false → ReadsParameter ctx none s p t →
      ReadsOthers ctx t ps u → ReadsParameters ctx s (p.toList ++ ps) u

/-- One run over a list of parameters after its opening parenthesis. -/
inductive ReadsList (ctx : Context) (opening : Token) (s : State) : ParameterList → State → Prop where
  | closed {ps t} : ReadsParameters ctx s ps t → ctx.kind t = .closeParen →
      ReadsList ctx opening s ⟨opening, ps, some (ctx.current t)⟩ t.advance
  | unclosed {ps t} : ReadsParameters ctx s ps t → ctx.kind t ≠ .closeParen →
      ReadsList ctx opening s ⟨opening, ps, none⟩ (ctx.reportAfter .closeParenthesisExpected t)

section
variable {ctx : Context} {s t : State}

theorem TokenKind.ne_eof_of_not_endsParameters {kind : TokenKind} (h : kind.endsParameters = false) :
    kind ≠ .eof := by
  rintro rfl
  cases h

theorem skipToName_of_name (h : ctx.kind s = .identifier) : ctx.skipToName s = s := by
  rw [Context.skipToName, if_pos h]

/-- Passing over tokens ends at a name or at the end of the list. -/
theorem skipToName_kind (ctx : Context) (s : State) :
    ctx.kind (ctx.skipToName s) = .identifier ∨ (ctx.kind (ctx.skipToName s)).endsParameters = true := by
  fun_induction ctx.skipToName s with
  | case1 s h => exact Or.inl h
  | case2 s _ h => exact Or.inr h
  | case3 s _ _ ih => exact ih

theorem readsParameter_iff {comma : Option Token} {p : Option Parameter} :
    ReadsParameter ctx comma s p t ↔ ctx.parameter comma s = (p, t) := by
  constructor
  · intro h
    unfold Context.parameter
    cases h with
    | plain hname hcolon => simp [hname, hcolon]
    | typed hname hcolon htype => simp [hname, hcolon, Context.typeName, htype]
    | untyped hname hcolon htype => simp [hname, hcolon, Context.typeName, htype]
    | missing hname hsame => simp [hname, hsame]
    | skipped hname hmoved => simp [hname, hmoved]
  · intro h
    unfold Context.parameter Context.typeName at h
    dsimp only at h
    split at h
    · rename_i hname
      split at h
      · rename_i hcolon
        by_cases htype : ctx.rules.namesType (ctx.kind (ctx.skipToName s).advance.advance) = true
        · rw [if_pos htype] at h
          cases h
          exact .typed hname hcolon htype
        · rw [if_neg htype] at h
          cases h
          exact .untyped hname hcolon (by simpa using htype)
      · cases h
        exact .plain hname ‹_›
    · rename_i hname
      split at h <;> cases h
      · exact .missing hname ‹_›
      · exact .skipped hname ‹_›

theorem readsOthers_iff {ps : List Parameter} : ReadsOthers ctx s ps t ↔ ctx.otherParameters s = (ps, t) := by
  constructor
  · intro h
    induction h with
    | finish hk => rw [Context.otherParameters, if_pos hk]
    | comma hk hp _ ih =>
      rw [readsParameter_iff] at hp
      rw [Context.otherParameters, if_neg (by simp [hk, TokenKind.endsParameters])]
      simp only [Context.nextParameter, Context.expect, hk, if_true, hp, ih]
    | noComma hk hk' hp _ ih =>
      rw [readsParameter_iff] at hp
      rw [Context.otherParameters, if_neg (by simp [hk])]
      simp only [Context.nextParameter, Context.expect, hk', if_false, hp, ih]
  · intro h
    fun_induction ctx.otherParameters s generalizing ps t with
    | case1 s hk =>
      cases h
      exact .finish hk
    | case2 s hk first others last hrest =>
      rename_i ih
      cases h
      have hfirst : ctx.nextParameter s = (first.1, first.2) := rfl
      unfold Context.nextParameter Context.expect at hfirst
      by_cases hcomma : ctx.kind s = .comma
      · simp only [hcomma, if_true, ← readsParameter_iff] at hfirst
        exact .comma hcomma hfirst (ih hrest)
      · simp only [hcomma, if_false, ← readsParameter_iff] at hfirst
        exact .noComma (by simpa using hk) hcomma hfirst (ih hrest)

theorem readsParameters_iff {ps : List Parameter} : ReadsParameters ctx s ps t ↔
    ((ctx.firstParameter s).1.toList ++ (ctx.otherParameters (ctx.firstParameter s).2).1,
      (ctx.otherParameters (ctx.firstParameter s).2).2) = (ps, t) := by
  unfold Context.firstParameter
  constructor
  · intro h
    cases h with
    | empty hk =>
      have : ctx.otherParameters s = ([], s) := by rw [Context.otherParameters, if_pos hk]
      simp [hk, this]
    | filled hk hp ho =>
      rw [readsParameter_iff] at hp
      rw [readsOthers_iff] at ho
      simp [hk, hp, ho]
  · intro h
    split at h
    · rename_i hk
      rw [Context.otherParameters, if_pos hk] at h
      cases h
      exact .empty hk
    · rename_i hk
      cases h
      exact .filled (by simpa using hk) (readsParameter_iff.mpr rfl) (readsOthers_iff.mpr rfl)

theorem readsList_iff {opening : Token} {l : ParameterList} :
    ReadsList ctx opening s l t ↔ ctx.parameterList opening s = (l, t) := by
  unfold Context.parameterList
  constructor
  · intro h
    cases h with
    | closed hp hk =>
      have hps := readsParameters_iff.mp hp
      simp only [Prod.mk.injEq] at hps
      simp [Context.expect, hps.1, hps.2, hk]
    | unclosed hp hk =>
      have hps := readsParameters_iff.mp hp
      simp only [Prod.mk.injEq] at hps
      simp [Context.expect, hps.1, hps.2, hk]
  · intro h
    unfold Context.expect at h
    dsimp only at h
    split at h
    · cases h
      exact .closed (readsParameters_iff.mpr rfl) ‹_›
    · cases h
      exact .unclosed (readsParameters_iff.mpr rfl) ‹_›

theorem functionName_cases {name : Option Token} (h : ctx.functionName s = (name, t)) :
    (ctx.kind s = .identifier ∧ name = some (ctx.current s) ∧ t = s.advance) ∨
      (ctx.kind s ≠ .identifier ∧ name = none ∧ t = ctx.reportAfter .nameExpected s) := by
  unfold Context.functionName Context.expect at h
  split at h <;> cases h
  · exact Or.inl ⟨‹_›, rfl, rfl⟩
  · exact Or.inr ⟨‹_›, rfl, rfl⟩

theorem functionParameters_cases {l : Option ParameterList} (h : ctx.functionParameters s = (l, t)) :
    (ctx.kind s = .openParen ∧ ∃ list, l = some list ∧ ReadsList ctx (ctx.current s) s.advance list t) ∨
      (ctx.kind s ≠ .openParen ∧ l = none ∧ t = ctx.reportAfter .parameterListExpected s) := by
  unfold Context.functionParameters at h
  split at h <;> cases h
  · exact Or.inl ⟨‹_›, _, rfl, readsList_iff.mpr rfl⟩
  · exact Or.inr ⟨‹_›, rfl, rfl⟩

end

end ExprReader
