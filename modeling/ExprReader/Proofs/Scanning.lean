import ExprReader.Token.Scanner

/-! # What the scanner reports

No token before the end of the input is of kind `eof`, and the reports of the scanner are exactly one for
each invalid token, with its span and in the order of the source. -/

namespace ExprReader

/-- Words are reserved or names. -/
theorem Pattern.word_kind (lexeme : List Char) :
    Pattern.word.kind lexeme = .function ∨ Pattern.word.kind lexeme = .identifier := by
  simp only [Pattern.kind, TokenKind.reserved?, TokenKind.reservedWords, List.lookup_cons, List.lookup_nil]
  split <;> simp

/-- A pattern of the table never gives an invalid token or the end of the input. -/
theorem Pattern.first?_kind {text : List Char} {kind : TokenKind} {count : Nat}
    (h : Pattern.first? text = some (kind, count)) : kind ≠ .eof ∧ kind ≠ .invalid := by
  obtain ⟨pattern, member, found⟩ := List.exists_of_findSome?_eq_some h
  obtain ⟨_, -, same⟩ := Option.map_eq_some_iff.mp found
  cases same
  cases pattern with
  | digits => simp [Pattern.kind]
  | word =>
    rcases Pattern.word_kind (text.take count) with hk | hk
    · simp [hk]
    · simp [hk]
  | quoted => simp [Pattern.kind]
  | fixed front k =>
    simp only [Pattern.table, List.mem_cons, List.not_mem_nil, reduceCtorEq, Pattern.fixed.injEq, false_or,
      or_false] at member
    simp only [Pattern.kind]
    rcases member with ⟨-, rfl⟩ | ⟨-, rfl⟩ | ⟨-, rfl⟩ | ⟨-, rfl⟩ | ⟨-, rfl⟩ | ⟨-, rfl⟩ | ⟨-, rfl⟩ | ⟨-, rfl⟩ |
      ⟨-, rfl⟩ | ⟨-, rfl⟩ | ⟨-, rfl⟩ | ⟨-, rfl⟩ | ⟨-, rfl⟩ | ⟨-, rfl⟩ | ⟨-, rfl⟩ | ⟨-, rfl⟩ | ⟨-, rfl⟩ | ⟨-, rfl⟩ |
      ⟨-, rfl⟩ | ⟨-, rfl⟩ <;> decide

namespace Scanner
variable {scanner : Scanner}

/-- The reports that some tokens call for. -/
def reportsFor (tokens : List Token) : List Diagnostic :=
  (tokens.filter (·.kind = .invalid)).map fun token => ⟨.unknownCharacter, token.span⟩

theorem lexeme_kind (scanner : Scanner) : scanner.lexeme.1.kind ≠ .eof := by
  unfold lexeme
  split
  · rename_i kind count fits
    exact (Pattern.first?_kind fits).1
  · simp [cut]

theorem lexeme_reports (scanner : Scanner) :
    scanner.lexeme.2.diagnostics.toList = scanner.diagnostics.toList ++ reportsFor [scanner.lexeme.1] := by
  unfold lexeme
  split
  · rename_i kind count fits
    have hk := (Pattern.first?_kind fits).2
    simp [cut, skip, reportsFor, hk]
  · simp [cut, skip, report, reportsFor]

/-- A step gives the end of the input or the token behind the blanks. -/
theorem step_cases (scanner : Scanner) :
    scanner.skipBlanks.rest = [] ∧
        scanner.step = (scanner.skipBlanks.ending, { scanner.skipBlanks with finished := true }) ∨
      scanner.skipBlanks.rest ≠ [] ∧ scanner.step = scanner.skipBlanks.lexeme := by
  by_cases hend : scanner.skipBlanks.rest = []
  · exact Or.inl ⟨hend, by simp [step, atEnd, hend]⟩
  · exact Or.inr ⟨hend, by simp [step, atEnd, hend]⟩

theorem step_of_not_finished (h : scanner.step.2.finished = false) : scanner.step = scanner.skipBlanks.lexeme := by
  rcases scanner.step_cases with ⟨-, heq⟩ | ⟨-, heq⟩
  · rw [heq] at h
    cases h
  · exact heq

theorem lexeme_finished (scanner : Scanner) : scanner.lexeme.2.finished = scanner.finished := by
  unfold lexeme
  split <;> rfl

/-- The step that finishes a scanner gives the end of the input. -/
theorem step_of_finished (h : scanner.step.2.finished = true) (hf : scanner.finished = false) :
    scanner.skipBlanks.rest = [] ∧
      scanner.step = (scanner.skipBlanks.ending, { scanner.skipBlanks with finished := true }) := by
  rcases scanner.step_cases with hend | ⟨-, heq⟩
  · exact hend
  · rw [heq, lexeme_finished] at h
    exact absurd (hf.symm.trans h) (by decide)

theorem step_diagnostics_of_finished (h : scanner.step.2.finished = true) (hf : scanner.finished = false) :
    scanner.step.2.diagnostics = scanner.diagnostics := by
  rw [(step_of_finished h hf).2]
  rfl

/-- What a whole scan gives: no token is the end of the input, and each invalid one is reported. -/
theorem tokens_spec (scanner : Scanner) (hf : scanner.finished = false) :
    (∀ token ∈ scanner.tokens.1, token.kind ≠ .eof) ∧
      scanner.tokens.2.diagnostics.toList = scanner.diagnostics.toList ++ reportsFor scanner.tokens.1 := by
  fun_induction Scanner.tokens scanner with
  | case1 scanner first hdone =>
    refine ⟨by simp, ?_⟩
    simp [reportsFor, show first.2.diagnostics = scanner.diagnostics from step_diagnostics_of_finished hdone hf]
  | case2 scanner first hdone others last hrest =>
    rename_i ih
    have hgoes : first.2.finished = false := by simpa using hdone
    have hstep : first = scanner.skipBlanks.lexeme := step_of_not_finished hgoes
    obtain ⟨hkinds, hreports⟩ := ih hgoes
    rw [hrest] at hkinds hreports
    refine ⟨List.forall_mem_cons.mpr ⟨hstep ▸ lexeme_kind _, hkinds⟩, ?_⟩
    have hfirst : first.2.diagnostics.toList = scanner.diagnostics.toList ++ reportsFor [first.1] := by
      rw [hstep]
      exact lexeme_reports scanner.skipBlanks
    rw [hreports, hfirst, List.append_assoc, reportsFor, reportsFor, reportsFor, ← List.map_append,
      ← List.filter_append, List.singleton_append]

end Scanner

theorem scan_kind_ne_eof (source : String) : ∀ token ∈ (scan source).1.tokens, token.kind ≠ .eof := by
  intro token hm
  exact ((Scanner.ofSource source).tokens_spec rfl).1 token (by simpa [scan] using hm)

theorem scan_reports (source : String) :
    (scan source).2.toList = Scanner.reportsFor (scan source).1.tokens.toList := by
  have h := ((Scanner.ofSource source).tokens_spec rfl).2
  simpa [scan, Scanner.ofSource] using h

theorem scan_silent_iff (source : String) :
    (scan source).2 = #[] ↔ ∀ token ∈ (scan source).1.tokens, token.kind ≠ .invalid := by
  rw [← Array.toList_inj, scan_reports]
  simp [Scanner.reportsFor]

end ExprReader
