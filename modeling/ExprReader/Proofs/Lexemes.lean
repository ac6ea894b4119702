import ExprReader.Proofs.Layout

/-! # Lexemes and what may follow them

The text of a token is cut off the front of a longer text as the same token again, unless the character behind
it goes on with the token. So a text can be put together from lexemes one by one, from the last to the first:
`Lexes text faces` says that a text is scanned as tokens of the kinds and texts `faces`, wherever they stand. -/

namespace ExprReader

/-! ### Characters that go on with a token -/

/-- Whether a token of a kind may be longer by a character. A quotation mark that is left open is a matter of
all the text behind it and not of one character. -/
def TokenKind.goesOnWith : TokenKind → Char → Bool
  | number, c => c.isDigit
  | identifier, c | function, c => Pattern.isWordChar c
  | exclamation, c | equals, c | lessThan, c | greaterThan, c => c == '='
  | invalid, c => c == '/' || c == '?'
  | _, _ => false

theorem toNat_of_isUpper {c : Char} (h : c.isUpper = true) : 65 ≤ c.toNat ∧ c.toNat ≤ 90 :=
  of_decide_eq_true h

theorem toNat_of_isLower {c : Char} (h : c.isLower = true) : 97 ≤ c.toNat ∧ c.toNat ≤ 122 := by
  obtain ⟨hleast, hmost⟩ := Bool.and_eq_true_iff.mp h
  exact ⟨of_decide_eq_true hleast, of_decide_eq_true hmost⟩

theorem toNat_of_isDigit {c : Char} (h : c.isDigit = true) : 48 ≤ c.toNat ∧ c.toNat ≤ 57 := by
  obtain ⟨hleast, hmost⟩ := Bool.and_eq_true_iff.mp h
  exact ⟨of_decide_eq_true hleast, of_decide_eq_true hmost⟩

theorem toNat_of_isAlpha {c : Char} (h : c.isAlpha = true) :
    (65 ≤ c.toNat ∧ c.toNat ≤ 90) ∨ (97 ≤ c.toNat ∧ c.toNat ≤ 122) := by
  rcases Bool.or_eq_true_iff.mp h with hc | hc
  · exact Or.inl (toNat_of_isUpper hc)
  · exact Or.inr (toNat_of_isLower hc)

theorem isBlank_eq_false_of_isAlphanum {c : Char} (h : c.isAlphanum = true) : isBlank c = false := by
  have hrange : ((65 ≤ c.toNat ∧ c.toNat ≤ 90) ∨ (97 ≤ c.toNat ∧ c.toNat ≤ 122)) ∨ (48 ≤ c.toNat ∧ c.toNat ≤ 57) := by
    rcases Bool.or_eq_true_iff.mp h with hc | hc
    · exact Or.inl (toNat_of_isAlpha hc)
    · exact Or.inr (toNat_of_isDigit hc)
  simp only [isBlank, List.any_eq_false, blankRanges, List.forall_mem_cons, Bool.and_eq_true, decide_eq_true_eq]
  refine ⟨?_, ?_, ?_, ?_, ?_, ?_, ?_, ?_, ?_, ?_, by simp⟩ <;> omega

/-- No token goes on with a blank. -/
theorem TokenKind.goesOnWith_of_isBlank {c : Char} (h : isBlank c = true) (kind : TokenKind) :
    kind.goesOnWith c = false := by
  have hword : c.isAlphanum = false := by
    rw [Bool.eq_false_iff]
    intro halnum
    rw [isBlank_eq_false_of_isAlphanum halnum] at h
    cases h
  have hother {d : Char} (hd : isBlank d = false) : c ≠ d := by
    rintro rfl
    rw [hd] at h
    cases h
  have hdigit : c.isDigit = false := (Bool.or_eq_false_iff.mp hword).2
  have hunderscore := hother (show isBlank '_' = false by decide)
  have hequals := hother (show isBlank '=' = false by decide)
  have hslash := hother (show isBlank '/' = false by decide)
  have hquestion := hother (show isBlank '?' = false by decide)
  cases kind <;> simp [goesOnWith, Pattern.isWordChar, hword, hdigit, hunderscore, hequals, hslash, hquestion]

/-! ### A token in front of more text -/

section
variable {α : Type} {p : α → Bool} {front back : List α}

/-- What is taken to the last element is taken of a longer list too, as long as it stops behind. -/
theorem length_takeWhile_append_of_stop (hall : (front.takeWhile p).length = front.length)
    (hstop : ∀ x ∈ back.head?, p x = false) : ((front ++ back).takeWhile p).length = front.length := by
  rw [List.takeWhile_append, if_pos hall, takeWhile_eq_nil hstop, List.append_nil]

end

namespace Pattern
variable {pattern : Pattern} {lexeme rest : List Char} {kind : TokenKind} {count : Nat}

/-- A fixed text of two characters goes on with the token that its first character is. -/
theorem goesOnWith_of_fixed {c d : Char} (h : fixed [c, d] kind ∈ table) : (front [c]).1.goesOnWith d = true := by
  simp only [table, List.mem_cons, List.not_mem_nil, reduceCtorEq, fixed.injEq, List.cons.injEq, and_true, and_false,
    false_and, false_or, or_false] at h
  rcases h with ⟨⟨rfl, rfl⟩, -⟩ | ⟨⟨rfl, rfl⟩, -⟩ | ⟨⟨rfl, rfl⟩, -⟩ | ⟨⟨rfl, rfl⟩, -⟩ | ⟨⟨rfl, rfl⟩, -⟩ |
    ⟨⟨rfl, rfl⟩, -⟩ <;> decide

theorem fixed_length_le {text : List Char} (h : fixed text kind ∈ table) : text.length ≤ 2 := by
  have hall : ∀ pattern ∈ table, ∀ text kind, pattern = fixed text kind → text.length ≤ 2 := by
    simp only [table, List.forall_mem_cons]
    simp
  exact hall _ h text kind rfl

/-- A quotation mark is closed by the next one. -/
theorem quoted_length?_eq_none : quoted.length? ('"' :: rest) = none ↔ '"' ∉ rest := by
  have hclosed : (rest.takeWhile (· != '"')).length < rest.length ↔ '"' ∈ rest := by
    induction rest with
    | nil => simp
    | cons c rest ih =>
      by_cases hc : c = '"'
      · simp [hc]
      · simpa [hc, Ne.symm hc] using ih
  simp only [length?, true_and, ite_eq_right_iff, reduceCtorEq, imp_false, hclosed]

/-- A quotation mark that is not closed is a token of its own. -/
theorem front_quote (h : '"' ∉ rest) : front ('"' :: rest) = (.invalid, 1) := by
  rw [← quoted_length?_eq_none] at h
  have hnone : first? ('"' :: rest) = none := by
    rw [first?, List.findSome?_eq_none_iff]
    simp only [table, List.forall_mem_cons, h]
    simp [length?]
  rw [front, hnone]
  rfl

/-- A pattern that does not fit a lexeme does not fit it with more text behind it either. -/
theorem length?_append_eq_none (hpattern : pattern ∈ table) (hne : lexeme ≠ [])
    (hstop : ∀ c ∈ rest.head?, (front lexeme).1.goesOnWith c = false)
    (hquote : (front lexeme).1 = .invalid → '"' ∈ lexeme → '"' ∉ rest) (h : pattern.length? lexeme = none) :
    pattern.length? (lexeme ++ rest) = none := by
  obtain ⟨c, text, rfl⟩ := List.exists_cons_of_ne_nil hne
  cases pattern with
  | digits =>
    have hdigit : c.isDigit = false := by
      rw [Bool.eq_false_iff]
      intro hdigit
      simp [length?, hdigit] at h
    simp [length?, hdigit]
  | word => simpa [length?] using h
  | quoted =>
    by_cases hc : c = '"'
    · subst hc
      -- The mark is open in the lexeme, so it is an invalid token and nothing behind it closes it.
      rw [quoted_length?_eq_none] at h
      have hrest := hquote (by rw [front_quote h]) (List.mem_cons_self ..)
      rw [List.cons_append, quoted_length?_eq_none, List.mem_append, not_or]
      exact ⟨h, hrest⟩
    · simp [length?, hc]
  | fixed other k =>
    simp only [length?, ite_eq_right_iff, reduceCtorEq, imp_false, List.isPrefixOf_iff_prefix] at h ⊢
    intro hprefix
    rcases List.prefix_or_prefix_of_prefix hprefix (List.prefix_append (c :: text) rest) with hfits | hlonger
    · exact h hfits
    · -- The fixed text is longer than the lexeme, so it has two characters and the lexeme is the first of them.
      obtain ⟨more, rfl⟩ := hlonger
      have hlength := fixed_length_le hpattern
      cases more with
      | nil => exact h (by simp)
      | cons d more =>
        simp only [List.length_append, List.length_cons] at hlength
        obtain rfl : text = [] := List.eq_nil_of_length_eq_zero (by omega)
        obtain rfl : more = [] := List.eq_nil_of_length_eq_zero (by omega)
        obtain ⟨after, hafter⟩ := hprefix
        have hhead : rest.head? = some d := by
          rw [List.append_assoc, List.append_cancel_left_eq] at hafter
          rw [← hafter]
          rfl
        have hgoes := goesOnWith_of_fixed hpattern
        rw [hstop d hhead] at hgoes
        cases hgoes

/-- A pattern that fits a lexeme fits just as much of it with more text behind it. -/
theorem length?_append_of_stop (hpattern : pattern ∈ table)
    (hstop : ∀ c ∈ rest.head?, (pattern.kind lexeme).goesOnWith c = false)
    (h : pattern.length? lexeme = some lexeme.length) : pattern.length? (lexeme ++ rest) = some lexeme.length := by
  have hpos := length?_pos hpattern h
  cases pattern with
  | digits =>
    simp only [length?] at h ⊢
    split at h
    · cases h
    · rw [length_takeWhile_append_of_stop (Option.some.inj h) hstop, if_neg (Nat.ne_of_gt hpos)]
  | word =>
    cases lexeme with
    | nil => cases h
    | cons c text =>
      have hword : ∀ d ∈ rest.head?, isWordChar d = false := by
        intro d hd
        rcases word_kind (c :: text) with hk | hk
        · simpa [hk, TokenKind.goesOnWith] using hstop d hd
        · simpa [hk, TokenKind.goesOnWith] using hstop d hd
      simp only [length?, List.cons_append] at h ⊢
      split at h
      · rename_i hletter
        have hall : (text.takeWhile isWordChar).length = text.length := by simpa using h
        rw [if_pos hletter, length_takeWhile_append_of_stop hall hword, List.length_cons]
      · cases h
  | quoted =>
    cases lexeme with
    | nil => cases h
    | cons c text =>
      simp only [length?, List.cons_append] at h ⊢
      split at h
      · rename_i hclosed
        have hinside := hclosed.2
        have hsame : (text ++ rest).takeWhile (· != '"') = text.takeWhile (· != '"') := by
          rw [List.takeWhile_append, if_neg (Nat.ne_of_lt hinside)]
        rw [hsame, if_pos ⟨hclosed.1, by rw [List.length_append]; omega⟩]
        exact h
      · cases h
  | fixed other k =>
    simp only [length?] at h ⊢
    split at h
    · rename_i hfits
      rw [List.isPrefixOf_iff_prefix] at hfits
      rw [if_pos (List.isPrefixOf_iff_prefix.mpr (hfits.trans (List.prefix_append lexeme rest)))]
      exact h
    · cases h

/-- A lexeme is found again at the front of a longer text, unless that goes on with it or closes a quotation. -/
theorem front_append (h : front lexeme = (kind, lexeme.length)) (hne : lexeme ≠ [])
    (hstop : ∀ c ∈ rest.head?, kind.goesOnWith c = false) (hquote : kind = .invalid → '"' ∈ lexeme → '"' ∉ rest) :
    front (lexeme ++ rest) = (kind, lexeme.length) := by
  have hnone {pattern : Pattern} (hm : pattern ∈ table) (hno : pattern.length? lexeme = none) :
      pattern.length? (lexeme ++ rest) = none := by
    refine length?_append_eq_none hm hne ?_ ?_ hno
    · rw [h]
      exact hstop
    · rw [h]
      exact hquote
  rw [front] at h ⊢
  cases hfirst : first? lexeme with
  | none =>
    have hall : first? (lexeme ++ rest) = none := by
      rw [first?, List.findSome?_eq_none_iff] at hfirst ⊢
      intro pattern hm
      rw [Option.map_eq_none_iff]
      exact hnone hm (Option.map_eq_none_iff.mp (hfirst pattern hm))
    rw [hfirst] at h
    rw [hall, ← h]
  | some found =>
    rw [hfirst] at h
    cases h
    obtain ⟨before, pattern, after, htable, hfits, hearlier⟩ := List.findSome?_eq_some_iff.mp hfirst
    obtain ⟨n, hcount, hfound⟩ := Option.map_eq_some_iff.mp hfits
    cases hfound
    rw [List.take_length] at hstop
    have hm : pattern ∈ table := by simp [htable]
    have hsame : first? (lexeme ++ rest) = some (pattern.kind (lexeme.take lexeme.length), lexeme.length) := by
      refine List.findSome?_eq_some_iff.mpr ⟨before, pattern, after, htable, ?_, fun other hother => ?_⟩
      · rw [length?_append_of_stop hm hstop hcount, Option.map_some, List.take_append_of_le_length (Nat.le_refl _)]
      · rw [Option.map_eq_none_iff]
        exact hnone (by simp [htable, hother]) (Option.map_eq_none_iff.mp (hearlier other hother))
    rw [hsame]
    rfl

/-- Behind a quotation mark that is an invalid token there is no other one. -/
theorem not_mem_of_front_invalid (h : front (lexeme ++ rest) = (.invalid, lexeme.length)) (hm : '"' ∈ lexeme) :
    '"' ∉ rest := by
  rw [front] at h
  cases hfirst : first? (lexeme ++ rest) with
  | some found =>
    rw [hfirst] at h
    cases h
    exact absurd rfl (first?_kind hfirst).2
  | none =>
    rw [hfirst] at h
    have hlength : lexeme.length = 1 := (Prod.mk.inj h).2.symm
    obtain ⟨c, rfl⟩ := List.length_eq_one_iff.mp hlength
    obtain rfl := List.mem_singleton.mp hm
    rw [first?, List.findSome?_eq_none_iff] at hfirst
    rw [← quoted_length?_eq_none]
    exact Option.map_eq_none_iff.mp (hfirst quoted (by simp [table]))

end Pattern

/-! ### Lexemes -/

/-- A text that is all of one token. -/
structure Lexeme (kind : TokenKind) (text : List Char) : Prop where
  first : ∃ c ∈ text.head?, isBlank c = false
  front : Pattern.front text = (kind, text.length)

theorem lexeme_iff {kind : TokenKind} {text : List Char} : Lexeme kind text ↔
    (text.head?.any fun c => !isBlank c) = true ∧ Pattern.front text = (kind, text.length) := by
  rw [Option.any_eq_true]
  constructor
  · rintro ⟨⟨c, hc, hblank⟩, hfront⟩
    exact ⟨⟨c, hc, by simp [hblank]⟩, hfront⟩
  · rintro ⟨⟨c, hc, hblank⟩, hfront⟩
    exact ⟨⟨c, hc, by simpa using hblank⟩, hfront⟩

instance (kind : TokenKind) (text : List Char) : Decidable (Lexeme kind text) :=
  decidable_of_iff _ lexeme_iff.symm

theorem Lexeme.ne_nil {kind : TokenKind} {text : List Char} (h : Lexeme kind text) : text ≠ [] := by
  obtain ⟨c, hc, -⟩ := h.first
  rintro rfl
  cases hc

/-- The texts of scanned tokens are lexemes. -/
theorem Scans.lexeme {text : List Char} {offset : Nat} {position : Position} {tokens : List Token}
    (h : Scans text offset position tokens) : ∀ token ∈ tokens, Lexeme token.kind token.text.toList := by
  induction h with
  | blank _ => simp
  | token _ hfirst hfront _ ih =>
    refine List.forall_mem_cons.mpr ⟨?_, ih⟩
    simp only [String.toList_ofList]
    exact ⟨hfirst, Pattern.front_of_append hfront (Nat.le_refl _)⟩

theorem scan_lexeme (source : String) :
    ∀ token ∈ (scan source).1.tokens.toList, Lexeme token.kind token.text.toList :=
  (scan_eq_iff.mp rfl).lexeme

/-- The kinds and texts of the tokens that a text is scanned as. -/
def Lexes (text : List Char) (faces : List (TokenKind × String)) : Prop :=
  ∃ tokens, Scans text 0 {} tokens ∧ tokens.map Token.face = faces

theorem scan_faces_eq_iff {source : String} {faces : List (TokenKind × String)} :
    (scan source).1.tokens.toList.map Token.face = faces ↔ Lexes source.toList faces := by
  constructor
  · rintro rfl
    exact ⟨_, scan_eq_iff.mp rfl, rfl⟩
  · rintro ⟨tokens, hscans, rfl⟩
    rw [scan_eq_iff.mpr hscans]

namespace Lexes
variable {gap lexeme rest : List Char} {kind : TokenKind} {faces : List (TokenKind × String)}

theorem blank (hgap : ∀ c ∈ gap, isBlank c = true) : Lexes gap [] :=
  ⟨[], .blank hgap, rfl⟩

/-- Blanks in front of a text do not change its tokens. -/
theorem after_blanks (hgap : ∀ c ∈ gap, isBlank c = true) (h : Lexes rest faces) : Lexes (gap ++ rest) faces := by
  obtain ⟨tokens, hscans, rfl⟩ := h
  cases hscans with
  | blank hblank => exact blank (List.forall_mem_append.mpr ⟨hgap, hblank⟩)
  | token hgap' hfirst hfront hrest =>
    obtain ⟨others, hothers, hfaces⟩ := hrest.elsewhere _ _
    rw [← List.append_assoc]
    exact ⟨_, .token (List.forall_mem_append.mpr ⟨hgap, hgap'⟩) hfirst hfront hothers, by simp [hfaces, Token.face]⟩

/-- A lexeme in front of a text that does not go on with it. -/
theorem cons (hlexeme : Lexeme kind lexeme) (hstop : ∀ c ∈ rest.head?, kind.goesOnWith c = false)
    (hquote : kind = .invalid → '"' ∈ lexeme → '"' ∉ rest) (h : Lexes rest faces) :
    Lexes (lexeme ++ rest) ((kind, String.ofList lexeme) :: faces) := by
  obtain ⟨tokens, hscans, rfl⟩ := h
  obtain ⟨others, hothers, hfaces⟩ := hscans.elsewhere _ _
  have hfront := Pattern.front_append hlexeme.front hlexeme.ne_nil hstop hquote
  exact ⟨_, @Scans.token [] lexeme rest kind 0 {} others (by simp) hlexeme.first hfront hothers,
    by simp [hfaces, Token.face]⟩

end Lexes

end ExprReader
