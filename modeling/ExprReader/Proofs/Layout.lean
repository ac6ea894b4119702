import ExprReader.Proofs.Scanning

/-! # How a text is laid out in tokens

`Scans text offset position tokens` says that a text that stands at an offset and a position is made of the
texts of `tokens`, with blanks before, between and after them. The relation is the graph of the scanner
(`scan_eq_iff`), and it is the better side to argue on: a text can be cut before and after a token, and the
tokens of the part are those of the whole. -/

namespace ExprReader

/-! ### Cutting a text behind a token -/

section
variable {α : Type} (p : α → Bool) {front back : List α}

theorem length_takeWhile_append_le (front back : List α) :
    (front.takeWhile p).length ≤ ((front ++ back).takeWhile p).length := by
  rw [List.takeWhile_append]
  split
  · rename_i hall
    rw [hall, List.length_append]
    exact Nat.le_add_right ..
  · exact Nat.le_refl _

variable {p}

/-- What is taken of a text does not depend on what comes after it, if it ends within the text. -/
theorem length_takeWhile_of_append (h : ((front ++ back).takeWhile p).length ≤ front.length) :
    (front.takeWhile p).length = ((front ++ back).takeWhile p).length := by
  rw [List.takeWhile_append] at h ⊢
  split
  · rename_i hall
    rw [if_pos hall, List.length_append] at h
    rw [hall, List.length_append]
    omega
  · rfl

theorem takeWhile_eq_nil (hstop : ∀ x ∈ back.head?, p x = false) : back.takeWhile p = [] := by
  cases back with
  | nil => rfl
  | cons x back => simp [hstop x rfl]

/-- A list is taken as a whole up to where the next element stops it. -/
theorem takeWhile_append_of_stop (hfront : ∀ x ∈ front, p x = true) (hstop : ∀ x ∈ back.head?, p x = false) :
    (front ++ back).takeWhile p = front := by
  rw [List.takeWhile_append_of_pos hfront, takeWhile_eq_nil hstop, List.append_nil]

end

namespace Pattern
variable {pattern : Pattern} {text back : List Char} {kind : TokenKind} {count : Nat}

theorem length?_le (h : pattern.length? text = some count) : count ≤ text.length := by
  have htake (p : Char → Bool) (l : List Char) : (l.takeWhile p).length ≤ l.length :=
    (List.takeWhile_prefix p).length_le
  cases pattern with
  | digits =>
    simp only [length?] at h
    split at h
    · cases h
    · cases h
      exact htake ..
  | word =>
    cases text with
    | nil => cases h
    | cons c text =>
      simp only [length?] at h
      split at h
      · cases h
        exact Nat.succ_le_succ (htake ..)
      · cases h
  | quoted =>
    cases text with
    | nil => cases h
    | cons c text =>
      simp only [length?] at h
      split at h
      · rename_i hclosed
        cases h
        exact Nat.succ_le_succ hclosed.2
      · cases h
  | fixed front kind =>
    simp only [length?] at h
    split at h
    · rename_i hfront
      cases h
      exact (List.isPrefixOf_iff_prefix.mp hfront).length_le
    · cases h

/-- A pattern that fits a text fits it with more text behind it. -/
theorem length?_append_ne_none (h : pattern.length? text ≠ none) : pattern.length? (text ++ back) ≠ none := by
  cases pattern with
  | digits =>
    have hle := length_takeWhile_append_le Char.isDigit text back
    simp only [length?, ne_eq, ite_eq_left_iff, reduceCtorEq, Classical.not_imp, not_false_eq_true, and_true] at h ⊢
    omega
  | word =>
    cases text with
    | nil => exact absurd rfl h
    | cons c text => simpa [length?] using h
  | quoted =>
    cases text with
    | nil => exact absurd rfl h
    | cons c text =>
      simp only [length?, List.cons_append, List.length_append, ne_eq, ite_eq_right_iff, reduceCtorEq,
        Classical.not_imp, not_false_eq_true, and_true] at h ⊢
      refine ⟨h.1, ?_⟩
      rw [List.takeWhile_append, if_neg (Nat.ne_of_lt h.2)]
      exact Nat.lt_add_right _ h.2
  | fixed front kind =>
    simp only [length?, ne_eq, ite_eq_right_iff, reduceCtorEq, Classical.not_imp, not_false_eq_true, and_true,
      List.isPrefixOf_iff_prefix] at h ⊢
    exact h.trans (List.prefix_append text back)

/-- A pattern fits as much of a text as it fits with more text behind it, if that ends within the text. -/
theorem length?_of_append (h : pattern.length? (text ++ back) = some count) (hle : count ≤ text.length) :
    pattern.length? text = some count := by
  cases pattern with
  | digits =>
    simp only [length?] at h ⊢
    split at h
    · cases h
    · rename_i hsome
      cases h
      rw [length_takeWhile_of_append hle, if_neg hsome]
  | word =>
    have hpos := length?_pos (show word ∈ table by simp [table]) h
    cases text with
    | nil => exact absurd hle (Nat.not_le.mpr hpos)
    | cons c text =>
      simp only [length?, List.cons_append] at h ⊢
      split at h
      · rename_i hletter
        cases h
        rw [if_pos hletter, length_takeWhile_of_append (Nat.le_of_succ_le_succ hle)]
      · cases h
  | quoted =>
    have hpos := length?_pos (show quoted ∈ table by simp [table]) h
    cases text with
    | nil => exact absurd hle (Nat.not_le.mpr hpos)
    | cons c text =>
      simp only [length?, List.cons_append] at h ⊢
      split at h
      · rename_i hclosed
        cases h
        have hlt := Nat.le_of_succ_le_succ hle
        rw [length_takeWhile_of_append (Nat.le_of_lt hlt), if_pos ⟨hclosed.1, hlt⟩]
      · cases h
  | fixed front kind =>
    simp only [length?] at h ⊢
    split at h
    · rename_i hfront
      cases h
      rw [List.isPrefixOf_iff_prefix] at hfront
      rw [if_pos (List.isPrefixOf_iff_prefix.mpr
        (List.prefix_of_prefix_length_le hfront (List.prefix_append text back) hle))]
    · cases h

/-- The kind and the number of characters of the token at the front of a text. A character that no pattern fits
is a token of its own. -/
def front (text : List Char) : TokenKind × Nat :=
  (first? text).getD (.invalid, 1)

theorem front_pos (text : List Char) : 0 < (front text).2 := by
  unfold front
  cases h : first? text with
  | none => exact Nat.one_pos
  | some found => exact first?_pos h

theorem front_le (h : text ≠ []) : (front text).2 ≤ text.length := by
  unfold front
  cases hfirst : first? text with
  | none => exact List.length_pos_iff.mpr h
  | some found =>
    obtain ⟨pattern, -, hfits⟩ := List.exists_of_findSome?_eq_some hfirst
    obtain ⟨count, hcount, rfl⟩ := Option.map_eq_some_iff.mp hfits
    exact length?_le hcount

/-- The token at the front of a text is found again when the text is cut behind it. -/
theorem front_of_append (h : front (text ++ back) = (kind, count)) (hle : count ≤ text.length) :
    front text = (kind, count) := by
  have hnone {pattern : Pattern} : pattern.length? (text ++ back) = none → pattern.length? text = none := by
    intro hno
    cases hfits : pattern.length? text with
    | none => rfl
    | some n => exact absurd hno (length?_append_ne_none (by simp [hfits]))
  unfold front at h ⊢
  cases hfirst : first? (text ++ back) with
  | none =>
    have hall : first? text = none := by
      rw [first?, List.findSome?_eq_none_iff] at hfirst ⊢
      intro pattern hm
      rw [Option.map_eq_none_iff]
      exact hnone (Option.map_eq_none_iff.mp (hfirst pattern hm))
    rw [hfirst] at h
    rw [hall, ← h]
  | some found =>
    rw [hfirst] at h
    cases h
    -- No pattern before the one that fits begins to fit, and that one fits as much as before.
    obtain ⟨before, pattern, after, htable, hfits, hearlier⟩ := List.findSome?_eq_some_iff.mp hfirst
    obtain ⟨n, hcount, hfound⟩ := Option.map_eq_some_iff.mp hfits
    cases hfound
    have hsame : first? text = some (pattern.kind ((text ++ back).take count), count) := by
      refine List.findSome?_eq_some_iff.mpr ⟨before, pattern, after, htable, ?_, fun other hm => ?_⟩
      · rw [length?_of_append hcount hle, List.take_append_of_le_length hle]
        rfl
      · rw [Option.map_eq_none_iff]
        exact hnone (Option.map_eq_none_iff.mp (hearlier other hm))
    rw [hsame]
    rfl

end Pattern

/-! ### Texts and their tokens -/

/-- A text at an offset and a position, cut into tokens. -/
inductive Scans : List Char → Nat → Position → List Token → Prop where
  | blank {text offset position} : (∀ c ∈ text, isBlank c = true) → Scans text offset position []
  | token {gap lexeme rest kind offset position tokens} : (∀ c ∈ gap, isBlank c = true) →
      (∃ c ∈ lexeme.head?, isBlank c = false) → Pattern.front (lexeme ++ rest) = (kind, lexeme.length) →
      Scans rest (offset + byteLength gap + byteLength lexeme) ((position.after gap).after lexeme) tokens →
      Scans (gap ++ (lexeme ++ rest)) offset position
        (⟨kind, String.ofList lexeme, offset + byteLength gap, position.after gap⟩ :: tokens)

namespace Scanner
variable {scanner : Scanner} {gap lexeme rest : List Char} {kind : TokenKind}

theorem skipBlanks_eq (hrest : scanner.rest = gap ++ rest) (hgap : ∀ c ∈ gap, isBlank c = true)
    (hstop : ∀ c ∈ rest.head?, isBlank c = false) :
    scanner.skipBlanks = { scanner with
      rest := rest, offset := scanner.offset + byteLength gap, position := scanner.position.after gap } := by
  rw [skipBlanks, hrest, takeWhile_append_of_stop hgap hstop, skip, hrest]
  simp

theorem lexeme_eq_cut (scanner : Scanner) :
    ∃ reports, scanner.lexeme = ((scanner.cut (Pattern.front scanner.rest).1 (Pattern.front scanner.rest).2).1,
      { scanner.skip (Pattern.front scanner.rest).2 with diagnostics := reports }) := by
  unfold lexeme Pattern.front
  cases Pattern.first? scanner.rest with
  | none => exact ⟨_, rfl⟩
  | some found => exact ⟨_, rfl⟩

theorem step_finished_of_blank (hblank : ∀ c ∈ scanner.rest, isBlank c = true) :
    scanner.step.2.finished = true := by
  have hskip := skipBlanks_eq (List.append_nil scanner.rest).symm hblank (by simp)
  rw [step, hskip]
  rfl

/-- A step that finds a token. -/
theorem step_token (hrest : scanner.rest = gap ++ (lexeme ++ rest)) (hgap : ∀ c ∈ gap, isBlank c = true)
    (hfirst : ∃ c ∈ lexeme.head?, isBlank c = false)
    (hfront : Pattern.front (lexeme ++ rest) = (kind, lexeme.length)) :
    scanner.step.1 = ⟨kind, String.ofList lexeme, scanner.offset + byteLength gap, scanner.position.after gap⟩ ∧
      scanner.step.2.rest = rest ∧ scanner.step.2.finished = scanner.finished ∧
      scanner.step.2.offset = scanner.offset + byteLength gap + byteLength lexeme ∧
      scanner.step.2.position = (scanner.position.after gap).after lexeme := by
  obtain ⟨c, hc, hblank⟩ := hfirst
  have hne : lexeme ≠ [] := by
    rintro rfl
    cases hc
  have hhead : (lexeme ++ rest).head? = some c := by
    rw [List.head?_append, hc]
    rfl
  have hskip := skipBlanks_eq hrest hgap (by rw [hhead]; rintro _ ⟨⟩; exact hblank)
  have hnotEnd : scanner.skipBlanks.atEnd = false := by simp [hskip, atEnd, hne]
  obtain ⟨reports, hlexeme⟩ := scanner.skipBlanks.lexeme_eq_cut
  have hfront' : Pattern.front scanner.skipBlanks.rest = (kind, lexeme.length) := by rw [hskip, hfront]
  rw [hfront'] at hlexeme
  have hstep : scanner.step = scanner.skipBlanks.lexeme := by simp [step, hnotEnd]
  rw [hstep, hlexeme, hskip]
  simp [cut, skip]

end Scanner

namespace Scans
variable {text : List Char} {offset : Nat} {position : Position} {tokens : List Token}

/-- A derivation computes the scanner. -/
theorem tokens_eq (h : Scans text offset position tokens) {scanner : Scanner} (hrest : scanner.rest = text)
    (hoffset : scanner.offset = offset) (hposition : scanner.position = position)
    (hf : scanner.finished = false) : scanner.tokens.1 = tokens := by
  induction h generalizing scanner with
  | blank hblank =>
    rw [Scanner.tokens, if_pos (Scanner.step_finished_of_blank (hrest ▸ hblank))]
  | token hgap hfirst hfront _ ih =>
    obtain ⟨htoken, hrest', hf', hoffset', hposition'⟩ := Scanner.step_token hrest hgap hfirst hfront
    rw [hf] at hf'
    rw [hoffset, hposition] at htoken
    rw [hoffset] at hoffset'
    rw [hposition] at hposition'
    rw [Scanner.tokens, if_neg (by simp [hf'])]
    simp only [htoken, ih hrest' hoffset' hposition' hf']

/-- Every text can be cut into tokens. -/
theorem exists_tokens (text : List Char) (offset : Nat) (position : Position) :
    ∃ tokens, Scans text offset position tokens := by
  cases hfind : text.find? (!isBlank ·) with
  | none =>
    rw [List.find?_eq_none] at hfind
    exact ⟨[], .blank (by simpa using hfind)⟩
  | some c =>
    obtain ⟨hc, gap, after, htext, hgap⟩ := List.find?_eq_some_iff_append.mp hfind
    have hpos := Pattern.front_pos (c :: after)
    have hlength : ((c :: after).take (Pattern.front (c :: after)).2).length = (Pattern.front (c :: after)).2 :=
      List.length_take_of_le (Pattern.front_le (List.cons_ne_nil c after))
    have hshorter : ((c :: after).drop (Pattern.front (c :: after)).2).length < text.length := by
      rw [List.length_drop, htext, List.length_append, List.length_cons]
      omega
    obtain ⟨tokens, hrest⟩ := exists_tokens ((c :: after).drop (Pattern.front (c :: after)).2)
      (offset + byteLength gap + byteLength ((c :: after).take (Pattern.front (c :: after)).2))
      ((position.after gap).after ((c :: after).take (Pattern.front (c :: after)).2))
    have hfirst : ∃ d ∈ ((c :: after).take (Pattern.front (c :: after)).2).head?, isBlank d = false :=
      ⟨c, by rw [List.head?_take, if_neg (Nat.ne_of_gt hpos)]; rfl, by simpa using hc⟩
    have hscans := Scans.token (by simpa using hgap) hfirst (by rw [List.take_append_drop, hlength]) hrest
    rw [List.take_append_drop, ← htext] at hscans
    exact ⟨_, hscans⟩
termination_by text.length
decreasing_by exact hshorter

end Scans

/-- The tokens of a source are those of the one derivation for its text. -/
theorem scan_eq_iff {source : String} {tokens : List Token} :
    (scan source).1.tokens.toList = tokens ↔ Scans source.toList 0 {} tokens := by
  have heq {found : List Token} (h : Scans source.toList 0 {} found) : (scan source).1.tokens.toList = found :=
    h.tokens_eq (show (Scanner.ofSource source).rest = source.toList from rfl) rfl rfl rfl
  constructor
  · rintro rfl
    obtain ⟨found, hfound⟩ := Scans.exists_tokens source.toList 0 {}
    rw [heq hfound]
    exact hfound
  · exact heq

/-! ### Parts of a text -/

/-- A token apart from its place. -/
def Token.face (token : Token) : TokenKind × String :=
  (token.kind, token.text)

namespace Scans
variable {text : List Char} {offset : Nat} {position : Position} {tokens : List Token}

theorem ordered (h : Scans text offset position tokens) :
    (∀ token ∈ tokens, offset ≤ token.start ∧ token.start < token.stop) ∧
      tokens.Pairwise fun first second => first.stop ≤ second.start := by
  induction h with
  | blank _ => exact ⟨by simp, .nil⟩
  | @token gap lexeme rest kind offset position tokens hgap hfirst _ _ ih =>
    obtain ⟨hplaces, hpairs⟩ := ih
    have hstop : (Token.mk kind (String.ofList lexeme) (offset + byteLength gap) (position.after gap)).stop =
        offset + byteLength gap + byteLength lexeme := by simp [Token.stop]
    have hpos : 0 < byteLength lexeme := by
      obtain ⟨c, hc, -⟩ := hfirst
      obtain ⟨others, rfl⟩ := List.head?_eq_some_iff.mp hc
      exact Nat.lt_of_lt_of_le c.utf8Size_pos (by simp)
    refine ⟨List.forall_mem_cons.mpr ⟨⟨Nat.le_add_right .., ?_⟩, fun token hm => ?_⟩, ?_⟩
    · rw [hstop]
      exact Nat.lt_add_of_pos_right hpos
    · exact ⟨by have := (hplaces token hm).1; omega, (hplaces token hm).2⟩
    · refine List.pairwise_cons.mpr ⟨fun token hm => ?_, hpairs⟩
      rw [hstop]
      exact (hplaces token hm).1

/-- The place of a text does not change its tokens but for their places. -/
theorem elsewhere (h : Scans text offset position tokens) (offset' : Nat) (position' : Position) :
    ∃ others, Scans text offset' position' others ∧ others.map Token.face = tokens.map Token.face := by
  induction h generalizing offset' position' with
  | blank hblank => exact ⟨[], .blank hblank, rfl⟩
  | token hgap hfirst hfront _ ih =>
    obtain ⟨others, hrest, hsame⟩ := ih (offset' + _ + _) ((position'.after _).after _)
    exact ⟨_, .token hgap hfirst hfront hrest, by simp [hsame, Token.face]⟩

/-- A text that starts at one of its tokens. -/
theorem drop {front : List Token} {token : Token} {back : List Token}
    (h : Scans text offset position (front ++ token :: back)) :
    ∃ before after, text = before ++ after ∧ offset + byteLength before = token.start ∧
      Scans after token.start token.position (token :: back) := by
  induction front generalizing text offset position with
  | nil =>
    cases h with
    | @token gap lexeme rest kind _ _ _ _ hfirst hfront hrest =>
      refine ⟨gap, lexeme ++ rest, rfl, rfl, ?_⟩
      exact @Scans.token [] lexeme rest kind _ _ back (by simp) hfirst hfront hrest
  | cons first front ih =>
    cases h with
    | @token gap lexeme rest _ _ _ _ _ _ _ hrest =>
      obtain ⟨before, after, rfl, hstart, hscans⟩ := ih hrest
      exact ⟨gap ++ (lexeme ++ before), after, by simp, by simp; omega, hscans⟩

/-- A text that stops at one of its tokens. -/
theorem take {front : List Token} {token : Token} {back : List Token}
    (h : Scans text offset position (front ++ token :: back)) :
    ∃ before after, text = before ++ after ∧ offset + byteLength before = token.stop ∧
      Scans before offset position (front ++ [token]) := by
  induction front generalizing text offset position with
  | nil =>
    cases h with
    | @token gap lexeme rest kind _ _ _ hgap hfirst hfront hrest =>
      refine ⟨gap ++ lexeme, rest, by simp, by simp [Token.stop, Nat.add_assoc], ?_⟩
      have hcut : Pattern.front (lexeme ++ []) = (kind, lexeme.length) :=
        Pattern.front_of_append (by simpa using hfront) (by simp)
      simpa using Scans.token hgap hfirst hcut (.blank (by simp))
  | cons first front ih =>
    cases h with
    | @token gap lexeme rest kind _ _ _ hgap hfirst hfront hrest =>
      obtain ⟨before, after, rfl, hstop, hscans⟩ := ih hrest
      refine ⟨gap ++ (lexeme ++ before), after, by simp, by simp; omega, ?_⟩
      have hcut : Pattern.front (lexeme ++ before) = (kind, lexeme.length) :=
        Pattern.front_of_append (by simpa using hfront) (by simp)
      exact Scans.token hgap hfirst hcut hscans

end Scans

end ExprReader
