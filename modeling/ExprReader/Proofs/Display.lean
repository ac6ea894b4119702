import ExprReader.Proofs.Lexemes
import ExprReader.Proofs.Slices
import ExprReader.Tree.Printer

/-! # Reading what is shown

An expression is shown with parentheses around every binary expression in it. Where no braces hold more than one
expression, the shown text is read as the expression with these parentheses: the texts of its tokens are shown as
they are or, where a kind has one text only, as that text, and no two of them run together. -/

namespace ExprReader

/-! ### Texts of kinds -/

namespace Pattern
variable {lexeme text : List Char} {kind : TokenKind}

/-- Each kind comes from one pattern. -/
theorem eq_of_kind_eq : ∀ p ∈ table, ∀ q ∈ table, p.kind [] = q.kind [] → p = q := by
  decide +kernel

/-- A token that is not invalid is all that a pattern fits. -/
theorem exists_of_front (h : front lexeme = (kind, lexeme.length)) (hk : kind ≠ .invalid) :
    ∃ pattern ∈ table, pattern.length? lexeme = some lexeme.length ∧ pattern.kind lexeme = kind := by
  rw [front] at h
  cases hfirst : first? lexeme with
  | none =>
    rw [hfirst] at h
    exact absurd (Prod.mk.inj h).1.symm hk
  | some found =>
    rw [hfirst] at h
    cases h
    obtain ⟨pattern, member, fits⟩ := List.exists_of_findSome?_eq_some hfirst
    obtain ⟨count, hcount, hfound⟩ := Option.map_eq_some_iff.mp fits
    cases hfound
    exact ⟨pattern, member, hcount, by rw [List.take_length]⟩

end Pattern

namespace Lexeme
variable {lexeme text : List Char} {kind : TokenKind}

/-- All tokens of a fixed kind have its text. -/
theorem eq_of_fixed (h : Lexeme kind lexeme) (hfixed : .fixed text kind ∈ Pattern.table) : lexeme = text := by
  have hk : kind ≠ .invalid := by
    rintro rfl
    simp [Pattern.table] at hfixed
  obtain ⟨pattern, member, hcount, hkind⟩ := Pattern.exists_of_front h.front hk
  cases pattern with
  | digits => cases Pattern.eq_of_kind_eq _ member _ hfixed hkind
  | word =>
    rcases Pattern.word_kind lexeme with hword | hword
    · rw [← hkind, hword] at hfixed
      simp [Pattern.table] at hfixed
    · cases Pattern.eq_of_kind_eq _ member _ hfixed (hword.symm.trans hkind)
  | quoted => cases Pattern.eq_of_kind_eq _ member _ hfixed hkind
  | fixed other k =>
    cases Pattern.eq_of_kind_eq _ member _ hfixed hkind
    simp only [Pattern.length?] at hcount
    split at hcount
    · rename_i hprefix
      exact ((List.isPrefixOf_iff_prefix.mp hprefix).eq_of_length (Option.some.inj hcount)).symm
    · cases hcount

/-- The reserved word is the only one of its kind. -/
theorem eq_of_function (h : Lexeme .function lexeme) : lexeme = "function".toList := by
  obtain ⟨pattern, member, hcount, hkind⟩ := Pattern.exists_of_front h.front (by decide)
  cases pattern with
  | digits => cases hkind
  | word =>
    simp only [Pattern.kind, TokenKind.reserved?, TokenKind.reservedWords, List.lookup_cons, List.lookup_nil] at hkind
    split at hkind
    · rename_i hword
      rw [← String.toList_ofList (l := lexeme), beq_iff_eq.mp hword]
    · cases hkind
  | quoted => cases hkind
  | fixed other k =>
    rw [Pattern.kind] at hkind
    rw [hkind] at member
    simp [Pattern.table] at member

end Lexeme

/-- A text that begins with `=` is scanned as an operator first. -/
theorem Pattern.front_equals (text : List Char) :
    (front ('=' :: text)).1 = .equals ∨ (front ('=' :: text)).1 = .doubleEquals := by
  cases text with
  | nil => exact Or.inl (by decide)
  | cons c text =>
    by_cases hc : c = '='
    · exact Or.inr (by simp [front, first?, table, length?, kind, hc])
    · exact Or.inl (by simp [front, first?, table, length?, kind, Ne.symm hc])

/-- Of the unary operators only one goes on, and only with `=`. -/
theorem TokenKind.goesOnWith_of_isUnaryOperator {kind : TokenKind} {c : Char} (h : kind.isUnaryOperator = true)
    (hc : c ≠ '=') : kind.goesOnWith c = false := by
  cases kind <;> simp_all [isUnaryOperator, goesOnWith]

/-! ### Putting a text together -/

/-- Whether every token ends in front of a text. -/
def EndsToken (text : List Char) : Prop :=
  ∀ c ∈ text.head?, ∀ kind : TokenKind, kind.goesOnWith c = false

theorem endsToken_nil : EndsToken [] := by
  simp [EndsToken]

theorem endsToken_space (text : List Char) : EndsToken (' ' :: text) := by
  rintro _ ⟨⟩
  exact TokenKind.goesOnWith_of_isBlank (by decide)

theorem endsToken_of_mem {c : Char} (h : c ∈ ['(', ')', ',', ':']) (text : List Char) : EndsToken (c :: text) := by
  rintro _ ⟨⟩ kind
  simp only [List.mem_cons, List.not_mem_nil, or_false] at h
  rcases h with rfl | rfl | rfl | rfl <;> cases kind <;> decide

namespace Lexes
variable {text rest : List Char} {kind : TokenKind} {faces : List (TokenKind × String)}

theorem space (h : Lexes rest faces) : Lexes (' ' :: rest) faces :=
  show Lexes ([' '] ++ rest) faces from after_blanks (List.forall_mem_singleton.mpr (by decide)) h

/-- A character that is a token of a kind which goes on with nothing. -/
theorem mark (h : Lexes rest faces) {c : Char} (hmark : Lexeme kind [c])
    (hk : ∀ d, kind.goesOnWith d = false) : Lexes (c :: rest) ((kind, String.ofList [c]) :: faces) := by
  have hvalid : kind ≠ .invalid := by
    rintro rfl
    exact absurd (hk '/') (by decide)
  exact cons hmark (fun d _ => hk d) (fun hinvalid => absurd hinvalid hvalid) h

theorem openParen (h : Lexes rest faces) : Lexes ('(' :: rest) ((.openParen, String.ofList ['(']) :: faces) :=
  h.mark (by decide) fun _ => rfl

theorem closeParen (h : Lexes rest faces) : Lexes (')' :: rest) ((.closeParen, String.ofList [')']) :: faces) :=
  h.mark (by decide) fun _ => rfl

theorem openCurly (h : Lexes rest faces) :
    Lexes ('\x7b' :: rest) ((.openCurly, String.ofList ['\x7b']) :: faces) :=
  h.mark (by decide) fun _ => rfl

theorem closeCurly (h : Lexes rest faces) :
    Lexes ('\x7d' :: rest) ((.closeCurly, String.ofList ['\x7d']) :: faces) :=
  h.mark (by decide) fun _ => rfl

theorem comma (h : Lexes rest faces) : Lexes (',' :: rest) ((.comma, String.ofList [',']) :: faces) :=
  h.mark (by decide) fun _ => rfl

theorem colon (h : Lexes rest faces) : Lexes (':' :: rest) ((.colon, String.ofList [':']) :: faces) :=
  h.mark (by decide) fun _ => rfl

/-- A token in front of a text where every token ends. -/
theorem token (h : Lexes rest faces) {token : Token} (htoken : Lexeme token.kind token.text.toList)
    (hvalid : token.kind ≠ .invalid) (hends : EndsToken rest) :
    Lexes (token.text.toList ++ rest) (token.face :: faces) := by
  have hlexes := cons htoken (fun c hc => hends c hc token.kind) (fun hinvalid => absurd hinvalid hvalid) h
  rwa [String.ofList_toList] at hlexes

/-- No text whose first token begins an expression starts with `=`. -/
theorem head_ne_equals {face : TokenKind × String} (h : Lexes text (face :: faces))
    (hk : Rules.standard.startsExpression face.1 = true) : ∀ c ∈ text.head?, c ≠ '=' := by
  rintro c hc rfl
  obtain ⟨more, rfl⟩ := List.head?_eq_some_iff.mp hc
  obtain ⟨tokens, hscans, hfaces⟩ := h
  generalize htext : '=' :: more = text at hscans
  cases hscans with
  | blank _ => cases hfaces
  | @token gap lexeme rest kind _ _ tokens hgap _ hfront _ =>
    cases gap with
    | cons d gap =>
      cases htext
      exact absurd (hgap '=' (List.mem_cons_self ..)) (by decide)
    | nil =>
      rw [List.nil_append] at htext
      obtain rfl : face.1 = kind := congrArg Prod.fst (List.cons.inj hfaces).1.symm
      have hoperator := Pattern.front_equals more
      rw [htext, hfront] at hoperator
      rcases hoperator with heq | heq
      · exact absurd hk (by rw [heq]; decide)
      · exact absurd hk (by rw [heq]; decide)

end Lexes

/-! ### Parentheses around binary expressions -/

namespace Expr

mutual

/-- An expression with parentheses around every binary expression in it. -/
def parenthesized : Expr → Expr
  | .literal token => .literal token
  | .identifier token => .identifier token
  | .unary operator none => .unary operator none
  | .unary operator (some operand) => .unary operator (some operand.parenthesized)
  | .binary left operator right =>
    .parenthesis ⟨.openParen, "(", 0, {}⟩ (some (.binary left.parenthesized operator right.parenthesized))
      (some ⟨.closeParen, ")", 0, {}⟩)
  | .parenthesis opening none closing => .parenthesis opening none closing
  | .parenthesis opening (some inner) closing => .parenthesis opening (some inner.parenthesized) closing
  | .block ⟨opening, expressions, closing⟩ => .block ⟨opening, parenthesizedAll expressions, closing⟩
  | .function keyword name parameters none => .function keyword name parameters none
  | .function keyword name parameters (some ⟨opening, expressions, closing⟩) =>
    .function keyword name parameters (some ⟨opening, parenthesizedAll expressions, closing⟩)
  | .invalidToken token => .invalidToken token
  | .invalidExpr inner => .invalidExpr inner.parenthesized

/-- Expressions with parentheses around every binary expression in them. -/
def parenthesizedAll : List Expr → List Expr
  | [] => []
  | e :: es => e.parenthesized :: parenthesizedAll es

end

attribute [local simp] parenthesized parenthesizedAll

/-- Whether the braces of the expression hold no more than one expression. -/
def BodyShort : Expr → Prop
  | .block body => body.expressions.length ≤ 1
  | .function _ _ _ body => ∀ b ∈ body, b.expressions.length ≤ 1
  | _ => True

theorem isBinary_parenthesized (e : Expr) : e.parenthesized.isBinary = false := by
  cases e with
  | unary operator operand => cases operand <;> rfl
  | parenthesis opening inner closing => cases inner <;> rfl
  | function keyword name parameters body => cases body <;> rfl
  | _ => rfl

/-- At most one canonical tree is a canonical forest, and it stays one. -/
theorem canonicalForest_parenthesizedAll {es : List Expr} (hlength : es.length ≤ 1)
    (h : ∀ e ∈ es, e.parenthesized.Canonical) : CanonicalForest (parenthesizedAll es) := by
  match es with
  | [] => exact ⟨by simp, by simp [Separated]⟩
  | [e] => exact ⟨by simpa using h, by simp [Separated]⟩
  | _ :: _ :: _ => simp at hlength

theorem canonical_parenthesized {e : Expr} (h : e.Canonical) (hshort : e.Everywhere BodyShort) :
    e.parenthesized.Canonical := by
  have hroot (d : Expr) : d.parenthesized.root? = none := root?_eq_none d.isBinary_parenthesized
  induction e with
  | literal token => exact h
  | identifier token => exact h
  | unary operator operand ih =>
    obtain ⟨⟨hcomplete, hkinds, -⟩, hinner⟩ := everywhere_unary.mp h
    obtain ⟨-, hshort'⟩ := everywhere_unary.mp hshort
    obtain ⟨d, rfl⟩ := Option.isSome_iff_exists.mp hcomplete
    exact canonical_unary hkinds.1 (ih d rfl (hinner d rfl) (hshort' d rfl)) d.isBinary_parenthesized
  | binary left operator right ih ih' =>
    obtain ⟨⟨-, hkinds, -⟩, hleft, hright⟩ := everywhere_binary.mp h
    obtain ⟨-, hshortl, hshortr⟩ := everywhere_binary.mp hshort
    exact canonical_parenthesis rfl (canonical_binary hkinds (ih hleft hshortl) (ih' hright hshortr) (by simp [hroot])
      (by simp [hroot])) rfl
  | parenthesis opening inner closing ih =>
    obtain ⟨⟨⟨hcomplete, hclosed⟩, ⟨hopen, hclose⟩, -⟩, hinner⟩ := everywhere_parenthesis.mp h
    obtain ⟨-, hshort'⟩ := everywhere_parenthesis.mp hshort
    obtain ⟨d, rfl⟩ := Option.isSome_iff_exists.mp hcomplete
    obtain ⟨close, rfl⟩ := Option.isSome_iff_exists.mp hclosed
    exact canonical_parenthesis hopen (ih d rfl (hinner d rfl) (hshort' d rfl)) (hclose close rfl)
  | block body ih =>
    obtain ⟨opening, es, closing⟩ := body
    obtain ⟨⟨hclosed, ⟨hopen, hclose⟩, -⟩, hinner⟩ := everywhere_block.mp h
    obtain ⟨hlength, hshort'⟩ := everywhere_block.mp hshort
    obtain ⟨close, rfl⟩ := Option.isSome_iff_exists.mp hclosed
    refine canonical_block hopen ?_ (hclose close rfl)
    exact canonicalForest_parenthesizedAll hlength fun e he => ih e he (hinner e he) (hshort' e he)
  | function keyword name parameters body ih =>
    obtain ⟨⟨⟨hnamed, ⟨l, rfl, hl⟩, ⟨b, rfl, hclosed⟩⟩, ⟨hkeyword, hname, hlist, hbraces⟩, -⟩, hinner⟩ :=
      everywhere_function.mp h
    obtain ⟨hlength, hshort'⟩ := everywhere_function.mp hshort
    obtain ⟨n, rfl⟩ := Option.isSome_iff_exists.mp hnamed
    obtain ⟨opening, es, closing⟩ := b
    obtain ⟨close, rfl⟩ := Option.isSome_iff_exists.mp hclosed
    have hbraces := hbraces _ rfl
    refine canonical_function hkeyword (hname n rfl) (hlist l rfl) hl hbraces.opening ?_ (hbraces.closing close rfl)
    exact canonicalForest_parenthesizedAll (hlength _ rfl)
      fun e he => ih _ rfl e he (hinner _ rfl e he) (hshort' _ rfl e he)
  | invalidToken token => exact h.clean.complete.elim
  | invalidExpr inner _ => exact h.clean.complete.elim

end Expr

/-! ### The tokens of a shown expression -/

/-- The first text, and each further one behind a separator. -/
theorem toList_joined_cons (separator text : String) (texts : List String) :
    (joined separator (text :: texts)).toList =
      text.toList ++ texts.flatMap fun other => separator.toList ++ other.toList := by
  induction texts generalizing text with
  | nil => simp [joined]
  | cons other texts ih => simp [joined, ih]

/-- A token is all of a lexeme. -/
def Token.Whole (token : Token) : Prop :=
  Lexeme token.kind token.text.toList

/-- A whole token of a fixed kind shows nothing but its kind. -/
theorem Token.Whole.face_eq {token : Token} {kind : TokenKind} {text : List Char} (h : token.Whole)
    (hk : token.kind = kind) (hfixed : .fixed text kind ∈ Pattern.table) :
    token.face = (kind, String.ofList text) := by
  subst hk
  rw [Token.face, ← Lexeme.eq_of_fixed h hfixed, String.ofList_toList]

namespace Lexes
variable {rest : List Char} {faces : List (TokenKind × String)}

theorem parameter {p : Parameter} (hk : p.KindsFit) (hc : p.Complete) (hwhole : ∀ token ∈ p.leaves, token.Whole)
    (hends : EndsToken rest) (h : Lexes rest faces) : Lexes (p.display.toList ++ rest)
      ((p.name :: (p.colon.toList ++ p.typeName.toList)).map Token.face ++ faces) := by
  obtain ⟨comma, name, colon, typeName⟩ := p
  have hname := hwhole name (by simp [Parameter.leaves])
  have hvalid : name.kind ≠ .invalid := by rw [hk.name]; decide
  cases typeName with
  | none =>
    obtain rfl : colon = none := by simpa [Parameter.Complete] using hc.symm
    exact h.token hname hvalid hends
  | some typeName =>
    obtain ⟨c, rfl⟩ := Option.isSome_iff_exists.mp (show colon.isSome = true from hc.symm)
    have htype := hwhole typeName (by simp [Parameter.leaves])
    have htypeValid : typeName.kind ≠ .invalid := by rw [hk.typeName typeName rfl]; decide
    have hcolon : c.face = (.colon, String.ofList [':']) :=
      (hwhole c (by simp [Parameter.leaves])).face_eq (hk.colon c rfl) (by decide)
    have htyped := (h.token htype htypeValid hends).space.colon
    have hlexes := htyped.token hname hvalid (endsToken_of_mem (by decide) _)
    simpa [Parameter.display, hcolon] using hlexes

/-- The parameters after the first, each behind a comma. -/
theorem otherParameters {ps : List Parameter} (hk : ∀ p ∈ ps, p.KindsFit) (hc : ∀ p ∈ ps, p.Complete)
    (hcomma : ∀ p ∈ ps, p.comma.isSome = true) (hwhole : ∀ p ∈ ps, ∀ token ∈ p.leaves, token.Whole)
    (hends : EndsToken rest) (h : Lexes rest faces) :
    EndsToken ((ps.flatMap fun p => ", ".toList ++ p.display.toList) ++ rest) ∧
      Lexes ((ps.flatMap fun p => ", ".toList ++ p.display.toList) ++ rest)
        ((ps.flatMap Parameter.leaves).map Token.face ++ faces) := by
  induction ps with
  | nil => exact ⟨hends, h⟩
  | cons p ps ih =>
    rw [List.forall_mem_cons] at hk hc hcomma hwhole
    obtain ⟨c, hc'⟩ := Option.isSome_iff_exists.mp hcomma.1
    have hface : c.face = (.comma, String.ofList [',']) :=
      (hwhole.1 c (by simp [Parameter.leaves, hc'])).face_eq (hk.1.comma c hc') (by decide)
    obtain ⟨hends', hlexes⟩ := ih hk.2 hc.2 hcomma.2 hwhole.2
    have hfirst := (hlexes.parameter hk.1 hc.1 hwhole.1 hends').space.comma
    have htext : (p :: ps).flatMap (fun p => ", ".toList ++ p.display.toList) ++ rest =
        ',' :: ' ' :: (p.display.toList ++ (ps.flatMap (fun p => ", ".toList ++ p.display.toList) ++ rest)) := by
      simp
    rw [htext]
    refine ⟨endsToken_of_mem (by decide) _, ?_⟩
    simpa [Parameter.leaves_of_comma hc', hface] using hfirst

theorem parameterList {l : ParameterList} (hk : l.KindsFit) (hc : l.Complete)
    (hwhole : ∀ token ∈ l.leaves, token.Whole) (h : Lexes rest faces) :
    Lexes (l.display.toList ++ rest) (l.leaves.map Token.face ++ faces) := by
  obtain ⟨opening, ps, closing⟩ := l
  obtain ⟨close, rfl⟩ := Option.isSome_iff_exists.mp hc.closing
  have hopen : opening.face = (.openParen, String.ofList ['(']) :=
    (hwhole opening (by simp [ParameterList.leaves])).face_eq hk.opening (by decide)
  have hclose : close.face = (.closeParen, String.ofList [')']) :=
    (hwhole close (by simp [ParameterList.leaves])).face_eq (hk.closing close rfl) (by decide)
  have hend := h.closeParen
  have hparameters : Lexes ((joined ", " (ps.map Parameter.display)).toList ++ (')' :: rest))
      ((ps.flatMap Parameter.leaves).map Token.face ++ close.face :: faces) := by
    rw [hclose]
    cases ps with
    | nil => exact hend
    | cons p ps =>
      have hleaves : ∀ q ∈ p :: ps, ∀ token ∈ q.leaves, token.Whole := fun q hq token hm =>
        hwhole token (by
          simp only [ParameterList.leaves, List.mem_cons, List.mem_append, List.mem_flatMap]
          exact Or.inr (Or.inl ⟨q, List.mem_cons.mp hq, hm⟩))
      obtain ⟨hkp, hkps⟩ := List.forall_mem_cons.mp hk.each
      obtain ⟨hcp, hcps⟩ := List.forall_mem_cons.mp hc.each
      obtain ⟨hwp, hwps⟩ := List.forall_mem_cons.mp hleaves
      obtain ⟨hends, hothers⟩ :=
        otherParameters hkps hcps hc.others hwps (endsToken_of_mem (by decide) rest) hend
      have hlexes := hothers.parameter hkp hcp hwp hends
      rw [List.map_cons, toList_joined_cons, List.flatMap_map, List.append_assoc, List.flatMap_cons,
        Parameter.leaves_of_no_comma (hc.first p rfl)]
      simpa using hlexes
  have hlexes := hparameters.openParen
  simpa [ParameterList.display, ParameterList.leaves, hopen] using hlexes

end Lexes

theorem Token.display_eq_text {token : Token} (h : token.kind ≠ .eof) : token.display = token.text := by
  simp [display, isEof, h]

namespace Expr

/-- In front of any text where every token ends, the expression is shown as the tokens of the parenthesized one. -/
def LexesBack (e : Expr) : Prop :=
  ∀ (rest : List Char) (faces : List (TokenKind × String)), EndsToken rest → Lexes rest faces →
    Lexes (e.display.toList ++ rest) (e.parenthesized.leaves.map Token.face ++ faces)

attribute [local simp] display displayAll Block.enclose parenthesized parenthesizedAll

theorem lexes_braces {opening closing : Token} {es : List Expr} {rest : List Char} {faces : List (TokenKind × String)}
    (hopen : opening.face = (.openCurly, String.ofList ['\x7b']))
    (hclose : closing.face = (.closeCurly, String.ofList ['\x7d'])) (hlength : es.length ≤ 1)
    (hback : ∀ e ∈ es, e.LexesBack) (h : Lexes rest faces) :
    Lexes ((Block.enclose (displayAll es)).toList ++ rest)
      ((block ⟨opening, parenthesizedAll es, some closing⟩).leaves.map Token.face ++ faces) := by
  have hend := h.closeCurly.space
  match es with
  | [] =>
    have hlexes := hend.openCurly
    simpa [hopen, hclose] using hlexes
  | [e] =>
    have hinner := (hback e (List.mem_singleton_self e) _ _ (endsToken_space _) hend).space
    have hlexes := hinner.openCurly
    simpa [joined, hopen, hclose] using hlexes
  | _ :: _ :: _ => simp at hlength

theorem lexesBack_literal {token : Token} (hwhole : token.Whole) (hsolid : token.Solid) :
    (literal token).LexesBack := by
  intro rest faces hends hrest
  simpa [Token.display_eq_text hsolid.2] using hrest.token hwhole hsolid.1 hends

theorem lexesBack_identifier {token : Token} (hwhole : token.Whole) (hsolid : token.Solid) :
    (identifier token).LexesBack := by
  intro rest faces hends hrest
  simpa using hrest.token hwhole hsolid.1 hends

theorem lexesBack_unary {operator : Token} {operand : Expr} (hwhole : operator.Whole)
    (hop : operator.kind.isUnaryOperator = true) (h : operand.LexesBack) (hcanonical : operand.parenthesized.Canonical) :
    (unary operator (some operand)).LexesBack := by
  intro rest faces hends hrest
  have hinner := h _ _ hends hrest
  have hvalid : operator.kind ≠ .invalid := fun hk => absurd hop (by rw [hk]; decide)
  have hne : operator.kind ≠ .eof := fun hk => absurd hop (by rw [hk]; decide)
  -- An exclamation mark would go on with `=`, but nothing with which an expression begins does.
  obtain ⟨first, others, hleaves, hstarts⟩ := hcanonical.clean.first_starts hcanonical.kindsFit
  have hstop : ∀ c ∈ (operand.display.toList ++ rest).head?, operator.kind.goesOnWith c = false := fun c hc =>
    TokenKind.goesOnWith_of_isUnaryOperator hop (Lexes.head_ne_equals (by simpa [hleaves] using hinner) hstarts c hc)
  have hlexes := Lexes.cons hwhole hstop (fun hinvalid => absurd hinvalid hvalid) hinner
  simpa [Token.display_eq_text hne, Token.face] using hlexes

theorem lexesBack_binary {left right : Expr} {operator : Token} (hwhole : operator.Whole) (hsolid : operator.Solid)
    (hl : left.LexesBack) (hr : right.LexesBack) : (binary left operator right).LexesBack := by
  intro rest faces hends hrest
  have hend := hrest.closeParen
  have hright := hr _ _ (endsToken_of_mem (by decide) rest) hend
  have hop := hright.space.token hwhole hsolid.1 (endsToken_space _)
  have hleft := hl _ _ (endsToken_space _) hop.space
  have hlexes := hleft.openParen
  simpa [Token.display_eq_text hsolid.2, Token.face] using hlexes

theorem lexesBack_parenthesis {opening closing : Token} {inner : Expr}
    (hopen : opening.face = (.openParen, String.ofList ['(']))
    (hclose : closing.face = (.closeParen, String.ofList [')'])) (h : inner.LexesBack) :
    (parenthesis opening (some inner) (some closing)).LexesBack := by
  intro rest faces hends hrest
  have hend := hrest.closeParen
  have hinner := h _ _ (endsToken_of_mem (by decide) rest) hend
  have hlexes := hinner.openParen
  simpa [hopen, hclose] using hlexes

theorem lexesBack_function {keyword name opening closing : Token} {l : ParameterList} {es : List Expr}
    (hkeyword : keyword.Whole) (hk : keyword.kind = .function) (hname : name.Whole) (hn : name.kind = .identifier)
    (hlist : ∀ token ∈ l.leaves, token.Whole) (hfits : l.KindsFit) (hc : l.Complete)
    (hopen : opening.face = (.openCurly, String.ofList ['\x7b']))
    (hclose : closing.face = (.closeCurly, String.ofList ['\x7d'])) (hlength : es.length ≤ 1)
    (hback : ∀ e ∈ es, e.LexesBack) :
    (function keyword (some name) (some l) (some ⟨opening, es, some closing⟩)).LexesBack := by
  intro rest faces hends hrest
  have htext : keyword.text.toList = "function".toList := Lexeme.eq_of_function (hk ▸ hkeyword)
  have hbody := (lexes_braces hopen hclose hlength hback hrest).space
  have hparameters := hbody.parameterList hfits hc hlist
  have hopens : EndsToken (l.display.toList ++ ' ' :: ((Block.enclose (displayAll es)).toList ++ rest)) := by
    rw [ParameterList.display, String.toList_append, String.toList_append]
    exact endsToken_of_mem (by decide) _
  have hnamed := (hparameters.token hname (by rw [hn]; decide) hopens).space
  have hlexes := hnamed.token hkeyword (by rw [hk]; decide) (endsToken_space _)
  rw [htext] at hlexes
  simpa [header, Token.face] using hlexes

theorem Canonical.lexesBack {e : Expr} (h : e.Canonical) (hshort : e.Everywhere BodyShort)
    (hwhole : ∀ token ∈ e.leaves, token.Whole) : e.LexesBack := by
  induction e with
  | literal token =>
    exact lexesBack_literal (hwhole token (by simp)) (h.clean.solid h.kindsFit token (by simp))
  | identifier token =>
    exact lexesBack_identifier (hwhole token (by simp)) (h.clean.solid h.kindsFit token (by simp))
  | unary operator operand ih =>
    obtain ⟨⟨hcomplete, ⟨hop, -⟩, -⟩, hinner⟩ := everywhere_unary.mp h
    obtain ⟨-, hshort'⟩ := everywhere_unary.mp hshort
    obtain ⟨d, rfl⟩ := Option.isSome_iff_exists.mp hcomplete
    refine lexesBack_unary (hwhole operator (by simp)) hop ?_ (canonical_parenthesized (hinner d rfl) (hshort' d rfl))
    exact ih d rfl (hinner d rfl) (hshort' d rfl) fun token hm => hwhole token (by simp [hm])
  | binary left operator right ih ih' =>
    obtain ⟨-, hleft, hright⟩ := everywhere_binary.mp h
    obtain ⟨-, hshortl, hshortr⟩ := everywhere_binary.mp hshort
    refine lexesBack_binary (hwhole operator (by simp)) (h.clean.solid h.kindsFit operator (by simp)) ?_ ?_
    · exact ih hleft hshortl fun token hm => hwhole token (by simp [hm])
    · exact ih' hright hshortr fun token hm => hwhole token (by simp [hm])
  | parenthesis opening inner closing ih =>
    obtain ⟨⟨⟨hcomplete, hclosed⟩, ⟨hopen, hclose⟩, -⟩, hinner⟩ := everywhere_parenthesis.mp h
    obtain ⟨-, hshort'⟩ := everywhere_parenthesis.mp hshort
    obtain ⟨d, rfl⟩ := Option.isSome_iff_exists.mp hcomplete
    obtain ⟨close, rfl⟩ := Option.isSome_iff_exists.mp hclosed
    refine lexesBack_parenthesis ((hwhole opening (by simp)).face_eq hopen (by decide))
      ((hwhole close (by simp)).face_eq (hclose close rfl) (by decide)) ?_
    exact ih d rfl (hinner d rfl) (hshort' d rfl) fun token hm => hwhole token (by simp [hm])
  | block body ih =>
    obtain ⟨opening, es, closing⟩ := body
    obtain ⟨⟨hclosed, ⟨hopen, hclose⟩, -⟩, hinner⟩ := everywhere_block.mp h
    obtain ⟨hlength, hshort'⟩ := everywhere_block.mp hshort
    obtain ⟨close, rfl⟩ := Option.isSome_iff_exists.mp hclosed
    intro rest faces hends hrest
    refine lexes_braces ((hwhole opening (by simp)).face_eq hopen (by decide))
      ((hwhole close (by simp)).face_eq (hclose close rfl) (by decide)) hlength (fun e he => ?_) hrest
    refine ih e he (hinner e he) (hshort' e he) fun token hm => hwhole token ?_
    simp only [leaves_block, List.mem_cons, List.mem_append, List.mem_flatMap]
    exact Or.inr (Or.inl ⟨e, he, hm⟩)
  | function keyword name parameters body ih =>
    obtain ⟨⟨⟨hnamed, ⟨l, rfl, hl⟩, ⟨b, rfl, hclosed⟩⟩, ⟨hkeyword, hname, hlist, hbraces⟩, -⟩, hinner⟩ :=
      everywhere_function.mp h
    obtain ⟨hlength, hshort'⟩ := everywhere_function.mp hshort
    obtain ⟨n, rfl⟩ := Option.isSome_iff_exists.mp hnamed
    obtain ⟨opening, es, closing⟩ := b
    obtain ⟨close, rfl⟩ := Option.isSome_iff_exists.mp hclosed
    have hbraces := hbraces _ rfl
    refine lexesBack_function (hwhole keyword (by simp)) hkeyword (hwhole n (by simp)) (hname n rfl)
      (fun token hm => hwhole token (by simp [hm])) (hlist l rfl) hl
      ((hwhole opening (by simp)).face_eq hbraces.opening (by decide))
      ((hwhole close (by simp)).face_eq (hbraces.closing close rfl) (by decide)) (hlength _ rfl) fun e he => ?_
    refine ih _ rfl e he (hinner _ rfl e he) (hshort' _ rfl e he) fun token hm => hwhole token ?_
    simp only [leaves_function, leaves_block, Option.toList_some, List.flatMap_singleton, List.mem_cons,
      List.mem_append, List.mem_flatMap]
    exact Or.inr (Or.inr (Or.inr (Or.inl ⟨e, he, hm⟩)))
  | invalidToken token => exact h.clean.complete.elim
  | invalidExpr inner _ => exact h.clean.complete.elim

end Expr

/-! ### Sources -/

/-- An expression of a source about which nothing is reported, with at most one expression in any braces, is shown as
a text that is read, again without a report, as the expression with parentheses around its binary expressions. -/
theorem parse_display {source : String} (h : (parse source).hasErrors = false) :
    ∀ e ∈ (parse source).expressions, e.Everywhere Expr.BodyShort → e.parenthesized.nest ≤ maxNesting →
      ∃ d, parse e.display = ⟨[d], #[]⟩ ∧ d.alike e.parenthesized = true := by
  intro e he hshort hnest
  have hsilent : (parse source).diagnostics = #[] := by simpa [Parsed.hasErrors] using h
  have hcanonical := (canonicalForest_of_parse_silent hsilent).1.each e he
  have hwhole : ∀ token ∈ e.leaves, token.Whole := by
    intro token hm
    refine scan_lexeme source token ?_
    rw [← (clean_of_silent hsilent).1]
    exact List.mem_flatMap.mpr ⟨e, he, hm⟩
  have hlexes := hcanonical.lexesBack hshort hwhole _ _ endsToken_nil (.blank (by simp))
  rw [List.append_nil, List.append_nil, ← scan_faces_eq_iff] at hlexes
  exact (Expr.canonical_parenthesized hcanonical hshort).parse_alike hnest hlexes

/-- An operator in front of braces with a binary expression in them. -/
theorem parse_display_negated_braces :
    let source := "!\x7b a+b \x7d"
    let sum : Expr := .binary (.identifier ⟨.identifier, "a", 3, ⟨1, 3⟩⟩) ⟨.plus, "+", 4, ⟨1, 4⟩⟩
      (.identifier ⟨.identifier, "b", 5, ⟨1, 5⟩⟩)
    let e : Expr := .unary ⟨.exclamation, "!", 0, ⟨1, 0⟩⟩
      (some (.block ⟨⟨.openCurly, "\x7b", 1, ⟨1, 1⟩⟩, [sum], some ⟨.closeCurly, "\x7d", 7, ⟨1, 7⟩⟩⟩))
    (parse source).hasErrors = false ∧ e ∈ (parse source).expressions ∧
      ∃ d, parse e.display = ⟨[d], #[]⟩ ∧ d.alike e.parenthesized = true := by
  intro source sum e
  have hsilent : (parse source).hasErrors = false := by decide +kernel
  have he : e ∈ (parse source).expressions := by decide +kernel
  have hshort : e.Everywhere Expr.BodyShort := by
    simp [e, sum, Expr.everywhere_unary, Expr.everywhere_block, Expr.everywhere_binary, Expr.BodyShort]
  have hnest : e.parenthesized.nest ≤ maxNesting := by
    simp [e, sum, Expr.parenthesized, Expr.parenthesizedAll, Expr.nest, Expr.nestAll, maxNesting]
  exact ⟨hsilent, he, parse_display hsilent e he hshort hnest⟩

end ExprReader
