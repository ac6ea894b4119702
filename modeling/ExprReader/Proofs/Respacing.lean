import ExprReader.Proofs.Lexemes
import ExprReader.Proofs.Slices
import Mathlib.Data.List.Forall2

/-! # Other layouts of a source

The tokens of a source may be laid out anew, with any blanks before, between and after them, as long as no two
of them touch. The new text is scanned as the same tokens in other places, whatever the tokens are: an open
quotation mark stays open because there was none behind it in the source, and no blank is one. -/

namespace ExprReader

/-- The texts of tokens, each behind its own gap, and a last gap. -/
def laidOut (pieces : List (List Char × Token)) (last : List Char) : List Char :=
  pieces.flatMap (fun piece => piece.1 ++ piece.2.text.toList) ++ last

@[simp] theorem laidOut_nil (last : List Char) : laidOut [] last = last := rfl

@[simp] theorem laidOut_cons (gap : List Char) (token : Token) (pieces : List (List Char × Token)) (last : List Char) :
    laidOut ((gap, token) :: pieces) last = gap ++ (token.text.toList ++ laidOut pieces last) := by
  simp [laidOut]

section
variable {text last : List Char} {offset : Nat} {position : Position} {tokens : List Token}
  {pieces : List (List Char × Token)}

/-- A token is made of characters of the text. -/
theorem Scans.mem_text (h : Scans text offset position tokens) :
    ∀ token ∈ tokens, ∀ c ∈ token.text.toList, c ∈ text := by
  induction h with
  | blank _ => simp
  | token _ _ _ _ ih =>
    refine List.forall_mem_cons.mpr ⟨fun c hc => ?_, fun token hm c hc => ?_⟩
    · rw [String.toList_ofList] at hc
      simp [hc]
    · simp [ih token hm c hc]

variable (hblank : ∀ piece ∈ pieces, ∀ c ∈ piece.1, isBlank c = true) (hlast : ∀ c ∈ last, isBlank c = true)
include hblank hlast

/-- Behind a gap that is not empty, nothing goes on with the token before it. -/
theorem isBlank_head_laidOut (hapart : ∀ piece ∈ pieces, piece.1 ≠ []) :
    ∀ c ∈ (laidOut pieces last).head?, isBlank c = true := by
  cases pieces with
  | nil => exact fun c hc => hlast c (List.mem_of_mem_head? hc)
  | cons piece pieces =>
    obtain ⟨gap, token⟩ := piece
    obtain ⟨d, others, rfl⟩ := List.exists_cons_of_ne_nil (hapart _ (List.mem_cons_self ..))
    rw [laidOut_cons]
    rintro _ ⟨⟩
    exact hblank _ (List.mem_cons_self ..) d (List.mem_cons_self ..)

/-- The gaps bring in blanks only. -/
theorem not_mem_laidOut {c : Char} (hc : isBlank c = false)
    (htexts : ∀ piece ∈ pieces, c ∉ piece.2.text.toList) : c ∉ laidOut pieces last := by
  have hgap {gap : List Char} (hall : ∀ d ∈ gap, isBlank d = true) : c ∉ gap := by
    intro hm
    rw [hall c hm] at hc
    cases hc
  rw [laidOut, List.mem_append, List.mem_flatMap, not_or]
  refine ⟨?_, hgap hlast⟩
  rintro ⟨piece, hpiece, hm⟩
  rcases List.mem_append.mp hm with hm | hm
  · exact hgap (hblank piece hpiece) hm
  · exact htexts piece hpiece hm

/-- Tokens that are laid out anew are scanned as themselves. -/
theorem Scans.lexes_laidOut (h : Scans text offset position tokens) (htokens : pieces.map Prod.snd = tokens)
    (hapart : ∀ piece ∈ pieces.tail, piece.1 ≠ []) : Lexes (laidOut pieces last) (tokens.map Token.face) := by
  induction h generalizing pieces with
  | blank _ =>
    obtain rfl := List.map_eq_nil_iff.mp htokens
    exact .blank hlast
  | @token gap lexeme rest kind offset position tokens _ hfirst hfront hrest ih =>
    obtain ⟨⟨gap', token⟩, pieces, rfl, rfl, rfl⟩ := List.map_eq_cons_iff.mp htokens
    obtain ⟨hgap, hblank'⟩ := List.forall_mem_cons.mp hblank
    have hlexeme : Lexeme kind lexeme := ⟨hfirst, Pattern.front_of_append hfront (Nat.le_refl _)⟩
    have hbehind := isBlank_head_laidOut hblank' hlast hapart
    have hquote : kind = .invalid → '"' ∈ lexeme → '"' ∉ laidOut pieces last := by
      rintro rfl hopen
      have hnone := Pattern.not_mem_of_front_invalid hfront hopen
      refine not_mem_laidOut hblank' hlast (by decide) fun piece hpiece hm => hnone ?_
      exact hrest.mem_text _ (List.mem_map_of_mem hpiece) _ hm
    rw [laidOut_cons, String.toList_ofList]
    refine .after_blanks hgap (.cons hlexeme ?_ hquote (ih hblank' rfl fun piece hm => ?_))
    · exact fun c hc => TokenKind.goesOnWith_of_isBlank (hbehind c hc) kind
    · exact hapart piece (List.mem_of_mem_tail hm)

end

/-! ### Reading a text with the same tokens -/

/-- The scanner reports the same for the same kinds of tokens. -/
theorem scan_report_kinds (source : String) : (scan source).2.toList.map Diagnostic.kind =
    (((scan source).1.tokens.toList.map Token.face).filter (·.1 = .invalid)).map fun _ => .unknownCharacter := by
  rw [scan_reports, Scanner.reportsFor, List.filter_map, List.map_map, List.map_map]
  rfl

/-- Two sources with the same tokens are read alike. -/
theorem parse_alike_of_faces {source other : String}
    (h : (scan other).1.tokens.toList.map Token.face = (scan source).1.tokens.toList.map Token.face) :
    List.Forall₂ (fun d e => d.alike e = true) (parse other).expressions (parse source).expressions ∧
      (parse other).diagnostics.map Diagnostic.kind = (parse source).diagnostics.map Diagnostic.kind := by
  obtain ⟨shapes, new, new', hparse, hparse', hkinds, halike⟩ :=
    TokenBuffer.parse_alike h rfl (scan source).2 (scan other).2
  have hsource : parse source = _ := hparse
  have hother : parse other = _ := hparse'
  have hscan : (scan other).2.map Diagnostic.kind = (scan source).2.map Diagnostic.kind := by
    rw [← Array.toList_inj, Array.toList_map, Array.toList_map, scan_report_kinds, scan_report_kinds, h]
  rw [hsource, hother]
  refine ⟨?_, by rw [Array.map_append, Array.map_append, hscan, hkinds]⟩
  rw [List.forall₂_map_left_iff, List.forall₂_map_right_iff, List.forall₂_same]
  exact fun shape _ => halike shape

/-- A source whose tokens are laid out anew has the same tokens, is read as the same trees, all but for their places,
and calls for the same kinds of reports. -/
theorem parse_laidOut {source other : String} {pieces : List (List Char × Token)} {last : List Char}
    (htokens : pieces.map Prod.snd = (scan source).1.tokens.toList) (hother : other.toList = laidOut pieces last)
    (hblank : ∀ piece ∈ pieces, ∀ c ∈ piece.1, isBlank c = true) (hlast : ∀ c ∈ last, isBlank c = true)
    (hapart : ∀ piece ∈ pieces.tail, piece.1 ≠ []) :
    (scan other).1.toList.map Token.face = (scan source).1.toList.map Token.face ∧
      List.Forall₂ (fun d e => d.alike e = true) (parse other).expressions (parse source).expressions ∧
      (parse other).diagnostics.map Diagnostic.kind = (parse source).diagnostics.map Diagnostic.kind := by
  have hlexes := (scan_eq_iff.mp rfl).lexes_laidOut hblank hlast htokens hapart
  rw [← hother, ← scan_faces_eq_iff] at hlexes
  refine ⟨?_, parse_alike_of_faces hlexes⟩
  rw [TokenBuffer.toList, TokenBuffer.toList, List.map_append, List.map_append, hlexes]
  rfl

/-- A number and a name that touch, a question mark that is no operator and a quotation that is left open. -/
theorem parse_laidOut_touching :
    let source := "12abc?/?\""
    let other := "\t12 abc\u00a0?/\n?\u2028\" "
    (scan other).1.toList.map Token.face = (scan source).1.toList.map Token.face ∧
      List.Forall₂ (fun d e => d.alike e = true) (parse other).expressions (parse source).expressions ∧
      (parse other).diagnostics.map Diagnostic.kind = (parse source).diagnostics.map Diagnostic.kind := by
  intro source other
  let pieces := [['\t'], [' '], ['\u00a0'], ['\n'], ['\u2028']].zip (scan source).1.tokens.toList
  have hother : other.toList = laidOut pieces [' '] := by decide +kernel
  have htokens : pieces.map Prod.snd = (scan source).1.tokens.toList := by decide +kernel
  have hblank : pieces.all (fun piece => piece.1.all isBlank) = true := by decide +kernel
  simp only [List.all_eq_true] at hblank
  exact parse_laidOut htokens hother hblank (List.forall_mem_singleton.mpr (by decide)) (by decide +kernel)

end ExprReader
