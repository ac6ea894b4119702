import ExprReader.Proofs.Respacing
import ExprReader.Proofs.ScannerCalls

/-! # Scanning loses nothing

The tokens of a source and the blanks between them are the source again, each token where it was found. A scanner by
offsets that is asked for one token after the other gives these tokens, with the end of the input last, and then
nothing. -/

namespace ExprReader

/-! ### Asking until there is nothing -/

/-- A scanner that is asked for the next token until it gives nothing gives some tokens. -/
def ScannerCall.Collects {σ : Type} (answer : σ → ScannerCall → ScannerReply × σ) (scanner : σ) (tokens : List Token)
    (last : σ) : Prop :=
  run answer scanner (List.replicate (tokens.length + 1) .next) =
    (tokens.map (fun token => (.next, .given token)) ++ [(.next, .nothing)], last)

namespace ScannerCall.Collects
variable {σ : Type} {answer : σ → ScannerCall → ScannerReply × σ} {scanner after last : σ} {token : Token}
  {tokens : List Token}

theorem nil (h : answer scanner .next = (.nothing, last)) : Collects answer scanner [] last := by
  simp [Collects, run, h]

theorem cons (h : answer scanner .next = (.given token, after)) (hrest : Collects answer after tokens last) :
    Collects answer scanner (token :: tokens) last := by
  rw [Collects] at hrest
  rw [Collects, List.length_cons, List.replicate_succ, run, h, hrest]
  rfl

end ScannerCall.Collects

namespace Scanner

/-- The tokens of a scan are given for one call after the other, with the end of the input last. -/
theorem tokens_collects (scanner : Scanner) (hf : scanner.finished = false) :
    ScannerCall.Collects answer scanner (scanner.tokens.1 ++ [scanner.tokens.2.ending]) scanner.tokens.2 := by
  fun_induction Scanner.tokens scanner with
  | case1 scanner first hdone =>
    have hlast : ScannerCall.Collects answer first.2 [] first.2 := .nil (answer_next_of_finished hdone)
    have hending : first.1 = first.2.ending := by
      rw [show first = _ from (step_of_finished hdone hf).2]
      rfl
    rw [List.nil_append, ← hending]
    exact .cons (answer_next_of_not_finished hf) hlast
  | case2 scanner first hdone others last hrest =>
    rename_i ih
    have hothers := ih (by simpa using hdone)
    rw [hrest] at hothers
    exact .cons (answer_next_of_not_finished hf) hothers

end Scanner

theorem ScannerCall.Collects.within {scanner last : Scanner} {source : String} {passed tokens : List Token}
    (h : Collects Scanner.answer scanner tokens last) (hfollows : scanner.Follows source passed)
    (hsize : Addressable source) :
    Collects OffsetScanner.answer (scanner.within source) tokens (last.within source) := by
  rw [Collects, OffsetScanner.run_within hfollows hsize, h]

/-! ### Tokens and gaps -/

/-- A token that no pattern fits is one character. -/
theorem Lexeme.length_of_invalid {text : List Char} (h : Lexeme .invalid text) : text.length = 1 := by
  have hfront := h.front
  rw [Pattern.front] at hfront
  cases hfirst : Pattern.first? text with
  | none =>
    rw [hfirst] at hfront
    exact (Prod.mk.inj hfront).2.symm
  | some found =>
    rw [hfirst] at hfront
    exact absurd (Prod.mk.inj hfront).1 (Pattern.first?_kind hfirst).2

/-- A text is its tokens and the blanks around them, and each token starts where it stands in the text. -/
theorem Scans.exists_pieces {text : List Char} {offset : Nat} {position : Position} {tokens : List Token}
    (h : Scans text offset position tokens) :
    ∃ pieces last, pieces.map Prod.snd = tokens ∧ text = laidOut pieces last ∧
      (∀ piece ∈ pieces, ∀ c ∈ piece.1, isBlank c = true) ∧ (∀ c ∈ last, isBlank c = true) ∧
      ∀ front gap token back, pieces = front ++ (gap, token) :: back →
        token.start = offset + byteLength (laidOut front gap) := by
  induction h with
  | @blank text offset position hblank => exact ⟨[], text, rfl, rfl, by simp, hblank, by simp⟩
  | @token gap lexeme rest kind offset position tokens hgap hfirst hfront _ ih =>
    obtain ⟨pieces, last, rfl, rfl, hblank, hlast, hstart⟩ := ih
    -- Behind the first token everything starts later by its gap and its text.
    refine ⟨(gap, ⟨kind, String.ofList lexeme, offset + byteLength gap, position.after gap⟩) :: pieces, last,
      rfl, by simp, List.forall_mem_cons.mpr ⟨hgap, hblank⟩, hlast, fun front gap' token back heq => ?_⟩
    cases front with
    | nil =>
      obtain ⟨⟨rfl, rfl⟩, -⟩ := by simpa using heq
      simp
    | cons piece front =>
      obtain ⟨rfl, hback⟩ := List.cons.inj heq
      rw [hstart front gap' token back hback, laidOut_cons, byteLength_append, byteLength_append,
        String.toList_ofList]
      omega

/-- A source is its tokens and the blanks around them. Each token covers the bytes behind everything before it, starts
with a character that is not blank and is not the end of the input, which stands at the end of the source. Exactly the
invalid tokens are reported, which are single characters. A scanner by offsets never fails to find all this. -/
theorem scan_lossless (source : String) :
    (∃ pieces last, pieces.map Prod.snd = (scan source).1.tokens.toList ∧ source.toList = laidOut pieces last ∧
      (∀ piece ∈ pieces, ∀ c ∈ piece.1, isBlank c = true) ∧ (∀ c ∈ last, isBlank c = true) ∧
      ∀ front gap token back, pieces = front ++ (gap, token) :: back →
        token.span = ⟨byteLength (laidOut front gap),
          byteLength (laidOut front gap) + byteLength token.text.toList⟩) ∧
    (∀ token ∈ (scan source).1.tokens, token.kind ≠ .eof ∧ (∃ c ∈ token.text.toList.head?, isBlank c = false) ∧
      (token.kind = .invalid → token.text.toList.length = 1)) ∧
    (scan source).1.ending.kind = .eof ∧ (scan source).1.ending.text = "" ∧
    (scan source).1.ending.span = .empty (byteLength source.toList) ∧
    (scan source).2.toList = ((scan source).1.tokens.toList.filter (·.kind = .invalid)).map
      (fun token => ⟨.unknownCharacter, token.span⟩) ∧
    (Addressable source → ∃ last,
      ScannerCall.Collects OffsetScanner.answer (.ofSource source) (scan source).1.toList last ∧
        last.diagnostics = (scan source).2) := by
  have hscans : Scans source.toList 0 {} (scan source).1.tokens.toList := scan_eq_iff.mp rfl
  refine ⟨?_, fun token hm => ?_, (scan source).1.ending_kind, rfl, ?_, scan_reports source, fun hsize => ?_⟩
  · obtain ⟨pieces, last, htokens, htext, hblank, hlast, hstart⟩ := hscans.exists_pieces
    refine ⟨pieces, last, htokens, htext, hblank, hlast, fun front gap token back heq => ?_⟩
    have hplace := hstart front gap token back heq
    rw [Nat.zero_add] at hplace
    rw [Token.span, Token.stop, hplace]
  · have hlexeme := scan_lexeme source token (Array.mem_toList_iff.mpr hm)
    refine ⟨scan_kind_ne_eof source token hm, hlexeme.first, fun hinvalid => ?_⟩
    rw [hinvalid] at hlexeme
    exact hlexeme.length_of_invalid
  · rw [Token.span, scan_ending_start, scan_ending_stop]
    rfl
  · have hcollects := ((Scanner.ofSource source).tokens_collects rfl).within (.ofSource source) hsize
    exact ⟨_, hcollects, rfl⟩

/-- Blanks of more than one byte, an operator beside its first character and a quotation that is left open. -/
theorem scan_lossless_open_quotation :
    let source := "\u3000?/?\u2028\"\u00e9"
    let tokens := [⟨.questionForwardSlash, "?/", 3, ⟨1, 1⟩⟩, ⟨.invalid, "?", 5, ⟨1, 3⟩⟩, ⟨.invalid, "\"", 9, ⟨1, 5⟩⟩,
      ⟨.invalid, "\u00e9", 10, ⟨1, 6⟩⟩, ⟨.eof, "", 12, ⟨1, 7⟩⟩]
    Addressable source ∧ ∃ last, ScannerCall.Collects OffsetScanner.answer (.ofSource source) tokens last := by
  intro source tokens
  have hsize : Addressable source := by decide +kernel
  have htokens : (scan source).1.toList = tokens := by decide +kernel
  obtain ⟨-, -, -, -, -, -, hoffsets⟩ := scan_lossless source
  obtain ⟨last, hcollects, -⟩ := hoffsets hsize
  rw [htokens] at hcollects
  exact ⟨hsize, last, hcollects⟩

end ExprReader
