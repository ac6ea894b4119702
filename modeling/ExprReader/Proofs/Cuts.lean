import ExprReader.Proofs.Concatenation
import ExprReader.Proofs.ScannerCalls

/-! # Sources cut behind a token

No token depends on the text behind it, so a source that is cut right behind one of its tokens has the tokens
before the cut and no others, and of the reports those before the cut. The end of the input then stands where a
buffer of these tokens alone puts it: the place behind the last token, counted on from the place of the token, is
the one that is counted from the start of the source. -/

namespace ExprReader

/-- The offset at which the last of some tokens stops, which is the start of the source if there are none. -/
def Token.lastStop (tokens : List Token) : Nat :=
  (tokens.getLast?.map Token.stop).getD 0

@[simp] theorem Token.lastStop_nil : Token.lastStop [] = 0 := rfl

@[simp] theorem Token.lastStop_concat (init : List Token) (last : Token) :
    Token.lastStop (init ++ [last]) = last.stop := by
  simp [lastStop]

/-! ### The tokens before a cut -/

/-- The text up to the stop of the last of the first tokens has these tokens. -/
theorem Scans.first {text : List Char} {position : Position} {first others : List Token}
    (h : Scans text 0 position (first ++ others)) :
    ∃ front back, text = front ++ back ∧ byteLength front = Token.lastStop first ∧ Scans front 0 position first := by
  rcases List.eq_nil_or_concat first with rfl | ⟨init, last, rfl⟩
  · exact ⟨[], text, rfl, rfl, .blank (by simp)⟩
  · rw [List.concat_eq_append] at h ⊢
    rw [List.append_assoc] at h
    obtain ⟨front, back, htext, hstop, hfront⟩ := h.take
    exact ⟨front, back, htext, by simpa using hstop, hfront⟩

/-- The first tokens start before the cut, all others behind it. -/
theorem Scans.starts_around_lastStop {text : List Char} {position : Position} {first others : List Token}
    (h : Scans text 0 position (first ++ others)) :
    (∀ token ∈ first, token.start < Token.lastStop first) ∧ ∀ token ∈ others, Token.lastStop first ≤ token.start := by
  obtain ⟨hplaces, hpairs⟩ := h.ordered
  rcases List.eq_nil_or_concat first with rfl | ⟨init, last, rfl⟩
  · simp
  · simp only [List.concat_eq_append, Token.lastStop_concat] at hplaces hpairs ⊢
    obtain ⟨hfirst, -, hacross⟩ := List.pairwise_append.mp hpairs
    obtain ⟨-, -, hlast⟩ := List.pairwise_append.mp hfirst
    refine ⟨fun token hm => ?_, fun token hm => hacross last (by simp) token hm⟩
    have hends := (hplaces last (by simp)).2
    rcases List.mem_append.mp hm with hinit | hm
    · have hstarts := (hplaces token (by simp [hinit])).2
      have hbefore := hlast token hinit last (by simp)
      omega
    · rwa [List.mem_singleton.mp hm]

/-- The reports on the first tokens are those that start before the cut. -/
theorem Scans.reportsFor_first {text : List Char} {position : Position} {first others : List Token}
    (h : Scans text 0 position (first ++ others)) :
    (Scanner.reportsFor (first ++ others)).filter (·.span.start < Token.lastStop first) =
      Scanner.reportsFor first := by
  obtain ⟨hfirst, hothers⟩ := h.starts_around_lastStop
  have hkept : (Scanner.reportsFor first).filter (·.span.start < Token.lastStop first) =
      Scanner.reportsFor first := by
    refine List.filter_eq_self.mpr fun report hm => decide_eq_true ?_
    obtain ⟨token, htoken, rfl⟩ := List.mem_map.mp hm
    exact hfirst token (List.mem_filter.mp htoken).1
  have hdropped : (Scanner.reportsFor others).filter (·.span.start < Token.lastStop first) = [] := by
    refine List.filter_eq_nil_iff.mpr fun report hm => ?_
    obtain ⟨token, htoken, rfl⟩ := List.mem_map.mp hm
    rw [decide_eq_true_eq]
    exact Nat.not_lt.mpr (hothers token (List.mem_filter.mp htoken).1)
  rw [Scanner.reportsFor_append, List.filter_append, hkept, hdropped, List.append_nil]

/-! ### The end of the input behind the last token -/

/-- Behind the last token of a source that stops with it, the end of the input is put where the scanner puts it. -/
theorem endAfter?_scan {source : String} (hsize : Addressable source)
    (hstop : byteLength source.toList = Token.lastStop (scan source).1.tokens.toList) :
    TokenBuffer.endAfter? (scan source).1.tokens.toList = some (scan source).1.ending := by
  rw [scan_ending]
  rcases List.eq_nil_or_concat (scan source).1.tokens.toList with hnone | ⟨init, last, htokens⟩
  · have hempty : source.toList = [] := by
      rw [hnone, Token.lastStop_nil] at hstop
      exact eq_nil_of_byteLength_eq_zero hstop
    rw [hnone, hempty]
    rfl
  · rw [List.concat_eq_append] at htokens
    rw [htokens, Token.lastStop_concat] at hstop
    obtain ⟨before, after, hsource, hstart, hposition⟩ :=
      scan_placedIn source last (List.mem_append_left _ (by simp [htokens]))
    have hend : after = [] := by
      rw [hsource, byteLength_append, byteLength_append, Token.stop, hstart] at hstop
      exact eq_nil_of_byteLength_eq_zero (by omega)
    rw [hend, List.append_nil] at hsource
    -- Neither the line nor the column behind the token outgrows the source.
    have hafter : last.positionAfter? = some (Position.counted source.toList) := by
      have hlength := length_le_byteLength source.toList
      rw [Token.positionAfter?, hposition, hsource]
      refine Position.after?_counted ?_
      rw [← hsource]
      exact Nat.lt_of_le_of_lt (Nat.succ_le_succ hlength) hsize
    simp [TokenBuffer.endAfter?, htokens, hafter, hstop]

/-- A source that stops with its last token: its buffer is the one of its tokens alone. -/
theorem ofList?_scan {source : String} (hsize : Addressable source)
    (hstop : byteLength source.toList = Token.lastStop (scan source).1.tokens.toList) :
    TokenBuffer.ofList? (scan source).1.tokens.toList = some (scan source).1 := by
  rw [TokenBuffer.ofList?_eq_close? fun token hm => scan_kind_ne_eof source token (Array.mem_toList_iff.mp hm),
    TokenBuffer.close?_of_endAfter? (endAfter?_scan hsize hstop)]

/-! ### Cut sources -/

/-- A source cut where one of its tokens stops, or at its start: the cut text has the tokens before the cut and
the end of the input right behind them, and it is read with the reports that start before the cut like the buffer
of these tokens alone. -/
theorem scan_cut (source : String) (count : Nat) :
    let first := (scan source).1.tokens.toList.take count
    let offset := Token.lastStop first
    let reports := (scan source).2.filter (·.span.start < offset)
    ∃ cut, Span.slice? ⟨0, offset⟩ source = some cut ∧
      (scan cut).1.toList = first ++ [⟨.eof, "", offset, Position.counted cut.toList⟩] ∧
      (scan cut).2 = reports ∧
      (Addressable source → TokenBuffer.ofList? first = some (scan cut).1 ∧
        (Parser.ofTokens? first reports).map Parser.parse = some (parse cut)) := by
  intro first offset reports
  have hscans : Scans source.toList 0 {} (first ++ (scan source).1.tokens.toList.drop count) :=
    scan_eq_iff.mp (List.take_append_drop ..).symm
  obtain ⟨front, back, hsource, hlength, hfront⟩ := hscans.first
  have htokens : (scan (String.ofList front)).1.tokens.toList = first :=
    scan_eq_iff.mpr (by rwa [String.toList_ofList])
  have hstop : byteLength (String.ofList front).toList = offset := by rwa [String.toList_ofList]
  have hreports : (scan (String.ofList front)).2 = reports := by
    rw [← Array.toList_inj, scan_reports, htokens, Array.toList_filter, scan_reports,
      ← hscans.reportsFor_first, List.take_append_drop]
  refine ⟨String.ofList front, ?_, ?_, hreports, fun hsize => ?_⟩
  · exact Span.slice?_eq (show source.toList = [] ++ (front ++ back) from hsource) rfl (by rw [Nat.zero_add, hlength])
  · rw [TokenBuffer.toList, htokens, scan_ending, hstop]
  · have hcut : Addressable (String.ofList front) := by
      rw [Addressable, hsource, byteLength_append] at hsize
      rw [Addressable, String.toList_ofList]
      omega
    have hbuffer : TokenBuffer.ofList? first = some (scan (String.ofList front)).1 := by
      rw [← htokens]
      exact ofList?_scan hcut (by rw [hstop, htokens])
    refine ⟨hbuffer, ?_⟩
    rw [Parser.ofTokens?, hbuffer, ← hreports]
    rfl

/-- A cut behind the first of two unknown characters, which follow a string over two lines. -/
theorem scan_cut_behind_string :
    let source := "x\n\"\u00e9\n\" @#y"
    let cut := "x\n\"\u00e9\n\" @"
    let first := [⟨.identifier, "x", 0, ⟨1, 0⟩⟩, ⟨.string, "\"\u00e9\n\"", 2, ⟨2, 0⟩⟩, ⟨.invalid, "@", 8, ⟨3, 2⟩⟩]
    Addressable source ∧ Span.slice? ⟨0, 9⟩ source = some cut ∧
      (scan cut).1.toList = first ++ [⟨.eof, "", 9, ⟨3, 3⟩⟩] ∧
      (Parser.ofTokens? first #[⟨.unknownCharacter, ⟨8, 9⟩⟩]).map Parser.parse = some (parse cut) := by
  intro source cut first
  have hsize : Addressable source := by decide +kernel
  have hfirst : (scan source).1.tokens.toList.take 3 = first := by decide +kernel
  have hreports : (scan source).2.filter (·.span.start < 9) = #[⟨.unknownCharacter, ⟨8, 9⟩⟩] := by decide +kernel
  have hslice : Span.slice? ⟨0, 9⟩ source = some cut := by decide +kernel
  obtain ⟨found, hfound, htokens, -, hread⟩ := scan_cut source 3
  have hoffset : Token.lastStop first = 9 := by decide +kernel
  rw [hfirst, hoffset] at hfound htokens hread
  obtain rfl : cut = found := Option.some.inj (hslice.symm.trans hfound)
  have hplace : Position.counted cut.toList = ⟨3, 3⟩ := by decide +kernel
  rw [hplace] at htokens
  rw [hreports] at hread
  exact ⟨hsize, hslice, htokens, (hread hsize).2⟩

end ExprReader
