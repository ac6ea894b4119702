import ExprReader.Proofs.Spans

/-! # Scanning by offsets

The scanner holds the text that is left and cuts it by characters, which cannot go wrong. `OffsetScanner` holds
the whole source and an offset of bytes into it instead. Each of its slices fails when an end lies beyond the
source or inside a character, each of its sums when it does not fit a word, and what failed leaves the scanner
as it was at that point.

A scanner tracks a source (`Scanner.Tracks`) when it stands on a border of it and has counted its lines and columns
up to there. From such a place the offset scanner does what the scanner does: a step never fails, and a cut fails
exactly when it does not end on a border, with nothing changed. -/

namespace ExprReader

/-! ### Places counted from the start -/

theorem length_le_byteLength (text : List Char) : text.length ≤ byteLength text := by
  induction text with
  | nil => exact Nat.le_refl 0
  | cons c text ih =>
    have hpos := c.utf8Size_pos
    rw [List.length_cons, byteLength_cons]
    omega

theorem eq_nil_of_byteLength_eq_zero {text : List Char} (h : byteLength text = 0) : text = [] :=
  List.length_eq_zero_iff.mp (Nat.le_zero.mp (h ▸ length_le_byteLength text))

/-- Of two fronts of one text, the one with fewer bytes is a front of the other. -/
theorem exists_eq_append_of_byteLength_le {front back front' back' : List Char} (h : front ++ back = front' ++ back')
    (hle : byteLength front ≤ byteLength front') : ∃ mid, front' = front ++ mid ∧ back = mid ++ back' := by
  rcases List.append_eq_append_iff.mp h with ⟨mid, hfront, hback⟩ | ⟨mid, rfl, rfl⟩
  · exact ⟨mid, hfront, hback⟩
  · have hmid : mid = [] := by
      rw [byteLength_append] at hle
      exact eq_nil_of_byteLength_eq_zero (by omega)
    exact ⟨[], by simp [hmid], by simp [hmid]⟩

namespace Position

/-- The place right after a text that starts a source: its newlines are counted from one, and the characters
behind the last of them from zero. -/
def counted (text : List Char) : Position :=
  ⟨text.count '\n' + 1, (text.reverse.takeWhile (· != '\n')).length⟩

theorem counted_concat (text : List Char) (c : Char) : counted (text ++ [c]) = (counted text).next c := by
  by_cases hc : c = '\n'
  · simp [counted, next, hc]
  · simp [counted, next, hc]

/-- Moving on from the start of a source is counting what was passed. -/
theorem after_counted (front text : List Char) : (counted front).after text = counted (front ++ text) := by
  induction text generalizing front with
  | nil => simp
  | cons c text ih => rw [after_cons, ← counted_concat, ih, List.append_assoc, List.singleton_append]

theorem counted_line_le (text : List Char) : (counted text).line ≤ text.length + 1 :=
  Nat.succ_le_succ List.count_le_length

theorem counted_column_le (text : List Char) : (counted text).column ≤ text.length := by
  rw [← List.length_reverse]
  exact (List.takeWhile_prefix _).length_le

theorem after?_counted {front text : List Char} (h : (front ++ text).length + 1 < wordBound) :
    (counted front).after? text = some (counted (front ++ text)) := by
  induction text generalizing front with
  | nil => simp [after?]
  | cons c text ih =>
    -- Each character adds one to the line or to the column, so neither outgrows the text.
    have hline := counted_line_le (front ++ [c])
    have hcolumn := counted_column_le (front ++ [c])
    simp only [List.length_append, List.length_cons, List.length_nil] at h hline hcolumn
    have hfits : (counted (front ++ [c])).fits = true := by
      simp only [fits, Bool.and_eq_true, decide_eq_true_eq]
      omega
    rw [after?, ← counted_concat, if_pos hfits, ih (by simp; omega), List.append_assoc, List.singleton_append]

end Position

/-- A source whose offsets, lines and columns fit words, as those of every text in memory do, which takes up at most
half of the offsets. Lines are counted from one, so there may be one more of them than there are bytes. -/
def Addressable (source : String) : Prop :=
  byteLength source.toList + 1 < wordBound

instance (source : String) : Decidable (Addressable source) :=
  inferInstanceAs (Decidable (_ < _))

/-! ### Scanners that track a source -/

namespace Scanner

/-- The text that is left is the end of a source, the offset and the position are those of its start, and once
the end of the input was given no text is left. -/
structure Tracks (scanner : Scanner) (source : String) : Prop where
  place : ∃ passed, source.toList = passed ++ scanner.rest ∧ scanner.offset = byteLength passed ∧
    scanner.position = Position.counted passed
  done : scanner.finished = true → scanner.rest = []

namespace Tracks
variable {scanner : Scanner} {source : String}

theorem ofSource (source : String) : (Scanner.ofSource source).Tracks source :=
  ⟨⟨[], rfl, rfl, rfl⟩, by rintro ⟨⟩⟩

theorem skip (h : scanner.Tracks source) (count : Nat) : (scanner.skip count).Tracks source := by
  obtain ⟨⟨passed, hsource, hoffset, hposition⟩, hdone⟩ := h
  refine ⟨⟨passed ++ scanner.rest.take count, ?_, ?_, ?_⟩, fun hfinished => ?_⟩
  · rw [List.append_assoc, Scanner.skip, List.take_append_drop, hsource]
  · rw [Scanner.skip, byteLength_append, hoffset]
  · rw [Scanner.skip, hposition, Position.after_counted]
  · simp [Scanner.skip, hdone hfinished]

theorem withReports (h : scanner.Tracks source) (reports : Array Diagnostic) :
    { scanner with diagnostics := reports }.Tracks source :=
  ⟨h.place, h.done⟩

theorem lexeme (h : scanner.Tracks source) : scanner.lexeme.2.Tracks source := by
  obtain ⟨reports, heq⟩ := scanner.lexeme_eq_cut
  rw [heq]
  exact (h.skip _).withReports reports

theorem step (h : scanner.Tracks source) : scanner.step.2.Tracks source := by
  have hblanks : scanner.skipBlanks.Tracks source := h.skip _
  rcases scanner.step_cases with ⟨hend, heq⟩ | ⟨-, heq⟩
  · rw [heq]
    exact ⟨hblanks.place, fun _ => hend⟩
  · rw [heq]
    exact hblanks.lexeme

theorem isBorder (h : scanner.Tracks source) : IsBorder source.toList scanner.offset := by
  obtain ⟨passed, hsource, hoffset, -⟩ := h.place
  exact isBorder_iff.mpr ⟨passed, scanner.rest, hsource, hoffset.symm⟩

theorem offset_add (h : scanner.Tracks source) :
    scanner.offset + byteLength scanner.rest = byteLength source.toList := by
  obtain ⟨passed, hsource, hoffset, -⟩ := h.place
  rw [hsource, byteLength_append, hoffset]

theorem splitBytes? (h : scanner.Tracks source) :
    ∃ passed, ExprReader.splitBytes? source.toList scanner.offset = some (passed, scanner.rest) := by
  obtain ⟨passed, hsource, hoffset, -⟩ := h.place
  exact ⟨passed, splitBytes?_eq_some_iff.mpr ⟨hsource, hoffset.symm⟩⟩

/-- A slice from where the scanner stands is a cut of the text that is left. -/
theorem slice? (h : scanner.Tracks source) (bytes : Nat) :
    Span.slice? ⟨scanner.offset, scanner.offset + bytes⟩ source =
      (ExprReader.splitBytes? scanner.rest bytes).map fun parts => String.ofList parts.1 := by
  obtain ⟨passed, hsplit⟩ := h.splitBytes?
  have hlength : Span.length? ⟨scanner.offset, scanner.offset + bytes⟩ = some bytes := by simp [Span.length?]
  rw [Span.slice?, hlength, hsplit]

/-- The text that is left can be cut exactly where the source can. -/
theorem isBorder_add_iff (h : scanner.Tracks source) {bytes : Nat} :
    IsBorder source.toList (scanner.offset + bytes) ↔ (ExprReader.splitBytes? scanner.rest bytes).isSome = true := by
  obtain ⟨passed, hsource, hoffset, -⟩ := h.place
  change _ ↔ IsBorder scanner.rest bytes
  rw [isBorder_iff, isBorder_iff, hsource, hoffset]
  constructor
  · rintro ⟨front, back, hsplit, hlength⟩
    obtain ⟨mid, rfl, hrest⟩ := exists_eq_append_of_byteLength_le hsplit (by omega)
    exact ⟨mid, back, hrest, by simpa using hlength⟩
  · rintro ⟨front, back, hrest, hlength⟩
    exact ⟨passed ++ front, back, by rw [hrest, List.append_assoc], by rw [byteLength_append, hlength]⟩

theorem tokens (h : scanner.Tracks source) : scanner.tokens.2.Tracks source := by
  fun_induction Scanner.tokens scanner with
  | case1 scanner first _ => exact h.step
  | case2 scanner first _ others last hrest =>
    rename_i ih
    have hlast := ih h.step
    rwa [hrest] at hlast

theorem position_of_rest (h : scanner.Tracks source) (hrest : scanner.rest = []) :
    scanner.position = Position.counted source.toList := by
  obtain ⟨passed, hsource, -, hposition⟩ := h.place
  rw [hposition, hsource, hrest, List.append_nil]

end Tracks

end Scanner

/-! ### Places of tokens -/

/-- The text of the token is a part of the source, and its place is counted up to there. -/
def Token.PlacedIn (token : Token) (source : String) : Prop :=
  ∃ before after, source.toList = before ++ (token.text.toList ++ after) ∧ token.start = byteLength before ∧
    token.position = Position.counted before

theorem Scans.placedIn {text : List Char} {tokens : List Token} {source : String} (passed : List Char)
    (h : Scans text (byteLength passed) (Position.counted passed) tokens) (hsource : source.toList = passed ++ text) :
    ∀ token ∈ tokens, token.PlacedIn source := by
  generalize hoffset : byteLength passed = offset, hposition : Position.counted passed = position at h
  induction h generalizing passed with
  | blank _ => simp
  | @token gap lexeme rest kind offset position tokens _ _ _ _ ih =>
    subst hoffset hposition
    refine List.forall_mem_cons.mpr ⟨⟨passed ++ gap, rest, ?_, ?_, ?_⟩, ?_⟩
    · rw [hsource, String.toList_ofList, List.append_assoc]
    · exact (byteLength_append ..).symm
    · exact Position.after_counted ..
    · refine ih (passed ++ gap ++ lexeme) (by rw [hsource]; simp) ?_ ?_
      · rw [byteLength_append, byteLength_append]
      · rw [Position.after_counted, Position.after_counted]

/-- The end of the input stands behind the whole source. -/
theorem scan_ending (source : String) :
    (scan source).1.ending = ⟨.eof, "", byteLength source.toList, Position.counted source.toList⟩ := by
  have htracks := (Scanner.Tracks.ofSource source).tokens
  have hposition : (scan source).1.ending.position = Position.counted source.toList :=
    htracks.position_of_rest ((Scanner.ofSource source).tokens_rest rfl)
  rw [← hposition, ← scan_ending_start]
  rfl

/-- Every token of a source has its place in it, the end of the input included. -/
theorem scan_placedIn (source : String) : ∀ token ∈ (scan source).1.toList, token.PlacedIn source := by
  intro token hm
  rcases List.mem_append.mp hm with hm | hm
  · have hscans : Scans source.toList 0 {} (scan source).1.tokens.toList := scan_eq_iff.mp rfl
    exact hscans.placedIn [] rfl token hm
  · rw [List.mem_singleton.mp hm, scan_ending]
    exact ⟨source.toList, [], by simp, rfl, rfl⟩

/-! ### Scanners that hold an offset

The functions have the names and the meaning of those of `Scanner`, but what they take from the source they take
by offsets. -/

/-- A scanner that holds its source and the offset where it stands. -/
structure OffsetScanner where
  source : String
  offset : Nat := 0
  position : Position := {}
  diagnostics : Array Diagnostic := #[]
  finished : Bool := false

namespace OffsetScanner

def ofSource (source : String) : OffsetScanner :=
  { source := source }

/-- What is done with a scanner. It may fail, with the scanner as it is then. -/
abbrev Attempt := EStateM Unit OffsetScanner

namespace Attempt
variable {α β : Type} {attempt : Attempt α} {rest : α → Attempt β} {before after : OffsetScanner} {result : α}

theorem bind_ok (h : attempt before = .ok result after) : (attempt >>= rest) before = rest result after := by
  simp only [bind, EStateM.bind, h]

theorem bind_error (h : attempt before = .error () after) : (attempt >>= rest) before = .error () after := by
  simp only [bind, EStateM.bind, h]

/-- A value that has to be there. -/
def demand : Option α → Attempt α
  | some result => pure result
  | none => throw ()

theorem demand_ok {value : Option α} (h : value = some result) : demand value before = .ok result before := by
  rw [h]
  rfl

theorem demand_error {value : Option α} (h : value = none) : demand value before = .error () before := by
  rw [h]
  rfl

end Attempt

open Attempt

/-- The source from where the scanner stands. -/
def remainder : Attempt (List Char) := do
  let scanner ← get
  let text ← demand (Span.slice? ⟨scanner.offset, byteLength scanner.source.toList⟩ scanner.source)
  return text.toList

/-- The next `bytes` bytes of the source. -/
def ahead (bytes : Nat) : Attempt String := do
  let scanner ← get
  let stop ← demand (if scanner.offset + bytes < wordBound then some (scanner.offset + bytes) else none)
  demand (Span.slice? ⟨scanner.offset, stop⟩ scanner.source)

def advance (bytes : Nat) : Attempt Unit := do
  let passed ← ahead bytes
  let scanner ← get
  let position ← demand (scanner.position.after? passed.toList)
  set { scanner with offset := scanner.offset + bytes, position := position }

/-- Gives the next `bytes` bytes as a token and moves past them. -/
def emit (kind : TokenKind) (bytes : Nat) : Attempt Token := do
  let scanner ← get
  -- The text is taken before anything moves: without it nothing has changed.
  let text ← ahead bytes
  advance bytes
  demand (Token.place? kind text scanner.offset scanner.position)

def skipBlanks : Attempt Unit := do
  let rest ← remainder
  let blanks := rest.takeWhile isBlank
  if blanks.isEmpty then return () else advance (byteLength blanks)

/-- Gives the token of a pattern that fits the next `bytes` bytes. The token of a fixed text has as many bytes as
that text, whatever was found. -/
def handle (bytes : Nat) : Pattern → Attempt Token
  | .digits => emit .number bytes
  | .word => do
    let rest ← remainder
    let parts ← demand (splitBytes? rest bytes)
    emit ((TokenKind.reserved? (String.ofList parts.1)).getD .identifier) bytes
  | .quoted => emit .string bytes
  | .fixed text kind => emit kind (byteLength text)

def invalid : Attempt Token := do
  let rest ← remainder
  let token ← emit .invalid (rest.head?.elim 1 Char.utf8Size)
  modify fun scanner => { scanner with diagnostics := scanner.diagnostics.push ⟨.unknownCharacter, token.span⟩ }
  return token

/-- The first pattern that fits a text, and the number of bytes that it fits. -/
def firstFit? (text : List Char) : Option (Pattern × Nat) :=
  Pattern.table.findSome? fun pattern =>
    (pattern.length? text).map fun count => (pattern, byteLength (text.take count))

def atEnd (scanner : OffsetScanner) : Bool :=
  decide (byteLength scanner.source.toList ≤ scanner.offset)

def ending : Attempt Token := do
  let scanner ← get
  set { scanner with finished := true }
  demand (Token.place? .eof "" (byteLength scanner.source.toList) scanner.position)

def lexeme : Attempt Token := do
  let rest ← remainder
  match firstFit? rest with
  | some (pattern, bytes) => handle bytes pattern
  | none => invalid

def step : Attempt Token := do
  skipBlanks
  let scanner ← get
  if scanner.atEnd then ending else lexeme

def next : Attempt (Option Token) := do
  let scanner ← get
  if scanner.finished then return none
  else
    let token ← step
    return some token

end OffsetScanner

/-! ### Both scanners agree -/

/-- A scanner of the same source at the same place. -/
def Scanner.within (scanner : Scanner) (source : String) : OffsetScanner :=
  ⟨source, scanner.offset, scanner.position, scanner.diagnostics, scanner.finished⟩

namespace OffsetScanner
open Attempt

section
variable {scanner : Scanner} {source : String} (h : scanner.Tracks source)
include h

theorem remainder_within : remainder (scanner.within source) = .ok scanner.rest (scanner.within source) := by
  have hslice : Span.slice? ⟨scanner.offset, byteLength source.toList⟩ source = some (String.ofList scanner.rest) := by
    rw [← h.offset_add, h.slice?, splitBytes?_eq_some_iff.mpr ⟨(List.append_nil _).symm, rfl⟩]
    rfl
  refine (bind_ok rfl).trans ((bind_ok (demand_ok hslice)).trans ?_)
  rw [String.toList_ofList]
  rfl

variable (hsize : Addressable source)
include hsize

theorem ahead_within (bytes : Nat) : ahead bytes (scanner.within source) =
    demand ((splitBytes? scanner.rest bytes).map fun parts => String.ofList parts.1) (scanner.within source) := by
  refine (bind_ok rfl).trans ?_
  by_cases hword : scanner.offset + bytes < wordBound
  · rw [← h.slice?]
    exact bind_ok (demand_ok (if_pos hword))
  · -- A sum beyond the words lies beyond the source, so there is no cut either.
    have hnone : splitBytes? scanner.rest bytes = none := by
      rw [← Option.not_isSome_iff_eq_none, ← h.isBorder_add_iff]
      intro hborder
      have hle := hborder.le
      rw [Addressable] at hsize
      omega
    rw [hnone]
    exact bind_error (demand_error (if_neg hword))

theorem ahead_take (count : Nat) : ahead (byteLength (scanner.rest.take count)) (scanner.within source) =
    .ok (String.ofList (scanner.rest.take count)) (scanner.within source) := by
  rw [ahead_within h hsize, splitBytes?_eq_some_iff.mpr ⟨(List.take_append_drop count _).symm, rfl⟩]
  rfl

theorem advance_take (count : Nat) : advance (byteLength (scanner.rest.take count)) (scanner.within source) =
    .ok () ((scanner.skip count).within source) := by
  obtain ⟨passed, hsource, -, hposition⟩ := h.place
  have hplace : scanner.position.after? (scanner.rest.take count) =
      some (scanner.position.after (scanner.rest.take count)) := by
    rw [hposition, Position.after_counted, Position.after?_counted]
    have hlength := length_le_byteLength source.toList
    rw [Addressable] at hsize
    rw [hsource] at hlength hsize
    simp only [List.length_append, List.length_take] at hlength ⊢
    omega
  refine (bind_ok (ahead_take h hsize count)).trans ((bind_ok rfl).trans ?_)
  rw [String.toList_ofList]
  exact bind_ok (demand_ok hplace)

theorem emit_take (kind : TokenKind) (count : Nat) :
    emit kind (byteLength (scanner.rest.take count)) (scanner.within source) =
      .ok (scanner.cut kind count).1 ((scanner.cut kind count).2.within source) := by
  refine (bind_ok rfl).trans ((bind_ok (ahead_take h hsize count)).trans ?_)
  refine (bind_ok (advance_take h hsize count)).trans (demand_ok ?_)
  have hstop : (scanner.cut kind count).1.stop < wordBound := by
    have hreach := (h.skip count).offset_add
    rw [Addressable] at hsize
    simp only [Token.stop, Scanner.cut, Scanner.skip, String.toList_ofList] at hreach ⊢
    omega
  exact if_pos hstop

/-- A cut by bytes fails where there is no border, and then changes nothing. -/
theorem emit_within (kind : TokenKind) (bytes : Nat) : emit kind bytes (scanner.within source) =
    match scanner.cutBytes? kind bytes with
    | some (token, after) => .ok token (after.within source)
    | none => .error () (scanner.within source) := by
  cases hsplit : splitBytes? scanner.rest bytes with
  | none =>
    have hahead : ahead bytes (scanner.within source) = .error () (scanner.within source) := by
      rw [ahead_within h hsize, hsplit]
      rfl
    rw [Scanner.cutBytes?, hsplit]
    exact (bind_ok rfl).trans (bind_error hahead)
  | some parts =>
    obtain ⟨hrest, hbytes⟩ := splitBytes?_eq_some_iff.mp hsplit
    have htake : scanner.rest.take parts.1.length = parts.1 := by rw [hrest, List.take_left]
    rw [Scanner.cutBytes?, hsplit, ← hbytes, ← htake]
    simpa [htake] using emit_take h hsize kind parts.1.length

theorem skipBlanks_within : skipBlanks (scanner.within source) = .ok () (scanner.skipBlanks.within source) := by
  have htake : scanner.rest.take (scanner.rest.takeWhile isBlank).length = scanner.rest.takeWhile isBlank :=
    List.prefix_iff_eq_take.mp (List.takeWhile_prefix _) |>.symm
  refine (bind_ok (remainder_within h)).trans ?_
  cases hblanks : (scanner.rest.takeWhile isBlank).isEmpty with
  | true =>
    have hnone : scanner.skipBlanks = scanner := by
      rw [Scanner.skipBlanks, List.isEmpty_iff.mp hblanks]
      rfl
    rw [hnone]
    rfl
  | false =>
    have hadvance := advance_take h hsize (scanner.rest.takeWhile isBlank).length
    rwa [htake] at hadvance

/-- The token of a pattern is cut off as the scanner cuts it off. A fixed text is what its pattern fits. -/
theorem handle_within {pattern : Pattern} {count : Nat} (hfits : pattern.length? scanner.rest = some count) :
    handle (byteLength (scanner.rest.take count)) pattern (scanner.within source) =
      .ok (scanner.cut (pattern.kind (scanner.rest.take count)) count).1
        ((scanner.cut (pattern.kind (scanner.rest.take count)) count).2.within source) := by
  cases pattern with
  | digits => exact emit_take h hsize .number count
  | word =>
    have hsplit : splitBytes? scanner.rest (byteLength (scanner.rest.take count)) =
        some (scanner.rest.take count, scanner.rest.drop count) :=
      splitBytes?_eq_some_iff.mpr ⟨(List.take_append_drop ..).symm, rfl⟩
    refine (bind_ok (remainder_within h)).trans ((bind_ok (demand_ok hsplit)).trans ?_)
    exact emit_take h hsize _ count
  | quoted => exact emit_take h hsize .string count
  | fixed text kind =>
    simp only [Pattern.length?] at hfits
    split at hfits
    · rename_i hfront
      cases hfits
      have htake : scanner.rest.take text.length = text :=
        (List.prefix_iff_eq_take.mp (List.isPrefixOf_iff_prefix.mp hfront)).symm
      have hemit := emit_take h hsize kind text.length
      rwa [htake] at hemit
    · cases hfits

theorem invalid_within (hrest : scanner.rest ≠ []) : invalid (scanner.within source) =
    .ok (scanner.cut .invalid 1).1
      (((scanner.cut .invalid 1).2.report .unknownCharacter (scanner.cut .invalid 1).1.span).within source) := by
  have hbytes : scanner.rest.head?.elim 1 Char.utf8Size = byteLength (scanner.rest.take 1) := by
    obtain ⟨c, rest, hcons⟩ := List.exists_cons_of_ne_nil hrest
    simp [hcons]
  refine (bind_ok (remainder_within h)).trans ?_
  rw [hbytes]
  exact bind_ok (emit_take h hsize .invalid 1)

end

theorem firstFit?_cases (text : List Char) :
    firstFit? text = none ∧ Pattern.first? text = none ∨
      ∃ pattern count, pattern.length? text = some count ∧
        firstFit? text = some (pattern, byteLength (text.take count)) ∧
        Pattern.first? text = some (pattern.kind (text.take count), count) := by
  unfold firstFit? Pattern.first?
  induction Pattern.table with
  | nil => exact Or.inl ⟨rfl, rfl⟩
  | cons pattern patterns ih =>
    cases hfits : pattern.length? text with
    | none => simpa [List.findSome?_cons, hfits] using ih
    | some count => exact Or.inr ⟨pattern, count, hfits, by simp [hfits], by simp [hfits]⟩

section
variable {scanner : Scanner} {source : String} (h : scanner.Tracks source)
include h

theorem atEnd_within : (scanner.within source).atEnd = scanner.rest.isEmpty := by
  have hoffset := h.offset_add
  have hlength := length_le_byteLength scanner.rest
  rw [Bool.eq_iff_iff, atEnd, decide_eq_true_eq, List.isEmpty_iff]
  change byteLength source.toList ≤ scanner.offset ↔ _
  constructor
  · exact fun hle => List.length_eq_zero_iff.mp (by omega)
  · intro hnil
    rw [hnil, byteLength_nil] at hoffset
    omega

variable (hsize : Addressable source)
include hsize

theorem ending_within (hrest : scanner.rest = []) : ending (scanner.within source) =
    .ok scanner.ending ({ scanner with finished := true }.within source) := by
  have hoffset := h.offset_add
  rw [hrest, byteLength_nil, Nat.add_zero] at hoffset
  have hplace : Token.place? .eof "" (byteLength source.toList) scanner.position = some scanner.ending := by
    rw [Addressable] at hsize
    rw [Scanner.ending, hoffset]
    exact if_pos (by simp [Token.stop]; omega)
  exact (bind_ok rfl).trans ((bind_ok rfl).trans (demand_ok hplace))

theorem lexeme_within (hrest : scanner.rest ≠ []) : lexeme (scanner.within source) =
    .ok scanner.lexeme.1 (scanner.lexeme.2.within source) := by
  refine (bind_ok (remainder_within h)).trans ?_
  rw [Scanner.lexeme]
  rcases firstFit?_cases scanner.rest with ⟨hnone, hfirst⟩ | ⟨pattern, count, hfits, hsome, hfirst⟩
  · rw [hnone, hfirst]
    exact invalid_within h hsize hrest
  · rw [hsome, hfirst]
    exact handle_within h hsize hfits

/-- A step never fails. -/
theorem step_within : step (scanner.within source) = .ok scanner.step.1 (scanner.step.2.within source) := by
  -- The end of the source is reached exactly where no text is left, so both scanners branch alike.
  have hblanks : scanner.skipBlanks.Tracks source := h.skip _
  refine (bind_ok (skipBlanks_within h hsize)).trans ((bind_ok rfl).trans ?_)
  rw [atEnd_within hblanks]
  rcases scanner.step_cases with ⟨hend, heq⟩ | ⟨hmore, heq⟩
  · rw [heq, hend]
    exact ending_within hblanks hsize hend
  · rw [heq, List.isEmpty_eq_false_iff.mpr hmore]
    exact lexeme_within hblanks hsize hmore

theorem next_within : next (scanner.within source) = .ok scanner.next.1 (scanner.next.2.within source) := by
  refine (bind_ok rfl).trans ?_
  rw [show (scanner.within source).finished = scanner.finished from rfl, Scanner.next]
  cases scanner.finished with
  | true => rfl
  | false => exact bind_ok (step_within h hsize)

end

end OffsetScanner

end ExprReader
