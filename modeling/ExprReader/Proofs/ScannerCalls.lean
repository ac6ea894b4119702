import ExprReader.Proofs.Offsets

/-! # Calls of a scanner

A scanner may be asked for a step, for the next token or for a cut of any number of bytes, in any order. Whatever was
asked before, it tracks its source and has reported exactly the invalid tokens that it found by itself, and once it has
given the end of the input it stays there (`Scanner.Follows`). A scanner by offsets that is asked the same gives the
same, and fails only where a cut does not end on a border. -/

namespace ExprReader

/-! ### Calls and replies -/

/-- What a scanner can be asked for. -/
inductive ScannerCall where
  /-- The next token, or the end of the input again and again. -/
  | step
  /-- The next token, or the end of the input once. -/
  | next
  /-- A token of a kind and a number of bytes, wherever the scanner stands. -/
  | cut (kind : TokenKind) (bytes : Nat)
deriving DecidableEq, Repr

inductive ScannerReply where
  | given (token : Token)
  | nothing
  | failed
deriving DecidableEq, Repr

namespace ScannerReply

def ofToken? : Option Token → ScannerReply
  | some token => .given token
  | none => .nothing

/-- The token that the scanner found by itself to give this reply, if any. A token that was cut out has the kind that
the caller named. -/
def found? : ScannerCall → ScannerReply → Option Token
  | .cut _ _, _ => none
  | _, .given token => some token
  | _, _ => none

end ScannerReply

namespace ScannerCall
variable {σ : Type}

/-- Calls made one after the other, each with its reply, and the scanner that they leave. -/
def run (answer : σ → ScannerCall → ScannerReply × σ) (scanner : σ) :
    List ScannerCall → List (ScannerCall × ScannerReply) × σ
  | [] => ([], scanner)
  | call :: calls =>
    let first := answer scanner call
    let others := run answer first.2 calls
    ((call, first.1) :: others.1, others.2)

/-- The tokens that a scanner found by itself. -/
def found (exchanges : List (ScannerCall × ScannerReply)) : List Token :=
  exchanges.filterMap fun exchange => ScannerReply.found? exchange.1 exchange.2

/-- A call fails exactly under a condition, and then leaves the scanner as it was. -/
structure FailsIff (answer : σ → ScannerCall → ScannerReply × σ) (scanner : σ) (call : ScannerCall)
    (condition : Prop) : Prop where
  iff : (answer scanner call).1 = .failed ↔ condition
  unchanged : (answer scanner call).1 = .failed → (answer scanner call).2 = scanner

theorem found_cons (call : ScannerCall) (reply : ScannerReply) (exchanges : List (ScannerCall × ScannerReply)) :
    found ((call, reply) :: exchanges) = (ScannerReply.found? call reply).toList ++ found exchanges := by
  rw [found, List.filterMap_cons]
  cases ScannerReply.found? call reply <;> rfl

end ScannerCall

/-- The reply of a scanner to a call, and the scanner afterwards. -/
def Scanner.answer (scanner : Scanner) : ScannerCall → ScannerReply × Scanner
  | .step => (.given scanner.step.1, scanner.step.2)
  | .next => (.ofToken? scanner.next.1, scanner.next.2)
  | .cut kind bytes =>
    match scanner.cutBytes? kind bytes with
    | some (token, after) => (.given token, after)
    | none => (.failed, scanner)

namespace OffsetScanner

def seen {α : Type} (reply : α → ScannerReply) : EStateM.Result Unit OffsetScanner α → ScannerReply × OffsetScanner
  | .ok result after => (reply result, after)
  | .error _ after => (.failed, after)

def answer (scanner : OffsetScanner) : ScannerCall → ScannerReply × OffsetScanner
  | .step => seen .given (step scanner)
  | .next => seen .ofToken? (next scanner)
  | .cut kind bytes => seen .given (emit kind bytes scanner)

theorem answer_within {scanner : Scanner} {source : String} (h : scanner.Tracks source) (hsize : Addressable source)
    (call : ScannerCall) :
    (scanner.within source).answer call = ((scanner.answer call).1, (scanner.answer call).2.within source) := by
  cases call with
  | step => rw [answer, step_within h hsize, seen, Scanner.answer]
  | next => rw [answer, next_within h hsize, seen, Scanner.answer]
  | cut kind bytes =>
    rw [answer, emit_within h hsize, Scanner.answer]
    cases scanner.cutBytes? kind bytes <;> rfl

end OffsetScanner

/-! ### What one call does -/

namespace Scanner
variable {scanner : Scanner} {source : String}

theorem reportsFor_append (front back : List Token) :
    reportsFor (front ++ back) = reportsFor front ++ reportsFor back := by
  simp [reportsFor]

theorem step_reports (scanner : Scanner) :
    scanner.step.2.diagnostics.toList = scanner.diagnostics.toList ++ reportsFor [scanner.step.1] := by
  rcases scanner.step_cases with ⟨-, heq⟩ | ⟨-, heq⟩
  · simp [heq, reportsFor, ending, skipBlanks, skip]
  · rw [heq]
    exact scanner.skipBlanks.lexeme_reports

/-- A step that gives the end of the input finishes the scanner, and it would give the same once more. -/
theorem step_of_eof (h : scanner.step.1.kind = .eof) :
    scanner.step.2.finished = true ∧ scanner.step.2.ending = scanner.step.1 := by
  rcases scanner.step_cases with ⟨-, heq⟩ | ⟨-, heq⟩
  · rw [heq]
    exact ⟨rfl, rfl⟩
  · rw [heq] at h
    exact absurd h (lexeme_kind _)

theorem answer_next (scanner : Scanner) :
    scanner.answer .next = if scanner.finished then (.nothing, scanner) else scanner.answer .step := by
  simp only [answer, next]
  cases scanner.finished <;> rfl

theorem answer_next_of_finished (hf : scanner.finished = true) : scanner.answer .next = (.nothing, scanner) := by
  rw [answer_next, if_pos hf]

theorem answer_next_of_not_finished (hf : scanner.finished = false) : scanner.answer .next = scanner.answer .step := by
  rw [answer_next, hf]
  rfl

theorem offset_le_skip (scanner : Scanner) (count : Nat) : scanner.offset ≤ (scanner.skip count).offset :=
  Nat.le_add_right ..

theorem offset_le_step (scanner : Scanner) : scanner.offset ≤ scanner.step.2.offset := by
  have hblanks : scanner.offset ≤ scanner.skipBlanks.offset := scanner.offset_le_skip _
  rcases scanner.step_cases with ⟨-, heq⟩ | ⟨-, heq⟩
  · rw [heq]
    exact hblanks
  · obtain ⟨reports, hlexeme⟩ := scanner.skipBlanks.lexeme_eq_cut
    rw [heq, hlexeme]
    exact Nat.le_trans hblanks (scanner.skipBlanks.offset_le_skip _)

theorem answer_cut_failsIff (h : scanner.Tracks source) (kind : TokenKind) (bytes : Nat) :
    ScannerCall.FailsIff answer scanner (.cut kind bytes) (¬ IsBorder source.toList (scanner.offset + bytes)) := by
  have hnone : scanner.cutBytes? kind bytes = none ↔ ¬ IsBorder source.toList (scanner.offset + bytes) := by
    rw [cutBytes?, Option.map_eq_none_iff, h.isBorder_add_iff, Option.not_isSome_iff_eq_none]
  constructor
  · rw [← hnone, answer]
    split
    · rename_i hcut
      simp [hcut]
    · rename_i hcut
      simp [hcut]
  · rw [answer]
    split
    · rintro ⟨⟩
    · exact fun _ => rfl

theorem answer_step_ne_failed (scanner : Scanner) : (scanner.answer .step).1 ≠ .failed := by
  rintro ⟨⟩

theorem answer_next_ne_failed (scanner : Scanner) : (scanner.answer .next).1 ≠ .failed := by
  rw [answer_next]
  split
  · rintro ⟨⟩
  · exact scanner.answer_step_ne_failed

/-- A call is a step, or finds nothing and moves on by some characters or none. -/
theorem answer_cases (scanner : Scanner) (call : ScannerCall) :
    ScannerReply.found? call (scanner.answer call).1 = some scanner.step.1 ∧ (scanner.answer call).2 = scanner.step.2 ∨
      ScannerReply.found? call (scanner.answer call).1 = none ∧ ∃ count, (scanner.answer call).2 = scanner.skip count := by
  cases call with
  | step => exact Or.inl ⟨rfl, rfl⟩
  | next =>
    rw [answer_next]
    split
    · exact Or.inr ⟨rfl, 0, rfl⟩
    · exact Or.inl ⟨rfl, rfl⟩
  | cut kind bytes =>
    refine Or.inr ⟨rfl, ?_⟩
    rw [answer, cutBytes?]
    cases splitBytes? scanner.rest bytes with
    | none => exact ⟨0, rfl⟩
    | some parts => exact ⟨parts.1.length, rfl⟩

theorem offset_le_answer (scanner : Scanner) (call : ScannerCall) :
    scanner.offset ≤ (scanner.answer call).2.offset := by
  rcases scanner.answer_cases call with ⟨-, hafter⟩ | ⟨-, count, hafter⟩
  · rw [hafter]
    exact scanner.offset_le_step
  · rw [hafter]
    exact scanner.offset_le_skip count

/-! ### After the end of the input -/

theorem skip_of_nil (hrest : scanner.rest = []) (count : Nat) : scanner.skip count = scanner := by
  obtain ⟨rest, offset, position, diagnostics, finished⟩ := scanner
  cases hrest
  simp [skip]

theorem answer_step_of_finished (hrest : scanner.rest = []) (hf : scanner.finished = true) :
    scanner.answer .step = (.given scanner.ending, scanner) := by
  have hblanks : scanner.skipBlanks = scanner := skip_of_nil hrest _
  have hsame : { scanner with finished := true } = scanner := by rw [← hf]
  rcases scanner.step_cases with ⟨-, heq⟩ | ⟨hmore, -⟩
  · rw [answer, heq, hblanks, hsame]
  · rw [hblanks] at hmore
    exact absurd hrest hmore

/-! ### What all calls keep -/

/-- A scanner of a source that has found some tokens by itself. -/
structure Follows (scanner : Scanner) (source : String) (tokens : List Token) : Prop where
  tracks : scanner.Tracks source
  reports : scanner.diagnostics.toList = reportsFor tokens
  ended : ∀ token ∈ tokens, token.kind = .eof → scanner.finished = true ∧ scanner.ending = token

namespace Follows
variable {tokens : List Token}

theorem ofSource (source : String) : (Scanner.ofSource source).Follows source [] :=
  ⟨.ofSource source, rfl, by simp⟩

/-- The end of the input is given again and again, or once. -/
theorem answer_of_eof (h : scanner.Follows source tokens) {token : Token} (hm : token ∈ tokens)
    (heof : token.kind = .eof) :
    scanner.answer .step = (.given token, scanner) ∧ scanner.answer .next = (.nothing, scanner) := by
  obtain ⟨hf, hending⟩ := h.ended token hm heof
  refine ⟨?_, answer_next_of_finished hf⟩
  rw [answer_step_of_finished (h.tracks.done hf) hf, hending]

theorem step (h : scanner.Follows source tokens) :
    scanner.step.2.Follows source (tokens ++ [scanner.step.1]) := by
  refine ⟨h.tracks.step, ?_, fun token hm heof => ?_⟩
  · rw [step_reports, h.reports, reportsFor_append]
  · rcases List.mem_append.mp hm with hm | hm
    · -- The end of the input was given before, and this step gives it again.
      have hanswer := (h.answer_of_eof hm heof).1
      have hsame : scanner.step.2 = scanner := congrArg Prod.snd hanswer
      rw [hsame]
      exact h.ended token hm heof
    · obtain rfl := List.mem_singleton.mp hm
      exact step_of_eof heof

theorem skip (h : scanner.Follows source tokens) (count : Nat) : (scanner.skip count).Follows source tokens := by
  refine ⟨h.tracks.skip count, h.reports, fun token hm heof => ?_⟩
  have hended := h.ended token hm heof
  rwa [skip_of_nil (h.tracks.done hended.1)]

/-- Every call keeps what a scanner follows. -/
theorem answer (h : scanner.Follows source tokens) (call : ScannerCall) :
    (scanner.answer call).2.Follows source
      (tokens ++ (ScannerReply.found? call (scanner.answer call).1).toList) := by
  rcases scanner.answer_cases call with ⟨hfound, hafter⟩ | ⟨hfound, count, hafter⟩
  · rw [hfound, hafter]
    exact h.step
  · rw [hfound, hafter, Option.toList_none, List.append_nil]
    exact h.skip count

theorem run (h : scanner.Follows source tokens) (calls : List ScannerCall) :
    (ScannerCall.run Scanner.answer scanner calls).2.Follows source
      (tokens ++ ScannerCall.found (ScannerCall.run Scanner.answer scanner calls).1) := by
  induction calls generalizing tokens scanner with
  | nil => simpa [ScannerCall.run, ScannerCall.found] using h
  | cons call calls ih =>
    have hrun := ih (h.answer call)
    rw [List.append_assoc] at hrun
    rw [ScannerCall.run, ScannerCall.found_cons]
    exact hrun

end Follows

theorem offset_le_run (scanner : Scanner) (calls : List ScannerCall) :
    scanner.offset ≤ (ScannerCall.run answer scanner calls).2.offset := by
  induction calls generalizing scanner with
  | nil => exact Nat.le_refl _
  | cons call calls ih => exact Nat.le_trans (scanner.offset_le_answer call) (ih _)

end Scanner

namespace OffsetScanner
variable {scanner : Scanner} {source : String}

/-- Scanners at the same place give the same replies to the same calls. -/
theorem run_within {tokens : List Token} (h : scanner.Follows source tokens) (hsize : Addressable source)
    (calls : List ScannerCall) : ScannerCall.run answer (scanner.within source) calls =
      ((ScannerCall.run Scanner.answer scanner calls).1,
        (ScannerCall.run Scanner.answer scanner calls).2.within source) := by
  induction calls generalizing tokens scanner with
  | nil => rfl
  | cons call calls ih =>
    rw [ScannerCall.run, answer_within h.tracks hsize, ScannerCall.run, ih (h.answer call)]

theorem failsIff_within (h : scanner.Tracks source) (hsize : Addressable source) {call : ScannerCall}
    {condition : Prop} (hfails : ScannerCall.FailsIff Scanner.answer scanner call condition) :
    ScannerCall.FailsIff answer (scanner.within source) call condition := by
  constructor
  · rw [answer_within h hsize]
    exact hfails.iff
  · rw [answer_within h hsize]
    exact fun hfailed => congrArg (Scanner.within · source) (hfails.unchanged hfailed)

end OffsetScanner

/-- An offset is no border where it does not fit a word, lies beyond the source or lies inside a character. -/
theorem not_isBorder_iff {source : String} (hsize : Addressable source) {offset : Nat} :
    ¬ IsBorder source.toList offset ↔ wordBound ≤ offset ∨ byteLength source.toList < offset ∨
      ¬ IsBorder source.toList offset := by
  refine ⟨fun h => Or.inr (Or.inr h), ?_⟩
  rintro (hlarge | hbeyond | hinside) hborder
  · have hle := hborder.le
    rw [Addressable] at hsize
    omega
  · exact absurd hborder.le (Nat.not_le.mpr hbeyond)
  · exact hinside hborder

/-- Whatever a scanner was asked, it stands on a border of its source, at the line and column counted up to there, and
nothing that it is asked moves it back. It has reported the invalid tokens that it found by itself, and after the end
of the input it gives only that. A cut fails where there is no border, and changes nothing then. By offsets the same
is done and never fails but for a cut whose end does not fit a word, lies beyond the source or inside a character. -/
theorem scanner_after_calls (source : String) (calls : List ScannerCall) :
    let made := ScannerCall.run Scanner.answer (.ofSource source) calls
    let scanner := made.2
    (∃ passed, splitBytes? source.toList scanner.offset = some (passed, scanner.rest) ∧
      scanner.offset ≤ byteLength source.toList ∧ scanner.position = Position.counted passed) ∧
    (∀ more, scanner.offset ≤ (ScannerCall.run Scanner.answer scanner more).2.offset) ∧
    scanner.diagnostics.toList = Scanner.reportsFor (ScannerCall.found made.1) ∧
    (∀ token ∈ ScannerCall.found made.1, token.kind = .eof →
      scanner.answer .step = (.given token, scanner) ∧ scanner.answer .next = (.nothing, scanner)) ∧
    (∀ kind bytes, ScannerCall.FailsIff Scanner.answer scanner (.cut kind bytes)
      (¬ IsBorder source.toList (scanner.offset + bytes))) ∧
    (Addressable source →
      ScannerCall.run OffsetScanner.answer (.ofSource source) calls = (made.1, scanner.within source) ∧
      ((scanner.within source).answer .step).1 ≠ .failed ∧ ((scanner.within source).answer .next).1 ≠ .failed ∧
      ∀ kind bytes, ScannerCall.FailsIff OffsetScanner.answer (scanner.within source) (.cut kind bytes)
        (wordBound ≤ scanner.offset + bytes ∨ byteLength source.toList < scanner.offset + bytes ∨
          ¬ IsBorder source.toList (scanner.offset + bytes))) := by
  intro made scanner
  have hstart := Scanner.Follows.ofSource source
  have hfollows : scanner.Follows source (ScannerCall.found made.1) := hstart.run calls
  have htracks := hfollows.tracks
  refine ⟨?_, scanner.offset_le_run, hfollows.reports, fun token hm heof => hfollows.answer_of_eof hm heof,
    Scanner.answer_cut_failsIff htracks, fun hsize => ⟨OffsetScanner.run_within hstart hsize calls, ?_, ?_, ?_⟩⟩
  · obtain ⟨passed, hsource, hoffset, hposition⟩ := htracks.place
    exact ⟨passed, splitBytes?_eq_some_iff.mpr ⟨hsource, hoffset.symm⟩, htracks.isBorder.le, hposition⟩
  · rw [OffsetScanner.answer_within htracks hsize]
    exact scanner.answer_step_ne_failed
  · rw [OffsetScanner.answer_within htracks hsize]
    exact scanner.answer_next_ne_failed
  · intro kind bytes
    rw [← not_isBorder_iff hsize]
    exact OffsetScanner.failsIff_within htracks hsize (Scanner.answer_cut_failsIff htracks kind bytes)

/-- A cut into a quotation, one that stops behind its quotation mark, and cuts after the end of the input. -/
theorem scanner_after_calls_inside_quotation :
    let source := "\"\u00e9\"\n+"
    let calls := [.cut .string 2, .cut .string 1, .step, .next, .next, .next, .cut .eof 0, .step, .next,
      .cut .plus wordBound]
    Addressable source ∧ (ScannerCall.run OffsetScanner.answer (.ofSource source) calls).1.map Prod.snd =
      [.failed, .given ⟨.string, "\"", 0, ⟨1, 0⟩⟩, .given ⟨.invalid, "\u00e9", 1, ⟨1, 1⟩⟩,
        .given ⟨.invalid, "\"", 3, ⟨1, 2⟩⟩, .given ⟨.plus, "+", 5, ⟨2, 0⟩⟩, .given ⟨.eof, "", 6, ⟨2, 1⟩⟩,
        .given ⟨.eof, "", 6, ⟨2, 1⟩⟩, .given ⟨.eof, "", 6, ⟨2, 1⟩⟩, .nothing, .failed] := by
  intro source calls
  have hsize : Addressable source := by decide +kernel
  obtain ⟨-, -, -, -, -, hoffsets⟩ := scanner_after_calls source calls
  have hrun := (hoffsets hsize).1
  refine ⟨hsize, ?_⟩
  rw [hrun]
  decide +kernel

end ExprReader
