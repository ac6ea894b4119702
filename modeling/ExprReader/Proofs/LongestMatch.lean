import ExprReader.Proofs.Lexemes
import ExprReader.Proofs.ScannerCalls

/-! # The longest match

Every pattern stands for some texts (`Pattern.Matches`). The patterns are tried in the order of the table, and yet
what is cut off a text is the longest front that any of them stands for: a pattern takes as much as it can, patterns
that are not fixed texts begin with characters of their own, and no fixed text stands before one that is longer by
what follows it. -/

namespace ExprReader

namespace Pattern
variable {pattern : Pattern} {text lexeme rest : List Char} {kind : TokenKind} {count : Nat}

/-- The texts that a pattern stands for. -/
def Matches : Pattern → List Char → Prop
  | digits, text => text ≠ [] ∧ ∀ c ∈ text, c.isDigit = true
  | word, text => ∃ c others, text = c :: others ∧ c.isAlpha = true ∧ ∀ d ∈ others, isWordChar d = true
  | quoted, text => ∃ inside, text = '"' :: (inside ++ ['"']) ∧ '"' ∉ inside
  | fixed front _, text => text = front

/-! ### What a pattern fits -/

theorem length_takeWhile_append_of_all {α : Type} {p : α → Bool} {front : List α} (h : ∀ x ∈ front, p x = true)
    (back : List α) : front.length ≤ ((front ++ back).takeWhile p).length := by
  rw [List.takeWhile_append_of_pos h, List.length_append]
  exact Nat.le_add_right ..

/-- A pattern fits the front of a text that it stands for, or more. -/
theorem Matches.fits (h : pattern.Matches lexeme) (rest : List Char) :
    ∃ count, pattern.length? (lexeme ++ rest) = some count ∧ lexeme.length ≤ count := by
  cases pattern with
  | digits =>
    obtain ⟨hne, hdigits⟩ := h
    have hlength := length_takeWhile_append_of_all hdigits rest
    have hpos := List.length_pos_iff.mpr hne
    exact ⟨_, by rw [length?, if_neg (by omega)], hlength⟩
  | word =>
    obtain ⟨c, others, rfl, hletter, hothers⟩ := h
    refine ⟨_, by rw [List.cons_append, length?, if_pos hletter], ?_⟩
    exact Nat.succ_le_succ (length_takeWhile_append_of_all hothers rest)
  | quoted =>
    obtain ⟨inside, rfl, hinside⟩ := h
    have hother : ∀ c ∈ inside, (c != '"') = true := by
      rintro c hc
      exact bne_iff_ne.mpr fun hquote => hinside (hquote ▸ hc)
    have htake : (inside ++ '"' :: rest).takeWhile (· != '"') = inside := by
      rw [List.takeWhile_append_of_pos hother]
      simp
    refine ⟨inside.length + 2, ?_, by simp⟩
    rw [List.cons_append, List.append_assoc, List.singleton_append, length?, htake, if_pos (by simp)]
  | fixed front kind =>
    obtain rfl := h
    exact ⟨lexeme.length, by rw [length?, if_pos (by simp)], Nat.le_refl _⟩

/-- What a pattern fits is a text that it stands for. -/
theorem matches_take (h : pattern.length? text = some count) : pattern.Matches (text.take count) := by
  cases pattern with
  | digits =>
    simp only [length?] at h
    split at h
    · cases h
    · rename_i hsome
      cases h
      rw [← List.prefix_iff_eq_take.mp (List.takeWhile_prefix _)]
      refine ⟨fun hnil => hsome (by rw [hnil]; rfl), List.all_eq_true.mp List.all_takeWhile⟩
  | word =>
    cases text with
    | nil => cases h
    | cons c text =>
      simp only [length?] at h
      split at h
      · rename_i hletter
        cases h
        rw [List.take_succ_cons, ← List.prefix_iff_eq_take.mp (List.takeWhile_prefix _)]
        exact ⟨c, _, rfl, hletter, List.all_eq_true.mp List.all_takeWhile⟩
      · cases h
  | quoted =>
    cases text with
    | nil => cases h
    | cons c text =>
      simp only [length?] at h
      split at h
      · rename_i hclosed
        cases h
        -- Behind the text without a quotation mark there is more text, and it begins with one.
        have hsplit := List.takeWhile_append_dropWhile (p := (· != '"')) (l := text)
        cases hrest : text.dropWhile (· != '"') with
        | nil =>
          rw [hrest, List.append_nil] at hsplit
          rw [hsplit] at hclosed
          exact absurd hclosed.2 (Nat.lt_irrefl _)
        | cons d after =>
          have hquote := List.head?_dropWhile_not (· != '"') text
          rw [hrest] at hquote hsplit
          obtain rfl : d = '"' := by simpa using hquote
          have hinside : '"' ∉ text.takeWhile (· != '"') := fun hm =>
            absurd (List.all_eq_true.mp List.all_takeWhile _ hm) (by decide)
          have htake := @List.take_length_add_append _ (text.takeWhile (· != '"')) ('"' :: after) 1
          rw [hsplit] at htake
          refine ⟨_, ?_, hinside⟩
          rw [List.take_succ_cons, htake, hclosed.1]
          rfl
      · cases h
  | fixed front kind =>
    simp only [length?] at h
    split at h
    · rename_i hfront
      cases h
      exact (List.prefix_iff_eq_take.mp (List.isPrefixOf_iff_prefix.mp hfront)).symm
    · cases h

/-- The fronts of a text that a pattern stands for are no longer than what it fits. -/
theorem Matches.length_le (h : pattern.Matches lexeme) (hfront : lexeme <+: text)
    (hfits : pattern.length? text = some count) : lexeme.length ≤ count := by
  obtain ⟨rest, rfl⟩ := hfront
  obtain ⟨most, hmost, hle⟩ := h.fits rest
  rw [hfits] at hmost
  cases hmost
  exact hle

theorem Matches.length?_ne_none (h : pattern.Matches lexeme) (hfront : lexeme <+: text) :
    pattern.length? text ≠ none := by
  obtain ⟨rest, rfl⟩ := hfront
  obtain ⟨most, hmost, -⟩ := h.fits rest
  simp [hmost]

theorem Matches.ne_nil (hm : pattern ∈ table) (h : pattern.Matches lexeme) : lexeme ≠ [] := by
  cases pattern with
  | digits => exact h.1
  | word =>
    obtain ⟨c, others, rfl, -⟩ := h
    exact List.cons_ne_nil c others
  | quoted =>
    obtain ⟨inside, rfl, -⟩ := h
    exact List.cons_ne_nil '"' (inside ++ ['"'])
  | fixed front kind =>
    obtain rfl := h
    exact fixed_ne_nil hm

/-! ### The order of the table -/

/-- The patterns that may fit a text, by its first character. -/
inductive Family where
  | digits
  | word
  | quoted
  | fixed
deriving DecidableEq

def family : Pattern → Family
  | digits => .digits
  | word => .word
  | quoted => .quoted
  | fixed _ _ => .fixed

/-- The patterns that may fit a text with a given first character. -/
def Family.ofChar (c : Char) : Family :=
  if c.isDigit then .digits else if c.isAlpha then .word else if c = '"' then .quoted else .fixed

theorem isDigit_eq_false_of_isAlpha {c : Char} (h : c.isAlpha = true) : c.isDigit = false := by
  refine Bool.eq_false_iff.mpr fun hdigit => ?_
  have hletter := toNat_of_isAlpha h
  have hrange := toNat_of_isDigit hdigit
  omega

/-- The first character of a fixed text. -/
def mark? : Pattern → Option Char
  | fixed front _ => front.head?
  | _ => none

/-- No fixed text begins with a digit, a letter or a quotation mark. -/
theorem all_mark?_ofChar : ∀ pattern ∈ table, pattern.mark?.all (Family.ofChar · = .fixed) = true := by
  decide

/-- The first character tells the family of a pattern. -/
theorem Matches.family_eq {c : Char} (hm : pattern ∈ table) (h : pattern.Matches (c :: text)) :
    pattern.family = .ofChar c := by
  cases pattern with
  | digits => rw [Family.ofChar, if_pos (h.2 c (List.mem_cons_self ..))]; rfl
  | word =>
    obtain ⟨_, _, ⟨⟩, hletter, -⟩ := h
    rw [Family.ofChar, isDigit_eq_false_of_isAlpha hletter, if_pos hletter]
    rfl
  | quoted =>
    obtain ⟨inside, heq, -⟩ := h
    rw [(List.cons.inj heq).1]
    rfl
  | fixed front kind =>
    obtain rfl := h
    exact (of_decide_eq_true (all_mark?_ofChar _ hm)).symm

theorem eq_or_fixed_of_family_eq {p q : Pattern} (h : p.family = q.family) :
    p = q ∨ ∃ u k v l, p = fixed u k ∧ q = fixed v l := by
  cases p <;> cases q <;> simp_all [family]

/-- Whether a fixed text is the front of another one. -/
def hides : Pattern → Pattern → Bool
  | fixed u _, fixed v _ => u.isPrefixOf v
  | _, _ => false

/-- A fixed text stands behind those that it is the front of. -/
theorem table_pairwise : table.Pairwise fun p q => p.hides q = false := by
  decide

theorem eq_of_hides : ∀ p ∈ table, ∀ q ∈ table, p.hides q = true → q.hides p = true → p = q := by
  decide +kernel

/-- Patterns that stand for fronts of one text are the same or fixed texts. -/
theorem Matches.eq_or_fixed {p q : Pattern} {front : List Char} (hp : p ∈ table) (hq : q ∈ table)
    (h : p.Matches lexeme) (h' : q.Matches front) (hlexeme : lexeme <+: text) (hfront : front <+: text) :
    p = q ∨ ∃ k l, p = fixed lexeme k ∧ q = fixed front l := by
  obtain ⟨c, others, rfl⟩ := List.exists_cons_of_ne_nil (h.ne_nil hp)
  obtain ⟨d, more, rfl⟩ := List.exists_cons_of_ne_nil (h'.ne_nil hq)
  obtain ⟨back, rfl⟩ := hlexeme
  obtain rfl : d = c := (List.cons_prefix_cons.mp hfront).1
  have hfamily := (h.family_eq hp).trans (h'.family_eq hq).symm
  rcases eq_or_fixed_of_family_eq hfamily with heq | ⟨u, k, v, l, rfl, rfl⟩
  · exact Or.inl heq
  · obtain rfl := h
    obtain rfl := h'
    exact Or.inr ⟨k, l, rfl, rfl⟩

/-- A text stands for one pattern of the table at most. -/
theorem Matches.unique {p q : Pattern} (hp : p ∈ table) (hq : q ∈ table) (h : p.Matches lexeme)
    (h' : q.Matches lexeme) : p = q := by
  rcases h.eq_or_fixed hp hq h' List.prefix_rfl List.prefix_rfl with heq | ⟨k, l, rfl, rfl⟩
  · exact heq
  · exact eq_of_hides _ hp _ hq (by simp [hides]) (by simp [hides])

/-- The pattern that decides stands for what it fits, and no pattern of the table for a longer front. -/
theorem first?_longest (h : first? text = some (kind, count)) :
    ∃ pattern ∈ table, pattern.Matches (text.take count) ∧ kind = pattern.kind (text.take count) ∧
      ∀ other ∈ table, ∀ lexeme, lexeme <+: text → other.Matches lexeme → lexeme.length ≤ count := by
  obtain ⟨before, pattern, after, htable, hfits, hearlier⟩ := List.findSome?_eq_some_iff.mp h
  obtain ⟨n, hcount, hfound⟩ := Option.map_eq_some_iff.mp hfits
  cases hfound
  have hm : pattern ∈ table := by simp [htable]
  have hmatches := matches_take hcount
  refine ⟨pattern, hm, hmatches, rfl, fun other hother lexeme hfront hlexeme => ?_⟩
  have horder := table_pairwise
  rw [htable, List.pairwise_append, List.pairwise_cons] at horder
  rw [htable, List.mem_append, List.mem_cons] at hother
  rcases hother with hbefore | rfl | hafter
  · exact absurd (Option.map_eq_none_iff.mp (hearlier other hbefore)) (hlexeme.length?_ne_none hfront)
  · exact hlexeme.length_le hfront hcount
  · have hother : other ∈ table := by simp [htable, hafter]
    rcases hlexeme.eq_or_fixed hother hm hmatches hfront (List.take_prefix _ _) with rfl | ⟨k, l, rfl, hpattern⟩
    · exact hlexeme.length_le hfront hcount
    · -- Of two fixed texts the one that is tried first is no front of the other.
      have hhides := horder.2.1.1 _ hafter
      rw [hpattern, hides, ← Bool.not_eq_true, List.isPrefixOf_iff_prefix] at hhides
      rcases List.prefix_or_prefix_of_prefix (List.take_prefix count text) hfront with hlonger | hshorter
      · exact absurd hlonger hhides
      · exact Nat.le_trans hshorter.length_le (List.length_take_le count text)

theorem first?_eq_none_iff :
    first? text = none ↔ ∀ pattern ∈ table, ∀ lexeme, lexeme <+: text → ¬pattern.Matches lexeme := by
  constructor
  · intro h pattern hm lexeme hfront hmatches
    exact hmatches.length?_ne_none hfront (Option.map_eq_none_iff.mp (List.findSome?_eq_none_iff.mp h pattern hm))
  · intro h
    cases hfirst : first? text with
    | none => rfl
    | some found =>
      obtain ⟨pattern, hm, hmatches, -⟩ := first?_longest hfirst
      exact absurd hmatches (h pattern hm _ (List.take_prefix _ _))

/-- A word is a name unless it is the reserved one. -/
theorem word_kind_eq (lexeme : List Char) :
    word.kind lexeme = if String.ofList lexeme = "function" then .function else .identifier := by
  simp only [kind, TokenKind.reserved?, TokenKind.reservedWords, List.lookup_cons, List.lookup_nil]
  by_cases h : String.ofList lexeme = "function"
  · rw [if_pos h, beq_iff_eq.mpr h]
    rfl
  · rw [if_neg h, beq_eq_false_iff_ne.mpr h]
    rfl

end Pattern

/-! ### Steps of a scanner -/

/-- A pattern of the table stands for a front of a text, no other one does, and none of them for a longer front. -/
structure LongestMatch (text : List Char) (pattern : Pattern) (lexeme : List Char) : Prop where
  front : lexeme <+: text
  listed : pattern ∈ Pattern.table
  found : pattern.Matches lexeme
  only : ∀ other ∈ Pattern.table, other.Matches lexeme → other = pattern
  longest : ∀ other ∈ Pattern.table, ∀ front, front <+: text → other.Matches front → front.length ≤ lexeme.length

/-- The token at the front of a text is the longest match, or a single character where there is none. -/
theorem Pattern.front_cases {text : List Char} (h : text ≠ []) :
    (∃ pattern, LongestMatch text pattern (text.take (front text).2) ∧
      (front text).1 = pattern.kind (text.take (front text).2)) ∨
    (∀ pattern ∈ table, ∀ lexeme, lexeme <+: text → ¬pattern.Matches lexeme) ∧ front text = (.invalid, 1) := by
  cases hfirst : first? text with
  | none =>
    exact Or.inr ⟨first?_eq_none_iff.mp hfirst, by rw [front, hfirst]; rfl⟩
  | some found =>
    obtain ⟨kind, count⟩ := found
    have hfront : front text = (kind, count) := by rw [front, hfirst]; rfl
    have hlength : (text.take count).length = count := by
      have hle := front_le h
      rw [hfront] at hle
      exact List.length_take_of_le hle
    obtain ⟨pattern, hm, hmatches, hkind, hlongest⟩ := first?_longest hfirst
    refine Or.inl ⟨pattern, ?_⟩
    rw [hfront]
    refine ⟨⟨List.take_prefix _ _, hm, hmatches, fun other hother h' => h'.unique hother hm hmatches, ?_⟩, hkind⟩
    rw [hlength]
    exact hlongest

/-- A step behind blanks cuts the front of the text off. -/
theorem Scanner.step_front {scanner : Scanner} {gap : List Char} {c : Char} {text : List Char}
    (hrest : scanner.rest = gap ++ c :: text) (hgap : ∀ d ∈ gap, isBlank d = true) (hc : isBlank c = false) :
    let count := (Pattern.front (c :: text)).2
    scanner.step.1 = ⟨(Pattern.front (c :: text)).1, String.ofList ((c :: text).take count),
        scanner.offset + byteLength gap, scanner.position.after gap⟩ ∧
      scanner.step.2.rest = (c :: text).drop count ∧
      scanner.step.2.offset = scanner.offset + byteLength gap + byteLength ((c :: text).take count) := by
  intro count
  have hsplit : (c :: text).take count ++ (c :: text).drop count = c :: text := List.take_append_drop _ _
  have hfirst : ∃ d ∈ ((c :: text).take count).head?, isBlank d = false := by
    refine ⟨c, ?_, hc⟩
    rw [List.head?_take, if_neg (Nat.ne_of_gt (Pattern.front_pos _))]
    rfl
  have hfront : Pattern.front ((c :: text).take count ++ (c :: text).drop count) =
      ((Pattern.front (c :: text)).1, ((c :: text).take count).length) := by
    rw [hsplit, List.length_take_of_le (Pattern.front_le (List.cons_ne_nil c text))]
  obtain ⟨htoken, hafter, -, hoffset, -⟩ := Scanner.step_token (hsplit.symm ▸ hrest) hgap hfirst hfront
  exact ⟨htoken, hafter, hoffset⟩

/-- Whatever a scanner was asked before, behind the blanks where it stands it cuts off the longest front of the text
that a pattern of the table stands for, as a token of the kind that the pattern gives it, or a single character as an
invalid token where no pattern stands for a front, and it stops right behind that. By offsets the same token is given. -/
theorem step_longest_match (source : String) (calls : List ScannerCall) (gap : List Char) (c : Char) (text : List Char)
    (hgap : ∀ d ∈ gap, isBlank d = true) (hc : isBlank c = false)
    (hrest : (ScannerCall.run Scanner.answer (.ofSource source) calls).2.rest = gap ++ c :: text) :
    let scanner := (ScannerCall.run Scanner.answer (.ofSource source) calls).2
    let token := scanner.step.1
    let after := scanner.step.2
    ((∃ pattern, LongestMatch (c :: text) pattern token.text.toList ∧ token.kind = pattern.kind token.text.toList ∧
        (pattern = .word → token.kind = if token.text = "function" then .function else .identifier)) ∨
      (∀ pattern ∈ Pattern.table, ∀ front, front <+: c :: text → ¬pattern.Matches front) ∧
        token.kind = .invalid ∧ token.text.toList = [c]) ∧
    c :: text = token.text.toList ++ after.rest ∧ token.start = scanner.offset + byteLength gap ∧
    after.offset = token.stop ∧
    (Addressable source → (ScannerCall.run OffsetScanner.answer (.ofSource source) calls).2.answer .step =
      (.given token, after.within source)) := by
  intro scanner token after
  obtain ⟨htoken, hafter, hoffset⟩ : token = _ ∧ after.rest = _ ∧ after.offset = _ :=
    Scanner.step_front hrest hgap hc
  have htext : token.text.toList = (c :: text).take (Pattern.front (c :: text)).2 := by
    rw [htoken, String.toList_ofList]
  have hkind : token.kind = (Pattern.front (c :: text)).1 := by rw [htoken]
  refine ⟨?_, ?_, ?_, ?_, fun hsize => ?_⟩
  · rcases Pattern.front_cases (List.cons_ne_nil c text) with ⟨pattern, hlongest, hpattern⟩ | ⟨hnone, hinvalid⟩
    · rw [← htext] at hlongest hpattern
      refine Or.inl ⟨pattern, hlongest, hkind.trans hpattern, ?_⟩
      rintro rfl
      rw [hkind, hpattern, Pattern.word_kind_eq, String.ofList_toList]
    · rw [hinvalid] at hkind htext
      exact Or.inr ⟨hnone, hkind, htext⟩
  · rw [htext, hafter, List.take_append_drop]
  · rw [htoken]
  · rw [hoffset, Token.stop, htext, htoken]
  · have hstart := Scanner.Follows.ofSource source
    have hsame : (ScannerCall.run OffsetScanner.answer (.ofSource source) calls).2 = scanner.within source :=
      congrArg Prod.snd (OffsetScanner.run_within hstart hsize calls)
    rw [hsame]
    exact OffsetScanner.answer_within (hstart.run calls).tracks hsize .step

/-- Behind a cut and two blanks the reserved word is found whole, and the operator after it is left. -/
theorem step_longest_match_reserved :
    let source := "x?\n function?/"
    let scanner := (ScannerCall.run Scanner.answer (.ofSource source) [.cut .identifier 2]).2
    scanner.rest = ['\n', ' '] ++ 'f' :: "unction?/".toList ∧
    scanner.step.1 = ⟨.function, "function", 4, ⟨2, 1⟩⟩ ∧
    (∃ pattern, LongestMatch ('f' :: "unction?/".toList) pattern "function".toList) ∧
    'f' :: "unction?/".toList = "function".toList ++ scanner.step.2.rest := by
  intro source scanner
  have hrest : scanner.rest = ['\n', ' '] ++ 'f' :: "unction?/".toList := by decide +kernel
  have htoken : scanner.step.1 = ⟨.function, "function", 4, ⟨2, 1⟩⟩ := by decide +kernel
  obtain ⟨hfound, hsplit, -⟩ := step_longest_match source [.cut .identifier 2] ['\n', ' '] 'f' "unction?/".toList
    (List.forall_mem_cons.mpr ⟨by decide, List.forall_mem_singleton.mpr (by decide)⟩) (by decide) hrest
  rw [htoken] at hfound hsplit
  refine ⟨hrest, htoken, ?_, hsplit⟩
  rcases hfound with ⟨pattern, hlongest, -⟩ | ⟨-, hinvalid, -⟩
  · exact ⟨pattern, hlongest⟩
  · cases hinvalid

end ExprReader
