import ExprReader.Diagnostic.Excerpt
import ExprReader.Proofs.Lines
import Mathlib.Data.List.DropRight

/-! # Carets

The last two rows of a rendered diagnostic are the line on which it starts and a caret. The row of the line begins
with its number and leaves out its indentation, the row of the caret counts characters, and the place of the
diagnostic is a number of bytes. All this cancels out: the caret is right below the character at which the diagnostic
starts. -/

namespace ExprReader

/-! ### Rows of a text -/

/-- The last two rows of a text, without the newlines that end them. -/
def LastRows (text : String) (upper lower : List Char) : Prop :=
  ∃ opening, splitLines text.toList = opening ++ [upper ++ ['\n'], lower ++ ['\n']]

theorem splitLines_cons_of_ne {c : Char} (hc : c ≠ '\n') {text line : List Char} {lines : List (List Char)}
    (h : splitLines text = line :: lines) : splitLines (c :: text) = (c :: line) :: lines := by
  rw [splitLines, if_neg hc, h]

theorem splitLines_row {row : List Char} (hrow : '\n' ∉ row) (text : List Char) :
    splitLines (row ++ '\n' :: text) = (row ++ ['\n']) :: splitLines text := by
  induction row with
  | nil => rfl
  | cons c row ih =>
    rw [List.mem_cons, not_or] at hrow
    exact splitLines_cons_of_ne (Ne.symm hrow.1) (ih hrow.2)

/-- Whole lines are split apart from the text behind them. -/
theorem splitLines_append {front : List Char} (hfront : WholeLines front) (back : List Char) :
    splitLines (front ++ back) = splitLines front ++ splitLines back := by
  induction front with
  | nil => rfl
  | cons c front ih =>
    have hend : (c :: front).getLast? = some '\n' := hfront.resolve_left (by simp)
    by_cases hc : c = '\n'
    · have hrest : WholeLines front := by
        rcases front with _ | ⟨d, front⟩
        · exact .inl rfl
        · exact .inr (by rwa [List.getLast?_cons_cons] at hend)
      rw [hc, List.cons_append, splitLines, if_pos rfl, splitLines, if_pos rfl, ih hrest, List.cons_append]
    · -- The front goes on, so its first line is the one that the character belongs to.
      rcases front with _ | ⟨d, front⟩
      · exact absurd (Option.some.inj hend) hc
      rw [List.getLast?_cons_cons] at hend
      have hlines := ih (.inr hend)
      rcases hsplit : splitLines (d :: front) with _ | ⟨line, lines⟩
      · have hnone := flatten_splitLines (d :: front)
        rw [hsplit] at hnone
        cases hnone
      · rw [hsplit, List.cons_append] at hlines
        rw [splitLines_cons_of_ne hc hsplit, List.cons_append, List.cons_append]
        exact splitLines_cons_of_ne hc hlines

theorem lastRows_of_toList {text : String} {opening upper lower : List Char} (hopening : WholeLines opening)
    (hupper : '\n' ∉ upper) (hlower : '\n' ∉ lower)
    (htext : text.toList = opening ++ (upper ++ '\n' :: (lower ++ ['\n']))) : LastRows text upper lower := by
  refine ⟨splitLines opening, ?_⟩
  rw [htext, splitLines_append hopening, splitLines_row hupper, splitLines_row hlower]
  rfl

/-! ### Parts of a line -/

/-- A line in parts: the spaces and tabs it begins with, what is shown of it, and the blanks at its end. -/
structure LineParts (line indent shown blanks : List Char) : Prop where
  joined : line = indent ++ (shown ++ blanks)
  indented : ∀ c ∈ indent, c = ' ' ∨ c = '\t'
  unindented : ∀ c ∈ (shown ++ blanks).head?, c ≠ ' ' ∧ c ≠ '\t'
  blank : ∀ c ∈ blanks, isBlank c = true
  filled : ∀ c ∈ shown.getLast?, isBlank c = false

theorem dropWhile_append_of_stop {p : Char → Bool} {front back : List Char} (hfront : ∀ c ∈ front, p c = true)
    (hstop : ∀ c ∈ back.head?, p c = false) : (front ++ back).dropWhile p = back := by
  have hwhole := List.takeWhile_append_dropWhile (p := p) (l := front ++ back)
  rw [takeWhile_append_of_stop hfront hstop] at hwhole
  exact List.append_cancel_left hwhole

theorem head?_dropWhile {p : Char → Bool} {text : List Char} : ∀ c ∈ (text.dropWhile p).head?, p c = false := by
  intro c hc
  have hhead := List.head?_dropWhile_not p text
  rwa [Option.mem_def.mp hc] at hhead

theorem isIndent_iff {c : Char} : isIndent c = true ↔ c = ' ' ∨ c = '\t' := by
  simp [isIndent]

theorem isIndent_eq_false_iff {c : Char} : isIndent c = false ↔ c ≠ ' ' ∧ c ≠ '\t' := by
  simp [isIndent]

/-- A line has these parts and no others. -/
theorem lineParts_iff {line indent shown blanks : List Char} : LineParts line indent shown blanks ↔
    indent = line.takeWhile isIndent ∧ shown = trimEnd (line.dropWhile isIndent) ∧
      blanks = (line.dropWhile isIndent).rtakeWhile isBlank := by
  constructor
  · intro h
    have hindent : ∀ c ∈ indent, isIndent c = true := fun c hc => isIndent_iff.mpr (h.indented c hc)
    have hrest : ∀ c ∈ (shown ++ blanks).head?, isIndent c = false :=
      fun c hc => isIndent_eq_false_iff.mpr (h.unindented c hc)
    -- From the end of the line, the blanks come first.
    have hblanks : ∀ c ∈ blanks.reverse, isBlank c = true := fun c hc => h.blank c (List.mem_reverse.mp hc)
    have hshown : ∀ c ∈ shown.reverse.head?, isBlank c = false := by
      rw [List.head?_reverse]
      exact h.filled
    refine ⟨?_, ?_, ?_⟩
    · rw [h.joined, takeWhile_append_of_stop hindent hrest]
    · rw [h.joined, dropWhile_append_of_stop hindent hrest, trimEnd, List.reverse_append,
        dropWhile_append_of_stop hblanks hshown, List.reverse_reverse]
    · rw [h.joined, dropWhile_append_of_stop hindent hrest, List.rtakeWhile, List.reverse_append,
        takeWhile_append_of_stop hblanks hshown, List.reverse_reverse]
  · rintro ⟨rfl, rfl, rfl⟩
    have hrest : trimEnd (line.dropWhile isIndent) ++ (line.dropWhile isIndent).rtakeWhile isBlank =
        line.dropWhile isIndent := List.rdropWhile_append_rtakeWhile ..
    constructor
    · rw [hrest, List.takeWhile_append_dropWhile]
    · exact fun c hc => isIndent_iff.mp (List.mem_takeWhile_imp hc)
    · rw [hrest]
      exact fun c hc => isIndent_eq_false_iff.mp (head?_dropWhile c hc)
    · exact fun c hc => List.mem_rtakeWhile_imp hc
    · rw [trimEnd, List.getLast?_reverse]
      exact head?_dropWhile

namespace LineParts
variable {line indent shown blanks head tail : List Char}

theorem unique {indent' shown' blanks' : List Char} (h : LineParts line indent shown blanks)
    (h' : LineParts line indent' shown' blanks') : indent = indent' ∧ shown = shown' ∧ blanks = blanks' := by
  obtain ⟨rfl, rfl, rfl⟩ := lineParts_iff.mp h
  obtain ⟨rfl, rfl, rfl⟩ := lineParts_iff.mp h'
  exact ⟨rfl, rfl, rfl⟩

/-- The character behind the head of a line is shown, unless it is in the indentation or one of the blanks at the
end. There are as many characters between it and the indentation as on the line. -/
theorem exists_shown (h : LineParts line indent shown blanks) (hcut : line = head ++ tail)
    (hindent : indent.length ≤ head.length) (hshown : head.length < (indent ++ shown).length) :
    ∃ c, tail.head? = some c ∧ shown[head.length - indent.length]? = some c := by
  have hlt : head.length - indent.length < shown.length := by
    rw [List.length_append] at hshown
    omega
  refine ⟨_, ?_, List.getElem?_eq_getElem hlt⟩
  calc tail.head?
      = (head ++ tail)[head.length]? := by
        rw [List.getElem?_append_right (Nat.le_refl _), Nat.sub_self, List.head?_eq_getElem?]
    _ = (indent ++ shown ++ blanks)[head.length]? := by rw [← hcut, h.joined, List.append_assoc]
    _ = (indent ++ shown)[head.length]? := List.getElem?_append_left hshown
    _ = shown[head.length - indent.length]? := List.getElem?_append_right hindent
    _ = _ := List.getElem?_eq_getElem hlt

/-- The newline of a line is one of the blanks at its end. -/
theorem newline_not_mem {before after : List Char} (h : LineParts line indent shown blanks)
    (hline : IsLine before line after) : '\n' ∉ shown := by
  intro hm
  have hjoined := h.joined
  rw [← List.append_assoc] at hjoined
  by_cases hblanks : blanks = []
  · have hend := hline.mem_iff.mp (by simp [hjoined, hm])
    rw [hjoined, hblanks, List.append_nil, List.getLast?_append_of_ne_nil _ (List.ne_nil_of_mem hm)] at hend
    exact absurd (h.filled '\n' hend) (by decide)
  · have hsingle := hline.single
    rw [hjoined, List.dropLast_append_of_ne_nil hblanks] at hsingle
    exact hsingle (List.mem_append_left _ (List.mem_append_right _ hm))

end LineParts

/-! ### Rows of an excerpt -/

namespace LinePoint
variable {point : LinePoint}

/-- What an excerpt leaves out of a line and what it shows are the parts of the line. -/
theorem lineParts (point : LinePoint) : LineParts point.text.toList point.indentation point.excerpt.toList
    ((point.text.toList.dropWhile isIndent).rtakeWhile isBlank) :=
  lineParts_iff.mpr ⟨rfl, String.toList_ofList, rfl⟩

theorem column_eq {head tail : List Char} (hcut : splitBytes? point.text.toList point.offset = some (head, tail)) :
    point.column = head.length := by
  rw [column, hcut]

/-- The number of the line, as it stands before the line. -/
def label (point : LinePoint) : List Char :=
  (" " ++ toString point.number ++ " | ").toList

/-- What stands before the dashes. -/
def gutter (point : LinePoint) : List Char :=
  point.border.toList ++ [' ']

theorem length_gutter (point : LinePoint) : point.gutter.length = point.label.length := by
  simp [gutter, label, border, ← String.length_toList]

theorem mem_gutter {c : Char} (h : c ∈ point.gutter) : c = ' ' ∨ c = '|' := by
  simp only [gutter, border, String.toList_append, String.toList_ofList, List.mem_append, List.mem_replicate,
    List.mem_singleton] at h
  rcases h with (⟨-, rfl⟩ | hc) | rfl
  · exact .inl rfl
  · exact .inr (by simpa using hc)
  · exact .inl rfl

theorem newline_not_mem_label (point : LinePoint) : '\n' ∉ point.label := by
  intro hm
  have hdigit : '\n' ∈ Nat.toDigits 10 point.number := by simpa [label] using hm
  exact absurd (Nat.isDigit_of_mem_toDigits (by decide) (by decide) hdigit) (by decide)

theorem newline_not_mem_caret (point : LinePoint) (dashes : Nat) :
    '\n' ∉ point.gutter ++ List.replicate dashes '-' ++ ['^'] := by
  intro hm
  simp only [List.mem_append, List.mem_replicate, List.mem_singleton] at hm
  rcases hm with (hm | ⟨-, hm⟩) | hm
  · exact absurd (mem_gutter hm) (by decide)
  · exact absurd hm (by decide)
  · exact absurd hm (by decide)

theorem toList_render? (hwidth : point.column - point.indentation.length + 1 < widthBound) :
    ∃ rows, point.render? = some rows ∧ rows.toList = point.border.toList ++ '\n' ::
      (point.label ++ point.excerpt.toList ++ '\n' ::
        (point.gutter ++ List.replicate (point.column - point.indentation.length) '-' ++ ['^'] ++ ['\n'])) := by
  rw [render?]
  exact ⟨_, if_pos hwidth, by simp [label, gutter]⟩

/-- A rendered diagnostic ends with the row of its line and the row of its caret. -/
theorem lastRows_render? {diagnostic : Diagnostic} {source : String} (file : String)
    (hpoint : lineAt? source diagnostic.span.start = some point)
    (hwidth : point.column - point.indentation.length + 1 < widthBound) :
    ∃ text, diagnostic.render? source file = some text ∧ LastRows text (point.label ++ point.excerpt.toList)
      (point.gutter ++ List.replicate (point.column - point.indentation.length) '-' ++ ['^']) := by
  obtain ⟨rows, hrows, hlist⟩ := toList_render? hwidth
  obtain ⟨-, before, after, -, hline, -⟩ := lineAt?_eq_some_iff.mp hpoint
  let opening := (diagnostic.headline ++ "-> " ++ file ++ "\n").toList ++ point.border.toList ++ ['\n']
  have hopening : WholeLines opening := .inr List.getLast?_concat
  have hupper : '\n' ∉ point.label ++ point.excerpt.toList := by
    rw [List.mem_append, not_or]
    exact ⟨point.newline_not_mem_label, point.lineParts.newline_not_mem hline⟩
  refine ⟨diagnostic.headline ++ "-> " ++ file ++ "\n" ++ rows, ?_, ?_⟩
  · rw [Diagnostic.render?, hpoint]
    simp [hrows]
  · refine lastRows_of_toList hopening hupper (point.newline_not_mem_caret _) ?_
    rw [String.toList_append, hlist]
    simp [opening]

end LinePoint

/-- A diagnostic that starts between two characters of a source is on a line of it. Where it starts behind the
indentation of that line and not too far to the right, its last two rows are the line, with its number and without
the indentation and the blanks at its end, and a caret. Before the caret are a gutter as wide as the number and one
dash for every character between the indentation and the start. If the start is before the blanks at the end of the
line, the character above the caret is the one at which the diagnostic starts. -/
theorem caret_below_start (diagnostic : Diagnostic) (source file : String) {front back : List Char}
    (hsource : source.toList = front ++ back) (hstart : byteLength front = diagnostic.span.start) :
    ∃ point head tail indent shown blanks, lineAt? source diagnostic.span.start = some point ∧
      splitBytes? point.text.toList point.offset = some (head, tail) ∧
      LineParts point.text.toList indent shown blanks ∧
      (indent.length ≤ head.length → head.length < 65535 →
        ∃ text gutter, diagnostic.render? source file = some text ∧
          LastRows text (point.label ++ shown)
            (gutter ++ List.replicate (head.length - indent.length) '-' ++ ['^']) ∧
          gutter.length = point.label.length ∧ (∀ c ∈ gutter, c = ' ' ∨ c = '|') ∧
          (head.length < (indent ++ shown).length →
            ∃ c, back.head? = some c ∧
              (point.label ++ shown)[gutter.length + (head.length - indent.length)]? = some c)) := by
  have hinside : diagnostic.span.start ≤ byteLength source.toList := by
    rw [hsource, ← hstart, byteLength_append]
    exact Nat.le_add_right ..
  obtain ⟨point, hpoint, hshows⟩ := lineAt?_shows hinside
  rw [← hstart] at hshows
  obtain ⟨before, head, tail, after, -, hback, hcut, -⟩ := hshows.cut hsource
  refine ⟨point, head, tail, _, _, _, hpoint, hcut, point.lineParts, fun hindent hnear => ?_⟩
  have hcolumn := LinePoint.column_eq hcut
  have hwidth : point.column - point.indentation.length + 1 < widthBound := by
    rw [hcolumn, show widthBound = 65536 from rfl]
    omega
  obtain ⟨text, htext, hrows⟩ := LinePoint.lastRows_render? file hpoint hwidth
  rw [hcolumn] at hrows
  refine ⟨text, point.gutter, htext, hrows, point.length_gutter, fun c => LinePoint.mem_gutter, fun hshown => ?_⟩
  obtain ⟨c, hc, hfound⟩ := point.lineParts.exists_shown (splitBytes?_eq_some_iff.mp hcut).1 hindent hshown
  refine ⟨c, ?_, ?_⟩
  · rw [hback, List.head?_append, hc, Option.some_or]
  · rw [point.length_gutter, List.getElem?_append_right (Nat.le_add_right ..), Nat.add_sub_cancel_left, hfound]

/-- On the tenth line, behind a tab, a space and a character of two bytes. -/
theorem caret_below_start_tenth_line :
    let source := "\n\n\n\n\n\n\n\n\n\t \u00e9+? \r\nx"
    let diagnostic : Diagnostic := ⟨.unknownCharacter, ⟨14, 15⟩⟩
    ∃ text gutter, diagnostic.render? source "main" = some text ∧
      LastRows text " 10 | \u00e9+?".toList (gutter ++ ['-', '-'] ++ ['^']) ∧ gutter.length = 6 ∧
      " 10 | \u00e9+?".toList[gutter.length + 2]? = some '?' := by
  intro source diagnostic
  have hsource : source.toList = "\n\n\n\n\n\n\n\n\n\t \u00e9+".toList ++ "? \r\nx".toList := by decide +kernel
  have hline : lineAt? source 14 = some ⟨10, "\t \u00e9+? \r\n", 5⟩ := by decide +kernel
  have hhead : splitBytes? "\t \u00e9+? \r\n".toList 5 = some ("\t \u00e9+".toList, "? \r\n".toList) := by
    decide +kernel
  have hparts : LineParts "\t \u00e9+? \r\n".toList "\t ".toList "\u00e9+?".toList " \r\n".toList :=
    lineParts_iff.mpr (by decide +kernel)
  obtain ⟨point, head, tail, indent, shown, blanks, hpoint, hcut, hparts', h⟩ :=
    caret_below_start diagnostic source "main" hsource (by decide +kernel)
  obtain rfl := Option.some.inj (hline.symm.trans hpoint)
  obtain ⟨rfl, rfl⟩ := Prod.mk.inj (Option.some.inj (hhead.symm.trans hcut))
  obtain ⟨rfl, rfl, rfl⟩ := hparts.unique hparts'
  obtain ⟨text, gutter, htext, hrows, hlength, -, hcaret⟩ := h (by decide +kernel) (by decide +kernel)
  obtain ⟨c, hc, habove⟩ := hcaret (by decide +kernel)
  obtain rfl : '?' = c := Option.some.inj hc
  exact ⟨text, gutter, htext, hrows, hlength, habove⟩

end ExprReader
