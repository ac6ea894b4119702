import ExprReader.Proofs.Offsets
import ExprReader.Source.Line

/-! # Lines and positions

A place of a source is shown in two ways. The scanner counts lines and columns while it moves on, and a byte offset
is looked up among the lines of the whole source. The second finds the one line that holds the offset and counts
the newlines before that line, so the two agree wherever text follows. They differ only at the end of a source that
ends with a newline: there the scanner is on a new line, and the look-up stays on the last one. -/

namespace ExprReader

/-! ### The lines of a text -/

/-- A text that is empty or ends with a newline. -/
def WholeLines (text : List Char) : Prop :=
  text = [] ∨ text.getLast? = some '\n'

theorem WholeLines.append {front back : List Char} (hfront : front.getLast? = some '\n') (hback : WholeLines back) :
    WholeLines (front ++ back) := by
  rcases hback with rfl | hback
  · exact .inr (by simpa using hfront)
  · exact .inr (by simp [hback])

/-- A line between the texts before and behind it. A newline stands at its end or nowhere in it, and without one
nothing follows. Only the empty text has an empty line. -/
structure IsLine (before line after : List Char) : Prop where
  opens : WholeLines before
  single : '\n' ∉ line.dropLast
  closes : after = [] ∨ line.getLast? = some '\n'
  filled : line = [] → before = [] ∧ after = []

namespace IsLine
variable {before line after : List Char}

theorem count_eq_one (h : IsLine before line after) (hend : line.getLast? = some '\n') : line.count '\n' = 1 := by
  have hsingle := h.single
  obtain ⟨init, rfl⟩ := List.getLast?_eq_some_iff.mp hend
  rw [List.dropLast_concat] at hsingle
  rw [List.count_append, List.count_eq_zero.mpr hsingle]
  rfl

theorem mem_iff (h : IsLine before line after) : '\n' ∈ line ↔ line.getLast? = some '\n' := by
  refine ⟨fun hm => ?_, List.mem_of_getLast?⟩
  have hsingle := h.single
  rcases List.eq_nil_or_concat line with rfl | ⟨init, last, rfl⟩
  · cases hm
  · rw [List.concat_eq_append, List.dropLast_concat] at hsingle
    simpa [hsingle, eq_comm] using hm

theorem getLast?_append (h : IsLine before line after) : (before ++ line).getLast? = line.getLast? := by
  cases hlast : line.getLast? with
  | none =>
    obtain rfl := List.getLast?_eq_none_iff.mp hlast
    obtain ⟨rfl, -⟩ := h.filled rfl
    rfl
  | some last => simp [List.getLast?_append, hlast]

/-- The front of a line has its newline only if it is the whole line and ends the text. -/
theorem not_mem_front_iff {head tail : List Char} (h : IsLine before (head ++ tail) after)
    (hlast : tail = [] → after = []) :
    '\n' ∉ head ↔ tail ++ after ≠ [] ∨ (before ++ head).getLast? ≠ some '\n' := by
  by_cases htail : tail = []
  · obtain rfl := hlast htail
    rw [htail, List.append_nil] at h
    rw [htail, h.getLast?_append, h.mem_iff]
    simp
  · have hsingle := h.single
    rw [List.dropLast_append_of_ne_nil htail] at hsingle
    have hhead : '\n' ∉ head := fun hm => hsingle (List.mem_append_left _ hm)
    simp [hhead, htail]

/-- A line that stands behind another one. -/
theorem behind {first : List Char} (hfirst : first.getLast? = some '\n') (h : IsLine before line after)
    (hne : before ++ (line ++ after) ≠ []) : IsLine (first ++ before) line after where
  opens := .append hfirst h.opens
  single := h.single
  closes := h.closes
  filled hline := by
    obtain ⟨rfl, rfl⟩ := h.filled hline
    simp [hline] at hne

/-- Where a front of the text from the line on ends with a newline, it has the whole line. -/
theorem exists_eq_append {front rest : List Char} (h : IsLine before line after) (heq : line ++ after = front ++ rest)
    (hend : front.getLast? = some '\n') : ∃ others, front = line ++ others := by
  rcases List.append_eq_append_iff.mp heq with ⟨others, hfront, -⟩ | ⟨others, hline, -⟩
  · exact ⟨others, hfront⟩
  · by_cases hothers : others = []
    · exact ⟨[], by rw [hline, hothers, List.append_nil, List.append_nil]⟩
    · -- The newline would be inside the line, which has one only at its end.
      have hsingle := h.single
      rw [hline, List.dropLast_append_of_ne_nil hothers] at hsingle
      exact absurd (List.mem_append_left _ (List.mem_of_getLast? hend)) hsingle

section Two
variable {before' line' after' : List Char}

theorem length_le (h : IsLine before line after) (h' : IsLine before line' after')
    (heq : line ++ after = line' ++ after') : line.length ≤ line'.length := by
  rcases h'.closes with rfl | hend
  · rw [List.append_nil] at heq
    rw [← heq, List.length_append]
    exact Nat.le_add_right ..
  · obtain ⟨others, rfl⟩ := h.exists_eq_append heq hend
    rw [List.length_append]
    exact Nat.le_add_right ..

/-- Two lines that start at one place are the same. -/
theorem eq_of_append_eq (h : IsLine before line after) (h' : IsLine before line' after')
    (heq : line ++ after = line' ++ after') : line = line' ∧ after = after' :=
  List.append_inj heq (Nat.le_antisymm (h.length_le h' heq) (h'.length_le h heq.symm))

/-- Between the start of a line and an offset that the line holds, no other line starts. -/
theorem start_le {offset : Nat} (h : IsLine before line after) (h' : IsLine before' line' after')
    (heq : before ++ (line ++ after) = before' ++ (line' ++ after'))
    (hoffset : after = [] ∨ offset < byteLength before + byteLength line) (hle : byteLength before' ≤ offset) :
    byteLength before' ≤ byteLength before := by
  refine Nat.not_lt.mp fun hlt => ?_
  obtain ⟨between, rfl, hrest⟩ := exists_eq_append_of_byteLength_le heq (by omega)
  have hne : between ≠ [] := by
    rintro rfl
    simp at hlt
  have hend : between.getLast? = some '\n' := by
    rcases h'.opens with hnil | hend
    · exact absurd (List.append_eq_nil_iff.mp hnil).2 hne
    · simpa [List.getLast?_append, List.getLast?_eq_some_getLast hne] using hend
  -- So the whole first line lies before the second one.
  obtain ⟨others, rfl⟩ := h.exists_eq_append hrest hend
  rw [List.append_assoc, List.append_cancel_left_eq] at hrest
  rcases hoffset with rfl | hinside
  · -- Nothing follows the first line, and only the empty text has an empty second one.
    obtain ⟨-, hrest⟩ := List.append_eq_nil_iff.mp hrest.symm
    have hnil := (h'.filled (List.append_eq_nil_iff.mp hrest).1).1
    exact hne (List.append_eq_nil_iff.mp hnil).2
  · simp only [byteLength_append] at hle
    omega

end Two

end IsLine

/-- The lines of a text one after the other. -/
inductive Lines : List Char → List (List Char) → Prop where
  | nil : Lines [] []
  | cons {line after lines} : line ≠ [] → IsLine [] line after → Lines after lines →
      Lines (line ++ after) (line :: lines)

theorem Lines.eq_nil_iff {text : List Char} {lines : List (List Char)} (h : Lines text lines) :
    lines = [] ↔ text = [] := by
  cases h with
  | nil => simp
  | cons hne _ _ => simp [hne]

/-- Splitting a text gives its lines. -/
theorem lines_splitLines (text : List Char) : Lines text (splitLines text) := by
  induction text with
  | nil => exact .nil
  | cons c text ih =>
    rw [splitLines]
    by_cases hc : c = '\n'
    · rw [if_pos hc, hc]
      exact @Lines.cons ['\n'] text _ (by simp) ⟨.inl rfl, by simp, .inr rfl, by simp⟩ ih
    · rw [if_neg hc]
      generalize splitLines text = lines at ih
      cases ih with
      | nil => exact @Lines.cons [c] [] [] (by simp) ⟨.inl rfl, by simp, .inl rfl, by simp⟩ .nil
      | @cons line after lines hne hline hrest =>
        -- A character that is not a newline goes to the front of the first line.
        refine @Lines.cons (c :: line) after lines (by simp) ⟨.inl rfl, ?_, ?_, by simp⟩ hrest
        · rw [List.dropLast_cons_of_ne_nil hne]
          exact List.not_mem_cons_of_ne_of_not_mem (Ne.symm hc) hline.single
        · rw [List.getLast?_cons_of_ne_nil hne]
          exact hline.closes

theorem locate_cons_of_ne_nil {line : List Char} {lines : List (List Char)} (h : lines ≠ []) (number offset : Nat) :
    locate number offset (line :: lines) = if offset < byteLength line then ⟨number, String.ofList line, offset⟩
      else locate (number + 1) (offset - byteLength line) lines := by
  cases lines with
  | nil => contradiction
  | cons => rfl

/-! ### Offsets among the lines -/

/-- The point is on a line of the source: its number counts the newlines before the line, its offset starts at the
line, and only the last line takes the offset right behind it. -/
def LinePoint.Shows (point : LinePoint) (source : String) (offset : Nat) : Prop :=
  ∃ before after, source.toList = before ++ (point.text.toList ++ after) ∧ IsLine before point.text.toList after ∧
    byteLength before + point.offset = offset ∧ point.number = before.count '\n' + 1 ∧
    (after = [] ∨ point.offset < byteLength point.text.toList)

/-- The walk over the lines of a text stops on the line with the offset. -/
theorem Lines.locate {text : List Char} {lines : List (List Char)} (h : Lines text lines) (number offset : Nat)
    (hoffset : offset ≤ byteLength text) : ∃ before line after rest, text = before ++ (line ++ after) ∧
      IsLine before line after ∧ byteLength before + rest = offset ∧ (after = [] ∨ rest < byteLength line) ∧
      locate number offset lines = ⟨number + before.count '\n', String.ofList line, rest⟩ := by
  induction h generalizing number offset with
  | nil =>
    have hzero : 0 = offset := (Nat.le_zero.mp hoffset).symm
    exact ⟨[], [], [], 0, rfl, ⟨.inl rfl, by simp, .inl rfl, by simp⟩, hzero, .inl rfl, rfl⟩
  | @cons first others lines hne hfirst hrest ih =>
    by_cases hothers : others = []
    · rw [hrest.eq_nil_iff.mpr hothers]
      exact ⟨[], first, others, offset, rfl, hfirst, Nat.zero_add _, .inl hothers, rfl⟩
    rw [locate_cons_of_ne_nil (mt hrest.eq_nil_iff.mp hothers)]
    by_cases hlt : offset < byteLength first
    · rw [if_pos hlt]
      exact ⟨[], first, others, offset, rfl, hfirst, Nat.zero_add _, .inr hlt, rfl⟩
    · -- The walk goes on behind the first line, which ends with the one newline it has.
      have hend := hfirst.closes.resolve_left hothers
      rw [byteLength_append] at hoffset
      obtain ⟨before, line, after, rest, rfl, hline, hsum, hlast, hlocate⟩ :=
        ih (number + 1) (offset - byteLength first) (by omega)
      refine ⟨first ++ before, line, after, rest, by simp, hline.behind hend hothers, ?_, hlast, ?_⟩
      · rw [byteLength_append]
        omega
      · rw [if_neg hlt, hlocate, List.count_append, hfirst.count_eq_one hend, Nat.add_assoc]

theorem lineAt?_shows {source : String} {offset : Nat} (h : offset ≤ byteLength source.toList) :
    ∃ point, lineAt? source offset = some point ∧ point.Shows source offset := by
  obtain ⟨before, line, after, rest, hsource, hline, hrest, hlast, hlocate⟩ :=
    (lines_splitLines source.toList).locate 1 offset h
  refine ⟨_, if_neg (Nat.not_lt.mpr h), before, after, ?_⟩
  rw [hlocate, String.toList_ofList]
  exact ⟨hsource, hline, hrest, Nat.add_comm .., hlast⟩

/-- At most one point of a source shows an offset. -/
theorem LinePoint.Shows.unique {point other : LinePoint} {source : String} {offset : Nat}
    (h : point.Shows source offset) (h' : other.Shows source offset) : point = other := by
  obtain ⟨before, after, hsource, hline, hoffset, hnumber, hlast⟩ := h
  obtain ⟨before', after', hsource', hline', hoffset', hnumber', hlast'⟩ := h'
  have heq := hsource.symm.trans hsource'
  have hinside : after = [] ∨ offset < byteLength before + byteLength point.text.toList :=
    hlast.imp_right fun hlt => by omega
  have hinside' : after' = [] ∨ offset < byteLength before' + byteLength other.text.toList :=
    hlast'.imp_right fun hlt => by omega
  have hle := hline.start_le hline' heq hinside (by omega)
  have hge := hline'.start_le hline heq.symm hinside' (by omega)
  obtain ⟨between, rfl, hrest⟩ := exists_eq_append_of_byteLength_le heq hge
  rw [byteLength_append] at hle
  obtain rfl : between = [] := eq_nil_of_byteLength_eq_zero (by omega)
  rw [List.append_nil] at hline' hoffset' hnumber'
  have htext := (hline.eq_of_append_eq hline' hrest).1
  have hnumbers := hnumber.trans hnumber'.symm
  have hoffsets : point.offset = other.offset := by omega
  cases point
  cases other
  rw [LinePoint.mk.injEq]
  exact ⟨hnumbers, String.toList_inj.mp htext, hoffsets⟩

theorem lineAt?_eq_some_iff {source : String} {offset : Nat} {point : LinePoint} :
    lineAt? source offset = some point ↔ offset ≤ byteLength source.toList ∧ point.Shows source offset := by
  constructor
  · intro h
    have hle : offset ≤ byteLength source.toList := by
      refine Nat.not_lt.mp fun hlt => ?_
      rw [lineAt?, if_pos hlt] at h
      cases h
    obtain ⟨other, hother, hshows⟩ := lineAt?_shows hle
    obtain rfl : other = point := Option.some.inj (hother.symm.trans h)
    exact ⟨hle, hshows⟩
  · rintro ⟨hle, hshows⟩
    obtain ⟨other, hother, hother'⟩ := lineAt?_shows hle
    rw [hother, hother'.unique hshows]

/-- An offset beyond the end of a source is on no line. For any other, the source is cut into whole lines, the line
with the offset and the rest, and this cut determines what the look-up gives: the offset is counted from the start
of the line, which has the number of newlines before it and one, and only the last line takes the offset behind it. -/
theorem line_of_offset (source : String) (offset : Nat) :
    (lineAt? source offset = none ↔ byteLength source.toList < offset) ∧
      ∀ number line rest, lineAt? source offset = some ⟨number, line, rest⟩ ↔
        ∃ before after, source.toList = before ++ (line.toList ++ after) ∧
          (before = [] ∨ before.getLast? = some '\n') ∧ '\n' ∉ line.toList.dropLast ∧
          (after = [] ∨ line.toList.getLast? = some '\n') ∧ byteLength before + rest = offset ∧
          number = before.count '\n' + 1 ∧ (line = "" → source = "") ∧
          (after ≠ [] → rest < byteLength line.toList) ∧ (after = [] → rest ≤ byteLength line.toList) := by
  constructor
  · simp [lineAt?]
  · intro number line rest
    simp only [lineAt?_eq_some_iff, LinePoint.Shows]
    constructor
    · rintro ⟨hle, before, after, hsource, hline, hoffset, hnumber, hlast⟩
      refine ⟨before, after, hsource, hline.opens, hline.single, hline.closes, hoffset, hnumber, ?_, ?_, ?_⟩
      · rintro rfl
        obtain ⟨rfl, rfl⟩ := hline.filled rfl
        exact String.toList_inj.mp hsource
      · exact fun hafter => hlast.resolve_left hafter
      · rintro rfl
        rw [hsource, byteLength_append, List.append_nil] at hle
        omega
    · rintro ⟨before, after, hsource, hopens, hsingle, hcloses, hoffset, hnumber, hfilled, hinside, hlast⟩
      have hline : IsLine before line.toList after := by
        refine ⟨hopens, hsingle, hcloses, fun hnil => ?_⟩
        obtain rfl := hfilled (String.toList_inj.mp hnil)
        obtain ⟨hbefore, hrest⟩ := List.append_eq_nil_iff.mp hsource.symm
        exact ⟨hbefore, (List.append_eq_nil_iff.mp hrest).2⟩
      refine ⟨?_, before, after, hsource, hline, hoffset, hnumber, ?_⟩
      · rw [hsource, byteLength_append, byteLength_append]
        by_cases hafter : after = []
        · have := hlast hafter
          omega
        · have := hinside hafter
          omega
      · exact Decidable.or_iff_not_imp_left.mpr hinside

/-! ### Positions on lines -/

/-- Behind whole lines, a text without a newline is counted by columns alone. -/
theorem Position.counted_append {before head : List Char} (hbefore : WholeLines before) (hhead : '\n' ∉ head) :
    counted (before ++ head) = ⟨before.count '\n' + 1, head.length⟩ := by
  have hstop : before.reverse.takeWhile (· != '\n') = [] := by
    rcases hbefore with rfl | hend
    · rfl
    · rw [← List.head?_reverse] at hend
      obtain ⟨others, hothers⟩ := List.head?_eq_some_iff.mp hend
      simp [hothers]
  have hall : ∀ c ∈ head.reverse, (c != '\n') = true := by
    intro c hc
    rw [bne_iff_ne]
    rintro rfl
    exact hhead (List.mem_reverse.mp hc)
  rw [counted, List.count_append, List.count_eq_zero.mpr hhead, List.reverse_append,
    List.takeWhile_append_of_pos hall, hstop]
  simp

/-- A place between two characters cuts its line in two. -/
theorem LinePoint.Shows.cut {point : LinePoint} {source : String} {front back : List Char}
    (h : point.Shows source (byteLength front)) (hsource : source.toList = front ++ back) :
    ∃ before head tail after, front = before ++ head ∧ back = tail ++ after ∧
      splitBytes? point.text.toList point.offset = some (head, tail) ∧ IsLine before (head ++ tail) after ∧
      point.number = before.count '\n' + 1 ∧ (tail = [] → after = []) := by
  obtain ⟨before, after, hwhole, hline, hoffset, hnumber, hlast⟩ := h
  rw [hsource] at hwhole
  obtain ⟨head, rfl, hback⟩ := exists_eq_append_of_byteLength_le hwhole.symm (by omega)
  rw [byteLength_append, Nat.add_left_cancel_iff] at hoffset
  have hinside : byteLength head ≤ byteLength point.text.toList := by
    rcases hlast with rfl | hlt
    · rw [List.append_nil] at hback
      rw [hback, byteLength_append]
      exact Nat.le_add_right ..
    · omega
  obtain ⟨tail, htext, hafter⟩ := exists_eq_append_of_byteLength_le hback.symm hinside
  refine ⟨before, head, tail, after, rfl, hafter, ?_, htext ▸ hline, hnumber, ?_⟩
  · exact splitBytes?_eq_some_iff.mpr ⟨htext, hoffset.symm⟩
  · rintro rfl
    refine hlast.resolve_right fun hlt => ?_
    rw [htext, List.append_nil] at hlt
    omega

/-- The line found for the start of the token has the number of its position, and as many characters of that line
stand before the token as its column says. -/
def Token.OnLine (token : Token) (source : String) : Prop :=
  ∃ point, lineAt? source token.start = some point ∧ point.number = token.position.line ∧
    ∃ before after, splitBytes? point.text.toList point.offset = some (before, after) ∧
      before.length = token.position.column

/-- A token that is counted from the start of the source is on its line unless it stands at the end of the source
right behind a newline. -/
theorem Token.onLine_iff {token : Token} {source : String} {front back : List Char}
    (hsource : source.toList = front ++ back) (hstart : token.start = byteLength front)
    (hposition : token.position = Position.counted front) :
    token.OnLine source ↔ back ≠ [] ∨ front.getLast? ≠ some '\n' := by
  have hinside : byteLength front ≤ byteLength source.toList := by
    rw [hsource, byteLength_append]
    exact Nat.le_add_right ..
  obtain ⟨point, hpoint, hshows⟩ := lineAt?_shows hinside
  obtain ⟨before, head, tail, after, rfl, rfl, hsplit, hline, hnumber, hlast⟩ := hshows.cut hsource
  rw [← hline.not_mem_front_iff hlast, OnLine, hstart, hposition]
  constructor
  · rintro ⟨other, hother, hsame, -⟩ hm
    -- The scanner has counted the newline, but the look-up counts only those before the line.
    obtain rfl : other = point := Option.some.inj (hother.symm.trans hpoint)
    have hpos := List.count_pos_iff.mpr hm
    have hcount : before.count '\n' + 1 = (before ++ head).count '\n' + 1 := hnumber.symm.trans hsame
    rw [List.count_append] at hcount
    omega
  · intro hhead
    rw [Position.counted_append hline.opens hhead]
    exact ⟨point, hpoint, hnumber, head, tail, hsplit, rfl⟩

/-- The position of every token of a source is the line and the column that its offset is looked up with. For the
end of the input this is so if and only if the source is empty or does not end with a newline. -/
theorem scan_on_lines (source : String) :
    (∀ token ∈ (scan source).1.tokens, token.OnLine source) ∧
      ((scan source).1.ending.OnLine source ↔ source = "" ∨ source.toList.getLast? ≠ some '\n') := by
  constructor
  · intro token hm
    rw [← Array.mem_toList_iff] at hm
    obtain ⟨before, after, hsource, hstart, hposition⟩ := scan_placedIn source token (List.mem_append_left _ hm)
    refine (Token.onLine_iff hsource hstart hposition).mpr (.inl fun hnone => ?_)
    have htext := (List.append_eq_nil_iff.mp hnone).1
    have hlt := ((scan_eq_iff.mp (rfl : _ = (scan source).1.tokens.toList)).ordered.1 token hm).2
    simp [Token.stop, htext] at hlt
  · rw [scan_ending, Token.onLine_iff (List.append_nil _).symm rfl rfl]
    constructor
    · rintro (hne | hend)
      · exact absurd rfl hne
      · exact .inr hend
    · rintro (rfl | hend)
      · exact .inr (by simp)
      · exact .inr hend

/-- Behind a string that goes over two lines, in a source that ends with a newline. -/
theorem scan_on_lines_behind_string :
    let source := "\"\u00e9\r\n\u2028\" + x\n"
    let plus : Token := ⟨.plus, "+", 10, ⟨2, 3⟩⟩
    plus ∈ (scan source).1.tokens ∧ plus.OnLine source ∧ ¬(scan source).1.ending.OnLine source := by
  intro source plus
  have hplus : plus ∈ (scan source).1.tokens := by decide +kernel
  obtain ⟨htokens, hending⟩ := scan_on_lines source
  exact ⟨hplus, htokens plus hplus, fun hend => absurd (hending.mp hend) (by decide +kernel)⟩

end ExprReader
