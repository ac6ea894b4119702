import ExprReader.Proofs.Grammar
import ExprReader.Proofs.Shapes

/-! # Reading one program after another

What follows a program about which nothing is reported is read as if it stood alone, unless it begins with an
operator that goes on with the last expression. The program is read back from canonical trees, whatever comes
after them, and the rest is read by the same run as alone, further on in the buffer. -/

namespace ExprReader

/-! ### Buffers of two lists -/

namespace TokenBuffer
variable {tokens others : List Token} {buffer : TokenBuffer}

theorem map_ending_close? (tokens : List Token) : (close? tokens).map ending = endAfter? tokens := by
  unfold close?
  split
  · rename_i h
    exact h.symm
  · rename_i h
    exact h.symm

/-- The end of the input is placed by the last token alone. -/
theorem map_ending_ofList? (h : tokens.getLast? = others.getLast?) :
    (ofList? tokens).map ending = (ofList? others).map ending := by
  have hclose : (close? tokens).map ending = (close? others).map ending := by
    rw [map_ending_close?, map_ending_close?, endAfter?, endAfter?, h]
  unfold ofList?
  rw [h]
  split
  · split
    · rfl
    · exact hclose
  · exact hclose

theorem ofList?_append (tokens : List Token) (h : others ≠ []) (hbuffer : ofList? others = some buffer) :
    ∃ whole, ofList? (tokens ++ others) = some whole ∧
      (∀ i, whole.get (tokens.length + i) = buffer.get i) ∧ ∀ i (hi : i < tokens.length), whole.get i = tokens[i] := by
  obtain ⟨last, hlast⟩ := Option.isSome_iff_exists.mp (List.getLast?_isSome.mpr h)
  have hsame : (tokens ++ others).getLast? = others.getLast? := by simp [hlast]
  have hending := map_ending_ofList? hsame
  rw [hbuffer, Option.map_some] at hending
  obtain ⟨whole, hwhole, hends⟩ := Option.map_eq_some_iff.mp hending
  refine ⟨whole, hwhole, fun i => ?_, fun i hi => ?_⟩
  · rw [get_of_ofList? hwhole, get_of_ofList? hbuffer, List.getElem?_append_right (Nat.le_add_right ..),
      Nat.add_sub_cancel_left, hends]
  · rw [get_of_ofList? hwhole, List.getElem?_append_left hi, List.getElem?_eq_getElem hi]
    rfl

theorem ofList?_tokens (h : ofList? tokens = some buffer) (hk : ∀ token ∈ tokens, token.kind ≠ .eof) :
    buffer.tokens.toList = tokens := by
  rw [ofList?_eq_close? hk] at h
  rw [close?_tokens h]

end TokenBuffer

/-- Tokens that stand in the buffer from the cursor on are ahead. -/
theorem Context.ahead_of_get {ctx : Context} {s : State} {tokens : List Token}
    (h : ∀ i (hi : i < tokens.length), ctx.buffer.get (s.cursor + i) = tokens[i]) : ctx.Ahead s tokens := by
  induction tokens generalizing s with
  | nil => trivial
  | cons token tokens ih =>
    refine ⟨h 0 (Nat.succ_pos _), ih fun i hi => ?_⟩
    have hcursor : s.advance.cursor + i = s.cursor + (i + 1) := by
      rw [State.advance_cursor, Nat.add_right_comm, Nat.add_assoc]
    rw [hcursor]
    exact h (i + 1) (Nat.succ_lt_succ hi)

/-! ### Two programs -/

section
variable {es : List Expr} {buffer whole : TokenBuffer} (h : CanonicalForest es)
  (hfront : ∀ i (hi : i < (es.flatMap Expr.leaves).length), whole.get i = (es.flatMap Expr.leaves)[i])
  (hback : ∀ i, whole.get ((es.flatMap Expr.leaves).length + i) = buffer.get i)
include h hfront hback

/-- Canonical trees before any tokens but an operator. -/
theorem CanonicalForest.parse_before (hnest : ∀ e ∈ es, e.nest ≤ maxNesting)
    (hnext : (buffer.get 0).kind.isBinaryOperator = false) (sink : Array Diagnostic) :
    (Parser.ofBuffer whole sink).parse = ⟨es ++ (Parser.ofBuffer buffer #[]).parse.expressions,
      sink ++ (Parser.ofBuffer buffer #[]).parse.diagnostics⟩ := by
  let s : State := { diagnostics := sink }
  let ctx : Context := ⟨whole, .standard⟩
  have hahead : ctx.Ahead s (es.flatMap Expr.leaves) :=
    Context.ahead_of_get fun i hi => by rw [show s.cursor + i = i from Nat.zero_add i]; exact hfront i hi
  have hcursor : (s.past (es.flatMap Expr.leaves)).cursor = (es.flatMap Expr.leaves).length + 0 := Nat.zero_add _
  have heach : ReadsEach ctx maxNesting s es (s.past (es.flatMap Expr.leaves)) := by
    refine ReadsEach.of_ahead (fun e he => (h.each e he).readsBack rfl) h.each h.separated hnest hahead ?_
    rw [Context.kind, Context.current, hcursor]
    exact (congrArg (·.kind.isBinaryOperator) (hback 0)).trans hnext
  -- The rest is the run over the other buffer, moved behind the trees.
  let m : Relocation := ⟨(es.flatMap Expr.leaves).length, id, id, sink⟩
  have hbetween : m.Between ⟨buffer, .standard⟩ ctx :=
    Relocation.between_of_get_eq Rules.standard_endsAtEof sink fun i _ => hback i
  obtain ⟨t, hrun, hd⟩ := (Parser.ofBuffer buffer #[]).parse_run
  have hrest := hbetween.readsProgram hrun fun i hi => absurd hi (Nat.not_lt_zero i)
  have hstart : m.state (Parser.ofBuffer buffer #[]).state = s.past (es.flatMap Expr.leaves) := by
    simp [Relocation.state, Parser.ofBuffer, State.past, m, s]
  rw [hstart] at hrest
  have hids : (Parser.ofBuffer buffer #[]).parse.expressions.map (Expr.map m.token) =
      (Parser.ofBuffer buffer #[]).parse.expressions := by
    simpa using List.map_congr_left (g := id) fun e _ => Expr.map_id e
  have hreports : t.diagnostics.map m.report = t.diagnostics :=
    (Array.map_congr_left fun _ _ => rfl).trans (Array.map_id _)
  rw [hids] at hrest
  rw [Parser.parse_of_run (p := .ofBuffer whole sink) (heach.append hrest), hd]
  exact congrArg (Parsed.mk _ <| sink ++ ·) hreports

end

/-- A program about which nothing is reported, and any tokens after it that do not begin with an operator: the
expressions of both are read one after the other, and only what is wrong with the second is reported. -/
theorem parse_append {tokens others : List Token} {p q : Parser} (hp : Parser.ofTokens? tokens #[] = some p)
    (hq : Parser.ofTokens? others #[] = some q)
    (hsolid : ∀ token ∈ tokens, token.kind ≠ .eof ∧ token.kind ≠ .invalid) (hsilent : p.parse.diagnostics = #[])
    (hfirst : ∀ token ∈ others.head?, token.kind.isBinaryOperator = false) (sink : Array Diagnostic) :
    ∃ r, Parser.ofTokens? (tokens ++ others) sink = some r ∧
      r.parse = ⟨p.parse.expressions ++ q.parse.expressions, sink ++ q.parse.diagnostics⟩ := by
  obtain ⟨buffer, hbuffer, rfl⟩ := Parser.ofTokens?_eq_some hp
  obtain ⟨other, hother, rfl⟩ := Parser.ofTokens?_eq_some hq
  have htokens := TokenBuffer.ofList?_tokens hbuffer fun token hm => (hsolid token hm).1
  have hsolid' : ∀ token ∈ buffer.tokens, token.Solid := by
    intro token hm
    rw [← Array.mem_toList_iff, htokens] at hm
    exact (hsolid token hm).symm
  obtain ⟨hforest, hleaves, hnest⟩ := canonicalForest_of_silent hsolid' hsilent
  rw [htokens] at hleaves
  by_cases hothers : others = []
  · subst hothers
    have hnone : other.tokens.toList = [] := TokenBuffer.ofList?_tokens hother (by simp)
    have hempty : CanonicalForest [] := ⟨by simp, by simp [Expr.Separated]⟩
    refine ⟨.ofBuffer buffer sink, by rw [List.append_nil, Parser.ofTokens?, hbuffer]; rfl, ?_⟩
    rw [hforest.parse_eq (htokens.trans hleaves.symm) sink hnest, hempty.parse_eq hnone #[] (by simp)]
    simp
  · obtain ⟨whole, hwhole, hback, hfront⟩ := TokenBuffer.ofList?_append tokens hothers hother
    refine ⟨.ofBuffer whole sink, by rw [Parser.ofTokens?, hwhole]; rfl, ?_⟩
    refine hforest.parse_before ?_ ?_ hnest ?_ sink
    · rw [hleaves]
      exact hfront
    · rw [hleaves]
      exact hback
    · rw [TokenBuffer.get_of_ofList? hother]
      cases others with
      | nil => contradiction
      | cons token others => exact hfirst token rfl

/-- The tokens of `-a` and those of `) b`, of which only the parenthesis is reported. -/
theorem parse_append_stray :
    let tokens : List Token := [⟨.minus, "-", 0, {}⟩, ⟨.identifier, "a", 1, {}⟩]
    let others : List Token := [⟨.closeParen, ")", 5, {}⟩, ⟨.identifier, "b", 3, {}⟩]
    ∃ p q r, Parser.ofTokens? tokens #[] = some p ∧ Parser.ofTokens? others #[] = some q ∧
      Parser.ofTokens? (tokens ++ others) #[⟨.unknownCharacter, ⟨2, 3⟩⟩] = some r ∧
      r.parse =
        ⟨p.parse.expressions ++ q.parse.expressions, #[⟨.unknownCharacter, ⟨2, 3⟩⟩] ++ q.parse.diagnostics⟩ := by
  intro tokens others
  have hp : (Parser.ofTokens? tokens #[]).isSome = true := by decide +kernel
  have hq : (Parser.ofTokens? others #[]).isSome = true := by decide +kernel
  have hsilent : ∀ p ∈ Parser.ofTokens? tokens #[], p.parse.diagnostics = #[] := by decide +kernel
  obtain ⟨p, hp⟩ := Option.isSome_iff_exists.mp hp
  obtain ⟨q, hq⟩ := Option.isSome_iff_exists.mp hq
  obtain ⟨r, hr, hparse⟩ :=
    parse_append hp hq (by decide) (hsilent p hp) (by decide) #[⟨.unknownCharacter, ⟨2, 3⟩⟩]
  exact ⟨p, q, r, hp, hq, hr, hparse⟩

end ExprReader
