import ExprReader.Proofs.Relocation

/-! # The shape of a parse

A shape is a tree of numbers: each of its tokens holds, in place of an offset, the index of a token of some
buffer. The kinds of the tokens up to the first end of the input decide the shapes that a buffer is read as,
and the trees of the buffer are these shapes with its own tokens put in. -/

namespace ExprReader

/-! ### Buffers of lists -/

namespace TokenBuffer
variable {tokens : List Token} {buffer : TokenBuffer}

theorem get_eq_getD (buffer : TokenBuffer) (index : Nat) :
    buffer.get index = buffer.tokens.toList[index]?.getD buffer.ending := by
  simp [get, Array.getD_eq_getD_getElem?]

theorem close?_tokens (h : close? tokens = some buffer) : buffer.tokens = tokens.toArray := by
  unfold close? at h
  split at h
  · cases h
    rfl
  · cases h

/-- The tokens of a list stand in its buffer at the same indices, and the end of the input after them. -/
theorem get_of_ofList? (h : ofList? tokens = some buffer) (index : Nat) :
    buffer.get index = tokens[index]?.getD buffer.ending := by
  rw [get_eq_getD]
  unfold ofList? at h
  split at h
  · rename_i last hlast
    split at h
    · cases h
      obtain ⟨front, rfl⟩ := List.getLast?_eq_some_iff.mp hlast
      rw [List.dropLast_concat]
      rcases Nat.lt_trichotomy index front.length with hlt | rfl | hgt
      · rw [List.getElem?_append_left hlt]
      · simp
      · rw [List.getElem?_eq_none (by simp; omega), List.getElem?_eq_none (by simp; omega)]
    · rw [close?_tokens h]
  · rw [close?_tokens h]

theorem kind_of_ofList? (h : ofList? tokens = some buffer) (index : Nat) :
    (buffer.get index).kind = (tokens.map Token.kind)[index]?.getD .eof := by
  rw [get_of_ofList? h, List.getElem?_map]
  cases tokens[index]? with
  | none => exact buffer.ending_kind
  | some token => rfl

end TokenBuffer

/-! ### Kinds before the end of the input -/

namespace TokenKind

theorem getD_zero_takeWhile (kinds : List TokenKind) :
    (kinds.takeWhile (· ≠ eof))[0]?.getD eof = kinds[0]?.getD eof := by
  cases kinds with
  | nil => rfl
  | cons kind kinds =>
    by_cases hkind : kind = .eof
    · simp [hkind]
    · simp [hkind]

/-- Kinds that agree before the first end of the input agree at every index up to it. -/
theorem getD_eq_of_takeWhile_eq {kinds others : List TokenKind}
    (h : kinds.takeWhile (· ≠ .eof) = others.takeWhile (· ≠ .eof)) (index : Nat)
    (hreaches : ∀ i < index, kinds[i]?.getD .eof ≠ .eof) : others[index]?.getD .eof = kinds[index]?.getD .eof := by
  induction index generalizing kinds others with
  | zero => rw [← getD_zero_takeWhile, ← h, getD_zero_takeWhile]
  | succ index ih =>
    have hfirst := hreaches 0 (Nat.succ_pos _)
    cases kinds with
    | nil => exact absurd rfl hfirst
    | cons kind kinds =>
      have hkind : kind ≠ .eof := by simpa using hfirst
      cases others with
      | nil => simp [hkind] at h
      | cons other others =>
        have hother : other ≠ .eof := by
          rintro rfl
          simp [hkind] at h
        simp only [List.takeWhile_cons, hkind, hother, ne_eq, not_false_eq_true, decide_true, if_true,
          List.cons.injEq] at h
        simpa using ih h.2 fun i hi => by simpa using hreaches (i + 1) (Nat.succ_lt_succ hi)

end TokenKind

/-! ### Numbered tokens -/

namespace TokenBuffer

/-- Tokens of the same kinds as those of a buffer, each of them one byte long and placed at its own index. -/
def numbered (buffer : TokenBuffer) : TokenBuffer where
  tokens := (buffer.tokens.toList.mapIdx fun index token => ⟨token.kind, " ", index, {}⟩).toArray
  ending := ⟨.eof, " ", buffer.size, {}⟩
  ending_kind := rfl

/-- Puts the tokens of a buffer in the place of their numbers. A report about a number is one about the token,
and a report right after a number is one right after the token. -/
def unnumbering (buffer : TokenBuffer) (sink : Array Diagnostic) : Relocation where
  shift := 0
  token number := buffer.get number.start
  span numbers :=
    if numbers.isEmpty then .empty (buffer.get (numbers.start - 1)).stop else (buffer.get numbers.start).span
  sink := sink

theorem get_numbered (buffer : TokenBuffer) {index : Nat} (h : index ≤ buffer.size) :
    buffer.numbered.get index = ⟨(buffer.get index).kind, " ", index, {}⟩ := by
  rw [get_eq_getD, get_eq_getD]
  rcases Nat.lt_or_eq_of_le h with hlt | rfl
  · have hlt' : index < buffer.tokens.size := hlt
    simp [numbered, hlt']
  · simp [numbered, size, buffer.ending_kind]

theorem unnumbering_carries {buffer : TokenBuffer} {kind : TokenKind} {index : Nat}
    (h : (buffer.get index).kind = kind) (sink : Array Diagnostic) :
    (buffer.unnumbering sink).Carries ⟨kind, " ", index, {}⟩ (buffer.get index) := by
  have hlength : byteLength " ".toList = 1 := by decide
  have hstop : (Token.mk kind " " index {}).stop = index + 1 := by rw [Token.stop, hlength]
  refine ⟨rfl, h, ?_, ?_⟩
  · simp [unnumbering, Token.span, hstop, Span.isEmpty]
  · simp [unnumbering, hstop, Span.empty, Span.isEmpty]

/-- The kinds of two buffers agree up to and including the first end of the input. -/
def SameKinds (buffer other : TokenBuffer) : Prop :=
  ∀ index, (∀ i < index, (buffer.get i).kind ≠ .eof) → (other.get index).kind = (buffer.get index).kind

theorem sameKinds_of_takeWhile_eq {tokens others : List Token} {buffer other : TokenBuffer}
    (h : ofList? tokens = some buffer) (h' : ofList? others = some other)
    (hkinds : (tokens.map Token.kind).takeWhile (· ≠ .eof) = (others.map Token.kind).takeWhile (· ≠ .eof)) :
    SameKinds buffer other := by
  intro index hreaches
  simp only [kind_of_ofList? h, kind_of_ofList? h'] at hreaches ⊢
  exact TokenKind.getD_eq_of_takeWhile_eq hkinds index hreaches

theorem unnumbering_between {buffer other : TokenBuffer} (h : SameKinds buffer other) (sink : Array Diagnostic) :
    (other.unnumbering sink).Between ⟨buffer.numbered, .standard⟩ ⟨other, .standard⟩ where
  rules := rfl
  ends := Rules.standard_endsAtEof
  carries index hreaches := by
    -- The end of the numbered tokens stands at the size of the buffer, so nothing beyond it is reached.
    have hle : index ≤ buffer.size := by
      refine Nat.le_of_not_lt fun hgt => ?_
      have hend := hreaches buffer.size hgt
      rw [get_numbered buffer (Nat.le_refl _), get_of_size_le (Nat.le_refl _)] at hend
      exact hend buffer.ending_kind
    have hkind : (other.get index).kind = (buffer.get index).kind := by
      refine h index fun i hi => ?_
      have hne := hreaches i hi
      rwa [get_numbered buffer (Nat.le_trans (Nat.le_of_lt hi) hle)] at hne
    rw [get_numbered buffer hle, show (other.unnumbering sink).shift + index = index from Nat.zero_add index]
    exact unnumbering_carries hkind sink

end TokenBuffer

/-! ### Parsing elsewhere -/

/-- A relocation that moves no index carries a whole parse over. -/
theorem Relocation.Between.parse {m : Relocation} {buffer other : TokenBuffer}
    (h : m.Between ⟨buffer, .standard⟩ ⟨other, .standard⟩) (hshift : m.shift = 0) :
    (Parser.ofBuffer other m.sink).parse =
      ⟨(Parser.ofBuffer buffer #[]).parse.expressions.map (Expr.map m.token),
        m.sink ++ (Parser.ofBuffer buffer #[]).parse.diagnostics.map m.report⟩ := by
  obtain ⟨t, hrun, hd⟩ := (Parser.ofBuffer buffer #[]).parse_run
  have hstart : m.state (Parser.ofBuffer buffer #[]).state = (Parser.ofBuffer other m.sink).state := by
    simp [Relocation.state, Parser.ofBuffer, hshift]
  have hmoved := h.readsProgram hrun fun i hi => absurd hi (Nat.not_lt_zero i)
  rw [hstart] at hmoved
  rw [hd]
  exact Parser.parse_of_run (p := .ofBuffer other m.sink) hmoved

/-- A shape with the tokens of a buffer in the place of their numbers. -/
def Expr.fill (buffer : TokenBuffer) (shape : Expr) : Expr :=
  shape.map fun number => buffer.get number.start

/-- Every parse is the parse of the numbers, with the tokens put in. -/
theorem TokenBuffer.SameKinds.parse {buffer other : TokenBuffer} (h : SameKinds buffer other)
    (sink : Array Diagnostic) : (Parser.ofBuffer other sink).parse =
      ⟨(Parser.ofBuffer buffer.numbered #[]).parse.expressions.map (Expr.fill other),
        sink ++ (Parser.ofBuffer buffer.numbered #[]).parse.diagnostics.map (other.unnumbering sink).report⟩ :=
  (unnumbering_between h sink).parse rfl

/-- Tokens that are the same at every index up to the first end of the input are read in the same way. -/
theorem TokenBuffer.parse_eq_of_get_eq {buffer other : TokenBuffer}
    (h : ∀ index, (∀ i < index, (buffer.get i).kind ≠ .eof) → other.get index = buffer.get index)
    (sink sink' : Array Diagnostic) : ∃ new,
      (Parser.ofBuffer buffer sink).parse.diagnostics = sink ++ new ∧
      (Parser.ofBuffer other sink').parse.diagnostics = sink' ++ new ∧
      (Parser.ofBuffer buffer sink).parse.expressions = (Parser.ofBuffer other sink').parse.expressions := by
  have hbetween {b : TokenBuffer} (sink : Array Diagnostic)
      (hb : ∀ index, (∀ i < index, (buffer.get i).kind ≠ .eof) → b.get index = buffer.get index) :
      (Relocation.mk 0 id id sink).Between ⟨buffer, .standard⟩ ⟨b, .standard⟩ :=
    Relocation.between_of_get_eq Rules.standard_endsAtEof sink fun i hi => by rw [Nat.zero_add, hb i hi]
  have hp := (hbetween sink fun _ _ => rfl).parse rfl
  have hq := (hbetween sink' h).parse rfl
  refine ⟨_, congrArg Parsed.diagnostics hp, congrArg Parsed.diagnostics hq, ?_⟩
  rw [congrArg Parsed.expressions hp, congrArg Parsed.expressions hq]

theorem Parser.ofTokens?_eq_some {tokens : List Token} {sink : Array Diagnostic} {p : Parser}
    (h : Parser.ofTokens? tokens sink = some p) :
    ∃ buffer, TokenBuffer.ofList? tokens = some buffer ∧ p = Parser.ofBuffer buffer sink := by
  obtain ⟨buffer, hbuffer, rfl⟩ := Option.map_eq_some_iff.mp h
  exact ⟨buffer, hbuffer, rfl⟩

/-- Two lists of tokens whose kinds agree before the first end of the input are read as the same shapes, each
filled with the tokens at the same indices, and the kinds of what is reported agree as well. The tokens after
an end of the input change nothing at all. -/
theorem parse_shape_of_kinds {tokens others : List Token} {sink sink' : Array Diagnostic} {p q : Parser}
    (hp : Parser.ofTokens? tokens sink = some p) (hq : Parser.ofTokens? others sink' = some q)
    (hkinds : (tokens.map Token.kind).takeWhile (· ≠ .eof) = (others.map Token.kind).takeWhile (· ≠ .eof)) :
    ∃ (shapes : List Expr) (new new' : Array Diagnostic),
      p.parse = ⟨shapes.map (Expr.fill p.context.buffer), sink ++ new⟩ ∧
      q.parse = ⟨shapes.map (Expr.fill q.context.buffer), sink' ++ new'⟩ ∧
      new.map Diagnostic.kind = new'.map Diagnostic.kind ∧
      ∀ front ending rest rest', tokens = front ++ ending :: rest → others = front ++ ending :: rest' →
        ending.kind = .eof → p.parse.expressions = q.parse.expressions ∧ new = new' := by
  obtain ⟨buffer, hbuffer, rfl⟩ := Parser.ofTokens?_eq_some hp
  obtain ⟨other, hother, rfl⟩ := Parser.ofTokens?_eq_some hq
  have hsame := TokenBuffer.sameKinds_of_takeWhile_eq hbuffer hother hkinds
  have hself : buffer.SameKinds buffer := fun _ _ => rfl
  refine ⟨_, _, _, hself.parse sink, hsame.parse sink', by simp [Relocation.report, Function.comp_def], ?_⟩
  rintro front ending rest rest' rfl rfl hend
  have hget : ∀ index, (∀ i < index, (buffer.get i).kind ≠ .eof) → other.get index = buffer.get index := by
    intro index hreaches
    have hle : index ≤ front.length := by
      refine Nat.le_of_not_lt fun hgt => hreaches _ hgt ?_
      rw [TokenBuffer.get_of_ofList? hbuffer, List.getElem?_append_right (Nat.le_refl _), Nat.sub_self]
      exact hend
    rw [TokenBuffer.get_of_ofList? hbuffer, TokenBuffer.get_of_ofList? hother]
    rcases Nat.lt_or_eq_of_le hle with hlt | rfl
    · rw [List.getElem?_append_left hlt, List.getElem?_append_left hlt, List.getElem?_eq_getElem hlt]
      rfl
    · simp
  obtain ⟨new, hdp, hdq, hes⟩ := TokenBuffer.parse_eq_of_get_eq hget sink sink'
  refine ⟨hes, ?_⟩
  rw [hself.parse sink] at hdp
  rw [hsame.parse sink'] at hdq
  rw [(Array.append_right_inj sink).mp hdp, (Array.append_right_inj sink').mp hdq]

/-- The tokens of `a +` with more after the end of the input and those of `total +` are read as one shape. -/
theorem parse_shape_of_kinds_sum :
    let tokens : List Token :=
      [⟨.identifier, "a", 0, {}⟩, ⟨.plus, "+", 2, {}⟩, ⟨.eof, "", 3, {}⟩, ⟨.openParen, "(", 3, {}⟩]
    let others : List Token := [⟨.identifier, "total", 7, {}⟩, ⟨.plus, "+", 1, {}⟩]
    ∃ p q, Parser.ofTokens? tokens #[⟨.endExpected, ⟨0, 1⟩⟩] = some p ∧ Parser.ofTokens? others #[] = some q ∧
      ∃ (shapes : List Expr) (new new' : Array Diagnostic),
        p.parse = ⟨shapes.map (Expr.fill p.context.buffer), #[⟨.endExpected, ⟨0, 1⟩⟩] ++ new⟩ ∧
        q.parse = ⟨shapes.map (Expr.fill q.context.buffer), #[] ++ new'⟩ ∧
        new.map Diagnostic.kind = new'.map Diagnostic.kind := by
  intro tokens others
  have hp : (Parser.ofTokens? tokens #[⟨.endExpected, ⟨0, 1⟩⟩]).isSome = true := by decide +kernel
  have hq : (Parser.ofTokens? others #[]).isSome = true := by decide +kernel
  obtain ⟨p, hp⟩ := Option.isSome_iff_exists.mp hp
  obtain ⟨q, hq⟩ := Option.isSome_iff_exists.mp hq
  obtain ⟨shapes, new, new', hparse, hparse', hkinds, -⟩ := parse_shape_of_kinds hp hq (by decide)
  exact ⟨p, q, hp, hq, shapes, new, new', hparse, hparse', hkinds⟩

end ExprReader
