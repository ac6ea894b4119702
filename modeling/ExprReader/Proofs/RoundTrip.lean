import ExprReader.Proofs.Canonical
import ExprReader.Proofs.Nesting

/-! # Reading undoes writing

The tokens of canonical trees, one after the other, are read back as the same trees without a report, as long
as the trees are not nested too deep; the boundary is exact.

The induction is over the trees. A tree that is not binary is read as a primary. Any tree is read as the start
of whatever can be read by extending it: in this form the induction goes through a chain of operators from the
left, where the operators further right are not known yet. -/

namespace ExprReader

/-! ### Tokens ahead -/

/-- The state after some tokens. -/
def State.past (s : State) (tokens : List Token) : State :=
  { s with cursor := s.cursor + tokens.length }

@[simp] theorem State.past_nil (s : State) : s.past [] = s := rfl

@[simp] theorem State.past_cons (s : State) (token : Token) (tokens : List Token) :
    s.past (token :: tokens) = s.advance.past tokens := by
  simp only [past, advance, List.length_cons, State.mk.injEq, and_true]
  omega

@[simp] theorem State.past_append (s : State) (tokens others : List Token) :
    s.past (tokens ++ others) = (s.past tokens).past others := by
  simp only [past, List.length_append, State.mk.injEq, and_true]
  omega

/-- Some tokens stand next to be read. -/
def Context.Ahead (ctx : Context) : State → List Token → Prop
  | _, [] => True
  | s, token :: tokens => ctx.current s = token ∧ Ahead ctx s.advance tokens

@[simp] theorem Context.ahead_nil (ctx : Context) (s : State) : ctx.Ahead s [] := trivial

@[simp] theorem Context.ahead_cons {ctx : Context} {s : State} {token : Token} {tokens : List Token} :
    ctx.Ahead s (token :: tokens) ↔ ctx.current s = token ∧ ctx.Ahead s.advance tokens := Iff.rfl

@[simp] theorem Context.ahead_append {ctx : Context} {s : State} {tokens others : List Token} :
    ctx.Ahead s (tokens ++ others) ↔ ctx.Ahead s tokens ∧ ctx.Ahead (s.past tokens) others := by
  induction tokens generalizing s with
  | nil => simp
  | cons token tokens ih => simp [ih, and_assoc]

theorem Context.kind_eq {ctx : Context} {s : State} {token : Token} (h : ctx.current s = token) :
    ctx.kind s = token.kind := by
  rw [Context.kind, h]

/-! ### Reading a header back -/

section Header
variable {ctx : Context} {s : State} (standard : ctx.rules = .standard)

include standard

theorem ReadsParameter.of_ahead {p : Parameter} (hk : p.KindsFit) (hc : p.Complete)
    (ha : ctx.Ahead s (p.name :: (p.colon.toList ++ p.typeName.toList)))
    (hnext : ctx.kind (s.past (p.name :: (p.colon.toList ++ p.typeName.toList))) ≠ .colon) :
    ReadsParameter ctx p.comma s (some p) (s.past (p.name :: (p.colon.toList ++ p.typeName.toList))) := by
  obtain ⟨comma, name, colon, typeName⟩ := p
  obtain ⟨hname, ha⟩ := Context.ahead_cons.mp ha
  have hfound := skipToName_of_name ((Context.kind_eq hname).trans hk.name)
  have hkind : ctx.kind (ctx.skipToName s) = .identifier := by
    rw [hfound]
    exact (Context.kind_eq hname).trans hk.name
  rcases colon with _ | colon <;> rcases typeName with _ | typeName
  · subst hname
    have hread : ReadsParameter ctx comma s _ _ := .plain hkind (by rw [hfound]; simpa using hnext)
    rw [hfound] at hread
    simpa using hread
  · cases hc
  · cases hc
  · obtain ⟨hcolon, htype, -⟩ := ha
    have hkind' : ctx.kind s.advance = .colon := (Context.kind_eq hcolon).trans (hk.colon colon rfl)
    have hnames : ctx.rules.namesType (ctx.kind s.advance.advance) = true := by
      rw [standard, Context.kind_eq htype, hk.typeName typeName rfl]
      rfl
    subst hname hcolon htype
    have hread : ReadsParameter ctx comma s _ _ :=
      .typed hkind (by rw [hfound]; exact hkind') (by rw [hfound]; exact hnames)
    rw [hfound] at hread
    simpa using hread

/-- What follows the parameters begins with a comma or closes the list. -/
theorem ReadsOthers.of_ahead {ps : List Parameter} (hk : ∀ p ∈ ps, p.KindsFit) (hc : ∀ p ∈ ps, p.Complete)
    (hcomma : ∀ p ∈ ps, p.comma.isSome = true) (ha : ctx.Ahead s (ps.flatMap Parameter.leaves))
    (hend : ctx.kind (s.past (ps.flatMap Parameter.leaves)) = .closeParen) :
    ReadsOthers ctx s ps (s.past (ps.flatMap Parameter.leaves)) ∧ ctx.kind s ≠ .colon := by
  induction ps generalizing s with
  | nil =>
    simp only [List.flatMap_nil, State.past_nil] at hend ⊢
    exact ⟨.finish (by simp [hend, TokenKind.endsParameters]), by simp [hend]⟩
  | cons p ps ih =>
    obtain ⟨hkp, hkps⟩ := List.forall_mem_cons.mp hk
    obtain ⟨hcp, hcps⟩ := List.forall_mem_cons.mp hc
    obtain ⟨hcommap, hcommaps⟩ := List.forall_mem_cons.mp hcomma
    obtain ⟨comma, hsome⟩ := Option.isSome_iff_exists.mp hcommap
    have hleaves := Parameter.leaves_of_comma hsome
    rw [List.flatMap_cons, Context.ahead_append, hleaves, Context.ahead_cons] at ha
    rw [List.flatMap_cons, State.past_append, hleaves, State.past_cons] at hend ⊢
    obtain ⟨⟨hfirst, ha⟩, harest⟩ := ha
    rw [State.past_cons] at harest
    have hkind : ctx.kind s = .comma := (Context.kind_eq hfirst).trans (hkp.comma comma hsome)
    obtain ⟨hothers, hnext⟩ := ih hkps hcps hcommaps harest hend
    have hread := ReadsParameter.of_ahead standard hkp hcp ha hnext
    rw [hsome, ← hfirst] at hread
    exact ⟨.comma hkind hread hothers, by simp [hkind]⟩

theorem ReadsParameters.of_ahead {ps : List Parameter} (hk : ∀ p ∈ ps, p.KindsFit) (hc : ∀ p ∈ ps, p.Complete)
    (hfirst : ∀ p ∈ ps.head?, p.comma = none) (hcommas : ∀ p ∈ ps.tail, p.comma.isSome = true)
    (ha : ctx.Ahead s (ps.flatMap Parameter.leaves))
    (hend : ctx.kind (s.past (ps.flatMap Parameter.leaves)) = .closeParen) :
    ReadsParameters ctx s ps (s.past (ps.flatMap Parameter.leaves)) := by
  cases ps with
  | nil =>
    simp only [List.flatMap_nil, State.past_nil] at hend ⊢
    exact .empty (by simp [hend, TokenKind.endsParameters])
  | cons p ps =>
    obtain ⟨hkp, hkps⟩ := List.forall_mem_cons.mp hk
    obtain ⟨hcp, hcps⟩ := List.forall_mem_cons.mp hc
    have hnone : p.comma = none := hfirst p rfl
    have hleaves := Parameter.leaves_of_no_comma hnone
    rw [List.flatMap_cons, Context.ahead_append, hleaves] at ha
    rw [List.flatMap_cons, State.past_append, hleaves] at hend ⊢
    obtain ⟨hothers, hnext⟩ := ReadsOthers.of_ahead standard hkps hcps hcommas ha.2 hend
    have hread := ReadsParameter.of_ahead standard hkp hcp ha.1 hnext
    have hkind : ctx.kind s = .identifier := (Context.kind_eq ha.1.1).trans hkp.name
    rw [hnone] at hread
    exact .filled (by simp [hkind, TokenKind.endsParameters]) hread hothers

theorem functionParameters_of_ahead {l : ParameterList} (hk : l.KindsFit) (hc : l.Complete)
    (ha : ctx.Ahead s l.leaves) : ctx.functionParameters s = (some l, s.past l.leaves) := by
  obtain ⟨closing, hclosing⟩ := Option.isSome_iff_exists.mp hc.closing
  have hleaves : l.leaves = l.opening :: (l.parameters.flatMap Parameter.leaves ++ [closing]) := by
    simp [ParameterList.leaves, hclosing]
  rw [hleaves, Context.ahead_cons, Context.ahead_append] at ha
  obtain ⟨hopen, ha, hclose, -⟩ := ha
  have hkind := (Context.kind_eq hclose).trans (hk.closing closing hclosing)
  have hread : ReadsList ctx l.opening s.advance _ _ :=
    .closed (ReadsParameters.of_ahead standard hk.each hc.each hk.first hc.others ha hkind) hkind
  rw [hclose, ← hclosing, readsList_iff] at hread
  rw [Context.functionParameters, if_pos ((Context.kind_eq hopen).trans hk.opening), hopen, hread, hleaves]
  simp

end Header

/-! ### Reading expressions one after the other -/

/-- One run over some expressions, each of them begun by a token that ends nothing. -/
inductive ReadsEach (ctx : Context) (room : Nat) : State → List Expr → State → Prop where
  | nil {s} : ReadsEach ctx room s [] s
  | cons {s e t es u} : Rules.standard.startsExpression (ctx.kind s) = true → Reads ctx room (.expr .lowest) s e t →
      ReadsEach ctx room t es u → ReadsEach ctx room s (e :: es) u

section Each
variable {ctx : Context} {room : Nat} {s t : State} {es : List Expr}

theorem ReadsEach.block (h : ReadsEach ctx room s es t) (hk : ctx.kind t = .closeCurly) (opening : Token)
    (done : List Expr) : Reads ctx room (.block opening done) s
      (.block ⟨opening, done ++ es, some (ctx.current t)⟩) t.advance := by
  induction h generalizing done with
  | nil =>
    rw [List.append_nil]
    exact .blockClosed hk
  | @cons _ e _ _ _ hstarts he _ ih =>
    have hrest := ih hk (done ++ [e])
    rw [List.append_assoc, List.singleton_append] at hrest
    exact .blockNext (Rules.standard_starts_ne hstarts) (Rules.standard_starts_ne hstarts) he hrest

/-- A program goes on after the expressions that were read before it. -/
theorem ReadsEach.append {ds : List Expr} {u : State} (h : ReadsEach ctx room s es t)
    (h' : ReadsProgram ctx room t ds u) : ReadsProgram ctx room s (es ++ ds) u := by
  induction h with
  | nil => exact h'
  | cons hstarts he _ ih =>
    refine .next (Rules.standard_starts_ne hstarts) ?_ he (ih h')
    rintro (hclose | hclose)
    · exact absurd hclose (Rules.standard_starts_ne hstarts)
    · exact absurd hclose (Rules.standard_starts_ne hstarts)

theorem ReadsEach.program (h : ReadsEach ctx room s es t) (hk : ctx.kind t = .eof) :
    ReadsProgram ctx room s es t := by
  simpa using h.append (.finish hk)

end Each

/-! ### Reading trees back -/

open Expr

/-- The tree is read wherever its tokens stand. -/
structure ReadsBack (ctx : Context) (e : Expr) : Prop where
  primary : e.isBinary = false → ∀ room s, e.nest ≤ room → ctx.Ahead s e.leaves →
    Reads ctx room (.primary (ctx.current s)) s.advance e (s.past e.leaves)
  expr : ∀ room s least e' t, e.nest ≤ room → ctx.Ahead s e.leaves →
    (∀ op ∈ e.root?, op.kind.continues least = true) →
    (∀ op ∈ e.root?, (ctx.kind (s.past e.leaves)).continues op.kind.precedence = false) →
    Reads ctx room (.extend least e) (s.past e.leaves) e' t → Reads ctx room (.expr least) s e' t

section
variable {ctx : Context} {room : Nat} {s t : State} (standard : ctx.rules = .standard)

theorem Expr.Canonical.ahead_starts {e : Expr} (h : e.Canonical) (ha : ctx.Ahead s e.leaves) :
    Rules.standard.startsExpression (ctx.kind s) = true := by
  obtain ⟨token, rest, hleaves, hstarts⟩ := h.clean.first_starts h.kindsFit
  rw [hleaves] at ha
  rwa [Context.kind_eq ha.1]

/-- A whole expression before a token that does not go on with it. -/
theorem ReadsBack.whole {e : Expr} (h : ReadsBack ctx e) (hcanonical : e.Canonical) (hroom : e.nest ≤ room)
    (ha : ctx.Ahead s e.leaves) (hnext : (ctx.kind (s.past e.leaves)).isBinaryOperator = false) :
    Reads ctx room (.expr .lowest) s e (s.past e.leaves) := by
  refine h.expr _ _ _ _ _ hroom ha ?_ ?_ (.extendStop (TokenKind.continues_eq_false hnext _))
  · exact fun op hop => TokenKind.continues_lowest (hcanonical.root_isBinaryOperator op hop)
  · exact fun op _ => TokenKind.continues_eq_false hnext _

/-- Separated expressions before a token that does not go on with an expression. -/
theorem ReadsEach.of_ahead {es : List Expr} (h : ∀ e ∈ es, ReadsBack ctx e) (hcanonical : ∀ e ∈ es, e.Canonical)
    (hsep : Separated es) (hroom : ∀ e ∈ es, e.nest ≤ room) (ha : ctx.Ahead s (es.flatMap leaves))
    (hend : (ctx.kind (s.past (es.flatMap leaves))).isBinaryOperator = false) :
    ReadsEach ctx room s es (s.past (es.flatMap leaves)) := by
  induction es generalizing s with
  | nil => exact .nil
  | cons e es ih =>
    obtain ⟨hread, hreads⟩ := List.forall_mem_cons.mp h
    obtain ⟨hce, hces⟩ := List.forall_mem_cons.mp hcanonical
    obtain ⟨hre, hres⟩ := List.forall_mem_cons.mp hroom
    rw [List.flatMap_cons, Context.ahead_append] at ha
    rw [List.flatMap_cons, State.past_append] at hend ⊢
    have hnext : (ctx.kind (s.past e.leaves)).isBinaryOperator = false := by
      cases es with
      | nil => simpa using hend
      | cons d ds =>
        -- The next expression begins with a token that begins one and is no sign.
        have had : ctx.Ahead (s.past e.leaves) d.leaves := by
          rw [List.flatMap_cons, Context.ahead_append] at ha
          exact ha.2.1
        obtain ⟨token, rest, hleaves, hstarts⟩ := (hces d (by simp)).clean.first_starts (hces d (by simp)).kindsFit
        rw [hleaves] at had
        rw [Context.kind_eq had.1]
        refine (Rules.standard_starts_cases hstarts).resolve_right fun hsign => ?_
        exact hsep d (by simp) ⟨token, by simp [hleaves], hsign⟩
    refine .cons (hce.ahead_starts ha.1) (hread.whole hce hre ha.1 hnext) ?_
    exact ih hreads hces (fun d hm => hsep d (List.mem_of_mem_tail hm)) hres ha.2 hend

/-- An expression that is read as a primary is read as the start of whatever extends it. -/
theorem ReadsBack.of_primary {e : Expr} (hcanonical : e.Canonical) (hprimary : ∀ room s, e.nest ≤ room →
      ctx.Ahead s e.leaves → Reads ctx room (.primary (ctx.current s)) s.advance e (s.past e.leaves)) :
    ReadsBack ctx e where
  primary _ := hprimary
  expr room s _ _ _ hroom ha _ _ hextend :=
    .exprExtended (Rules.standard_starts_ne (hcanonical.ahead_starts ha)) (hprimary room s hroom ha)
      hcanonical.isInvalid_eq_false hextend

theorem ReadsBack.binary {left right : Expr} {operator : Token} (hl : ReadsBack ctx left) (hr : ReadsBack ctx right)
    (hcanonical : (Expr.binary left operator right).Canonical) : ReadsBack ctx (.binary left operator right) := by
  obtain ⟨hnode, hcl, hcr⟩ := everywhere_binary.mp hcanonical
  have hop : operator.kind.isBinaryOperator = true := hnode.kinds
  obtain ⟨hright, hleft⟩ := hnode.operands
  refine ⟨fun hbinary => (by cases hbinary), fun room s least e' t hroom ha hroot hnext hextend => ?_⟩
  obtain ⟨hroomLeft, hroomRight⟩ := nest_binary_le_iff.mp hroom
  rw [leaves_binary, Context.ahead_append, Context.ahead_cons] at ha
  obtain ⟨haLeft, haOp, haRight⟩ := ha
  rw [leaves_binary, State.past_append, State.past_cons] at hnext hextend
  have hcontinues : operator.kind.continues least = true := hroot operator rfl
  have hstop := hnext operator rfl
  have hkind : ctx.kind (s.past left.leaves) = operator.kind := Context.kind_eq haOp
  -- The operator settles the left operand, and the token after the whole settles the right one.
  refine hl.expr room s least e' t hroomLeft haLeft ?_ ?_ ?_
  · exact fun op hm => (hleft op hm).continues (Canonical.root_isBinaryOperator hcl op hm) hcontinues
  · intro op hm
    rw [hkind]
    exact (TokenKind.nestsLeft_iff (Canonical.root_isBinaryOperator hcl op hm) hop).mp (hleft op hm)
  · obtain ⟨room, rfl⟩ : ∃ r, room = r + 1 := Nat.exists_eq_add_of_lt hroomRight |>.elim fun n hn => ⟨_, hn⟩
    have hread : Reads ctx room (.expr operator.kind.precedence) (s.past left.leaves).advance right
        ((s.past left.leaves).advance.past right.leaves) := by
      refine hr.expr room _ _ _ _ (Nat.le_of_lt_succ hroomRight) haRight ?_ ?_ (.extendStop hstop)
      · exact fun op hm =>
          (TokenKind.nestsRight_iff (Canonical.root_isBinaryOperator hcr op hm)).mp (hright op hm)
      · exact fun op hm => TokenKind.continues_eq_false_of_le hstop (hright op hm).le
    rw [← haOp] at hextend
    refine .extendOperator (by rw [hkind]; exact hcontinues) (.operandExpr hread.kind_ne_eof ?_) hextend
    rw [hkind]
    exact hread

include standard

/-- A construct that its first token begins is read as a primary one level further up. -/
theorem ReadsBack.of_construct {e : Expr} (found : Construct) (hcanonical : e.Canonical)
    (hconstruct : ∀ room s, e.nest ≤ room + 1 → ctx.Ahead s e.leaves →
      Rules.standard.construct? (ctx.kind s) = some found ∧
        Reads ctx room (.construct found (ctx.current s)) s.advance e (s.past e.leaves)) : ReadsBack ctx e := by
  refine .of_primary hcanonical fun room s hroom ha => ?_
  cases room with
  | zero => exact absurd hcanonical.clean.nest_pos (Nat.not_lt.mpr hroom)
  | succ room =>
    obtain ⟨hfound, hread⟩ := hconstruct room s hroom ha
    exact .primaryKnown (by rw [standard]; exact hfound) hread

theorem ReadsBack.literal {token : Token} (hcanonical : (Expr.literal token).Canonical) :
    ReadsBack ctx (.literal token) := by
  have hliteral : token.kind.isLiteral = true := hcanonical.self.kinds
  refine .of_construct standard .literal hcanonical fun room s _ ha => ?_
  rw [leaves_literal, Context.ahead_cons] at ha
  obtain ⟨rfl, -⟩ := ha
  refine ⟨?_, by simpa using Reads.literal⟩
  rw [Context.kind]
  cases hkind : (ctx.current s).kind <;> rw [hkind] at hliteral <;> first | rfl | cases hliteral

theorem ReadsBack.identifier {token : Token} (hcanonical : (Expr.identifier token).Canonical) :
    ReadsBack ctx (.identifier token) := by
  have hname : token.kind = .identifier := hcanonical.self.kinds
  refine .of_construct standard .identifier hcanonical fun room s _ ha => ?_
  rw [leaves_identifier, Context.ahead_cons] at ha
  obtain ⟨rfl, -⟩ := ha
  exact ⟨by rw [Context.kind, hname]; rfl, by simpa using Reads.identifier⟩

theorem ReadsBack.unary {operator : Token} {operand : Expr} (h : ReadsBack ctx operand)
    (hcanonical : (Expr.unary operator (some operand)).Canonical) :
    ReadsBack ctx (.unary operator (some operand)) := by
  obtain ⟨hnode, hinside⟩ := everywhere_unary.mp hcanonical
  obtain ⟨hop, hoperand⟩ := hnode.kinds
  have hc : operand.Canonical := hinside operand rfl
  refine .of_construct standard .unary hcanonical fun room s hroom ha => ?_
  rw [leaves_unary, Context.ahead_cons] at ha
  simp only [Option.toList_some, List.flatMap_cons, List.flatMap_nil, List.append_nil] at ha
  obtain ⟨rfl, ha⟩ := ha
  have hread := h.primary (hoperand operand rfl) room s.advance (nest_unary_le_iff.mp hroom operand rfl) ha
  refine ⟨?_, ?_⟩
  · rw [Context.kind]
    cases hkind : (ctx.current s).kind <;> rw [hkind] at hop <;> first | rfl | cases hop
  · simpa using Reads.unary (Or.inl (by rw [standard]; exact hc.ahead_starts ha)) hread

theorem ReadsBack.parenthesis {opening closing : Token} {inner : Expr} (h : ReadsBack ctx inner)
    (hcanonical : (Expr.parenthesis opening (some inner) (some closing)).Canonical) :
    ReadsBack ctx (.parenthesis opening (some inner) (some closing)) := by
  obtain ⟨hnode, hinside⟩ := everywhere_parenthesis.mp hcanonical
  obtain ⟨hopen, hclose⟩ := hnode.kinds
  have hc : inner.Canonical := hinside inner rfl
  refine .of_construct standard .parenthesis hcanonical fun room s hroom ha => ?_
  rw [leaves_parenthesis, Context.ahead_cons] at ha
  simp only [Option.toList_some, List.flatMap_cons, List.flatMap_nil, List.append_nil, Context.ahead_append] at ha
  obtain ⟨rfl, ha, rfl, -⟩ := ha
  have hkind : ctx.kind (s.advance.past inner.leaves) = .closeParen := hclose _ rfl
  have hread := h.whole hc (nest_parenthesis_le_iff.mp hroom inner rfl) ha (by rw [hkind]; rfl)
  refine ⟨by rw [Context.kind, hopen]; rfl, ?_⟩
  simpa using Reads.parenthesisClosed (Rules.standard_starts_ne (hc.ahead_starts ha)) hread hkind

omit standard in
theorem Reads.block_of_ahead (opening : Token) {closing : Token} {es : List Expr}
    (h : ∀ e ∈ es, ReadsBack ctx e) (hcanonical : ∀ e ∈ es, e.Canonical) (hsep : Separated es)
    (hroom : ∀ e ∈ es, e.nest ≤ room) (hclose : closing.kind = .closeCurly)
    (ha : ctx.Ahead s (es.flatMap leaves ++ [closing])) :
    Reads ctx room (.block opening []) s (.block ⟨opening, es, some closing⟩)
      (s.past (es.flatMap leaves ++ [closing])) := by
  rw [Context.ahead_append] at ha
  obtain ⟨ha, rfl, -⟩ := ha
  have heach := ReadsEach.of_ahead h hcanonical hsep hroom ha (by rw [Context.kind, hclose]; rfl)
  simpa using heach.block hclose opening []

theorem ReadsBack.block {opening closing : Token} {es : List Expr} (h : ∀ e ∈ es, ReadsBack ctx e)
    (hcanonical : (Expr.block ⟨opening, es, some closing⟩).Canonical) :
    ReadsBack ctx (.block ⟨opening, es, some closing⟩) := by
  obtain ⟨hnode, hinside⟩ := everywhere_block.mp hcanonical
  refine .of_construct standard .block hcanonical fun room s hroom ha => ?_
  rw [leaves_block, Option.toList_some, Context.ahead_cons] at ha
  obtain ⟨rfl, ha⟩ := ha
  have hread := Reads.block_of_ahead (ctx.current s) h hinside hnode.body (nest_block_le_iff.mp hroom)
    (hnode.kinds.closing closing rfl) ha
  refine ⟨by rw [Context.kind, hnode.kinds.opening]; rfl, ?_⟩
  simpa using Reads.block hread

theorem ReadsBack.function {keyword name opening closing : Token} {l : ParameterList} {es : List Expr}
    (h : ∀ e ∈ es, ReadsBack ctx e)
    (hcanonical : (Expr.function keyword (some name) (some l) (some ⟨opening, es, some closing⟩)).Canonical) :
    ReadsBack ctx (.function keyword (some name) (some l) (some ⟨opening, es, some closing⟩)) := by
  obtain ⟨hnode, hinside⟩ := everywhere_function.mp hcanonical
  obtain ⟨hkeyword, hname, hlist, hbraces⟩ := hnode.kinds
  have hcomplete : l.Complete := by
    obtain ⟨-, ⟨l', hl, hcomplete⟩, -⟩ := hnode.complete
    cases hl
    exact hcomplete
  refine .of_construct standard .function hcanonical fun room s hroom ha => ?_
  rw [leaves_function, Context.ahead_cons] at ha
  simp only [Option.toList_some, List.flatMap_cons, List.flatMap_nil, List.append_nil, List.nil_append,
    List.cons_append, Context.ahead_cons, Context.ahead_append, leaves_block] at ha
  obtain ⟨rfl, rfl, haList, rfl, haBody⟩ := ha
  have hfunctionName : ctx.functionName s.advance = (some (ctx.current s.advance), s.advance.advance) := by
    have hkind : ctx.kind s.advance = .identifier := hname _ rfl
    rw [Context.functionName, Context.expect, if_pos hkind]
  have hparameters := functionParameters_of_ahead standard (hlist l rfl) hcomplete haList
  have hread := Reads.block_of_ahead (ctx.current (s.advance.advance.past l.leaves)) h (hinside _ rfl)
    (hnode.body _ rfl) (nest_function_le_iff.mp hroom _ rfl) ((hbraces _ rfl).closing closing rfl)
    (Context.ahead_append.mpr haBody)
  refine ⟨by rw [Context.kind, hkeyword]; rfl, ?_⟩
  simpa using Reads.function hfunctionName hparameters (hbraces _ rfl).opening hread

/-- Every canonical tree is read back from its tokens. -/
theorem Expr.Canonical.readsBack {e : Expr} (h : e.Canonical) : ReadsBack ctx e := by
  have hcomplete := h.clean.complete
  induction e with
  | literal token => exact .literal standard h
  | identifier token => exact .identifier standard h
  | unary operator operand ih =>
    obtain ⟨operand, rfl⟩ := Option.isSome_iff_exists.mp hcomplete
    have hc : operand.Canonical := (everywhere_unary.mp h).2 operand rfl
    exact .unary standard (ih operand rfl hc hc.clean.complete) h
  | binary left operator right ih ih' =>
    obtain ⟨-, hcl, hcr⟩ := everywhere_binary.mp h
    exact .binary (ih hcl (Canonical.clean hcl).complete) (ih' hcr (Canonical.clean hcr).complete) h
  | parenthesis opening inner closing ih =>
    obtain ⟨inner, rfl⟩ := Option.isSome_iff_exists.mp hcomplete.1
    obtain ⟨closing, rfl⟩ := Option.isSome_iff_exists.mp hcomplete.2
    have hc : inner.Canonical := (everywhere_parenthesis.mp h).2 inner rfl
    exact .parenthesis standard (ih inner rfl hc hc.clean.complete) h
  | block body ih =>
    obtain ⟨opening, es, closing⟩ := body
    obtain ⟨closing, rfl⟩ := Option.isSome_iff_exists.mp hcomplete
    have hinside : ∀ e ∈ es, e.Canonical := (everywhere_block.mp h).2
    exact .block standard (fun e he => ih e he (hinside e he) (hinside e he).clean.complete) h
  | function keyword name parameters body ih =>
    obtain ⟨hname, ⟨l, rfl, -⟩, ⟨opening, es, closing⟩, rfl, hclosing⟩ := hcomplete
    obtain ⟨name, rfl⟩ := Option.isSome_iff_exists.mp hname
    obtain ⟨closing, rfl⟩ := Option.isSome_iff_exists.mp hclosing
    have hinside : ∀ e ∈ es, e.Canonical := (everywhere_function.mp h).2 _ rfl
    exact .function standard (fun e he => ih _ rfl e he (hinside e he) (hinside e he).clean.complete) h
  | invalidToken token => exact hcomplete.elim
  | invalidExpr inner _ => exact hcomplete.elim

theorem CanonicalForest.readsProgram {es : List Expr} (h : CanonicalForest es) (hroom : ∀ e ∈ es, e.nest ≤ room)
    (ha : ctx.Ahead s (es.flatMap leaves)) (hend : ctx.kind (s.past (es.flatMap leaves)) = .eof) :
    ReadsProgram ctx room s es (s.past (es.flatMap leaves)) := by
  have heach := ReadsEach.of_ahead (fun e he => (h.each e he).readsBack standard) h.each h.separated hroom ha
    (by rw [hend]; rfl)
  exact heach.program hend

end

/-! ### Whole programs -/

section
variable {ctx : Context} {s : State} {tokens : List Token}

theorem Context.ahead_iff_passed : ctx.Ahead s tokens ↔ ctx.passed s (s.past tokens) = tokens := by
  induction tokens generalizing s with
  | nil => simp
  | cons token tokens ih =>
    have hle : s.advance.cursor ≤ (s.advance.past tokens).cursor := Nat.le_add_right ..
    rw [ahead_cons, ih, State.past_cons, passed_eq_cons hle, List.cons.injEq]

/-- At the start all tokens of the buffer are ahead, and after them the input ends. -/
theorem Context.ahead_of_start (hs : s.cursor = 0) (htokens : ctx.buffer.tokens.toList = tokens) :
    ctx.Ahead s tokens ∧ ctx.kind (s.past tokens) = .eof := by
  have hcursor : (s.past tokens).cursor = ctx.buffer.size := by
    simp [State.past, hs, ← htokens, TokenBuffer.size]
  refine ⟨ahead_iff_passed.mpr ((passed_all hs hcursor).trans htokens), ?_⟩
  rw [kind, current, hcursor, TokenBuffer.get_of_size_le (Nat.le_refl _)]
  exact ctx.buffer.ending_kind

namespace TokenBuffer

theorem close?_of_endAfter? {ending : Token} (h : endAfter? tokens = some ending) :
    close? tokens = some ⟨tokens.toArray, ending, endAfter?_kind h⟩ := by
  unfold close?
  split
  · rename_i h'
    rw [h] at h'
    cases h'
    rfl
  · simp_all

theorem ofList?_eq_close? (hk : ∀ token ∈ tokens, token.kind ≠ .eof) : ofList? tokens = close? tokens := by
  unfold ofList?
  split
  · rename_i hlast
    rw [dif_neg (hk _ (List.mem_of_getLast? hlast))]
  · rfl

/-- Tokens without an end of the input are closed by one, if it can be placed after them. -/
theorem ofList?_of_ne_eof (hk : ∀ token ∈ tokens, token.kind ≠ .eof) (hend : (endAfter? tokens).isSome = true) :
    ∃ buffer, ofList? tokens = some buffer ∧ buffer.tokens.toList = tokens := by
  obtain ⟨ending, hending⟩ := Option.isSome_iff_exists.mp hend
  exact ⟨_, (ofList?_eq_close? hk).trans (close?_of_endAfter? hending), rfl⟩

end TokenBuffer

end

namespace CanonicalForest
variable {es : List Expr} {buffer : TokenBuffer} (h : CanonicalForest es)
include h

theorem solid : ∀ token ∈ es.flatMap leaves, token.Solid := by
  intro token hm
  obtain ⟨e, he, hm⟩ := List.mem_flatMap.mp hm
  exact (h.each e he).clean.solid (h.each e he).kindsFit token hm

variable (htokens : buffer.tokens.toList = es.flatMap leaves) (sink : Array Diagnostic)
include htokens

/-- With enough room the trees are read back and nothing is reported. -/
theorem reads_from_start {room : Nat} (hroom : ∀ e ∈ es, e.nest ≤ room) :
    ReadsProgram ⟨buffer, .standard⟩ room { diagnostics := sink } es
      (State.past { diagnostics := sink } (es.flatMap leaves)) := by
  obtain ⟨ha, hend⟩ : Context.Ahead ⟨buffer, .standard⟩ { diagnostics := sink } (es.flatMap leaves) ∧ _ :=
    Context.ahead_of_start rfl htokens
  exact h.readsProgram rfl hroom ha hend

theorem parse_eq (hnest : ∀ e ∈ es, e.nest ≤ maxNesting) : (Parser.ofBuffer buffer sink).parse = ⟨es, sink⟩ :=
  Parser.parse_of_run (p := .ofBuffer buffer sink) (h.reads_from_start htokens sink hnest)

/-- Without enough room a token is reported first. -/
theorem parse_overflows (hdeep : ∃ e ∈ es, maxNesting < e.nest) :
    (Parser.ofBuffer buffer sink).parse.expressions ≠ es ∧ ∃ token ∈ es.flatMap leaves,
      (sink.push ⟨.expressionExpected, token.span⟩).toList <+:
        (Parser.ofBuffer buffer sink).parse.diagnostics.toList := by
  obtain ⟨e, he, hlt⟩ := hdeep
  obtain ⟨t, hrun, hd⟩ := (Parser.ofBuffer buffer sink).parse_run
  have hne : (Parser.ofBuffer buffer sink).parse.expressions ≠ es := by
    intro heq
    rw [heq] at hrun
    exact absurd (hrun.nests e he) (Nat.not_le.mpr hlt)
  -- The run that has all the room it needs is quiet, so it is the one that overflows with less.
  have hwide := h.reads_from_start htokens sink (nestAll_le_iff.mp (Nat.le_refl (nestAll es)))
  have hle : maxNesting ≤ nestAll es :=
    Nat.le_trans (Nat.le_of_lt hlt) (nestAll_le_iff.mp (Nat.le_refl (nestAll es)) e he)
  obtain ⟨ha, -⟩ : Context.Ahead ⟨buffer, .standard⟩ { diagnostics := sink } (es.flatMap leaves) ∧ _ :=
    Context.ahead_of_start rfl htokens
  have hpassed := Context.ahead_iff_passed.mp ha
  have hquiet : Quiet ⟨buffer, .standard⟩ { diagnostics := sink }
      (State.past { diagnostics := sink } (es.flatMap leaves)) := by
    refine ⟨rfl, ?_⟩
    rw [hpassed]
    exact fun token hm => (h.solid token hm).1
  rcases hwide.shallower hquiet hle with hnarrow | hblocked
  · exact absurd (hnarrow.nests e he) (Nat.not_le.mpr hlt)
  · obtain ⟨token, hm, hfirst⟩ := hblocked _ _ hrun
    rw [hpassed] at hm
    exact ⟨hne, token, hm, hd ▸ hfirst⟩

end CanonicalForest

/-- Canonical trees are read back from their tokens, whatever was reported before, exactly as long as they
are not nested too deep. Otherwise one of their tokens is reported first. -/
theorem parse_leaves_of_canonical {es : List Expr} (h : CanonicalForest es)
    (hend : (TokenBuffer.endAfter? (es.flatMap leaves)).isSome = true) (sink : Array Diagnostic) :
    ∃ p, Parser.ofTokens? (es.flatMap leaves) sink = some p ∧
      ((∀ e ∈ es, e.nest ≤ maxNesting) → p.parse = ⟨es, sink⟩) ∧
      ((∃ e ∈ es, maxNesting < e.nest) → p.parse.expressions ≠ es ∧ ∃ token ∈ es.flatMap leaves,
        (sink.push ⟨.expressionExpected, token.span⟩).toList <+: p.parse.diagnostics.toList) := by
  obtain ⟨buffer, hbuffer, htokens⟩ := TokenBuffer.ofList?_of_ne_eof (fun token hm => (h.solid token hm).2) hend
  refine ⟨.ofBuffer buffer sink, by rw [Parser.ofTokens?, hbuffer]; rfl, ?_, ?_⟩
  · exact h.parse_eq htokens sink
  · exact h.parse_overflows htokens sink

/-- The tokens of `-b + c * d`, each of them out of place, are read back after a report. -/
theorem parse_leaves_of_canonical_sum :
    let product : Expr := .binary (.identifier ⟨.identifier, "c", 3, {}⟩) ⟨.asterisk, "*", 1, {}⟩
      (.identifier ⟨.identifier, "d", 9, {}⟩)
    let sum : Expr := .binary (.unary ⟨.minus, "-", 7, {}⟩ (some (.identifier ⟨.identifier, "b", 0, {}⟩)))
      ⟨.plus, "+", 3, {}⟩ product
    ∃ p, Parser.ofTokens? ([sum].flatMap leaves) #[⟨.endExpected, ⟨0, 1⟩⟩] = some p ∧
      p.parse = ⟨[sum], #[⟨.endExpected, ⟨0, 1⟩⟩]⟩ := by
  intro product sum
  have hproduct : product.Canonical :=
    canonical_binary rfl (canonical_identifier rfl) (canonical_identifier rfl) (by simp [root?]) (by simp [root?])
  have hnests : ∀ op ∈ product.root?, op.kind.NestsRight .plus := by
    rintro _ ⟨⟩
    exact Or.inl (by decide)
  have hsum : sum.Canonical :=
    canonical_binary rfl (canonical_unary rfl (canonical_identifier rfl) rfl) hproduct (by simp [root?]) hnests
  have hcanonical : CanonicalForest [sum] := ⟨List.forall_mem_singleton.mpr hsum, by simp [Separated]⟩
  obtain ⟨p, hp, hparse, -⟩ := parse_leaves_of_canonical hcanonical (by decide +kernel) #[⟨.endExpected, ⟨0, 1⟩⟩]
  exact ⟨p, hp, hparse (by simp [sum, product, nest, maxNesting])⟩

end ExprReader
