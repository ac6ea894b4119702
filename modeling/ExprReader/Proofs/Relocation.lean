import ExprReader.Proofs.Clean

/-! # Reading the same tokens elsewhere

The parser looks at nothing but the kinds of the tokens before the first end of the input. If the tokens of
one buffer are found in another, further on, under other texts and in other places, every run over the first
is a run over the second: the trees hold the other tokens and the reports their spans. -/

namespace ExprReader

/-! ### Trees with other tokens -/

/-- Replaces the tokens of a parameter. -/
def Parameter.map (f : Token → Token) (p : Parameter) : Parameter :=
  ⟨p.comma.map f, f p.name, p.colon.map f, p.typeName.map f⟩

theorem Parameter.map_id : Parameter.map id = id := by
  funext p
  simp [Parameter.map]

/-- Replaces the tokens of a list of parameters. -/
def ParameterList.map (f : Token → Token) (l : ParameterList) : ParameterList :=
  ⟨f l.opening, l.parameters.map (Parameter.map f), l.closing.map f⟩

theorem ParameterList.map_id : ParameterList.map id = id := by
  funext l
  simp [ParameterList.map, Parameter.map_id]

/-- Replaces the braces of a block and what stands between them. -/
def Block.map {α : Type} (f : Token → Token) (g : α → α) (b : Block α) : Block α :=
  ⟨f b.opening, b.expressions.map g, b.closing.map f⟩

theorem Block.map_id {α : Type} {g : α → α} {b : Block α} (h : ∀ e ∈ b.expressions, g e = e) : b.map id g = b := by
  have hinside : b.expressions.map g = b.expressions := by simpa using List.map_congr_left (g := id) h
  simp [Block.map, hinside]

namespace Expr

mutual

/-- Replaces the tokens of an expression. -/
def map (f : Token → Token) : Expr → Expr
  | .literal token => .literal (f token)
  | .identifier token => .identifier (f token)
  | .unary operator none => .unary (f operator) none
  | .unary operator (some operand) => .unary (f operator) (some (operand.map f))
  | .binary left operator right => .binary (left.map f) (f operator) (right.map f)
  | .parenthesis opening none closing => .parenthesis (f opening) none (closing.map f)
  | .parenthesis opening (some inner) closing => .parenthesis (f opening) (some (inner.map f)) (closing.map f)
  | .block ⟨opening, expressions, closing⟩ => .block ⟨f opening, mapAll f expressions, closing.map f⟩
  | .function keyword name parameters none =>
    .function (f keyword) (name.map f) (parameters.map (ParameterList.map f)) none
  | .function keyword name parameters (some ⟨opening, expressions, closing⟩) =>
    .function (f keyword) (name.map f) (parameters.map (ParameterList.map f))
      (some ⟨f opening, mapAll f expressions, closing.map f⟩)
  | .invalidToken token => .invalidToken (f token)
  | .invalidExpr inner => .invalidExpr (inner.map f)

/-- Replaces the tokens of some expressions. -/
def mapAll (f : Token → Token) : List Expr → List Expr
  | [] => []
  | e :: es => e.map f :: mapAll f es

end

variable (f : Token → Token)

theorem mapAll_eq_map (es : List Expr) : mapAll f es = es.map (map f) := by
  induction es with
  | nil => rfl
  | cons e es ih => rw [mapAll, ih, List.map_cons]

@[simp] theorem map_unary (operator : Token) (operand : Option Expr) :
    (unary operator operand).map f = unary (f operator) (operand.map (map f)) := by
  cases operand <;> rfl

@[simp] theorem map_binary (left : Expr) (operator : Token) (right : Expr) :
    (binary left operator right).map f = binary (left.map f) (f operator) (right.map f) := rfl

@[simp] theorem map_parenthesis (opening : Token) (inner : Option Expr) (closing : Option Token) :
    (parenthesis opening inner closing).map f = parenthesis (f opening) (inner.map (map f)) (closing.map f) := by
  cases inner <;> rfl

@[simp] theorem map_block (body : Block Expr) : (block body).map f = block (body.map f (map f)) := by
  rw [map, mapAll_eq_map]
  rfl

@[simp] theorem map_function (keyword : Token) (name : Option Token) (parameters : Option ParameterList)
    (body : Option (Block Expr)) : (function keyword name parameters body).map f =
      function (f keyword) (name.map f) (parameters.map (ParameterList.map f)) (body.map (Block.map f (map f))) := by
  cases body with
  | none => rfl
  | some body =>
    rw [map, mapAll_eq_map]
    rfl

theorem map_id (e : Expr) : e.map id = e := by
  induction e with
  | literal token => rfl
  | identifier token => rfl
  | unary operator operand ih => cases operand <;> simp [ih]
  | binary left operator right ih ih' => simp [ih, ih']
  | parenthesis opening inner closing ih => cases inner <;> simp [ih]
  | block body ih => rw [map_block, Block.map_id ih]
  | function keyword name parameters body ih =>
    cases body with
    | none => simp [ParameterList.map_id]
    | some body => simp [ParameterList.map_id, Block.map_id (ih body rfl)]
  | invalidToken token => rfl
  | invalidExpr inner ih => rw [map, ih]

@[simp] theorem isInvalid_map (e : Expr) : (e.map f).isInvalid = e.isInvalid := by
  cases e with
  | unary operator operand => cases operand <;> rfl
  | parenthesis opening inner closing => cases inner <;> rfl
  | function keyword name parameters body => cases body <;> rfl
  | _ => rfl

end Expr

namespace Node

mutual

/-- Replaces the tokens of a node. -/
def map (f : Token → Token) : Node → Node
  | .leaf token => .leaf (f token)
  | .branch tag children => .branch tag (mapAll f children)

/-- Replaces the tokens of some nodes. -/
def mapAll (f : Token → Token) : List Node → List Node
  | [] => []
  | node :: nodes => node.map f :: mapAll f nodes

end

variable (f : Token → Token)

theorem mapAll_eq_map (nodes : List Node) : mapAll f nodes = nodes.map (map f) := by
  induction nodes with
  | nil => rfl
  | cons node nodes ih => rw [mapAll, ih, List.map_cons]

@[simp] theorem map_leaf (token : Token) : (leaf token).map f = leaf (f token) := rfl

@[simp] theorem map_branch (tag : NodeTag) (children : List Node) :
    (branch tag children).map f = branch tag (children.map (map f)) := by
  rw [map, mapAll_eq_map]

@[simp] theorem map_ofName (token : Token) : (ofName token).map f = ofName (f token) := rfl

@[simp] theorem map_ofTypeName (token : Token) : (ofTypeName token).map f = ofTypeName (f token) := rfl

@[simp] theorem map_ofToken? (token : Option Token) : (ofToken? token).map (map f) = ofToken? (token.map f) := by
  cases token <;> rfl

variable {f} {g : Token → Token}

mutual

/-- Tokens of the same kinds and texts in the same places make nodes that agree. -/
theorem alike_map (h : ∀ token, (f token).kind = (g token).kind ∧ (f token).text = (g token).text) :
    ∀ node : Node, (node.map f).alike (node.map g) = true
  | .leaf token => by simp [alike, h token]
  | .branch tag children => by simp [map, alike, alikeAll_map h children]

theorem alikeAll_map (h : ∀ token, (f token).kind = (g token).kind ∧ (f token).text = (g token).text) :
    ∀ nodes : List Node, alikeAll (mapAll f nodes) (mapAll g nodes) = true
  | [] => rfl
  | node :: nodes => by simp [mapAll, alikeAll, alike_map h node, alikeAll_map h nodes]

end

end Node

theorem Parameter.toNode_map (f : Token → Token) (p : Parameter) : (p.map f).toNode = p.toNode.map f := by
  obtain ⟨comma, name, colon, typeName⟩ := p
  cases typeName <;> simp [toNode, Parameter.map]

theorem ParameterList.toNode_map (f : Token → Token) (l : ParameterList) : (l.map f).toNode = l.toNode.map f := by
  simp [toNode, ParameterList.map, Parameter.toNode_map, Function.comp_def]

namespace Expr

theorem toNodes_map {f : Token → Token} {es : List Expr} (h : ∀ e ∈ es, (e.map f).toNode = e.toNode.map f) :
    toNodes (es.map (map f)) = (toNodes es).map (Node.map f) := by
  simpa [toNodes_eq_map] using h

theorem toNode_map (f : Token → Token) (e : Expr) : (e.map f).toNode = e.toNode.map f := by
  induction e with
  | literal token => rfl
  | identifier token => rfl
  | unary operator operand ih => cases operand <;> simp [toNode, ih]
  | binary left operator right ih ih' => simp [toNode, ih, ih']
  | parenthesis opening inner closing ih => cases inner <;> simp [toNode, ih]
  | block body ih => simp [toNode, Block.map, toNodes_map ih]
  | function keyword name parameters body ih =>
    have hname : ((name.map f).map Node.ofName).toList = (name.map Node.ofName).toList.map (Node.map f) := by
      cases name <;> rfl
    have hlist : ((parameters.map (ParameterList.map f)).map ParameterList.toNode).toList =
        (parameters.map ParameterList.toNode).toList.map (Node.map f) := by
      cases parameters <;> simp [ParameterList.toNode_map]
    cases body with
    | none => simp only [map_function, Option.map_none, toNode, hname, hlist, Node.map_branch, List.map_append,
        List.map_cons, Node.map_leaf]
    | some body =>
      simp only [map_function, Option.map_some, Block.map, toNode, hname, hlist, toNodes_map (ih body rfl),
        Node.map_branch, List.map_append, List.map_cons, List.map_nil, Node.map_leaf, Node.map_ofToken?]
  | invalidToken token => rfl
  | invalidExpr inner ih => simp [map, toNode, ih]

theorem alike_map {f g : Token → Token}
    (h : ∀ token, (f token).kind = (g token).kind ∧ (f token).text = (g token).text) (e : Expr) :
    (e.map f).alike (e.map g) = true := by
  rw [alike, toNode_map, toNode_map]
  exact Node.alike_map h e.toNode

end Expr

/-- Replaces the tokens that a task started from. -/
def Task.map (f : Token → Token) : Task → Task
  | expr least => .expr least
  | primary token => .primary (f token)
  | construct found token => .construct found (f token)
  | extend least left => .extend least (left.map f)
  | operand strength => .operand strength
  | block opening done => .block (f opening) (done.map (Expr.map f))

/-! ### Relocations -/

/-- A way to carry a run over to another buffer: how far the indices move, which tokens and spans take the
place of others, and what was reported before. -/
structure Relocation where
  shift : Nat
  token : Token → Token
  span : Span → Span
  sink : Array Diagnostic

namespace Relocation
variable (m : Relocation)

/-- A report with its span replaced. -/
def report (d : Diagnostic) : Diagnostic :=
  ⟨d.kind, m.span d.span⟩

/-- The state of the run over the other buffer. -/
def state (s : State) : State :=
  ⟨m.shift + s.cursor, m.sink ++ s.diagnostics.map m.report⟩

@[simp] theorem state_advance (s : State) : m.state s.advance = (m.state s).advance := rfl

@[simp] theorem state_report (s : State) (kind : DiagnosticKind) (span : Span) :
    m.state (s.report kind span) = (m.state s).report kind (m.span span) := by
  simp [state, State.report, report]

/-- A token takes the place of another one of the same kind, and so do the spans of reports about it. -/
structure Carries (old new : Token) : Prop where
  token : m.token old = new
  kind : new.kind = old.kind
  span : m.span old.span = new.span
  after : m.span (.empty old.stop) = .empty new.stop

end Relocation

/-- No end of the input stands before an index. -/
def Context.Reaches (ctx : Context) (index : Nat) : Prop :=
  ∀ i < index, (ctx.buffer.get i).kind ≠ .eof

theorem Context.Reaches.moves {ctx : Context} {s t : State} (h : ctx.Reaches s.cursor) (hm : Moves ctx s t)
    (hr : ctx.rules.EndsAtEof) : ctx.Reaches t.cursor := by
  intro i hi
  rcases Nat.lt_or_ge i s.cursor with hlt | hge
  · exact h i hlt
  · exact hm.before hr i hge hi

theorem Context.Reaches.of_le {ctx : Context} {i j : Nat} (h : ctx.Reaches j) (hle : i ≤ j) : ctx.Reaches i :=
  fun k hk => h k (Nat.lt_of_lt_of_le hk hle)

/-- The tokens up to the first end of the input are found in the other buffer. -/
structure Relocation.Between (m : Relocation) (ctx ctx' : Context) : Prop where
  rules : ctx'.rules = ctx.rules
  ends : ctx.rules.EndsAtEof
  carries : ∀ i, ctx.Reaches i → m.Carries (ctx.buffer.get i) (ctx'.buffer.get (m.shift + i))

/-- The same tokens further on. -/
theorem Relocation.between_of_get_eq {buffer other : TokenBuffer} {rules : Rules} {shift : Nat}
    (ends : rules.EndsAtEof) (sink : Array Diagnostic)
    (h : ∀ i, Context.Reaches ⟨buffer, rules⟩ i → other.get (shift + i) = buffer.get i) :
    Between ⟨shift, id, id, sink⟩ ⟨buffer, rules⟩ ⟨other, rules⟩ where
  rules := rfl
  ends := ends
  carries i hreaches := by
    rw [h i hreaches]
    exact ⟨rfl, rfl, rfl, rfl⟩

namespace Relocation.Between
variable {m : Relocation} {ctx ctx' : Context} (h : m.Between ctx ctx') {s t : State}
include h

theorem next (hs : ctx.Reaches s.cursor) : m.Carries (ctx.current s) (ctx'.current (m.state s)) :=
  h.carries _ hs

theorem current (hs : ctx.Reaches s.cursor) : ctx'.current (m.state s) = m.token (ctx.current s) :=
  (h.next hs).token.symm

theorem kind (hs : ctx.Reaches s.cursor) : ctx'.kind (m.state s) = ctx.kind s :=
  (h.next hs).kind

theorem reportAt (hs : ctx.Reaches s.cursor) (kind : DiagnosticKind) :
    ctx'.reportAt kind (m.state s) = m.state (ctx.reportAt kind s) := by
  rw [Context.reportAt, Context.reportAt, state_report]
  exact congrArg _ (h.next hs).span.symm

/-- The token read last is carried along, once there is one. -/
theorem previous (hs : ctx.Reaches s.cursor) (hpos : 0 < s.cursor) :
    m.Carries (ctx.previous s) (ctx'.previous (m.state s)) := by
  have hcarries := h.carries (s.cursor - 1) (hs.of_le (Nat.sub_le ..))
  rwa [← Nat.add_sub_assoc hpos] at hcarries

theorem reportAfter (hs : ctx.Reaches s.cursor) (hpos : 0 < s.cursor) (kind : DiagnosticKind) :
    ctx'.reportAfter kind (m.state s) = m.state (ctx.reportAfter kind s) := by
  rw [Context.reportAfter, Context.reportAfter, state_report]
  exact congrArg _ (h.previous hs hpos).after.symm

theorem advance (hs : ctx.Reaches s.cursor) (hk : ctx.kind s ≠ .eof) : ctx.Reaches s.advance.cursor :=
  hs.moves (.advance fun _ => hk) h.ends

/-! ### The header of a function -/

theorem skipToName (hs : ctx.Reaches s.cursor) : ctx'.skipToName (m.state s) = m.state (ctx.skipToName s) := by
  fun_induction ctx.skipToName s with
  | case1 s hk => rw [Context.skipToName, if_pos (by rw [h.kind hs, hk])]
  | case2 s hk hends => rw [Context.skipToName, if_neg (by rw [h.kind hs]; exact hk), if_pos (by rw [h.kind hs, hends])]
  | case3 s hk hends ih =>
    have hne : ctx.kind s ≠ .eof := TokenKind.ne_eof_of_not_endsParameters (by simpa using hends)
    rw [Context.skipToName, if_neg (by rw [h.kind hs]; exact hk), if_neg (by rw [h.kind hs]; exact hends),
      h.reportAt hs, ← state_advance]
    exact ih (h.advance hs hne)

theorem parameter {comma : Option Token} {p : Option Parameter} (hread : ReadsParameter ctx comma s p t)
    (hs : ctx.Reaches s.cursor) (hpos : 0 < s.cursor) :
    ReadsParameter ctx' (comma.map m.token) (m.state s) (p.map (Parameter.map m.token)) (m.state t) := by
  have hfound := hs.moves (.skipToName ctx s) h.ends
  have hskip := h.skipToName hs
  cases hread with
  | plain hname hcolon =>
    have hnamed := h.advance hfound (by simp [hname])
    have hread : ReadsParameter ctx' (comma.map m.token) (m.state s) _ _ :=
      .plain (by rw [hskip, h.kind hfound, hname]) (by rw [hskip, ← state_advance, h.kind hnamed]; exact hcolon)
    rw [hskip, h.current hfound] at hread
    exact hread
  | typed hname hcolon htype =>
    have hnamed := h.advance hfound (by simp [hname])
    have htyped := h.advance hnamed (by simp [hcolon])
    have hread : ReadsParameter ctx' (comma.map m.token) (m.state s) _ _ :=
      .typed (by rw [hskip, h.kind hfound, hname]) (by rw [hskip, ← state_advance, h.kind hnamed, hcolon])
        (by rw [hskip, ← state_advance, ← state_advance, h.kind htyped, h.rules]; exact htype)
    rw [hskip, h.current hfound, ← state_advance, h.current hnamed, ← state_advance, h.current htyped] at hread
    exact hread
  | untyped hname hcolon htype =>
    have hnamed := h.advance hfound (by simp [hname])
    have htyped := h.advance hnamed (by simp [hcolon])
    have hread : ReadsParameter ctx' (comma.map m.token) (m.state s) _ _ :=
      .untyped (by rw [hskip, h.kind hfound, hname]) (by rw [hskip, ← state_advance, h.kind hnamed, hcolon])
        (by rw [hskip, ← state_advance, ← state_advance, h.kind htyped, h.rules]; exact htype)
    rw [hskip, h.current hfound, ← state_advance, h.current hnamed, ← state_advance,
      h.reportAfter htyped (Nat.succ_pos _)] at hread
    exact hread
  | missing hname hsame =>
    have hread : ReadsParameter ctx' (comma.map m.token) (m.state s) _ _ :=
      .missing (by rw [hskip, h.kind hfound]; exact hname) (by rw [hskip]; exact congrArg (m.shift + ·) hsame)
    rw [hskip, h.reportAfter hfound (by rw [hsame]; exact hpos)] at hread
    exact hread
  | skipped hname hmoved =>
    have hread : ReadsParameter ctx' (comma.map m.token) (m.state s) _ _ :=
      .skipped (by rw [hskip, h.kind hfound]; exact hname)
        (by rw [hskip]; exact fun heq => hmoved (Nat.add_left_cancel heq))
    rw [hskip] at hread
    exact hread

theorem others {ps : List Parameter} (hread : ReadsOthers ctx s ps t) (hs : ctx.Reaches s.cursor)
    (hpos : 0 < s.cursor) : ReadsOthers ctx' (m.state s) (ps.map (Parameter.map m.token)) (m.state t) := by
  induction hread with
  | finish hk => exact .finish (by rw [h.kind hs]; exact hk)
  | @comma s p _ _ _ hk hp _ ih =>
    have hnext := h.advance hs (by simp [hk])
    have hmoves := Moves.parameter hp
    have hfirst := h.parameter hp hnext (Nat.succ_pos _)
    rw [Option.map_some, ← h.current hs] at hfirst
    have hothers := ih (hnext.moves hmoves h.ends) (Nat.lt_of_lt_of_le (Nat.succ_pos _) hmoves.cursor)
    simpa [Option.toList_map] using ReadsOthers.comma (by rw [h.kind hs, hk]) hfirst hothers
  | @noComma s _ _ _ _ hends hk hp _ ih =>
    have hreported : ctx.Reaches (ctx.reportAfter .commaExpected s).cursor := hs
    have hmoves := Moves.parameter hp
    have hfirst := h.parameter hp hreported hpos
    rw [← h.reportAfter hs hpos] at hfirst
    have hothers := ih (hreported.moves hmoves h.ends) (Nat.lt_of_lt_of_le hpos hmoves.cursor)
    simpa [Option.toList_map] using
      ReadsOthers.noComma (by rw [h.kind hs, hends]) (by rw [h.kind hs]; exact hk) hfirst hothers

theorem parameters {ps : List Parameter} (hread : ReadsParameters ctx s ps t) (hs : ctx.Reaches s.cursor)
    (hpos : 0 < s.cursor) : ReadsParameters ctx' (m.state s) (ps.map (Parameter.map m.token)) (m.state t) := by
  cases hread with
  | empty hk => exact .empty (by rw [h.kind hs]; exact hk)
  | filled hk hp ho =>
    have hmoves := Moves.parameter hp
    have hothers := h.others ho (hs.moves hmoves h.ends) (Nat.lt_of_lt_of_le hpos hmoves.cursor)
    simpa [Option.toList_map] using
      ReadsParameters.filled (by rw [h.kind hs, hk]) (h.parameter hp hs hpos) hothers

theorem list {opening : Token} {l : ParameterList} (hread : ReadsList ctx opening s l t)
    (hs : ctx.Reaches s.cursor) (hpos : 0 < s.cursor) :
    ReadsList ctx' (m.token opening) (m.state s) (l.map m.token) (m.state t) := by
  cases hread with
  | closed hp hk =>
    have hend := hs.moves (.parameters hp) h.ends
    have hread : ReadsList ctx' (m.token opening) (m.state s) _ _ :=
      .closed (h.parameters hp hs hpos) (by rw [h.kind hend, hk])
    rw [h.current hend] at hread
    exact hread
  | unclosed hp hk =>
    have hmoves := Moves.parameters hp
    have hend := hs.moves hmoves h.ends
    have hread : ReadsList ctx' (m.token opening) (m.state s) _ _ :=
      .unclosed (h.parameters hp hs hpos) (by rw [h.kind hend]; exact hk)
    rw [h.reportAfter hend (Nat.lt_of_lt_of_le hpos hmoves.cursor)] at hread
    exact hread

theorem functionName {name : Option Token} (hread : ctx.functionName s = (name, t)) (hs : ctx.Reaches s.cursor)
    (hpos : 0 < s.cursor) : ctx'.functionName (m.state s) = (name.map m.token, m.state t) := by
  unfold Context.functionName Context.expect
  rw [h.kind hs]
  rcases functionName_cases hread with ⟨hk, rfl, rfl⟩ | ⟨hk, rfl, rfl⟩
  · rw [if_pos hk, h.current hs]
    rfl
  · rw [if_neg hk, h.reportAfter hs hpos]
    rfl

theorem functionParameters {l : Option ParameterList} (hread : ctx.functionParameters s = (l, t))
    (hs : ctx.Reaches s.cursor) (hpos : 0 < s.cursor) :
    ctx'.functionParameters (m.state s) = (l.map (ParameterList.map m.token), m.state t) := by
  unfold Context.functionParameters
  rw [h.kind hs]
  rcases functionParameters_cases hread with ⟨hk, list, rfl, hlist⟩ | ⟨hk, rfl, rfl⟩
  · have hread := readsList_iff.mp (h.list hlist (h.advance hs (by simp [hk])) (Nat.succ_pos _))
    rw [← h.current hs, state_advance] at hread
    rw [if_pos hk, hread]
    rfl
  · rw [if_neg hk, h.reportAfter hs hpos]
    rfl

end Relocation.Between

/-! ### Expressions and programs -/

/-- A task begins where no end of the input was passed, right after its token if it has one. -/
structure Task.Begins (ctx : Context) (task : Task) (s : State) : Prop where
  reaches : ctx.Reaches s.cursor
  token : ∀ token ∈ task.token?, 0 < s.cursor ∧ token = ctx.previous s

theorem Task.Begins.of_reaches {ctx : Context} {task : Task} {s : State} (hs : ctx.Reaches s.cursor)
    (hnone : task.token? = none := by rfl) : task.Begins ctx s :=
  ⟨hs, by simp [hnone]⟩

namespace Relocation.Between
variable {m : Relocation} {ctx ctx' : Context} (h : m.Between ctx ctx') {s t : State}
include h

/-- The token just read begins a task. -/
theorem begins_primary (hs : ctx.Reaches s.cursor) (hk : ctx.kind s ≠ .eof) :
    (Task.primary (ctx.current s)).Begins ctx s.advance := by
  refine ⟨h.advance hs hk, ?_⟩
  rintro _ ⟨⟩
  exact ⟨Nat.succ_pos _, rfl⟩

omit h in
theorem unexpected {token new : Token} (hc : m.Carries token new) :
    (ExprReader.unexpected (m.token token) (m.state s)).2 = m.state (ExprReader.unexpected token s).2 := by
  unfold ExprReader.unexpected
  rw [hc.token, hc.kind]
  split
  · rfl
  · rw [state_report, hc.span]

/-- Every run over the tokens is one over the tokens that take their place. -/
theorem reads {room : Nat} {task : Task} {e : Expr} (hread : Reads ctx room task s e t) (hb : task.Begins ctx s) :
    Reads ctx' room (task.map m.token) (m.state s) (e.map m.token) (m.state t) := by
  induction hread with
  | exprInvalid hk _ hi ih =>
    have hp := ih (h.begins_primary hb.reaches hk)
    refine .exprInvalid (by rw [h.kind hb.reaches]; exact hk) ?_ (by simpa using hi)
    rw [h.current hb.reaches]
    exact hp
  | exprExtended hk hp hi _ ih ih' =>
    have hnext := h.begins_primary hb.reaches hk
    have hleft := ih hnext
    have hwhole := ih' (.of_reaches (hnext.reaches.moves hp.moves h.ends))
    refine .exprExtended (by rw [h.kind hb.reaches]; exact hk) ?_ (by simpa using hi) hwhole
    rw [h.current hb.reaches]
    exact hleft
  | @primaryDeepest token s =>
    obtain ⟨hpos, rfl⟩ := hb.token _ rfl
    rw [← unexpected (h.previous hb.reaches hpos)]
    exact .primaryDeepest
  | primaryUnknown hc =>
    obtain ⟨hpos, rfl⟩ := hb.token _ rfl
    have hprevious := h.previous hb.reaches hpos
    rw [← unexpected hprevious]
    exact .primaryUnknown (by rw [hprevious.token, hprevious.kind, h.rules]; exact hc)
  | primaryKnown hc _ ih =>
    obtain ⟨hpos, rfl⟩ := hb.token _ rfl
    have hprevious := h.previous hb.reaches hpos
    exact .primaryKnown (by rw [hprevious.token, hprevious.kind, h.rules]; exact hc) (ih ⟨hb.reaches, hb.token⟩)
  | extendStop hk => exact .extendStop (by rw [h.kind hb.reaches]; exact hk)
  | extendOperator hk hr _ ih ih' =>
    have hnext := h.advance hb.reaches (TokenKind.ne_eof_of_continues hk)
    have hoperand := ih (.of_reaches hnext)
    have hwhole := ih' (.of_reaches (hnext.moves hr.moves h.ends))
    simp only [Task.map, Expr.map_binary] at hoperand hwhole
    rw [← h.kind hb.reaches] at hk hoperand
    rw [← h.current hb.reaches] at hwhole
    exact .extendOperator hk hoperand hwhole
  | operandEnd hk =>
    rw [← h.reportAt hb.reaches]
    have hend := h.kind hb.reaches
    simp only [Expr.map, ← h.current hb.reaches]
    exact .operandEnd (hend.trans hk)
  | @operandDeepest strength s hk =>
    have hread : Reads ctx' 0 (.operand strength) (m.state s) _ _ :=
      .operandDeepest (by rw [h.kind hb.reaches]; exact hk)
    rw [h.current hb.reaches, ← state_advance, unexpected (h.next hb.reaches)] at hread
    exact hread
  | operandExpr hk _ ih => exact .operandExpr (by rw [h.kind hb.reaches]; exact hk) (ih (.of_reaches hb.reaches))
  | literal => exact .literal
  | identifier => exact .identifier
  | @unary _ _ s _ _ hk _ ih =>
    have hne : ctx.kind s ≠ .eof := by
      rcases hk with hk | hk
      · exact h.ends.starts hk
      · simp [hk]
    have hoperand := ih (h.begins_primary hb.reaches hne)
    simp only [Task.map, ← h.current hb.reaches, state_advance] at hoperand
    rw [Expr.map_unary]
    exact .unary (by rw [h.kind hb.reaches, h.rules]; exact hk) hoperand
  | unaryMissing hk =>
    rw [Expr.map_unary, ← h.reportAt hb.reaches]
    exact .unaryMissing (by rw [h.kind hb.reaches, h.rules]; exact hk)
  | parenthesisEmpty hk =>
    rw [Expr.map_parenthesis, state_advance, ← h.reportAt hb.reaches, Option.map_some, ← h.current hb.reaches]
    exact .parenthesisEmpty (by rw [h.kind hb.reaches, hk])
  | parenthesisEnd hk =>
    rw [← h.reportAt hb.reaches]
    exact .parenthesisEnd (by rw [h.kind hb.reaches, hk])
  | parenthesisClosed hk he hk' ih =>
    have hend := hb.reaches.moves he.moves h.ends
    rw [Expr.map_parenthesis, state_advance, Option.map_some, Option.map_some, ← h.current hend]
    exact .parenthesisClosed (by rw [h.kind hb.reaches]; exact hk) (ih (.of_reaches hb.reaches))
      (by rw [h.kind hend, hk'])
  | parenthesisOpen hk he hk' ih =>
    have hend := hb.reaches.moves he.moves h.ends
    rw [← h.reportAt hend]
    exact .parenthesisOpen (by rw [h.kind hb.reaches]; exact hk) (ih (.of_reaches hb.reaches))
      (by rw [h.kind hend]; exact hk')
  | block _ ih => exact .block (ih (.of_reaches hb.reaches))
  | function hn hp hk _ ih =>
    obtain ⟨hpos, -⟩ := hb.token _ rfl
    have hnamed := hb.reaches.moves (.functionName hn) h.ends
    have hpos' := Nat.lt_of_lt_of_le hpos (Moves.functionName hn).cursor
    have hlisted := hnamed.moves (.functionParameters hp) h.ends
    have hbody := ih (.of_reaches (h.advance hlisted (by simp [hk])))
    rw [Expr.map_block, Task.map, ← h.current hlisted] at hbody
    rw [Expr.map_function]
    exact .function (h.functionName hn hb.reaches hpos) (h.functionParameters hp hnamed hpos')
      (by rw [h.kind hlisted, hk]) hbody
  | functionOpen hn hp hk =>
    obtain ⟨hpos, -⟩ := hb.token _ rfl
    have hnamed := hb.reaches.moves (.functionName hn) h.ends
    have hpos' := Nat.lt_of_lt_of_le hpos (Moves.functionName hn).cursor
    have hlisted := hnamed.moves (.functionParameters hp) h.ends
    rw [← h.reportAfter hlisted (Nat.lt_of_lt_of_le hpos' (Moves.functionParameters hp).cursor)]
    exact .functionOpen (h.functionName hn hb.reaches hpos) (h.functionParameters hp hnamed hpos')
      (by rw [h.kind hlisted]; exact hk)
  | again _ ih => exact .again (ih ⟨hb.reaches, hb.token⟩)
  | blockClosed hk =>
    rw [Expr.map_block, Block.map, Option.map_some, ← h.current hb.reaches]
    exact .blockClosed (by rw [h.kind hb.reaches, hk])
  | blockEnd hk =>
    rw [Expr.map_block, ← h.reportAt hb.reaches]
    exact .blockEnd (by rw [h.kind hb.reaches, hk])
  | blockNext hk hk' he _ ih ih' =>
    have hrest := ih' (.of_reaches (hb.reaches.moves he.moves h.ends))
    simp only [Task.map, List.map_append, List.map_cons, List.map_nil] at hrest
    exact .blockNext (by rw [h.kind hb.reaches]; exact hk) (by rw [h.kind hb.reaches]; exact hk')
      (ih (.of_reaches hb.reaches)) hrest

theorem readsProgram {room : Nat} {es : List Expr} (hread : ReadsProgram ctx room s es t)
    (hs : ctx.Reaches s.cursor) :
    ReadsProgram ctx' room (m.state s) (es.map (Expr.map m.token)) (m.state t) := by
  induction hread with
  | finish hk => exact .finish (by rw [h.kind hs, hk])
  | stray hk _ ih =>
    have hrest := ih (h.advance hs (by rcases hk with hk | hk <;> simp [hk]))
    rw [state_advance, ← h.reportAt hs] at hrest
    rw [List.map_cons, Expr.map, ← h.current hs]
    exact .stray (by rw [h.kind hs]; exact hk) hrest
  | next hk hk' he _ ih =>
    exact .next (by rw [h.kind hs]; exact hk) (by rw [h.kind hs]; exact hk') (h.reads he (.of_reaches hs))
      (ih (hs.moves he.moves h.ends))

end Relocation.Between

end ExprReader
