import ExprReader.Tree.Parser.Basic
import Mathlib.Logic.Function.Iterate

/-! # Routines and their runs

A parser may be driven by routines that are not known to come to an end: each looks at the parser, moves it by
one token, goes one level deeper or comes back, reports, and calls other routines, loops being routines that
call themselves. A `Machine` carries out such a program one step at a time. What it does is followed here by
`Ends`, which says that a program comes to an end from a parser, and on the way never leaves what the parser
had when it started. -/

namespace ExprReader

/-! ### Programs -/

/-- What a program may do to the parser that it runs on. -/
inductive Instruction where
  | advance
  | rewind
  | descend
  | ascend
  | report (kind : DiagnosticKind) (span : Span)

/-- Carries an instruction out, and tells whether it was. Only a step deeper can be refused. -/
def Instruction.perform (p : Parser) : Instruction → Bool × Parser
  | advance => (true, p.advance.2)
  | rewind => (true, p.rewind)
  | descend =>
    match p.descend? with
    | some deeper => (true, deeper)
    | none => (false, p)
  | ascend => (true, p.ascend)
  | report kind span => (true, p.report kind span)

/-- The routines of a reader. A loop is a routine that is handed what was gathered so far. -/
inductive Routine where
  | expr (least : Precedence)
  | operators (least : Precedence) (left : Expr)
  | operand (strength : Precedence)
  | construct (found : Construct) (token : Token)
  | block (opening : Token) (gathered : List Expr)
  | parameterList (opening : Token)
  | parameters (opening : Token) (gathered : List Parameter)
  | parameter (comma : Option Token) (skipped : Bool)
  | typeName
  | program (gathered : List Expr)

abbrev Routine.Result : Routine → Type
  | expr _ => Option Expr
  | operators _ _ | operand _ | construct _ _ => Expr
  | block _ _ => Block Expr
  | parameterList _ | parameters _ _ => ParameterList
  | parameter _ _ => Option Parameter
  | typeName => Option Token
  | program _ => List Expr

/-- A program over a parser, by what it does next. -/
inductive Program (α : Type) where
  | done (result : α)
  | look (next : Parser → Program α)
  | perform (instruction : Instruction) (next : Bool → Program α)
  | invoke (routine : Routine) (next : routine.Result → Program α)

namespace Program
variable {α β γ : Type}

protected def bind : Program α → (α → Program β) → Program β
  | done result, next => next result
  | look rest, next => look fun p => (rest p).bind next
  | perform instruction rest, next => perform instruction fun carried => (rest carried).bind next
  | invoke routine rest, next => invoke routine fun result => (rest result).bind next

instance : Monad Program where
  pure := done
  bind := Program.bind

theorem bind_bind (program : Program α) (next : α → Program β) (last : β → Program γ) :
    (program.bind next).bind last = program.bind fun result => (next result).bind last := by
  induction program with
  | done result => rfl
  | look rest ih => exact congrArg look (funext ih)
  | perform instruction rest ih => exact congrArg (perform instruction) (funext ih)
  | invoke routine rest ih => exact congrArg (invoke routine) (funext ih)

theorem bind_done (program : Program α) : program.bind done = program := by
  induction program with
  | done result => rfl
  | look rest ih => exact congrArg look (funext ih)
  | perform instruction rest ih => exact congrArg (perform instruction) (funext ih)
  | invoke routine rest ih => exact congrArg (invoke routine) (funext ih)

/-! ### Elementary programs

Each does what the function of the parser with its name does. -/

def current : Program Token :=
  look fun p => done p.current

def rules : Program Rules :=
  look fun p => done p.context.rules

def advance : Program Token :=
  look fun p => perform .advance fun _ => done p.current

def rewind : Program Unit :=
  perform .rewind fun _ => done ()

def descend : Program Bool :=
  perform .descend done

def ascend : Program Unit :=
  perform .ascend fun _ => done ()

def report (kind : DiagnosticKind) (span : Span) : Program Unit :=
  perform (.report kind span) fun _ => done ()

def reportAfter (kind : DiagnosticKind) : Program Unit :=
  look fun p => report kind (.empty p.previous.stop)

def call (routine : Routine) : Program routine.Result :=
  invoke routine done

def expect (kind : TokenKind) (missing : DiagnosticKind) : Program (Option Token) := do
  if (← current).kind = kind then
    return some (← advance)
  else
    reportAfter missing
    return none

/-- Keeps a token that begins no construct here, and reports it unless the scanner has. -/
def refuse (token : Token) : Program Expr := do
  if token.kind = .invalid then
    return .invalidToken token
  else
    report .expressionExpected token.span
    return .invalidToken token

def enclosed : Program (Option Expr) := do
  let next ← current
  if next.kind = .closeParen then
    report .expressionExpected next.span
    return none
  else
    call (.expr .lowest)

def functionParameters : Program (Option ParameterList) := do
  if (← current).kind = .openParen then
    return some (← call (.parameterList (← advance)))
  else
    reportAfter .parameterListExpected
    return none

def functionBody : Program (Option (Block Expr)) := do
  if (← current).kind = .openCurly then
    return some (← call (.block (← advance) []))
  else
    reportAfter .functionBodyExpected
    return none

/-- The construct that the rules give for a token just read. -/
def byRules (token : Token) : Program Expr := do
  match (← rules).construct? token.kind with
  | some found => call (.construct found token)
  | none => refuse token

end Program

/-! ### The routines -/

open Program in
/-- What each routine does. -/
def Routine.body : (routine : Routine) → Program routine.Result
  | .expr least => do
    if (← current).kind = .eof then
      return none
    else
      let left ← call (.construct .primary (← advance))
      if left.isInvalid then
        return some left
      else
        return some (← call (.operators least left))
  | .operators least left => do
    -- The operator is read before it is known whether it goes on with the expression.
    let operator ← advance
    if operator.kind.continues least then
      let right ← call (.operand operator.kind.precedence)
      call (.operators least (.binary left operator right))
    else
      rewind
      return left
  | .operand strength => do
    let next ← current
    if next.kind = .eof then
      report .expressionExpected next.span
      return .invalidToken next
    else if ← descend then
      let operand ← call (.expr strength)
      ascend
      -- The end of the input is ruled out above, so there is an operand.
      match operand with
      | some e => return e
      | none => return .invalidToken (← current)
    else
      refuse (← advance)
  | .construct .literal token => return .literal token
  | .construct .identifier token => return .identifier token
  | .construct .unary operator => do
    let next ← current
    if (← rules).startsExpression next.kind ∨ next.kind = .invalid then
      let operand ← call (.construct .primary (← advance))
      return .unary operator (some operand)
    else
      report .expressionExpected next.span
      return .unary operator none
  | .construct .parenthesis opening => do
    let content ← enclosed
    let next ← current
    if next.kind = .closeParen then
      return .parenthesis opening content (some (← advance))
    else
      report .closeParenthesisExpected next.span
      return .invalidExpr (.parenthesis opening content none)
  | .construct .block opening => do
    return .block (← call (.block opening []))
  | .construct .function keyword => do
    let name ← expect .identifier .nameExpected
    let parameters ← functionParameters
    let body ← functionBody
    return .function keyword name parameters body
  | .construct .primary token => do
    if ← descend then
      let e ← byRules token
      ascend
      return e
    else
      refuse token
  | .block opening gathered => do
    let next ← current
    if next.kind = .closeCurly then
      return ⟨opening, gathered, some (← advance)⟩
    else if next.kind = .eof then
      report .closeBraceExpected next.span
      return ⟨opening, gathered, none⟩
    else
      let e ← call (.expr .lowest)
      call (.block opening (gathered ++ e.toList))
  | .parameterList opening => do
    if (← current).kind.endsParameters then
      call (.parameters opening [])
    else
      let first ← call (.parameter none false)
      call (.parameters opening first.toList)
  | .parameters opening gathered => do
    if (← current).kind.endsParameters then
      return ⟨opening, gathered, ← expect .closeParen .closeParenthesisExpected⟩
    else
      let comma ← expect .comma .commaExpected
      let next ← call (.parameter comma false)
      call (.parameters opening (gathered ++ next.toList))
  | .parameter comma skipped => do
    let next ← current
    if next.kind = .identifier then
      let name ← advance
      if (← current).kind = .colon then
        let colon ← advance
        return some ⟨comma, name, some colon, ← call .typeName⟩
      else
        return some ⟨comma, name, none, none⟩
    else if next.kind.endsParameters then
      if skipped then
        return none
      else
        reportAfter .parameterExpected
        return none
    else
      let token ← advance
      report .parameterExpected token.span
      call (.parameter comma true)
  | .typeName => do
    if (← rules).namesType (← current).kind then
      return some (← advance)
    else
      reportAfter .typeExpected
      return none
  | .program gathered => do
    let next ← current
    if next.kind = .eof then
      return gathered
    else if next.kind = .closeParen ∨ next.kind = .closeCurly then
      let token ← advance
      report .endExpected token.span
      call (.program (gathered ++ [.invalidToken token]))
    else
      match ← call (.expr .lowest) with
      | some e => call (.program (gathered ++ [e]))
      | none => return gathered

/-! ### Machines -/

/-- A program under way and the parser that it runs on. -/
structure Machine (α : Type) where
  program : Program α
  parser : Parser

namespace Machine
variable {α β : Type}

/-- One step. A program that is done stays as it is. -/
def step (m : Machine α) : Machine α :=
  match m.program with
  | .done _ => m
  | .look next => ⟨next m.parser, m.parser⟩
  | .perform instruction next => ⟨next (instruction.perform m.parser).1, (instruction.perform m.parser).2⟩
  | .invoke routine next => ⟨routine.body.bind next, m.parser⟩

def run (m : Machine α) (steps : Nat) : Machine α :=
  step^[steps] m

theorem run_done (result : α) (p : Parser) (steps : Nat) :
    (⟨.done result, p⟩ : Machine α).run steps = ⟨.done result, p⟩ :=
  Function.iterate_fixed rfl steps

/-- The machine that goes on with another program where this one is done. -/
def followedBy (m : Machine α) (next : α → Program β) : Machine β :=
  ⟨m.program.bind next, m.parser⟩

theorem step_followedBy {m : Machine α} {next : α → Program β} (h : ∀ result, m.program ≠ .done result) :
    (m.followedBy next).step = m.step.followedBy next := by
  obtain ⟨program, p⟩ := m
  cases program with
  | done result => exact absurd rfl (h result)
  | look rest => rfl
  | perform instruction rest => rfl
  | invoke routine rest => exact congrArg (Machine.mk · p) (Program.bind_bind routine.body rest next).symm

end Machine

def Parser.deeper (p : Parser) (hroom : p.depth < maxNesting) : Parser :=
  { p with depth := p.depth + 1, depth_le := hroom }

theorem Parser.descend?_of_lt {p : Parser} (hroom : p.depth < maxNesting) : p.descend? = some (p.deeper hroom) :=
  dif_pos hroom

theorem Parser.descend?_of_not_lt {p : Parser} (hroom : ¬p.depth < maxNesting) : p.descend? = none :=
  dif_neg hroom

/-- What a parser that goes on from another one still has of it: the buffer and the rules, every level it was in,
every token it had read and every report. -/
structure Parser.Onward (origin p : Parser) : Prop where
  context : p.context = origin.context
  depth : origin.depth ≤ p.depth
  cursor : origin.state.cursor ≤ p.state.cursor
  reports : origin.state.diagnostics.toList <+: p.state.diagnostics.toList

namespace Parser.Onward
variable {origin p : Parser}

theorem refl (p : Parser) : p.Onward p :=
  ⟨rfl, Nat.le_refl _, Nat.le_refl _, List.prefix_rfl⟩

theorem advance (h : origin.Onward p) : origin.Onward p.advance.2 :=
  { h with cursor := Nat.le_succ_of_le h.cursor }

theorem report (h : origin.Onward p) (kind : DiagnosticKind) (span : Span) : origin.Onward (p.report kind span) :=
  { h with reports := h.reports.trans ⟨[⟨kind, span⟩], by simp [Parser.report, State.report]⟩ }

theorem deeper (h : origin.Onward p) (hroom : p.depth < maxNesting) : origin.Onward (p.deeper hroom) :=
  { h with depth := Nat.le_succ_of_le h.depth }

end Parser.Onward

/-- One machine leads to another by steps that all go on from an origin. -/
inductive Leads {α : Type} (origin : Parser) : Machine α → Machine α → Prop where
  | here {m} : origin.Onward m.parser → Leads origin m m
  | step {m m'} : origin.Onward m.parser → Leads origin m.step m' → Leads origin m m'

namespace Leads
variable {α β : Type} {origin : Parser} {m m' m'' : Machine α}

theorem trans (h : Leads origin m m') (h' : Leads origin m' m'') : Leads origin m m'' := by
  induction h with
  | here _ => exact h'
  | step hm _ ih => exact .step hm (ih h')

theorem onward (h : Leads origin m m') : origin.Onward m'.parser := by
  induction h with
  | here hm => exact hm
  | step _ _ ih => exact ih

theorem followedBy (h : Leads origin m m') (next : α → Program β) :
    Leads origin (m.followedBy next) (m'.followedBy next) := by
  induction h with
  | here hm => exact .here hm
  | @step m m' hm _ ih =>
    -- Where the first program is done it no longer steps, and the other one would.
    by_cases hdone : ∃ result, m.program = .done result
    · obtain ⟨result, hdone⟩ := hdone
      have hstays : m.step = m := by simp [Machine.step, hdone]
      rwa [hstays] at ih
    · refine .step hm ?_
      rwa [Machine.step_followedBy fun result hresult => hdone ⟨result, hresult⟩]

/-- Steps that lead to a program that is done are the first steps of a run, and no later one leaves it. -/
theorem exists_run {result : α} {q : Parser} (h : Leads origin m ⟨.done result, q⟩) :
    (∃ steps, m.run steps = ⟨.done result, q⟩) ∧ ∀ steps, origin.Onward (m.run steps).parser := by
  generalize hlast : (⟨.done result, q⟩ : Machine α) = last at h
  induction h with
  | here hm =>
    subst hlast
    exact ⟨⟨0, rfl⟩, fun steps => by rwa [Machine.run_done]⟩
  | step hm _ ih =>
    obtain ⟨⟨steps, hsteps⟩, honward⟩ := ih hlast
    refine ⟨⟨steps + 1, hsteps⟩, fun steps => ?_⟩
    cases steps with
    | zero => exact hm
    | succ steps => exact honward steps

end Leads

/-- A program comes to an end from a parser, with a result and in a parser, and wherever the parser has gone on
from, all steps do. -/
def Ends {α : Type} (program : Program α) (p : Parser) (result : α) (q : Parser) : Prop :=
  ∀ origin : Parser, origin.Onward p → Leads origin ⟨program, p⟩ ⟨.done result, q⟩

namespace Ends
variable {α β : Type} {p q u : Parser} {result : α}

protected theorem pure : Ends (pure result) p result p :=
  fun _ h => .here h

protected theorem bind {program : Program β} {next : β → Program α} {found : β} (h : Ends program p found q)
    (h' : Ends (next found) q result u) : Ends (program >>= next) p result u :=
  fun origin ho => ((h origin ho).followedBy next).trans (h' origin (h origin ho).onward)

theorem ite_pos {c : Prop} [Decidable c] {program other : Program α} (hc : c) (h : Ends program p result q) :
    Ends (if c then program else other) p result q := by
  rwa [if_pos hc]

theorem ite_neg {c : Prop} [Decidable c] {program other : Program α} (hc : ¬c) (h : Ends other p result q) :
    Ends (if c then program else other) p result q := by
  rwa [if_neg hc]

theorem call {routine : Routine} {found : routine.Result} (h : Ends routine.body p found q) :
    Ends (Program.call routine) p found q := by
  intro origin ho
  refine .step ho ?_
  show Leads origin ⟨routine.body.bind .done, p⟩ _
  rw [Program.bind_done]
  exact h origin ho

theorem current {next : Token → Program α} (h : Ends (next p.current) p result q) :
    Ends (Program.current >>= next) p result q :=
  fun origin ho => .step ho (h origin ho)

theorem rules {next : Rules → Program α} (h : Ends (next p.context.rules) p result q) :
    Ends (Program.rules >>= next) p result q :=
  fun origin ho => .step ho (h origin ho)

theorem advance {next : Token → Program α} (h : Ends (next p.current) p.advance.2 result q) :
    Ends (Program.advance >>= next) p result q :=
  fun origin ho => .step ho (.step ho (h origin ho.advance))

/-- A token that is read and given back was only looked at. -/
theorem advance_rewind {next : Token → Program α} {rest : Program α}
    (hnext : next p.current = (Program.rewind >>= fun _ => rest)) (h : Ends rest p result q) :
    Ends (Program.advance >>= next) p result q := by
  intro origin ho
  refine .step ho (.step ho ?_)
  show Leads origin ⟨next p.current, p.advance.2⟩ _
  rw [hnext]
  exact .step ho.advance (h origin ho)

theorem report {kind : DiagnosticKind} {span : Span} {next : Unit → Program α}
    (h : Ends (next ()) (p.report kind span) result q) : Ends (Program.report kind span >>= next) p result q :=
  fun origin ho => .step ho (h origin (ho.report kind span))

theorem reportAfter {kind : DiagnosticKind} {next : Unit → Program α}
    (h : Ends (next ()) (p.reportAfter kind) result q) : Ends (Program.reportAfter kind >>= next) p result q :=
  fun origin ho => .step ho (.step ho (h origin (ho.report kind _)))

theorem descend {program : Program β} {found : β} {next : Bool → Program α} {rest : β → Program α}
    (hroom : p.depth < maxNesting)
    (hnext : next true = (program >>= fun found => Program.ascend >>= fun _ => rest found))
    (h : Ends program (p.deeper hroom) found q) (hdepth : q.depth = p.depth + 1)
    (h' : Ends (rest found) q.ascend result u) : Ends (Program.descend >>= next) p result u := by
  intro origin ho
  -- Inside, the parser goes on from the same origin, and the step back does not come out above it.
  have hinside := h origin (ho.deeper hroom)
  have hback : origin.depth ≤ q.depth - 1 := by
    rw [hdepth]
    exact ho.depth
  have honward : origin.Onward q.ascend := { hinside.onward with depth := hback }
  refine .step ho ?_
  show Leads origin ⟨next (Instruction.perform p .descend).1, (Instruction.perform p .descend).2⟩ _
  simp only [Instruction.perform, Parser.descend?_of_lt hroom, hnext]
  exact (hinside.followedBy _).trans (.step hinside.onward (h' origin honward))

theorem not_descend {next : Bool → Program α} (hroom : ¬p.depth < maxNesting) (h : Ends (next false) p result q) :
    Ends (Program.descend >>= next) p result q := by
  intro origin ho
  refine .step ho ?_
  show Leads origin ⟨next (Instruction.perform p .descend).1, (Instruction.perform p .descend).2⟩ _
  simp only [Instruction.perform, Parser.descend?_of_not_lt hroom]
  exact h origin ho

end Ends

end ExprReader
