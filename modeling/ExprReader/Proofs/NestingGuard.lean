import ExprReader.Proofs.Frame
import ExprReader.Proofs.Nesting

/-! # Where the last level is missed

A routine goes one level deeper for each construct and for each operand. On the deepest level a construct is refused
and an invalid token stands for it, so no operator is looked for behind it and no operand is read. Hence whoever reads
an operand has a level left (`Routine.HasRoom`), and it is a construct alone that is ever refused one. The condition is
followed through every program: a program is judged with the answers of the routines that it calls
(`Program.HasRoom`), and each step of a machine keeps it. -/

namespace ExprReader

/-! ### What a program gives -/

/-- What a program gives from a parser, with the answers of the routines that it calls. -/
def Program.value {α : Type} : Program α → Parser → α × Parser
  | done result, p => (result, p)
  | look next, p => (next p).value p
  | perform instruction next, p => (next (instruction.perform p).1).value (instruction.perform p).2
  | invoke routine next, p => (next (routine.answer p).1).value (routine.answer p).2

namespace Machine
variable {α : Type} {m : Machine α}

theorem run_run (m : Machine α) (first others : Nat) : (m.run first).run others = m.run (others + first) :=
  (Function.iterate_add_apply step others first m).symm

/-- A machine that is done stays so, and with one outcome. -/
theorem run_done_unique {first others : Nat} {result result' : α} {q q' : Parser}
    (h : m.run first = ⟨.done result, q⟩) (h' : m.run others = ⟨.done result', q'⟩) :
    (result, q) = (result', q') := by
  have hboth : (m.run first).run others = (m.run others).run first := by
    rw [run_run, run_run, Nat.add_comm]
  rw [h, h', run_done, run_done] at hboth
  cases hboth
  rfl

end Machine

theorem Leads.run {α : Type} {origin : Parser} {m m' : Machine α} (h : Leads origin m m') :
    ∃ steps, m.run steps = m' := by
  induction h with
  | here _ => exact ⟨0, rfl⟩
  | step _ _ ih =>
    obtain ⟨steps, hsteps⟩ := ih
    exact ⟨steps + 1, hsteps⟩

/-- A machine gives what the program gives. -/
theorem Program.run_value {α : Type} (program : Program α) (p : Parser) :
    ∃ steps, (Machine.mk program p).run steps = ⟨.done (program.value p).1, (program.value p).2⟩ := by
  induction program generalizing p with
  | done result => exact ⟨0, rfl⟩
  | look next ih =>
    obtain ⟨steps, hsteps⟩ := ih p p
    exact ⟨steps + 1, hsteps⟩
  | perform instruction next ih =>
    obtain ⟨steps, hsteps⟩ := ih (instruction.perform p).1 (instruction.perform p).2
    exact ⟨steps + 1, hsteps⟩
  | invoke routine next ih =>
    -- The called routine comes to its end first, and the program goes on from there.
    obtain ⟨inside, hinside⟩ := ((routine.ends p p (.refl p)).followedBy next).run
    obtain ⟨steps, hsteps⟩ := ih (routine.answer p).1 (routine.answer p).2
    refine ⟨steps + inside + 1, ?_⟩
    show (Machine.mk (routine.body.bind next) p).run (steps + inside) = _
    rw [← Machine.run_run]
    exact (congrArg (Machine.run · steps) hinside).trans hsteps

theorem Routine.value_body (routine : Routine) (p : Parser) : routine.body.value p = routine.answer p := by
  obtain ⟨steps, hsteps⟩ := routine.body.run_value p
  obtain ⟨steps', hsteps'⟩ := (routine.ends p p (.refl p)).run
  exact Machine.run_done_unique hsteps hsteps'

/-! ### Room for what is called -/

/-- A routine that reads operands needs a level below the parser that it is called on. -/
def Routine.HasRoom (p : Parser) : Routine → Prop
  | operators _ _ | operand _ => p.depth < maxNesting
  | _ => True

/-- From a parser a program is not refused a level, and the routines that it calls have the room they need. -/
def Program.HasRoom {α : Type} : Program α → Parser → Prop
  | done _, _ => True
  | look next, p => (next p).HasRoom p
  | perform instruction next, p => (instruction = .descend → p.depth < maxNesting) ∧
      (next (instruction.perform p).1).HasRoom (instruction.perform p).2
  | invoke routine next, p => routine.HasRoom p ∧ (next (routine.answer p).1).HasRoom (routine.answer p).2

namespace Program.HasRoom
variable {α β : Type} {p : Parser}

protected theorem pure {result : α} : (pure result : Program α).HasRoom p :=
  trivial

protected theorem bind {program : Program β} {next : β → Program α} (h : program.HasRoom p)
    (h' : (next (program.value p).1).HasRoom (program.value p).2) : (program >>= next).HasRoom p := by
  induction program generalizing p with
  | done result => exact h'
  | look rest ih => exact ih p h h'
  | perform instruction rest ih => exact ⟨h.1, ih _ h.2 h'⟩
  | invoke routine rest ih => exact ⟨h.1, ih _ h.2 h'⟩

theorem andThen {program : Program β} {next : β → Program α} (h : program.HasRoom p)
    (h' : ∀ result q, (next result).HasRoom q) : (program >>= next).HasRoom p :=
  h.bind (h' _ _)

theorem ite {c : Prop} [Decidable c] {program other : Program α} (h : c → program.HasRoom p)
    (h' : ¬c → other.HasRoom p) : (if c then program else other).HasRoom p := by
  split
  · exact h ‹_›
  · exact h' ‹_›

theorem call {routine : Routine} (h : routine.HasRoom p) : (Program.call routine).HasRoom p :=
  ⟨h, trivial⟩

theorem current {next : Token → Program α} (h : (next p.current).HasRoom p) :
    (Program.current >>= next).HasRoom p :=
  h

theorem rules {next : Rules → Program α} (h : (next p.context.rules).HasRoom p) :
    (Program.rules >>= next).HasRoom p :=
  h

theorem advance {next : Token → Program α} (h : (next p.current).HasRoom p.advance.2) :
    (Program.advance >>= next).HasRoom p :=
  ⟨nofun, h⟩

theorem rewind {next : Unit → Program α} (h : (next ()).HasRoom p.rewind) : (Program.rewind >>= next).HasRoom p :=
  ⟨nofun, h⟩

theorem ascend {next : Unit → Program α} (h : (next ()).HasRoom p.ascend) : (Program.ascend >>= next).HasRoom p :=
  ⟨nofun, h⟩

theorem report {kind : DiagnosticKind} {span : Span} {next : Unit → Program α}
    (h : (next ()).HasRoom (p.report kind span)) : (Program.report kind span >>= next).HasRoom p :=
  ⟨nofun, h⟩

theorem reportAfter {kind : DiagnosticKind} {next : Unit → Program α}
    (h : (next ()).HasRoom (p.reportAfter kind)) : (Program.reportAfter kind >>= next).HasRoom p :=
  ⟨nofun, h⟩

theorem descend {next : Bool → Program α} (hroom : p.depth < maxNesting)
    (h : (next true).HasRoom (p.deeper hroom)) : (Program.descend >>= next).HasRoom p := by
  refine ⟨fun _ => hroom, ?_⟩
  show (next (Instruction.perform p .descend).1).HasRoom (Instruction.perform p .descend).2
  simp only [Instruction.perform, Parser.descend?_of_lt hroom]
  exact h

theorem expect {kind : TokenKind} {missing : DiagnosticKind} : (Program.expect kind missing).HasRoom p :=
  .current (.ite (fun _ => .advance .pure) fun _ => .reportAfter .pure)

theorem refuse {token : Token} : (Program.refuse token).HasRoom p :=
  .ite (fun _ => .pure) fun _ => .report .pure

theorem byRules {token : Token} : (Program.byRules token).HasRoom p := by
  refine .rules ?_
  split
  · exact .call trivial
  · exact .refuse

end Program.HasRoom

/-- On the deepest level no construct is found. -/
theorem Routine.depth_lt_of_primary {token : Token} {p : Parser}
    (h : ¬((construct .primary token).answer p).1.isInvalid = true) : p.depth < maxNesting := by
  have hreads := (derived p.context (maxNesting - p.depth)).primary token p.state
  have hroom := hreads.nests.2 (eq_false_of_ne_true h)
  omega

/-- A routine that has the room it needs is refused no level by itself, unless it is a construct on the deepest
level. -/
theorem Routine.body_hasRoom {routine : Routine} {p : Parser} (h : routine.HasRoom p)
    (hprimary : ∀ token, routine = construct .primary token → p.depth < maxNesting) : routine.body.HasRoom p := by
  cases routine with
  | expr least =>
    refine .current (.ite (fun _ => .pure) fun _ => .advance (.bind (.call trivial) ?_))
    refine .ite (fun _ => .pure) fun hvalid => .andThen (.call ?_) fun _ _ => .pure
    -- Operators are looked for behind a valid construct, so there is a level below the parser.
    have hroom : p.advance.2.depth < maxNesting := depth_lt_of_primary hvalid
    rwa [← answer_depth (construct .primary p.current)] at hroom
  | operators least left =>
    refine .advance (.ite (fun _ => .bind (.call h) (.call ?_)) fun _ => .rewind .pure)
    have hroom : p.advance.2.depth < maxNesting := h
    rwa [← answer_depth (operand p.current.kind.precedence)] at hroom
  | operand strength =>
    refine .current (.ite (fun _ => .report .pure) fun _ => .descend h (.ite (fun _ => ?_) (absurd rfl)))
    refine .andThen (.call trivial) fun operand _ => .ascend ?_
    cases operand with
    | some e => exact .pure
    | none => exact .current .pure
  | construct found token =>
    cases found with
    | literal => exact .pure
    | identifier => exact .pure
    | unary =>
      exact .current (.rules (.ite (fun _ => .advance (.andThen (.call trivial) fun _ _ => .pure)) fun _ =>
        .report .pure))
    | parenthesis =>
      exact .andThen (.current (.ite (fun _ => .report .pure) fun _ => .call trivial)) fun _ _ =>
        .current (.ite (fun _ => .advance .pure) fun _ => .report .pure)
    | block => exact .andThen (.call trivial) fun _ _ => .pure
    | function =>
      refine .andThen .expect fun _ _ => .andThen ?_ fun _ _ => .andThen ?_ fun _ _ => .pure
      · exact .current (.ite (fun _ => .advance (.andThen (.call trivial) fun _ _ => .pure)) fun _ => .reportAfter .pure)
      · exact .current (.ite (fun _ => .advance (.andThen (.call trivial) fun _ _ => .pure)) fun _ => .reportAfter .pure)
    | primary =>
      exact .descend (hprimary token rfl) (.ite (fun _ => .andThen .byRules fun _ _ => .ascend .pure) (absurd rfl))
  | block opening gathered =>
    exact .current (.ite (fun _ => .advance .pure) fun _ => .ite (fun _ => .report .pure) fun _ =>
      .andThen (.call trivial) fun _ _ => .call trivial)
  | parameterList opening =>
    exact .current (.ite (fun _ => .call trivial) fun _ => .andThen (.call trivial) fun _ _ => .call trivial)
  | parameters opening gathered =>
    exact .current (.ite (fun _ => .andThen .expect fun _ _ => .pure) fun _ =>
      .andThen .expect fun _ _ => .andThen (.call trivial) fun _ _ => .call trivial)
  | parameter comma skipped =>
    refine .current (.ite (fun _ => .advance (.current (.ite (fun _ => ?_) fun _ => .pure))) fun _ => .ite ?_ ?_)
    · exact .advance (.andThen (.call trivial) fun _ _ => .pure)
    · exact fun _ => .ite (fun _ => .pure) fun _ => .reportAfter .pure
    · exact fun _ => .advance (.report (.call trivial))
  | typeName => exact .rules (.current (.ite (fun _ => .advance .pure) fun _ => .reportAfter .pure))
  | program gathered =>
    refine .current (.ite (fun _ => .pure) fun _ => .ite (fun _ => .advance (.report (.call trivial))) fun _ => ?_)
    refine .andThen (.call trivial) fun e _ => ?_
    cases e with
    | some e => exact .call trivial
    | none => exact .pure

/-! ### Runs -/

section
variable {α β : Type} {p : Parser} (hdeepest : ¬p.depth < maxNesting)
include hdeepest

theorem Instruction.perform_descend_refused : perform p descend = (false, p) := by
  rw [perform, Parser.descend?_of_not_lt hdeepest]

theorem Program.value_descend_refused {next : Bool → Program α} :
    (descend >>= next).value p = (next false).value p := by
  show (next (Instruction.perform p .descend).1).value (Instruction.perform p .descend).2 = _
  rw [Instruction.perform_descend_refused hdeepest]

theorem Machine.step_descend_refused {next : Bool → Program β} {rest : β → Program α} :
    step ⟨(Program.descend >>= next).bind rest, p⟩ = ⟨(next false).bind rest, p⟩ := by
  show Machine.mk ((next (Instruction.perform p .descend).1).bind rest) (Instruction.perform p .descend).2 = _
  rw [Instruction.perform_descend_refused hdeepest]

end

namespace Machine
variable {α : Type} {m : Machine α}

/-- A machine whose program has room. A construct that begins may be refused its level, and there is room again right
behind that. -/
def HasRoom (m : Machine α) : Prop :=
  m.program.HasRoom m.parser ∨
    (∃ token rest, m.program = (Routine.construct .primary token).body.bind rest) ∧ m.step.program.HasRoom m.step.parser

theorem calling_hasRoom {routine : Routine} {p : Parser} (h : routine.HasRoom p) : (calling routine p).HasRoom :=
  Or.inl ⟨h, trivial⟩

theorem HasRoom.step (h : m.HasRoom) : m.step.HasRoom := by
  obtain ⟨program, p⟩ := m
  rcases h with h | ⟨-, h⟩
  · cases program with
    | done result => exact Or.inl h
    | look next => exact Or.inl h
    | perform instruction next => exact Or.inl h.2
    | invoke routine next =>
      obtain ⟨hroutine, hnext⟩ := h
      rw [← routine.value_body] at hnext
      by_cases hprimary : ∀ token, routine = .construct .primary token → p.depth < maxNesting
      · exact Or.inl (.bind (Routine.body_hasRoom hroutine hprimary) hnext)
      · simp only [not_forall] at hprimary
        obtain ⟨token, rfl, hdeepest⟩ := hprimary
        -- The construct is refused its level, and the rest of it only keeps the token.
        have hvalue : (Routine.construct .primary token).body.value p = (Program.refuse token).value p :=
          Program.value_descend_refused hdeepest
        let entered : Machine α := ⟨(Routine.construct .primary token).body.bind next, p⟩
        have hstep : entered.step = ⟨(Program.refuse token).bind next, p⟩ := step_descend_refused hdeepest
        refine Or.inr ⟨⟨token, next, rfl⟩, ?_⟩
        show entered.step.program.HasRoom entered.step.parser
        rw [hstep]
        exact .bind .refuse (hvalue ▸ hnext)
  · exact Or.inl h

theorem HasRoom.run (h : m.HasRoom) (steps : Nat) : (m.run steps).HasRoom := by
  induction steps with
  | zero => exact h
  | succ steps ih =>
    rw [Machine.run, Function.iterate_succ_apply']
    exact ih.step

/-- A routine is about to be called: it has the room it needs. -/
theorem HasRoom.of_invoke {routine : Routine} {next : routine.Result → Program α} (h : m.HasRoom)
    (hprogram : m.program = .invoke routine next) : routine.HasRoom m.parser := by
  rcases h with h | ⟨⟨token, rest, hprimary⟩, -⟩
  · rw [hprogram] at h
    exact h.1
  · rw [hprogram] at hprimary
    cases hprimary

/-- A level is about to be refused: a construct begins. -/
theorem HasRoom.of_refused {next : Bool → Program α} (h : m.HasRoom) (hprogram : m.program = .perform .descend next)
    (hrefused : m.parser.descend? = none) :
    ∃ token rest, m.program = (Routine.construct .primary token).body.bind rest := by
  rcases h with h | ⟨hprimary, -⟩
  · rw [hprogram] at h
    rw [Parser.descend?_of_lt (h.1 rfl)] at hrefused
    cases hrefused
  · exact hprimary

end Machine

theorem Parser.expr_nest_le {p : Parser} {least : Precedence} : ∀ e ∈ (p.expr least).1,
    e.nest ≤ maxNesting - p.depth := by
  intro e he
  have hreads : Reads p.context (maxNesting - p.depth) (.expr least) p.state e (p.expr least).2.state :=
    (derived _ _).expr _ _ _ _ (Prod.ext he rfl)
  exact hreads.nests

theorem Parser.expr_eq_some {p : Parser} (h : p.current.kind ≠ .eof) (least : Precedence) :
    ∃ e last, p.expr least = (some e, last) := by
  obtain ⟨e, t, he⟩ := (derived p.context (maxNesting - p.depth)).expr_some least p.state h
  exact ⟨e, { p with state := t }, by rw [expr, run, level, he]⟩

/-- Called on any parser, an expression is read within the levels that are left. On the way, whenever an operand is to
be read before the end of the input, there is a level for it and an expression is found there; a level is refused only
to a construct that begins. -/
theorem nesting_guard (p : Parser) (least : Precedence) :
    (Routine.expr least).Returns p (p.expr least) ∧ (∀ e ∈ (p.expr least).1, e.nest ≤ maxNesting - p.depth) ∧
    ∀ steps, let m := (Machine.calling (.expr least) p).run steps
      (∀ strength next, m.program = .invoke (.operand strength) next → m.parser.current.kind ≠ .eof →
        ∃ deeper, m.parser.descend? = some deeper ∧
          ∃ e last, (Routine.expr strength).Returns deeper (some e, last)) ∧
      ∀ next, m.program = .perform .descend next → m.parser.descend? = none →
        ∃ token rest, m.program = (Routine.construct .primary token).body.bind rest := by
  refine ⟨((Routine.expr least).returns p).1, p.expr_nest_le, fun steps => ?_⟩
  intro m
  have hstart : (Routine.expr least).HasRoom p := trivial
  have hroom : m.HasRoom := (Machine.calling_hasRoom hstart).run steps
  refine ⟨fun strength next hprogram hk => ?_, fun next => hroom.of_refused⟩
  have hlevel : m.parser.depth < maxNesting := hroom.of_invoke hprogram
  obtain ⟨e, last, he⟩ := Parser.expr_eq_some (p := m.parser.deeper hlevel) hk strength
  exact ⟨_, Parser.descend?_of_lt hlevel, e, last, he ▸ ((Routine.expr strength).returns _).1⟩

/-- With one level left a sum is read, whose right operand finds that level and in it a construct that is refused. -/
theorem nesting_guard_last_level :
    let p : Parser := { Parser.ofSource "a+b" with depth := maxNesting - 1, depth_le := Nat.sub_le .. }
    let e : Expr := .binary (.identifier ⟨.identifier, "a", 0, ⟨1, 0⟩⟩) ⟨.plus, "+", 1, ⟨1, 1⟩⟩
      (.invalidToken ⟨.identifier, "b", 2, ⟨1, 2⟩⟩)
    e ∈ (p.expr .lowest).1 ∧ e.nest ≤ maxNesting - p.depth ∧ e.nest = 1 := by
  intro p e
  have he : e ∈ (p.expr .lowest).1 := by decide +kernel
  exact ⟨he, (nesting_guard p .lowest).2.1 e he, by decide +kernel⟩

end ExprReader
