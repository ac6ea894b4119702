import ExprReader.Proofs.Nodes
import ExprReader.Proofs.Relocation
import ExprReader.Tree.Printer

/-! # Trees that agree but for their places

Two trees are alike exactly when they are the same once all tokens are put in one place. The comparison sees tags and
tokens only, with absent parts left out, so it has to be shown that a node tells what stands in each slot of its tree:
the parts that may stand beside each other have different tags (`Expr.toNode_injective`). -/

namespace ExprReader

/-! ### Lists -/

/-- A front of elements with a property and a back that starts with none are found again in the whole. -/
theorem append_inj_of_head {α : Type} {p : α → Prop} {front front' back back' : List α}
    (h : front ++ back = front' ++ back') (hfront : ∀ x ∈ front, p x) (hfront' : ∀ x ∈ front', p x)
    (hback : ∀ x ∈ back.head?, ¬p x) (hback' : ∀ x ∈ back'.head?, ¬p x) : front = front' ∧ back = back' := by
  induction front generalizing front' with
  | nil =>
    cases front' with
    | nil => exact ⟨rfl, h⟩
    | cons y front' =>
      have hy : y ∈ back.head? := by rw [← List.nil_append back, h]; rfl
      exact absurd (hfront' y (List.mem_cons_self ..)) (hback y hy)
  | cons x front ih =>
    cases front' with
    | nil =>
      have hx : x ∈ back'.head? := by rw [← List.nil_append back', ← h]; rfl
      exact absurd (hfront x (List.mem_cons_self ..)) (hback' x hx)
    | cons y front' =>
      obtain ⟨rfl, hrest⟩ := List.cons.inj h
      obtain ⟨rfl, hback⟩ := ih hrest (fun z hz => hfront z (List.mem_cons_of_mem _ hz))
        fun z hz => hfront' z (List.mem_cons_of_mem _ hz)
      exact ⟨rfl, hback⟩

theorem map_inj_of_mem {α β : Type} {f : α → β} {l l' : List α} (hf : ∀ x ∈ l, ∀ y, f x = f y → x = y)
    (h : l.map f = l'.map f) : l = l' := by
  induction l generalizing l' with
  | nil => exact (List.map_eq_nil_iff.mp h.symm).symm
  | cons x l ih =>
    obtain ⟨y, l', rfl, hy, hl⟩ := List.map_eq_cons_iff.mp h.symm
    obtain ⟨hfx, hfl⟩ := List.forall_mem_cons.mp hf
    rw [hfx y hy.symm, ih hfl hl.symm]

theorem eq_of_toList_eq {α : Type} {o o' : Option α} (h : o.toList = o'.toList) : o = o' := by
  simpa using congrArg List.head? h

theorem eq_of_map_toList {α β : Type} {f : α → β} {o o' : Option α} (hf : ∀ x ∈ o, ∀ y, f x = f y → x = y)
    (h : o.toList.map f = o'.toList.map f) : o = o' :=
  eq_of_toList_eq (map_inj_of_mem (by simpa using hf) h)

/-! ### A node tells its parts -/

namespace Node

theorem ofName_injective : Function.Injective ofName := by
  intro s t h
  simpa [ofName] using h

theorem ofTypeName_injective : Function.Injective ofTypeName := by
  intro s t h
  simpa [ofTypeName, ofName_injective.eq_iff] using h

theorem ofToken?_eq_map (token : Option Token) : ofToken? token = token.toList.map leaf := by
  cases token <;> rfl

end Node

namespace Parameter

theorem toNode_eq (p : Parameter) : p.toNode = .branch .parameter (p.comma.toList.map Node.leaf ++
    (Node.ofName p.name :: (p.colon.toList.map Node.leaf ++ p.typeName.toList.map Node.ofTypeName))) := by
  rw [toNode, Node.ofToken?_eq_map, Node.ofToken?_eq_map, Option.toList_map]
  simp

theorem toNode_injective : Function.Injective toNode := by
  intro p q h
  rw [toNode_eq, toNode_eq] at h
  obtain ⟨comma, name, colon, typeName⟩ := p
  obtain ⟨comma', name', colon', typeName'⟩ := q
  obtain ⟨hcomma, hrest⟩ := append_inj_of_head (p := (·.tag? = none)) (Node.branch.inj h).2 (by simp) (by simp)
    (by simp [Node.ofName]) (by simp [Node.ofName])
  obtain ⟨hname, hrest⟩ := List.cons.inj hrest
  obtain ⟨hcolon, htype⟩ := append_inj_of_head (p := (·.tag? = none)) hrest (by simp) (by simp)
    (by simp [Node.ofTypeName]) (by simp [Node.ofTypeName])
  obtain rfl : comma = comma' := eq_of_map_toList (fun _ _ _ => Node.leaf.inj) hcomma
  obtain rfl : name = name' := Node.ofName_injective hname
  obtain rfl : colon = colon' := eq_of_map_toList (fun _ _ _ => Node.leaf.inj) hcolon
  obtain rfl : typeName = typeName' := eq_of_map_toList (fun _ _ _ h => Node.ofTypeName_injective h) htype
  rfl

end Parameter

/-- What stands between two delimiters, of which the second may be absent, is told by the nodes. -/
theorem enclosed_inj {α : Type} {f : α → Node} {opening opening' : Token} {inside inside' : List α}
    {closing closing' : Option Token} (htag : ∀ x, (f x).tag? ≠ none) (hf : ∀ x ∈ inside, ∀ y, f x = f y → x = y)
    (h : Node.leaf opening :: (inside.map f ++ closing.toList.map Node.leaf) =
      Node.leaf opening' :: (inside'.map f ++ closing'.toList.map Node.leaf)) :
    opening = opening' ∧ inside = inside' ∧ closing = closing' := by
  obtain ⟨hopening, hrest⟩ := List.cons.inj h
  obtain ⟨hinside, hclosing⟩ := append_inj_of_head (p := (·.tag? ≠ none)) hrest (by simp [htag]) (by simp [htag])
    (by simp) (by simp)
  exact ⟨Node.leaf.inj hopening, map_inj_of_mem hf hinside, eq_of_map_toList (fun _ _ _ => Node.leaf.inj) hclosing⟩

namespace ParameterList

theorem toNode_eq (l : ParameterList) : l.toNode = .branch .parametersList
    (.leaf l.opening :: (l.parameters.map Parameter.toNode ++ l.closing.toList.map Node.leaf)) := by
  rw [toNode, Node.ofToken?_eq_map, List.cons_append]

theorem toNode_injective : Function.Injective toNode := by
  intro l m h
  rw [toNode_eq, toNode_eq] at h
  obtain ⟨opening, ps, closing⟩ := l
  obtain ⟨opening', ps', closing'⟩ := m
  obtain ⟨rfl, rfl, rfl⟩ := enclosed_inj (by simp [Parameter.toNode]) (fun _ _ _ h => Parameter.toNode_injective h)
    (Node.branch.inj h).2
  rfl

end ParameterList

namespace Expr

theorem toNode_unary (operator : Token) (operand : Option Expr) :
    (unary operator operand).toNode = .branch .unary (.leaf operator :: operand.toList.map toNode) := by
  cases operand <;> rfl

theorem toNode_parenthesis (opening : Token) (inner : Option Expr) (closing : Option Token) :
    (parenthesis opening inner closing).toNode = .branch .parenthesis
      (.leaf opening :: (inner.toList.map toNode ++ closing.toList.map Node.leaf)) := by
  rw [← Node.ofToken?_eq_map]
  cases inner <;> rfl

theorem toNode_block (body : Block Expr) : (block body).toNode = .branch .block
    (.leaf body.opening :: (body.expressions.map toNode ++ body.closing.toList.map Node.leaf)) := by
  rw [toNode, toNodes_eq_map, Node.ofToken?_eq_map, List.cons_append]

theorem toNode_function (keyword : Token) (name : Option Token) (parameters : Option ParameterList)
    (body : Option (Block Expr)) : (function keyword name parameters body).toNode = .branch .function
      (.leaf keyword :: (name.toList.map Node.ofName ++ (parameters.toList.map ParameterList.toNode ++
        body.toList.map Block.toNode))) := by
  cases body with
  | none => simp [toNode, Option.toList_map]
  | some body => simp [toNode, Option.toList_map, Block.toNode]

theorem tag_eq_of_toNode_eq {d e : Expr} (h : d.toNode = e.toNode) : d.tag = e.tag := by
  have htags := congrArg Node.tag? h
  rw [tag?_toNode, tag?_toNode] at htags
  exact Option.some.inj htags

theorem block_eq_of_toNode_eq {b c : Block Expr} (hb : ∀ d ∈ b.expressions, ∀ e, d.toNode = e.toNode → d = e)
    (h : b.toNode = c.toNode) : b = c := by
  rw [Block.toNode, Block.toNode, toNode_block, toNode_block] at h
  obtain ⟨hopening, hinside, hclosing⟩ := enclosed_inj (by simp [tag?_toNode]) hb (Node.branch.inj h).2
  exact Block.ext hopening hinside hclosing

/-- The parts of a function are told apart by their tags. -/
theorem function_parts_inj {name name' : Option Token} {parameters parameters' : Option ParameterList}
    {body body' : Option (Block Expr)} (hbody : ∀ b ∈ body, ∀ c, b.toNode = c.toNode → b = c)
    (h : name.toList.map Node.ofName ++ (parameters.toList.map ParameterList.toNode ++ body.toList.map Block.toNode) =
      name'.toList.map Node.ofName ++ (parameters'.toList.map ParameterList.toNode ++ body'.toList.map Block.toNode)) :
    name = name' ∧ parameters = parameters' ∧ body = body' := by
  have hlist (l : ParameterList) : l.toNode.tag? = some .parametersList := rfl
  have hblock (b : Block Expr) : b.toNode.tag? = some .block := rfl
  have hnot (l : Option ParameterList) (b : Option (Block Expr)) : ∀ node ∈
      (l.toList.map ParameterList.toNode ++ b.toList.map Block.toNode).head?, ¬node.tag? = some .identifier := by
    cases l <;> simp [hlist, hblock]
  obtain ⟨hname, hrest⟩ := append_inj_of_head (p := (·.tag? = some .identifier)) h (by simp [Node.ofName])
    (by simp [Node.ofName]) (hnot _ _) (hnot _ _)
  obtain ⟨hparameters, hbodies⟩ := append_inj_of_head (p := (·.tag? = some .parametersList)) hrest (by simp [hlist])
    (by simp [hlist]) (by simp [hblock]) (by simp [hblock])
  exact ⟨eq_of_map_toList (fun _ _ _ h => Node.ofName_injective h) hname,
    eq_of_map_toList (fun _ _ _ h => ParameterList.toNode_injective h) hparameters, eq_of_map_toList hbody hbodies⟩

/-- A node is that of one expression at most. -/
theorem toNode_injective : Function.Injective toNode := by
  intro d e h
  induction d generalizing e with
  | literal s =>
    cases e with
    | literal t => rw [Node.leaf.inj (List.cons.inj (Node.branch.inj h).2).1]
    | _ => cases tag_eq_of_toNode_eq h
  | identifier s =>
    cases e with
    | identifier t => rw [Node.ofName_injective h]
    | _ => cases tag_eq_of_toNode_eq h
  | unary s d ih =>
    cases e with
    | unary t e =>
      rw [toNode_unary, toNode_unary] at h
      obtain ⟨hoperator, hoperand⟩ := List.cons.inj (Node.branch.inj h).2
      rw [Node.leaf.inj hoperator, eq_of_map_toList (fun x hx _ h => ih x hx h) hoperand]
    | _ => cases tag_eq_of_toNode_eq h
  | binary d s d' ih ih' =>
    cases e with
    | binary e t e' =>
      obtain ⟨hleft, hrest⟩ := List.cons.inj (Node.branch.inj h).2
      obtain ⟨hoperator, hright⟩ := List.cons.inj hrest
      rw [ih hleft, Node.leaf.inj hoperator, ih' (List.cons.inj hright).1]
    | _ => cases tag_eq_of_toNode_eq h
  | parenthesis s d s' ih =>
    cases e with
    | parenthesis t e t' =>
      rw [toNode_parenthesis, toNode_parenthesis] at h
      obtain ⟨rfl, hinner, rfl⟩ := enclosed_inj (by simp [tag?_toNode])
        (fun x hx _ h => ih x (Option.mem_toList.mp hx) h) (Node.branch.inj h).2
      rw [eq_of_toList_eq hinner]
    | _ => cases tag_eq_of_toNode_eq h
  | block b ih =>
    cases e with
    | block c => rw [block_eq_of_toNode_eq (fun x hx _ h => ih x hx h) h]
    | _ => cases tag_eq_of_toNode_eq h
  | function s n p b ih =>
    cases e with
    | function t m q c =>
      rw [toNode_function, toNode_function] at h
      obtain ⟨hkeyword, hparts⟩ := List.cons.inj (Node.branch.inj h).2
      obtain ⟨rfl, rfl, rfl⟩ := function_parts_inj
        (fun x hx _ h => block_eq_of_toNode_eq (fun y hy _ h => ih x hx y hy h) h) hparts
      rw [Node.leaf.inj hkeyword]
    | _ => cases tag_eq_of_toNode_eq h
  | invalidToken s =>
    cases e with
    | invalidToken t => rw [Node.leaf.inj (List.cons.inj (Node.branch.inj h).2).1]
    | invalidExpr e => exact absurd (List.cons.inj (Node.branch.inj h).2).1.symm (toNode_ne_leaf e s)
    | _ => cases tag_eq_of_toNode_eq h
  | invalidExpr d ih =>
    cases e with
    | invalidExpr e => rw [ih (List.cons.inj (Node.branch.inj h).2).1]
    | invalidToken t => exact absurd (List.cons.inj (Node.branch.inj h).2).1 (toNode_ne_leaf d t)
    | _ => cases tag_eq_of_toNode_eq h

end Expr

/-! ### Tokens in one place -/

/-- The token put in another place. -/
def Token.placedAt (start : Nat) (position : Position) (token : Token) : Token :=
  ⟨token.kind, token.text, start, position⟩

theorem Token.placedAt_eq_iff {start : Nat} {position : Position} {s t : Token} :
    s.placedAt start position = t.placedAt start position ↔ s.kind = t.kind ∧ s.text = t.text := by
  simp [placedAt]

section
variable (start : Nat) (position : Position)

mutual

/-- Nodes are alike when they are the same in one place. -/
theorem Node.alike_iff_map_eq : ∀ n m : Node,
    n.alike m = true ↔ n.map (Token.placedAt start position) = m.map (Token.placedAt start position)
  | .leaf s, .leaf t => by simp [alike, map, Token.placedAt_eq_iff]
  | .leaf s, .branch tag children => by simp [alike, map]
  | .branch tag children, .leaf t => by simp [alike, map]
  | .branch tag children, .branch tag' children' => by
    simp [alike, map, Node.alikeAll_iff_map_eq children children']

theorem Node.alikeAll_iff_map_eq : ∀ ns ms : List Node,
    alikeAll ns ms = true ↔ mapAll (Token.placedAt start position) ns = mapAll (Token.placedAt start position) ms
  | [], [] => by simp [alikeAll]
  | [], m :: ms => by simp [alikeAll, mapAll]
  | n :: ns, [] => by simp [alikeAll, mapAll]
  | n :: ns, m :: ms => by
    simp [alikeAll, mapAll, Node.alike_iff_map_eq n m, Node.alikeAll_iff_map_eq ns ms]

end

theorem Expr.alike_iff_map_eq (d e : Expr) :
    d.alike e = true ↔ d.map (Token.placedAt start position) = e.map (Token.placedAt start position) := by
  rw [alike, Node.alike_iff_map_eq start position, ← toNode_map, ← toNode_map, toNode_injective.eq_iff]

end

/-! ### Text does not tell places -/

theorem Expr.displayAll_map {f : Token → Token} {es : List Expr} (h : ∀ e ∈ es, (e.map f).display = e.display) :
    displayAll (mapAll f es) = displayAll es := by
  simpa [displayAll_eq_map, mapAll_eq_map] using h

section
variable {f : Token → Token} (h : ∀ token, (f token).kind = token.kind ∧ (f token).text = token.text)
include h

theorem Token.display_map (token : Token) : (f token).display = token.display := by
  simp [display, isEof, h token]

theorem Parameter.display_map (p : Parameter) : (p.map f).display = p.display := by
  obtain ⟨comma, name, colon, typeName⟩ := p
  cases typeName <;> simp [display, Parameter.map, h]

theorem ParameterList.display_map (l : ParameterList) : (l.map f).display = l.display := by
  simp [display, ParameterList.map, Function.comp_def, Parameter.display_map h]

namespace Expr

theorem header_map (name : Option Token) (parameters : Option ParameterList) :
    header (name.map f) (parameters.map (ParameterList.map f)) = header name parameters := by
  cases name <;> cases parameters <;> simp [header, h, ParameterList.display_map h]

/-- Tokens of the same kinds and texts make trees that are shown in the same way. -/
theorem display_map (e : Expr) : (e.map f).display = e.display := by
  induction e with
  | literal token => exact Token.display_map h token
  | identifier token => exact (h token).2
  | unary operator operand ih => cases operand <;> simp [display, map, Token.display_map h, ih]
  | binary left operator right ih ih' => simp [display, map, Token.display_map h, ih, ih']
  | parenthesis opening inner closing ih => cases inner <;> simp [display, map, ih]
  | block body ih => rw [map, display, display, displayAll_map ih]
  | function keyword name parameters body ih =>
    cases body with
    | none => rw [map, display, display, header_map h]
    | some body => rw [map, display, display, header_map h, displayAll_map (ih body rfl)]
  | invalidToken token => exact Token.display_map h token
  | invalidExpr inner ih => exact ih

end Expr

end

/-- Trees are alike exactly when they are the same once all their tokens stand in one place, whichever it is. So to be
alike is an equivalence; trees that are equal are alike, and trees that are alike are shown in the same way. -/
theorem alike_up_to_places :
    (∀ (d e : Expr) (start : Nat) (position : Position),
      d.alike e = true ↔ d.map (Token.placedAt start position) = e.map (Token.placedAt start position)) ∧
    Equivalence (fun d e : Expr => d.alike e = true) ∧ (∀ d e : Expr, (d == e) = true → d.alike e = true) ∧
    ∀ d e : Expr, d.alike e = true → d.display = e.display := by
  have hiff (d e : Expr) := Expr.alike_iff_map_eq 0 {} d e
  refine ⟨fun d e start position => Expr.alike_iff_map_eq start position d e,
    ⟨fun d => ?_, fun h => ?_, fun h h' => ?_⟩, fun d e h => ?_, fun d e h => ?_⟩
  · exact (hiff d d).mpr rfl
  · exact (hiff _ _).mpr ((hiff _ _).mp h).symm
  · exact (hiff _ _).mpr (((hiff _ _).mp h).trans ((hiff _ _).mp h'))
  · rw [eq_of_beq h]
    exact (hiff e e).mpr rfl
  · have hplaced (x : Expr) : (x.map (Token.placedAt 0 {})).display = x.display :=
      Expr.display_map (f := Token.placedAt 0 {}) (fun _ => ⟨rfl, rfl⟩) x
    rw [← hplaced d, (hiff d e).mp h, hplaced e]

/-- A parenthesis that is left open in two places is shown in the same way, and one that holds nothing and is closed is
not alike, though its tokens are as many. -/
theorem alike_up_to_places_open :
    let tree (start : Nat) : Expr := .invalidExpr (.parenthesis ⟨.openParen, "(", start, ⟨1, start⟩⟩
      (some (.identifier ⟨.identifier, "a", start + 1, ⟨1, start + 1⟩⟩)) none)
    let other : Expr := .invalidExpr (.parenthesis ⟨.openParen, "(", 0, {}⟩ none (some ⟨.identifier, "a", 1, ⟨1, 1⟩⟩))
    (tree 0).alike (tree 7) = true ∧ (tree 0).display = (tree 7).display ∧ (tree 0).alike other = false := by
  intro tree other
  have halike : (tree 0).alike (tree 7) = true := by decide
  exact ⟨halike, alike_up_to_places.2.2.2 _ _ halike, by decide⟩

end ExprReader
