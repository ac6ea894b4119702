import ExprReader.Proofs.Accounting
import ExprReader.Proofs.Nodes
import ExprReader.Proofs.Slices

/-! # Places in a source

The tokens of a source, with the end of the input last, start and stop between characters of it, and each stops
before the next one starts. The tokens of the trees are some of them in their order, so every node lies inside
the source, from its first token to its last, and no two nodes beside each other overlap. Reports lie on a token
or right behind one. -/

namespace ExprReader

/-! ### Borders between characters -/

/-- An offset between two characters of a text or at one of its ends. -/
def IsBorder (text : List Char) (offset : Nat) : Prop :=
  (splitBytes? text offset).isSome = true

theorem isBorder_iff {text : List Char} {offset : Nat} :
    IsBorder text offset ↔ ∃ front back, text = front ++ back ∧ byteLength front = offset := by
  simp only [IsBorder, Option.isSome_iff_exists, Prod.exists, splitBytes?_eq_some_iff]

theorem IsBorder.le {text : List Char} {offset : Nat} (h : IsBorder text offset) : offset ≤ byteLength text := by
  obtain ⟨front, back, rfl, rfl⟩ := isBorder_iff.mp h
  simp

theorem isBorder_byteLength (text : List Char) : IsBorder text (byteLength text) :=
  isBorder_iff.mpr ⟨text, [], (List.append_nil text).symm, rfl⟩

/-- A span inside a source: its ends are in order, none lies beyond the source, and both are borders. -/
structure Span.FitsIn (span : Span) (source : String) : Prop where
  ordered : span.start ≤ span.stop
  inside : span.stop ≤ byteLength source.toList
  start : IsBorder source.toList span.start
  stop : IsBorder source.toList span.stop

namespace Span.FitsIn
variable {source : String} {span : Span}

theorem of_borders {start stop : Nat} (hle : start ≤ stop) (hstart : IsBorder source.toList start)
    (hstop : IsBorder source.toList stop) : Span.FitsIn ⟨start, stop⟩ source :=
  ⟨hle, hstop.le, hstart, hstop⟩

theorem length?_isSome (h : span.FitsIn source) : span.length?.isSome = true := by
  rw [length?, if_pos h.ordered]
  rfl

end Span.FitsIn

/-! ### The end of the input -/

namespace Scanner

theorem skip_reach (scanner : Scanner) (count : Nat) :
    (scanner.skip count).offset + byteLength (scanner.skip count).rest =
      scanner.offset + byteLength scanner.rest := by
  have hsplit := congrArg byteLength (List.take_append_drop count scanner.rest)
  rw [byteLength_append] at hsplit
  simp only [skip]
  omega

theorem step_reach (scanner : Scanner) : scanner.step.2.offset + byteLength scanner.step.2.rest =
    scanner.offset + byteLength scanner.rest := by
  have hblanks := scanner.skip_reach (scanner.rest.takeWhile isBlank).length
  rcases scanner.step_cases with ⟨-, heq⟩ | ⟨-, heq⟩
  · rw [heq]
    exact hblanks
  · obtain ⟨reports, hlexeme⟩ := scanner.skipBlanks.lexeme_eq_cut
    rw [heq, hlexeme]
    exact (scanner.skipBlanks.skip_reach _).trans hblanks

theorem rest_eq_nil_of_step_finished {scanner : Scanner} (h : scanner.step.2.finished = true)
    (hf : scanner.finished = false) : scanner.step.2.rest = [] := by
  obtain ⟨hend, heq⟩ := step_of_finished h hf
  rw [heq]
  exact hend

/-- A scan stops at the end of the text. -/
theorem tokens_offset (scanner : Scanner) (hf : scanner.finished = false) :
    scanner.tokens.2.offset = scanner.offset + byteLength scanner.rest := by
  fun_induction Scanner.tokens scanner with
  | case1 scanner first hdone =>
    have hreach : first.2.offset + byteLength first.2.rest = _ := scanner.step_reach
    rwa [show first.2.rest = [] from rest_eq_nil_of_step_finished hdone hf] at hreach
  | case2 scanner first hdone others last hrest =>
    rename_i ih
    have hlast := ih (by simpa using hdone)
    rw [hrest] at hlast
    exact hlast.trans scanner.step_reach

theorem tokens_rest (scanner : Scanner) (hf : scanner.finished = false) : scanner.tokens.2.rest = [] := by
  fun_induction Scanner.tokens scanner with
  | case1 scanner first hdone => exact rest_eq_nil_of_step_finished hdone hf
  | case2 scanner first hdone others last hrest =>
    rename_i ih
    have hlast := ih (by simpa using hdone)
    rwa [hrest] at hlast

end Scanner

theorem scan_ending_start (source : String) : (scan source).1.ending.start = byteLength source.toList := by
  have hoffset := (Scanner.ofSource source).tokens_offset rfl
  simpa [scan, Scanner.ending, Scanner.ofSource] using hoffset

theorem scan_ending_stop (source : String) : (scan source).1.ending.stop = byteLength source.toList := by
  rw [Token.stop, scan_ending_start]
  rfl

/-! ### The tokens of a source -/

/-- A token and one that does not start before it stops. -/
def Token.Before (first second : Token) : Prop :=
  first.stop ≤ second.start

/-- Every token of a source starts and stops on a border. -/
theorem scan_borders (source : String) : ∀ token ∈ (scan source).1.toList,
    IsBorder source.toList token.start ∧ IsBorder source.toList token.stop := by
  intro token hm
  rcases List.mem_append.mp hm with hm | hm
  · obtain ⟨front, back, htokens⟩ := List.append_of_mem hm
    have hscans := scan_eq_iff.mp htokens
    obtain ⟨before, after, hstart, hoffset, -⟩ := hscans.drop
    obtain ⟨before', after', hstop, hoffset', -⟩ := hscans.take
    rw [Nat.zero_add] at hoffset hoffset'
    exact ⟨isBorder_iff.mpr ⟨before, after, hstart, hoffset⟩, isBorder_iff.mpr ⟨before', after', hstop, hoffset'⟩⟩
  · obtain rfl := List.mem_singleton.mp hm
    rw [scan_ending_start, scan_ending_stop]
    exact ⟨isBorder_byteLength _, isBorder_byteLength _⟩

/-- The tokens of a source are in order, the end of the input included. -/
theorem scan_ordered (source : String) : (scan source).1.toList.Pairwise Token.Before := by
  obtain ⟨-, hpairs⟩ := (scan_eq_iff.mp (rfl : _ = (scan source).1.tokens.toList)).ordered
  refine List.pairwise_append.mpr ⟨hpairs, List.pairwise_singleton .., fun token hm ending hending => ?_⟩
  rw [List.mem_singleton.mp hending, Token.Before, scan_ending_start]
  exact (scan_borders source token (List.mem_append_left _ hm)).2.le

/-- The tokens of the trees are tokens of the source in their order. -/
theorem parse_leaves_sublist (source : String) :
    ((parse source).expressions.flatMap Expr.leaves).Sublist (scan source).1.toList := by
  obtain ⟨t, hrun, -, hcursor, hpassed⟩ := parse_passes source
  obtain ⟨kept, placeholder, hleaves, hsifted, hend⟩ := (hrun.gathers Rules.standard_endsAtEof).sifted
  rw [hpassed] at hsifted
  rw [hleaves]
  refine hsifted.sublist.append ?_
  cases placeholder with
  | none => exact List.nil_sublist _
  | some ending =>
    have hending : (Parser.ofSource source).context.current t = (scan source).1.ending :=
      TokenBuffer.get_of_size_le (Nat.le_of_eq hcursor.symm)
    rw [(hend ending rfl).1, hending]
    exact List.Sublist.refl _

/-! ### Nodes between their tokens -/

namespace Node

/-- What a walk meets is filled and made of consecutive tokens of the whole. -/
theorem Filled.of_mem_preorder {root node : Node} {depth found : Nat} (h : root.Filled)
    (hm : (found, node) ∈ root.preorder depth) : node.Filled ∧ node.leaves <:+: root.leaves := by
  induction h generalizing depth with
  | leaf =>
    obtain ⟨-, rfl⟩ := mem_preorder_leaf.mp hm
    exact ⟨.leaf, List.infix_rfl⟩
  | @branch tag children hne hchildren ih =>
    rcases mem_preorder_branch.mp hm with ⟨-, rfl⟩ | ⟨child, hchild, hm⟩
    · exact ⟨.branch hne hchildren, List.infix_rfl⟩
    · obtain ⟨hfilled, hinside⟩ := ih child hchild hm
      obtain ⟨front, back, rfl⟩ := List.append_of_mem hchild
      exact ⟨hfilled, hinside.trans ⟨leavesAll front, leavesAll back, by simp⟩⟩

/-- Nodes beside each other whose tokens are in order do not overlap. -/
theorem pairwise_of_leavesAll {nodes : List Node} (hfilled : ∀ node ∈ nodes, node.Filled)
    (h : (leavesAll nodes).Pairwise Token.Before) : nodes.Pairwise fun a b => a.span.stop ≤ b.span.start := by
  induction nodes with
  | nil => exact .nil
  | cons node nodes ih =>
    rw [leavesAll_cons, List.pairwise_append] at h
    obtain ⟨hnode, hnodes⟩ := List.forall_mem_cons.mp hfilled
    refine List.pairwise_cons.mpr ⟨fun other hm => ?_, ih hnodes h.2.1⟩
    -- The last token of the one node stops before the first token of the other starts.
    have hlast := List.getLast?_eq_some_getLast hnode.leaves_ne_nil
    have hfirst := List.head?_eq_some_head (hnodes other hm).leaves_ne_nil
    have hmem : other.leaves.head (hnodes other hm).leaves_ne_nil ∈ leavesAll nodes := by
      obtain ⟨front, back, rfl⟩ := List.append_of_mem hm
      simp
    rw [span, span, hnode.stop_eq _ hlast, (hnodes other hm).start_eq _ hfirst]
    exact h.2.2 _ (List.getLast_mem _) _ hmem

end Node

theorem Token.start_le_stop_of_pairwise {tokens : List Token} (h : tokens.Pairwise Token.Before) {first last : Token}
    (hfirst : tokens.head? = some first) (hlast : tokens.getLast? = some last) : first.start ≤ last.stop := by
  obtain ⟨others, rfl⟩ := List.head?_eq_some_iff.mp hfirst
  obtain ⟨hbefore, -⟩ := List.pairwise_cons.mp h
  rcases List.mem_cons.mp (List.mem_of_getLast? hlast) with rfl | hm
  · exact last.start_le_stop
  · exact Nat.le_trans first.start_le_stop (Nat.le_trans (hbefore last hm) last.start_le_stop)

/-- A node made of tokens of a source lies inside it. -/
theorem Node.Filled.fitsIn {node : Node} {source : String} (h : node.Filled)
    (hleaves : node.leaves.Sublist (scan source).1.toList) : node.span.FitsIn source := by
  have hfirst := List.head?_eq_some_head h.leaves_ne_nil
  have hlast := List.getLast?_eq_some_getLast h.leaves_ne_nil
  rw [h.span_eq hfirst hlast]
  refine .of_borders (Token.start_le_stop_of_pairwise ((scan_ordered source).sublist hleaves) hfirst hlast) ?_ ?_
  · exact (scan_borders source _ (hleaves.subset (List.head_mem _))).1
  · exact (scan_borders source _ (hleaves.subset (List.getLast_mem _))).2

/-! ### Reports -/

theorem TokenBuffer.get_mem_toList (buffer : TokenBuffer) (index : Nat) : buffer.get index ∈ buffer.toList := by
  rcases Nat.lt_or_ge index buffer.size with hlt | hge
  · exact List.mem_append_left _ (Array.mem_toList_iff.mpr (get_mem hlt))
  · rw [get_of_size_le hge]
    exact List.mem_append_right _ (List.mem_singleton_self _)

/-- Every report is about a token or about the place right behind one. -/
theorem parse_report_places (source : String) : ∀ d ∈ (parse source).diagnostics,
    ∃ token ∈ (scan source).1.toList, d.span = token.span ∨ d.span = .empty token.stop := by
  have hself : (scan source).1.SameKinds (scan source).1 := fun _ _ => rfl
  intro d hd
  rw [parse, Parser.ofSource, hself.parse, Array.mem_append] at hd
  rcases hd with hd | hd
  · rw [← Array.mem_toList_iff, scan_reports, Scanner.reportsFor] at hd
    obtain ⟨token, hm, rfl⟩ := List.mem_map.mp hd
    exact ⟨token, List.mem_append_left _ (List.mem_filter.mp hm).1, Or.inl rfl⟩
  · obtain ⟨number, -, rfl⟩ := Array.mem_map.mp hd
    simp only [Relocation.report, TokenBuffer.unnumbering]
    split
    · exact ⟨_, TokenBuffer.get_mem_toList _ _, Or.inr rfl⟩
    · exact ⟨_, TokenBuffer.get_mem_toList _ _, Or.inl rfl⟩

theorem parse_report_fitsIn (source : String) : ∀ d ∈ (parse source).diagnostics, d.span.FitsIn source := by
  intro d hd
  obtain ⟨token, hm, hspan⟩ := parse_report_places source d hd
  obtain ⟨hstart, hstop⟩ := scan_borders source token hm
  rcases hspan with hspan | hspan
  · rw [hspan]
    exact .of_borders token.start_le_stop hstart hstop
  · rw [hspan]
    exact .of_borders (Nat.le_refl _) hstop hstop

/-! ### Sources -/

/-- Every node of the trees of a source lies inside the source, from its first token to its last, and neither
children of one node nor whole trees overlap. Every report lies inside the source and has a length. -/
theorem parse_spans (source : String) :
    (∀ root ∈ (parse source).expressions, ∀ depth node, (depth, node) ∈ root.toNode.preorder 0 →
      node.span.FitsIn source ∧ ∀ tag children, node = .branch tag children →
        (∃ first ∈ node.leaves.head?, ∃ last ∈ node.leaves.getLast?, node.span = ⟨first.start, last.stop⟩) ∧
        children.Pairwise fun a b => a.span.stop ≤ b.span.start) ∧
    (parse source).expressions.Pairwise (fun d e => d.span.stop ≤ e.span.start) ∧
    ∀ d ∈ (parse source).diagnostics, d.span.FitsIn source ∧ d.span.length?.isSome = true := by
  have hsublist := parse_leaves_sublist source
  have hordered := (scan_ordered source).sublist hsublist
  refine ⟨fun root hroot depth node hm => ?_, ?_, fun d hd => ?_⟩
  · obtain ⟨hfilled, hinside⟩ := root.filled.of_mem_preorder hm
    have hleaves := (hinside.trans (Expr.isInfix_flatMap_leaves hroot)).sublist
    refine ⟨hfilled.fitsIn (hleaves.trans hsublist), ?_⟩
    rintro tag children rfl
    have hfirst := List.head?_eq_some_head hfilled.leaves_ne_nil
    have hlast := List.getLast?_eq_some_getLast hfilled.leaves_ne_nil
    refine ⟨⟨_, hfirst, _, hlast, hfilled.span_eq hfirst hlast⟩, ?_⟩
    cases hfilled with
    | branch _ hchildren => exact Node.pairwise_of_leavesAll hchildren (by simpa using hordered.sublist hleaves)
  · have hnodes : ((parse source).expressions.map Expr.toNode).Pairwise fun a b => a.span.stop ≤ b.span.start := by
      refine Node.pairwise_of_leavesAll ?_ (by rw [Node.leavesAll_map]; exact hordered)
      simp [Expr.filled]
    exact List.pairwise_map.mp hnodes
  · exact ⟨parse_report_fitsIn source d hd, (parse_report_fitsIn source d hd).length?_isSome⟩

end ExprReader
