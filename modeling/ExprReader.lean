import ExprReader.Diagnostic.Excerpt
import ExprReader.Proofs.Grammar
import ExprReader.Proofs.Grouping
import ExprReader.Tree.Node
import ExprReader.Tree.Parser.Basic
import ExprReader.Tree.Printer
import ExprReader.Proofs.Relocation
import ExprReader.Proofs.Shapes
import ExprReader.Proofs.Concatenation
import ExprReader.Proofs.Layout
import ExprReader.Proofs.Accounting
import ExprReader.Proofs.Nodes
import ExprReader.Proofs.Slices
import ExprReader.Proofs.Lexemes
import ExprReader.Proofs.Respacing
import ExprReader.Proofs.Display
import ExprReader.Proofs.Spans
import ExprReader.Proofs.Deviations
import ExprReader.Proofs.Frame
import ExprReader.Proofs.Lossless
import ExprReader.Proofs.Kinds
import ExprReader.Proofs.LongestMatch
import ExprReader.Proofs.ReportOrder
import ExprReader.Proofs.NestingGuard
import ExprReader.Proofs.ParameterLists
import ExprReader.Proofs.Likeness
import ExprReader.Proofs.Cuts
import ExprReader.Proofs.Lines
import ExprReader.Proofs.Carets
