import Nameless.Term.Basic
import Nameless.Term.Display
import Nameless.Term.Replace
import Nameless.Term.Shift
import Nameless.Reduction.Redex
import Nameless.Reduction.Normalize
import Nameless.Reduction.Battery
import Nameless.Numeral
import Nameless.Text.Character
import Nameless.Text.Printable
import Nameless.Text.Quoted
import Nameless.Datum.Binary64
import Nameless.Datum.Basic
import Nameless.Term.Build
import Nameless.Evaluation.Environment
import Nameless.Evaluation.Machine
import Nameless.Text.Padding
import Nameless.Text.Template
import Nameless.Report.Style
import Nameless.Report.Diagnostic
import Nameless.Report.Reporter
import Nameless.Written.Token
import Nameless.Written.Parse
import Nameless.Wire
import Nameless.Witness.Basic
import Nameless.Witness.Verify
import Nameless.Text.Utf8
import Nameless.Desk.Draft
import Nameless.Desk.Fault
import Nameless.Desk.Action
import Nameless.Desk.Sheet
import Nameless.Desk.Work
import Nameless.Desk.Command
import Nameless.Desk.Console
import Nameless.Desk.Options
import Nameless.Desk.Program
import Nameless.Main
import Nameless.Proofs.Term.Substitution
import Nameless.Proofs.Term.Commutation
import Nameless.Proofs.Term.FreeIndices
import Nameless.Proofs.Term.Replacement
import Nameless.Proofs.Term.Lowering
import Nameless.Proofs.Term.ShiftImage
import Nameless.Proofs.Term.Recursion
import Nameless.Proofs.Reduction.NormalOrder
import Nameless.Proofs.Reduction.Sequence
import Nameless.Proofs.Reduction.Beta
import Nameless.Proofs.Reduction.Leftmost
import Nameless.Proofs.Reduction.Scope
import Nameless.Proofs.Reduction.Renaming
import Nameless.Proofs.Reduction.ThreePasses
import Nameless.Proofs.Reduction.Confluence
import Nameless.Proofs.Reduction.Standardization
import Nameless.Proofs.Reduction.Fixpoint
import Nameless.Proofs.Evaluation.Run
import Nameless.Proofs.Evaluation.Readback
import Nameless.Proofs.Evaluation.CallByValue
import Nameless.Proofs.Evaluation.OpenTerms
import Nameless.Proofs.Evaluation.Sameness
import Nameless.Proofs.Witness.Soundness
import Nameless.Proofs.Text.Decimal
import Nameless.Proofs.Text.Filling
import Nameless.Proofs.Report.Verbatim
import Nameless.Proofs.Written.Grammar
import Nameless.Proofs.Written.Display
import Nameless.Proofs.Wire.RoundTrip
import Nameless.Proofs.Wire.Classification
import Nameless.Proofs.Desk.Assembly
import Nameless.Proofs.Evaluation.BigStep
import Nameless.Proofs.Evaluation.WeakValues
import Nameless.Proofs.Numeral.Arithmetic
import Nameless.Proofs.Numeral.Recognition
import Nameless.Proofs.Written.Words
import Nameless.Proofs.Written.Places
import Nameless.Proofs.Written.Partition
import Nameless.Proofs.Written.Refusals
import Nameless.Proofs.Witness.RecordedSteps
import Nameless.Proofs.Witness.Completeness
import Nameless.Proofs.Witness.Leaves
import Nameless.Proofs.Desk.Execution
import Nameless.Proofs.Desk.Opening
import Nameless.Proofs.Desk.Prompt
import Nameless.Proofs.Desk.Agreement
import Nameless.Proofs.Desk.Layout
import Nameless.Proofs.Desk.Grouping
import Nameless.Proofs.Desk.Proving
import Nameless.Proofs.Desk.FileRun
import Nameless.Proofs.Desk.Session
import Nameless.Proofs.Desk.Faults
import Nameless.Proofs.Desk.Continuation
