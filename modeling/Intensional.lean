import Intensional.Action
import Intensional.Assoc
import Intensional.Binary64
import Intensional.Code.Basic
import Intensional.Code.Compile
import Intensional.Context
import Intensional.Context.Lemmas
import Intensional.Decimal.Shortest
import Intensional.Digest
import Intensional.DigitTree
import Intensional.Dimension
import Intensional.Engine.Basic
import Intensional.Engine.Library
import Intensional.Engine.Reference
import Intensional.Equation.Choice
import Intensional.Equation.Group
import Intensional.Equation.Id
import Intensional.Equation.Outline
import Intensional.Equivalence
import Intensional.Evaluation.Basic
import Intensional.Evaluation.Code
import Intensional.Evaluation.Demand
import Intensional.Evaluation.Equation
import Intensional.Fault
import Intensional.Guard.Basic
import Intensional.Guard.Relation
import Intensional.IndexSet
import Intensional.IntRange
import Intensional.Machine
import Intensional.Memo.Basic
import Intensional.Memo.Trie
import Intensional.Operator.Basic
import Intensional.Operator.Builtin
import Intensional.Operator.Outline
import Intensional.Program
import Intensional.Roster
import Intensional.Sorting
import Intensional.Source
import Intensional.Special
import Intensional.Text.Quoted
import Intensional.Text.Shown
import Intensional.TypeIndex
import Intensional.TypeTable
import Intensional.Value.Basic
import Intensional.Value.Lemmas
import Intensional.Value.Order
import Intensional.Proofs.Context.Agreement
import Intensional.Proofs.Evaluation.Interpretation
import Intensional.Proofs.Evaluation.Meaning
import Intensional.Proofs.Dimension.Numbering
import Intensional.Proofs.Memo.Recall
import Intensional.Proofs.Memo.Shape
import Intensional.Proofs.Memo.Log
import Intensional.Proofs.Value.Order
import Intensional.Proofs.Context.Order
import Intensional.Proofs.Guard.Collections
import Intensional.Proofs.Guard.Soundness
import Intensional.Proofs.Guard.Specificity
import Intensional.Proofs.Evaluation.Forms
import Intensional.Proofs.Machine.Readers
import Intensional.Proofs.Machine.Growth
import Intensional.Proofs.Evaluation.Keeping
import Intensional.Proofs.Evaluation.Calls
import Intensional.Proofs.Evaluation.Nesting
import Intensional.Proofs.Evaluation.Bookkeeping
import Intensional.Proofs.Evaluation.Cycles
import Intensional.Proofs.Evaluation.Stores
import Intensional.Proofs.Evaluation.Isolation
import Intensional.Proofs.Evaluation.Ledger
import Intensional.Proofs.Evaluation.Accord
import Intensional.Proofs.Evaluation.Following
import Intensional.Proofs.Evaluation.Grounding
import Intensional.Proofs.Operator.Congruence
import Intensional.Proofs.Evaluation.Variance
import Intensional.Proofs.Evaluation.Comparison
import Intensional.Proofs.Evaluation.Rebinding
import Intensional.Proofs.Engine.Requests
import Intensional.Proofs.Engine.Soundness
import Intensional.Proofs.Engine.Leaves
import Intensional.Proofs.Engine.Transparency
import Intensional.Proofs.Engine.Clearing
import Intensional.Proofs.Engine.Sessions
import Intensional.Proofs.Engine.Stability
import Intensional.Proofs.Engine.Staleness
import Intensional.Proofs.Engine.Registry
import Intensional.Proofs.Dimension.Renaming
import Intensional.Proofs.Evaluation.Renaming
import Intensional.Proofs.Engine.Limits
import Intensional.Proofs.Engine.Independence
import Intensional.Proofs.Dimension.Interning
import Intensional.Proofs.Equation.Group
import Intensional.Proofs.Equation.Candidates
import Intensional.Proofs.Equation.Choosing
import Intensional.Proofs.Evaluation.Applications
import Intensional.Proofs.Engine.Registration
import Intensional.Proofs.Machine.Sweep
import Intensional.Proofs.Engine.Forgetting
import Intensional.Proofs.Memo.Storing
import Intensional.Proofs.Evaluation.Answering
import Intensional.Proofs.Engine.Answering
import Intensional.Proofs.Value.Doubles
import Intensional.Proofs.Operator.Builtin
import Intensional.Proofs.Sorting.Halving
import Intensional.Proofs.Context.Overriding
import Intensional.Proofs.Context.Listing
import Intensional.Proofs.Context.Canonical
import Intensional.Proofs.Equation.Dispatch
import Intensional.Proofs.Guard.Integers
import Intensional.Proofs.Memo.Ascent
import Intensional.Proofs.Engine.Ascent
import Intensional.Proofs.Operator.Integers
import Intensional.Proofs.Source.Table
import Intensional.Proofs.Code.Compiling
import Intensional.Proofs.Engine.Compiling
