import ContractLowering.Broken
import ContractLowering.CallGraph
import ContractLowering.Context
import ContractLowering.Graph
import ContractLowering.IL.Build
import ContractLowering.IL.Check
import ContractLowering.IL.Expr
import ContractLowering.IL.Printer
import ContractLowering.IL.Program
import ContractLowering.IL.Reader
import ContractLowering.Lowering.Assign
import ContractLowering.Lowering.BodyM
import ContractLowering.Lowering.Boxing
import ContractLowering.Lowering.CallStmt
import ContractLowering.Lowering.Class
import ContractLowering.Lowering.Datatype
import ContractLowering.Lowering.DeclM
import ContractLowering.Lowering.Definedness
import ContractLowering.Lowering.Expr
import ContractLowering.Lowering.ExprM
import ContractLowering.Lowering.Function
import ContractLowering.Lowering.Heap
import ContractLowering.Lowering.Induction
import ContractLowering.Lowering.Iterator
import ContractLowering.Lowering.Method
import ContractLowering.Lowering.Obligation
import ContractLowering.Lowering.Program
import ContractLowering.Lowering.Session
import ContractLowering.Lowering.Split
import ContractLowering.Lowering.Stmt
import ContractLowering.Lowering.Termination
import ContractLowering.Lowering.Triggers
import ContractLowering.Lowering.View
import ContractLowering.Lowering.WhereClause
import ContractLowering.Message
import ContractLowering.Naming
import ContractLowering.Options
import ContractLowering.Prelude.Load
import ContractLowering.Prelude.Names
import ContractLowering.Prelude.Text
import ContractLowering.Proofs.CallGraph
import ContractLowering.Proofs.Context
import ContractLowering.Proofs.Graph.Components
import ContractLowering.Proofs.Graph.Search
import ContractLowering.Proofs.IL.Alpha
import ContractLowering.Proofs.IL.Build
import ContractLowering.Proofs.IL.Carriers
import ContractLowering.Proofs.IL.Check
import ContractLowering.Proofs.IL.Erasure
import ContractLowering.Proofs.IL.Execution
import ContractLowering.Proofs.IL.Recursor
import ContractLowering.Proofs.IL.Relaxation
import ContractLowering.Proofs.IL.Rename
import ContractLowering.Proofs.IL.RoundTrip
import ContractLowering.Proofs.IL.Scopes
import ContractLowering.Proofs.IL.Semantics
import ContractLowering.Proofs.IL.Sorting
import ContractLowering.Proofs.Lowering.Alike
import ContractLowering.Proofs.Lowering.AlikeBodies
import ContractLowering.Proofs.Lowering.AlikeChecks
import ContractLowering.Proofs.Lowering.AlikeGoals
import ContractLowering.Proofs.Lowering.AlikeStmts
import ContractLowering.Proofs.Lowering.AutoTriggers
import ContractLowering.Proofs.Lowering.Blind
import ContractLowering.Proofs.Lowering.CaseDefinition
import ContractLowering.Proofs.Lowering.Congruence
import ContractLowering.Proofs.Lowering.Copies
import ContractLowering.Proofs.Lowering.CopyValue
import ContractLowering.Proofs.Lowering.Definedness
import ContractLowering.Proofs.Lowering.Dependence
import ContractLowering.Proofs.Lowering.Descent
import ContractLowering.Proofs.Lowering.Downgrade
import ContractLowering.Proofs.Lowering.DowngradeBodies
import ContractLowering.Proofs.Lowering.DowngradeStmts
import ContractLowering.Proofs.Lowering.Emits
import ContractLowering.Proofs.Lowering.Established
import ContractLowering.Proofs.Lowering.Evaluated
import ContractLowering.Proofs.Lowering.Evaluation
import ContractLowering.Proofs.Lowering.ExprReturns
import ContractLowering.Proofs.Lowering.Family
import ContractLowering.Proofs.Lowering.Flow
import ContractLowering.Proofs.Lowering.Footprint
import ContractLowering.Proofs.Lowering.Fragments
import ContractLowering.Proofs.Lowering.Hygiene
import ContractLowering.Proofs.Lowering.Induction
import ContractLowering.Proofs.Lowering.Inheritance
import ContractLowering.Proofs.Lowering.LoopMeasure
import ContractLowering.Proofs.Lowering.Marks
import ContractLowering.Proofs.Lowering.NaturalFlows
import ContractLowering.Proofs.Lowering.Naturals
import ContractLowering.Proofs.Lowering.Quiet
import ContractLowering.Proofs.Lowering.Rank
import ContractLowering.Proofs.Lowering.Reads
import ContractLowering.Proofs.Lowering.Rename
import ContractLowering.Proofs.Lowering.Returns
import ContractLowering.Proofs.Lowering.Scope
import ContractLowering.Proofs.Lowering.Session
import ContractLowering.Proofs.Lowering.SortedChecks
import ContractLowering.Proofs.Lowering.SortedObligations
import ContractLowering.Proofs.Lowering.Split
import ContractLowering.Proofs.Lowering.Stable
import ContractLowering.Proofs.Lowering.Steps
import ContractLowering.Proofs.Lowering.Total
import ContractLowering.Proofs.Lowering.TriggerChoice
import ContractLowering.Proofs.Lowering.Unchanged
import ContractLowering.Proofs.Lowering.Vocabulary
import ContractLowering.Proofs.Lowering.WellSorted
import ContractLowering.Proofs.Lowering.Yields
import ContractLowering.Proofs.Prelude.Collections
import ContractLowering.Proofs.Prelude.Declared
import ContractLowering.Proofs.Prelude.Facts
import ContractLowering.Proofs.SExpr.Scan
import ContractLowering.Proofs.Source.Alpha
import ContractLowering.Proofs.Source.Recursor
import ContractLowering.Proofs.Source.Scoped
import ContractLowering.Proofs.Source.Semantics
import ContractLowering.Proofs.Source.Subst
import ContractLowering.Proofs.Source.Substitution
import ContractLowering.Proofs.Source.Untouched
import ContractLowering.Proofs.Source.WellTyped
import ContractLowering.Proofs.Standard.Consistency
import ContractLowering.Proofs.Standard.Constructors
import ContractLowering.Proofs.Standard.Facts
import ContractLowering.Proofs.Standard.Prelude
import ContractLowering.Refinement
import ContractLowering.SExpr.Basic
import ContractLowering.SExpr.Reader
import ContractLowering.ScopeMap
import ContractLowering.Source.Decl
import ContractLowering.Source.Expr
import ContractLowering.Source.FreeVars
import ContractLowering.Source.IteratorClass
import ContractLowering.Source.Measure
import ContractLowering.Source.Stmt
import ContractLowering.Source.Subexpr
import ContractLowering.Source.Subst
import ContractLowering.Source.Typ
import ContractLowering.Text.Hidden
import ContractLowering.Text.Quoted
import ContractLowering.Proofs.Lowering.FunctionReads
import ContractLowering.Proofs.Lowering.ChosenInduction
import ContractLowering.Proofs.Lowering.LemmaInduction
import ContractLowering.Proofs.Lowering.LoopInvariants
import ContractLowering.Proofs.Lowering.Mirror
import ContractLowering.Proofs.Lowering.Related
import ContractLowering.Proofs.Lowering.RelatedFacts
import ContractLowering.Proofs.IL.Free
import ContractLowering.Proofs.Lowering.Comprehension
import ContractLowering.Proofs.Lowering.GenericCalls
import ContractLowering.Proofs.Lowering.OnEntry
import ContractLowering.Proofs.IL.Straight
import ContractLowering.Proofs.Prelude.Heaps
import ContractLowering.Proofs.Lowering.Stores
import ContractLowering.Proofs.Lowering.Assignments
import ContractLowering.Proofs.Lowering.CallResults
import ContractLowering.Proofs.Lowering.Conversions
import ContractLowering.Proofs.Lowering.TriggerCover
import ContractLowering.Proofs.Lowering.WhereMeaning
import ContractLowering.Proofs.Lowering.Layers
import ContractLowering.Proofs.Lowering.ForallAssign
import ContractLowering.Proofs.Naming
import ContractLowering.Proofs.Lowering.InductionVariables
import ContractLowering.Proofs.Source.IteratorClass
import ContractLowering.Proofs.IL.Forms
import ContractLowering.Proofs.Lowering.ForallEffect
