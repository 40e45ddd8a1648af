import TreeQuery.Expr.Construction
import TreeQuery.Program
import TreeQuery.Proofs.AmbiguityWarnings
import TreeQuery.Proofs.AxisWalks
import TreeQuery.Proofs.BestRule
import TreeQuery.Proofs.BuiltInRules
import TreeQuery.Proofs.CertainErrors
import TreeQuery.Proofs.CheckedLengths
import TreeQuery.Proofs.ComparisonLaws
import TreeQuery.Proofs.ConflictDetection
import TreeQuery.Proofs.CopiedModes
import TreeQuery.Proofs.CopiedResults
import TreeQuery.Proofs.CopiedScopes
import TreeQuery.Proofs.CursorRelease
import TreeQuery.Proofs.DecimalOperations
import TreeQuery.Proofs.DeclaredDependencies
import TreeQuery.Proofs.EagerResults
import TreeQuery.Proofs.EmptyParts
import TreeQuery.Proofs.ErrorPlaces
import TreeQuery.Proofs.FinalForms
import TreeQuery.Proofs.FirstItems
import TreeQuery.Proofs.FocusErrors
import TreeQuery.Proofs.FreshProperties
import TreeQuery.Proofs.HoistedPredicates
import TreeQuery.Proofs.ImportPrecedence
import TreeQuery.Proofs.IntegerArithmetic
import TreeQuery.Proofs.InternalErrors
import TreeQuery.Proofs.ItemTypes
import TreeQuery.Proofs.LenientArithmetic
import TreeQuery.Proofs.LexicalForms
import TreeQuery.Proofs.ModeConstruction
import TreeQuery.Proofs.NextRules
import TreeQuery.Proofs.NodeSets
import TreeQuery.Proofs.NormalForms
import TreeQuery.Proofs.OptimizationCalls
import TreeQuery.Proofs.PushedResults
import TreeQuery.Proofs.Ranges
import TreeQuery.Proofs.ReaderAbilities
import TreeQuery.Proofs.SearchFailures
import TreeQuery.Proofs.Slices
import TreeQuery.Proofs.TraversalStreams
import TreeQuery.Proofs.TypedResults
import TreeQuery.Rule.Precedence
import TreeQuery.Sequence.Reader
