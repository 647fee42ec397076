import AtomLogic.Main
import AtomLogic.Space.Search
import AtomLogic.FactStore
import AtomLogic.Completion
import AtomLogic.Proofs.Instantiation
import AtomLogic.Proofs.Normalization
import AtomLogic.Proofs.Composition
import AtomLogic.Proofs.Ensures
import AtomLogic.Proofs.Lexing
import AtomLogic.Proofs.MostGeneral
import AtomLogic.Proofs.OneStep
import AtomLogic.Proofs.ReadBack
import AtomLogic.Proofs.SpaceHistory
import AtomLogic.Proofs.Materialization
import AtomLogic.Proofs.Freshness
import AtomLogic.Proofs.Goals
import AtomLogic.Proofs.Limits
import AtomLogic.Proofs.Nesting
import AtomLogic.Proofs.WrittenAnswers
import AtomLogic.Proofs.Balance
import AtomLogic.Proofs.Concatenation
import AtomLogic.Proofs.SplitPrograms
import AtomLogic.Proofs.Apart
import AtomLogic.Proofs.CircularBindings
import AtomLogic.Proofs.RenamedQueries
import AtomLogic.Proofs.CompositionLaws
import AtomLogic.Proofs.Idempotence
import AtomLogic.Proofs.ReadOnly
import AtomLogic.Proofs.CopyNumbers
import AtomLogic.Proofs.RenamedSpaces
import AtomLogic.Proofs.EarlierTrials
import AtomLogic.Proofs.FullScan
import AtomLogic.Proofs.NaturalJoin
import AtomLogic.Proofs.Conclusions
import AtomLogic.Proofs.Monotonicity
import AtomLogic.Proofs.Layout
import AtomLogic.Proofs.OwnBindings
import AtomLogic.Proofs.Regrouping
import AtomLogic.Proofs.Continuations
import AtomLogic.Proofs.UnificationTrees
import AtomLogic.Proofs.BrokenPrelude
import AtomLogic.Proofs.Cancellation
import AtomLogic.Proofs.Batches
import AtomLogic.Proofs.WordCompletion
import AtomLogic.Proofs.Descent
