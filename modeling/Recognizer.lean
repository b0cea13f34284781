import Recognizer.Automaton.ClosureSearch
import Recognizer.Automaton.Operation
import Recognizer.Automaton.Path
import Recognizer.Automaton.WellFormed
import Recognizer.Document.Reader
import Recognizer.Document.Writer
import Recognizer.Drawing
import Recognizer.Expression.Language
import Recognizer.Expression.Reader
import Recognizer.Interchange.Automaton
import Recognizer.Interchange.Expression
import Recognizer.Interchange.LabelTable
import Recognizer.Log.Compilation
import Recognizer.Proofs.Alphabet
import Recognizer.Proofs.Blueprint
import Recognizer.Proofs.BlueprintShape
import Recognizer.Proofs.ClosureAgreement
import Recognizer.Proofs.Compilation
import Recognizer.Proofs.Completion
import Recognizer.Proofs.Construction
import Recognizer.Proofs.ConstructionLimit
import Recognizer.Proofs.Determinization
import Recognizer.Proofs.Document.Contents
import Recognizer.Proofs.Document.Grammar
import Recognizer.Proofs.Document.Labels
import Recognizer.Proofs.Document.Layout
import Recognizer.Proofs.Document.Reading
import Recognizer.Proofs.Document.RoundTrip
import Recognizer.Proofs.Document.Stability
import Recognizer.Proofs.Document.StageRoundTrip
import Recognizer.Proofs.Elimination
import Recognizer.Proofs.Import
import Recognizer.Proofs.Obtainable
import Recognizer.Proofs.Preservation
import Recognizer.Proofs.Productivity
import Recognizer.Proofs.Runs
import Recognizer.Proofs.SilentSteps
import Recognizer.Proofs.Stages
import Recognizer.Proofs.SubsetSearch
import Recognizer.Proofs.Totality
import Recognizer.Proofs.TransitionList
import Recognizer.NamedAutomaton.Growth
import Recognizer.NamedAutomaton.Lemmas
import Recognizer.Proofs.Naming.Insertion
import Recognizer.Proofs.Naming.Reading
import Recognizer.Proofs.Naming.Growth
import Recognizer.Automaton.Isomorphism
import Recognizer.Proofs.Naming.Matching
import Recognizer.Proofs.Naming.Union
import Recognizer.Proofs.Document.NamedRoundTrip
import Recognizer.Proofs.Naming.Editing
import Recognizer.Proofs.Document.EditedRoundTrip
import Recognizer.Proofs.Document.NumeralLabels
import Recognizer.Proofs.Document.Rules
import Recognizer.Proofs.Document.LineByLine
import Recognizer.Proofs.Document.Recognition
import Recognizer.Automaton.Update
import Recognizer.Proofs.DisjointImport
import Recognizer.Proofs.Atomicity
import Recognizer.Proofs.Effect
import Recognizer.Automaton.Exploration
import Recognizer.Proofs.Exploration
import Recognizer.Proofs.DiscoveryOrder
import Recognizer.Proofs.Correspondence
import Recognizer.Proofs.Renaming
import Recognizer.Proofs.Idempotence
import Recognizer.Proofs.Reassociation
import Recognizer.Proofs.Unambiguity
import Recognizer.Proofs.EliminationOrder
import Recognizer.Proofs.Homogeneity
import Recognizer.Proofs.CompletionAlphabet
import Recognizer.Proofs.Naming.Equality
import Recognizer.Proofs.Naming.Freshness
import Recognizer.Proofs.Overlay
import Recognizer.Proofs.Naming.Sharing
import Recognizer.Proofs.Document.Rearrangement
import Recognizer.Proofs.Determinism
import Recognizer.Proofs.ShiftedImport
import Recognizer.Proofs.Spelling
import Recognizer.Proofs.Drawing.Faithfulness
import Recognizer.Proofs.ClosureSearch
