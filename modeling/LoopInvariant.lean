import LoopInvariant.Canceler
import LoopInvariant.Main
import LoopInvariant.Proofs.Completion
import LoopInvariant.Proofs.LearningOrder
import LoopInvariant.Proofs.Batches
import LoopInvariant.Proofs.Inquiries
import LoopInvariant.Proofs.Killing
import LoopInvariant.Proofs.PipeCommands
import LoopInvariant.Proofs.SessionCommands
import LoopInvariant.Proofs.CommandStream
import LoopInvariant.Proofs.JsonText
import LoopInvariant.Proofs.RoundTrip
import LoopInvariant.Proofs.SegmentCover
import LoopInvariant.Proofs.Explanation
import LoopInvariant.Proofs.Refutation
import LoopInvariant.Proofs.BoxAnswers
import LoopInvariant.Proofs.UnrolledStates
import LoopInvariant.Proofs.Construction
import LoopInvariant.Proofs.Subsumption
import LoopInvariant.Proofs.Speculation
import LoopInvariant.Proofs.BuilderCalls
import LoopInvariant.Proofs.Counterexamples
import LoopInvariant.Proofs.Irredundance
import LoopInvariant.Proofs.SexpText
import LoopInvariant.Proofs.Translation
import LoopInvariant.Proofs.QueryText
import LoopInvariant.Proofs.HandOff
import LoopInvariant.Proofs.LargerBox
import LoopInvariant.Proofs.ModelValues
import LoopInvariant.Proofs.ValidDescription
import LoopInvariant.Proofs.Cancellation
import LoopInvariant.Proofs.ClosedPart
import LoopInvariant.Proofs.SearchFrames
import LoopInvariant.Proofs.ErrorEdges
import LoopInvariant.Proofs.Pairing
import LoopInvariant.Proofs.BreadthFirst
import LoopInvariant.Proofs.StateSets
import LoopInvariant.Proofs.FailingPaths
import LoopInvariant.Proofs.Replay
import LoopInvariant.Proofs.MinedAtoms
import LoopInvariant.Proofs.ThreeValued
