import KeyedMatching.Main
import KeyedMatching.Proofs.Console.Invariant
import KeyedMatching.Proofs.Console.Refusal
import KeyedMatching.Proofs.Matching.Change
import KeyedMatching.Proofs.Matching.Copies
import KeyedMatching.Proofs.Matching.Dangling
import KeyedMatching.Proofs.Matching.Frame
import KeyedMatching.Proofs.Matching.Ground
import KeyedMatching.Proofs.Matching.HandOver
import KeyedMatching.Proofs.Matching.Marks
import KeyedMatching.Proofs.Matching.Stuck
import KeyedMatching.Proofs.Matching.Undisturbed
import KeyedMatching.Proofs.Term.Sharing
import KeyedMatching.Proofs.Text.Unambiguous
import KeyedMatching.Proofs.Unification.Calls
import KeyedMatching.Proofs.Unification.Simplification
import KeyedMatching.Proofs.Reduction
import KeyedMatching.Proofs.Unification.Conversion
import KeyedMatching.Proofs.Unification.Chaining
import KeyedMatching.Proofs.Holes.Meaning
import KeyedMatching.Proofs.Matching.FirstOrder
import KeyedMatching.Proofs.Matching.Rounds
import KeyedMatching.Proofs.Matching.Counting
import KeyedMatching.Proofs.Matching.Refusals
import KeyedMatching.Proofs.Matching.Present
import KeyedMatching.Proofs.Repair
import KeyedMatching.Proofs.HeadSteps
import KeyedMatching.Proofs.Text.Obligations
import KeyedMatching.Proofs.Text.Comments
import KeyedMatching.Proofs.Text.Ending
import KeyedMatching.Proofs.Term.Order
import KeyedMatching.Proofs.Console.Counts
import KeyedMatching.Proofs.Words.Search
import KeyedMatching.Proofs.Term.Inverses
import KeyedMatching.Proofs.Term.Composition
import KeyedMatching.Proofs.Weakening.Inference
