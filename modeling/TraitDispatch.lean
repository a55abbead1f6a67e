import TraitDispatch.Description
import TraitDispatch.Interpreter
import TraitDispatch.Proofs.DerivedOnce
import TraitDispatch.Proofs.Memoization
import TraitDispatch.Proofs.Interpretation
import TraitDispatch.Proofs.StandingAnswers
import TraitDispatch.Proofs.Recording
import TraitDispatch.Proofs.Course
import TraitDispatch.Proofs.Application
import TraitDispatch.Proofs.Nesting
import TraitDispatch.Proofs.Asking
import TraitDispatch.Proofs.Placeholders
import TraitDispatch.Proofs.Abreast
import TraitDispatch.Proofs.Tandem
import TraitDispatch.Proofs.Lockstep
import TraitDispatch.Proofs.ParallelEvaluation
import TraitDispatch.Proofs.Session
import TraitDispatch.Proofs.Limits
import TraitDispatch.Proofs.Conduct
import TraitDispatch.Proofs.Inquiry
import TraitDispatch.Proofs.Compliance
import TraitDispatch.Proofs.Oversight
import TraitDispatch.Proofs.Blame
import TraitDispatch.Proofs.Traces
import TraitDispatch.Proofs.Scope
import TraitDispatch.Proofs.Division
import TraitDispatch.Proofs.Cycles
import TraitDispatch.Proofs.Rebuilding
import TraitDispatch.Proofs.BlockExpansion
import TraitDispatch.Proofs.Extension
import TraitDispatch.Proofs.SubstitutionLaws
import TraitDispatch.Proofs.Parentheses
import TraitDispatch.Proofs.StructuralRendering
import TraitDispatch.Proofs.Registration
import TraitDispatch.Proofs.QueuedLocations
import TraitDispatch.Proofs.Relabelling
import TraitDispatch.Proofs.Budget
import TraitDispatch.Proofs.Ancestry
