import StepScript.Tree.Render
import StepScript.Main
import StepScript.Proofs.Evaluation.Refinement
import StepScript.Proofs.Grammar.Precedence
import StepScript.Proofs.Grammar.RoundTrip
import StepScript.Proofs.Safety.Running
import StepScript.Proofs.Scheduling
import StepScript.Proofs.Registration.Incremental
import StepScript.Proofs.System.Hierarchies
import StepScript.Proofs.System.Contracts
import StepScript.Proofs.Registration.Reordering
import StepScript.Proofs.Chains.Ends
import StepScript.Proofs.Phases.Instances
import StepScript.Proofs.Members.Assignment
import StepScript.Proofs.Members.Files
import StepScript.Proofs.Members.Arity
import StepScript.Proofs.Grammar.Termination
import StepScript.Proofs.Grammar.Positions
