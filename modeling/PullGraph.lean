import PullGraph.Program
import PullGraph.Proofs.Lazy
import PullGraph.Proofs.Memo
import PullGraph.Proofs.Hold
import PullGraph.Proofs.Binding
import PullGraph.Proofs.Walk
import PullGraph.Proofs.Failure
import PullGraph.Proofs.Halting
import PullGraph.Proofs.Pull
import PullGraph.Proofs.Survey
import PullGraph.Proofs.Stable
import PullGraph.Proofs.Foresight
import PullGraph.Proofs.Verdict
import PullGraph.Proofs.Depth
import PullGraph.Proofs.Exec
import PullGraph.Proofs.Evaluation
import PullGraph.Proofs.Evaluable
import PullGraph.Proofs.Extent
import PullGraph.Proofs.Order
import PullGraph.Proofs.Twin
import PullGraph.Proofs.Sum
import PullGraph.Proofs.Naming
import PullGraph.Proofs.Refusal
import PullGraph.Proofs.Repair
import PullGraph.Proofs.Place
