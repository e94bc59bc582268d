import Groupcast.Machine
import Groupcast.Main
import Groupcast.Proofs.Agreement.Calls
import Groupcast.Proofs.Agreement.Progress
import Groupcast.Proofs.Agreement.Rounds
import Groupcast.Proofs.Broadcast.Completeness
import Groupcast.Proofs.Broadcast.Consecutive
import Groupcast.Proofs.Broadcast.Cutoff
import Groupcast.Proofs.Broadcast.Once
import Groupcast.Proofs.Broadcast.Size
import Groupcast.Proofs.Detector.Accuracy
import Groupcast.Proofs.Detector.Evidence
import Groupcast.Proofs.Detector.Reports
import Groupcast.Proofs.HostsFile
import Groupcast.Proofs.Link.Canonical
import Groupcast.Proofs.Link.ExactlyOnce
import Groupcast.Proofs.Link.Retransmission
import Groupcast.Proofs.Log
import Groupcast.Proofs.Log.Order
import Groupcast.Proofs.Node.Stop
import Groupcast.Proofs.Scenario
import Groupcast.Proofs.Timers.Firing
