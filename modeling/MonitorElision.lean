import MonitorElision.Diagnostics.Stopwatch
import MonitorElision.Proofs.Propagation.Edges
import MonitorElision.Proofs.Propagation.Faults
import MonitorElision.Proofs.Propagation.FinalNodes
import MonitorElision.Proofs.Propagation.GroupOrder
import MonitorElision.Proofs.Propagation.Growth
import MonitorElision.Proofs.Propagation.Knowledge
import MonitorElision.Proofs.Propagation.Unrelated
import MonitorElision.Session
import MonitorElision.Proofs.Propagation.Distributivity
import MonitorElision.Proofs.Oracle.Histories
import MonitorElision.Proofs.Diagnostics
import MonitorElision.Proofs.Propagation.Reports
import MonitorElision.Proofs.Session.GiveUps
import MonitorElision.Proofs.Fixpoint.FirstVisit
import MonitorElision.Proofs.Fixpoint.OnePass
import MonitorElision.Proofs.NodeSet.Lattice
import MonitorElision.Proofs.FlowGraph.Histories
import MonitorElision.Proofs.Local.Histories
import MonitorElision.Proofs.Shadow.Live
import MonitorElision.Proofs.Tracematch.Histories
import MonitorElision.Proofs.CallGraph.Histories
import MonitorElision.Proofs.FlowGraph.ReversePostorder
