import Petri.Main
import Petri.Proofs.Expr.Caching
import Petri.Proofs.Expr.Comparison
import Petri.Proofs.Expr.Exactness
import Petri.Proofs.Expr.Overflow
import Petri.Proofs.Expr.Unbounded
import Petri.Proofs.Indexed.Calls
import Petri.Proofs.Indexed.FreshIds
import Petri.Proofs.Net.Conservation
import Petri.Proofs.Net.Enabling
import Petri.Proofs.Net.Independence
import Petri.Proofs.Net.Liveness
import Petri.Proofs.Net.Monotone
import Petri.Proofs.Net.RelativeTime
import Petri.Proofs.NetFile.EntryOrder
import Petri.Proofs.NetFile.Layout
import Petri.Proofs.NetFile.RoundTrip
import Petri.Proofs.NetFile.Saving
import Petri.Proofs.NetFile.Truthful
import Petri.Proofs.Report.EventLog
import Petri.Proofs.Report.WireNames
import Petri.Proofs.Shifting
import Petri.Proofs.Simulation.Accounting
import Petri.Proofs.Simulation.Capacity
import Petri.Proofs.Simulation.Clock
import Petri.Proofs.Simulation.Ordinary
import Petri.Proofs.Simulation.Selection
import Petri.Proofs.Simulation.StateEquation
import Petri.Proofs.Simulation.Stepping
import Petri.Proofs.Simulation.Textless
import Petri.Proofs.Simulation.TimeMode
import Petri.Proofs.Simulation.Tracing
import Petri.Proofs.Simulation.Waking
import Petri.Proofs.Text.Quoting
import Petri.Proofs.Withdrawal
