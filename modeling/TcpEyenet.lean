import TcpEyenet.WindowExact
import TcpEyenet.LossRate
import TcpEyenet.Rank
import TcpEyenet.Controller.Invariant
import TcpEyenet.Controller.Reset
import TcpEyenet.Controller.SlowStart
import TcpEyenet.Controller.Velocity
import TcpEyenet.Controller.Cuts
import TcpEyenet.Controller.Iterator
import TcpEyenet.Transport.WindowBound
import TcpEyenet.Transport.Rounded
import TcpEyenet.Transport.Headers
import TcpEyenet.Transport.Polls
import TcpEyenet.Transport.Leak
import TcpEyenet.Transport.Numbering
import TcpEyenet.Transport.Throughput
import TcpEyenet.Transport.Divisors
import TcpEyenet.Transport.FixedWindow
import TcpEyenet.EndToEnd.Duplication
import TcpEyenet.EndToEnd.Sharing
import TcpEyenet.EndToEnd.Progress
import TcpEyenet.TptFiles
import TcpEyenet.Ttest.Reports
import TcpEyenet.Ttest.Registry
import TcpEyenet.Ttest.Counts
import TcpEyenet.Ttest.Safety
import TcpEyenet.Ttest.Sockets
import TcpEyenet.Ttest.Testbed
import TcpEyenet.Ttest.Launch
import TcpEyenet.Ttest.CommandLine
