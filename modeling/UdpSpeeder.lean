import UdpSpeeder.Common
import UdpSpeeder.Lib.Exchange
import UdpSpeeder.Lib.Systematic
import UdpSpeeder.Lib.Simulate
import UdpSpeeder.Lib.Table
import UdpSpeeder.Cook.Exact
import UdpSpeeder.Cook.Detect
import UdpSpeeder.Cook.Paths
import UdpSpeeder.Cook.Ports
import UdpSpeeder.Cook.SpeAsm
import UdpSpeeder.Fec.Addmul
import UdpSpeeder.Fec.Recovery
import UdpSpeeder.Manager.Safety
import UdpSpeeder.Manager.Ring
import UdpSpeeder.Manager.Bounds
import UdpSpeeder.Manager.Replay
import UdpSpeeder.Manager.Refuse
import UdpSpeeder.Manager.Refine
import UdpSpeeder.Manager.Shapes
import UdpSpeeder.Manager.Ledger
import UdpSpeeder.Manager.Progress
import UdpSpeeder.Manager.Mtu
import UdpSpeeder.Manager.Command
import UdpSpeeder.Manager.Points
import UdpSpeeder.Manager.Format
import UdpSpeeder.Manager.Join
import UdpSpeeder.Manager.Link
import UdpSpeeder.Net.NormalToFec
import UdpSpeeder.Net.Delay
import UdpSpeeder.Tunnel.Consistent
import UdpSpeeder.Tunnel.Operations
import UdpSpeeder.Tunnel.Elapsed
import UdpSpeeder.Lib.Relay
import UdpSpeeder.Tunnel.Client
import UdpSpeeder.Tunnel.Ends
import UdpSpeeder.Cook.Peers
import UdpSpeeder.Manager.Scratch
import UdpSpeeder.Net.Flow
import UdpSpeeder.Net.Pipe
import UdpSpeeder.Net.DisableFec
