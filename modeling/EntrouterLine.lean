import EntrouterLine.Lib.Machine
import EntrouterLine.Lib.Threshold
import EntrouterLine.Lib.Course
import EntrouterLine.Relay.Replay
import EntrouterLine.Relay.ReceiverPanic
import EntrouterLine.Relay.BlockLife
import EntrouterLine.Relay.FecWrap
import EntrouterLine.Relay.FrameRoundTrip
import EntrouterLine.Relay.SendLedger
import EntrouterLine.Edge.FrameBudget
import EntrouterLine.Mesh.FlowIsolation
import EntrouterLine.Mesh.StreamOrder
import EntrouterLine.Mesh.FlowIds
import EntrouterLine.Lib.Dijkstra
import EntrouterLine.Mesh.LatencyMatrix
import EntrouterLine.Mesh.Router
import EntrouterLine.Mesh.NextHop
import EntrouterLine.Mesh.HopByHop
import EntrouterLine.Mesh.TopPaths
import EntrouterLine.Mesh.Reachability
import EntrouterLine.Mesh.PongAttribution
import EntrouterLine.Relay.ForwardPanic
import EntrouterLine.Relay.StrayShards
import EntrouterLine.Lib.SearchOrder
import EntrouterLine.Mesh.RouterLoops
import EntrouterLine.Mesh.DiversePaths
import EntrouterLine.Mesh.RouteRtt
import EntrouterLine.Mesh.EdgeDelivery
import EntrouterLine.Lib.RingBuffer
import EntrouterLine.Lib.Rounding
import EntrouterLine.Relay.LossTracker
import EntrouterLine.Relay.ReceiveLoop
import EntrouterLine.Relay.LossAccounting
import EntrouterLine.Relay.BlockSend
import EntrouterLine.Lib.Smoothing
import EntrouterLine.Mesh.RttSmoothing
import EntrouterLine.Lib.Progress
import EntrouterLine.Lib.Simulation
import EntrouterLine.Mesh.ProbedMesh
import EntrouterLine.Mesh.Progress
import EntrouterLine.Relay.SealedLink
import EntrouterLine.Relay.AdaptiveFec
import EntrouterLine.Relay.SealedRun
import EntrouterLine.Mesh.ProbedStream
import EntrouterLine.Lib.LiveTable
import EntrouterLine.Mesh.FlowCount
import EntrouterLine.Mesh.MatrixReport
import EntrouterLine.Admin
import EntrouterLine.Startup
import EntrouterLine.Harness.Collect
import EntrouterLine.Harness.Verdict
import EntrouterLine.Mesh.ProbeLedger
import EntrouterLine.Mesh.ProbedRoute
import EntrouterLine.Mesh.SealedMesh
import EntrouterLine.Mesh.Deployment
