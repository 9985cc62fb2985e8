import ValProofs.Utils.Batches
import ValProofs.Utils.Topology.LinkSettings
import ValProofs.Utils.Topology.RocketfuelGraph
import ValProofs.Utils.Topology.SaveTopology
import ValProofs.Link.Mtu
import ValProofs.Link.Reception
import ValProofs.Link.Medium
import ValProofs.Link.BlockHeader
import ValProofs.Link.Cache
import ValProofs.Network.Progress
import ValProofs.Network.Hops
import ValProofs.Network.Fleet
import ValProofs.Util.Outstanding
import ValProofs.Pft.Overhearing
import ValProofs.Routing.Install
import ValProofs.Routing.AllRoutes
import ValProofs.Routing.Anycast
import ValProofs.Val.Budget
import ValProofs.Val.Waits
import ValProofs.Val.Release
import ValProofs.Val.Reads
import ValProofs.Val.IteratorSafety
import ValProofs.App.Window
import ValProofs.App.Batches
import ValProofs.App.Pcon
import ValProofs.Cs.Freshness
import ValProofs.Cs.Victims
import ValProofs.Cs.Enumeration
import ValProofs.Nfd.Layers
import ValProofs.Nfd.DfntCleanup
import ValProofs.Nfd.Marks
import ValProofs.Nfd.Order
import ValProofs.Nfd.DataHops
