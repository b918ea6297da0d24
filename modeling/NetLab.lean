import NetLab.Lib.Run
import NetLab.Lib.Walk
import NetLab.Lib.Alternating
import NetLab.Lib.ByteOrder
import NetLab.Lib.Decimal
import NetLab.Odr.Node
import NetLab.Odr.Network
import NetLab.Odr.Handlers
import NetLab.Odr.HopCount
import NetLab.Odr.LoopFree
import NetLab.Odr.Relay
import NetLab.Odr.NextHop
import NetLab.Odr.Apps
import NetLab.Odr.ReplyRoute
import NetLab.Odr.Ports
import NetLab.Odr.Handover
import NetLab.Lib.Descent
import NetLab.Odr.Termination
import NetLab.Odr.Flood
import NetLab.Odr.ForcedFlood
import NetLab.Odr.ForcedTermination
import NetLab.Odr.ReverseRoute
import NetLab.Odr.ForwardRoute
import NetLab.Transfer.Client
import NetLab.Transfer.Receiver
import NetLab.Transfer.CirQueue
import NetLab.Transfer.Rtt
import NetLab.Transfer.Server
import NetLab.Transfer.Steps
import NetLab.Transfer.SendBuffer
import NetLab.Transfer.Unacked
import NetLab.Transfer.System
import NetLab.Transfer.Ack
import NetLab.Transfer.Eof
import NetLab.Transfer.Signals
import NetLab.Transfer.FlowControl
import NetLab.Transfer.Framing
import NetLab.Transfer.Closing
import NetLab.Transfer.Printing
import NetLab.Transfer.AckNumbers
import NetLab.Transfer.Congestion
import NetLab.Transfer.FastRetransmit
import NetLab.Transfer.Resend
import NetLab.Lib.Inet
import NetLab.Transfer.Parent
import NetLab.Lib.Descriptors
import NetLab.Tour.Arp
import NetLab.Tour.ArpNet
import NetLab.Tour.Areq
import NetLab.Lib.Buffer
import NetLab.Tour.Process
import NetLab.Tour.Waiters
import NetLab.Tour.SourceRoute
import NetLab.Transfer.GiveUp
import NetLab.Transfer.SendingWindow
import NetLab.Transfer.Segments
import NetLab.Odr.NodeRun
import NetLab.Odr.OwnAddress
import NetLab.Odr.Leftover
import NetLab.Transfer.EndMark
import NetLab.Lib.Scan
import NetLab.Odr.Text
import NetLab.Odr.StaleText
import NetLab.Odr.PortTable
import NetLab.Transfer.Interfaces
import NetLab.Tour.EndOfTour
import NetLab.Lib.Chain
import NetLab.Transfer.HeapList
import NetLab.Transfer.SortedMap
import NetLab.Transfer.Allocator
import NetLab.Transfer.Fifo
import NetLab.Transfer.Estimator
import NetLab.Odr.Traffic
import NetLab.Odr.Requests
import NetLab.Tour.Group
import NetLab.Tour.Resolve
import NetLab.Lib.Stream
import NetLab.Echo.Session
import NetLab.Echo.Blocking
import NetLab.Echo.Dispatch
import NetLab.Transfer.Copy
import NetLab.Lib.Layout
import NetLab.Odr.Wire
import NetLab.Odr.WireNet
import NetLab.Lib.Fitting
import NetLab.Interface.HwAddrs
import NetLab.Odr.Setup
import NetLab.Tour.ArpWire
import NetLab.Interface.IfiInfo
import NetLab.Odr.Service
