import WifiExpander.Theory.Machine
import WifiExpander.Theory.History
import WifiExpander.Theory.CircularList
import WifiExpander.Theory.RingBuffer
import WifiExpander.Theory.SharedRing
import WifiExpander.Theory.Crc
import WifiExpander.Theory.CrcWeight
import WifiExpander.Theory.Chains
import WifiExpander.IntrusiveList
import WifiExpander.Frame
import WifiExpander.Crc16
import WifiExpander.Receiver
import WifiExpander.BufFactory
import WifiExpander.SendPath
import WifiExpander.MsgQueue
import WifiExpander.KernelQueue
import WifiExpander.KernelRuns
import WifiExpander.SendQueue
import WifiExpander.SendMailbox
import WifiExpander.Producers
import WifiExpander.Fill
import WifiExpander.Ownership
import WifiExpander.BufferLeak
import WifiExpander.Delivery
import WifiExpander.Recycle
import WifiExpander.Isolation
import WifiExpander.Protocol
import WifiExpander.Arguments
import WifiExpander.Device
import WifiExpander.Upgrade
import WifiExpander.Install
import WifiExpander.WriteBounds
import WifiExpander.Integrity
import WifiExpander.Parse
import WifiExpander.StopAndWait
import WifiExpander.Progress
import WifiExpander.Bridge
import WifiExpander.Transparency
import WifiExpander.Framing
import WifiExpander.Preempted
import WifiExpander.Driver
import WifiExpander.Uplink
import WifiExpander.ConnReports
import WifiExpander.Encoding
import WifiExpander.PollTask
import WifiExpander.Schedule
import WifiExpander.Latency
import WifiExpander.Leftover
import WifiExpander.Completion
import WifiExpander.Answers
import WifiExpander.Checksum
import WifiExpander.BitErrors
import WifiExpander.Advertising
import WifiExpander.Reception
import WifiExpander.Creation
import WifiExpander.BufPool
import WifiExpander.Overwrite
import WifiExpander.Sessions
import WifiExpander.Clients
import WifiExpander.Mutex
import WifiExpander.Inheritance
import WifiExpander.Sections
import WifiExpander.EventFlags
import WifiExpander.Gecko
import WifiExpander.GeckoMoves
import WifiExpander.Handover
import WifiExpander.GeckoProgress
import WifiExpander.BluetoothMutex
