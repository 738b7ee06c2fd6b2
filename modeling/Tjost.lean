import Tjost.Library.Transition
import Tjost.Library.StableQueue
import Tjost.Library.ByteRing
import Tjost.Library.BinaryFloat
import Tjost.Library.ByteMemory
import Tjost.Library.CString
import Tjost.Library.SampleHold
import Tjost.Types
import Tjost.Host.State
import Tjost.Host.Messages
import Tjost.Host.DueLoop
import Tjost.Pipe.Produce
import Tjost.Modules.Recording
import Tjost.Modules.FlowControl
import Tjost.Modules.ReplayReads
import Tjost.Modules.Outputs
import Tjost.Host.Process
import Tjost.Host.Dispatch
import Tjost.Host.Queues
import Tjost.Host.HandOvers
import Tjost.Host.Wrap
import Tjost.Modules.Emission
import Tjost.Modules.Filling
import Tjost.Modules.MidiOutputs
import Tjost.Host.SameCycle
import Tjost.Modules.Loopback
import Tjost.Modules.Stamps
import Tjost.Modules.ControlVoltage
import Tjost.Modules.Transport
import Tjost.Modules.MidiInputs
import Tjost.Modules.MidiBytes
import Tjost.Modules.MidiBlocks
import Tjost.Modules.Console
import Tjost.Library.Words
import Tjost.Library.Bitmap
import Tjost.Library.LinkedList
import Tjost.Library.BoundaryTags
import Tjost.Memory.SizeClasses
import Tjost.Memory.BlockHeaders
import Tjost.Memory.FreeLists
import Tjost.Memory.Coalescing
import Tjost.Memory.TlsfCalls
import Tjost.Memory.TlsfChecks
import Tjost.Memory.TlsfRuns
import Tjost.Memory.Tlsf
import Tjost.Memory.Account
import Tjost.Memory.Growth
import Tjost.Memory.HostMemory
import Tjost.Pipe.Channel
import Tjost.Pipe.Termination
import Tjost.Uplink.Receive
import Tjost.Net.Outgoing
import Tjost.Net.Stamping
import Tjost.Lua.Lifetime
import Tjost.Lua.Teardown
import Tjost.Lua.Plugin
import Tjost.Lua.Interface
import Tjost.Lua.Serialize
import Tjost.Pipe.Copies
import Tjost.Memory.Refusal
import Tjost.Lua.Bundle
import Tjost.Lua.Requests
import Tjost.Lua.Rejected
import Tjost.Lua.Deserialize
import Tjost.Lua.PassThrough
import Tjost.Lua.Packets
import Tjost.Modules.DumpText
import Tjost.Modules.ConsoleArguments
import Tjost.Lua.StackBalance
import Tjost.Uplink.Replies
import Tjost.Uplink.PortLists
import Tjost.Uplink.Routing
