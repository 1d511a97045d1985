import WebGpuDD.RecvSafety
import WebGpuDD.Delivery
import WebGpuDD.WireFormat
import WebGpuDD.BatchIntegrity
import WebGpuDD.SingleReader
import WebGpuDD.ConnectionLifetime
import WebGpuDD.ClientPending
import WebGpuDD.Requests
import WebGpuDD.RequestRuns
import WebGpuDD.Session
import WebGpuDD.QueueRuns
import WebGpuDD.Blocking
import WebGpuDD.Completion
import WebGpuDD.BlockingQueues
import WebGpuDD.SessionEnd
import WebGpuDD.SendLimit
import WebGpuDD.PartialSends
import WebGpuDD.RecvRegions
import WebGpuDD.FailedInit
import WebGpuDD.NullCalls
import WebGpuDD.InstanceHandle
import WebGpuDD.RecvProgress
import WebGpuDD.Subscripts
import WebGpuDD.MatmulGpu
import WebGpuDD.CollatzIterations
import WebGpuDD.WgpuUtil
import WebGpuDD.CommandServers
import WebGpuDD.SocketPath
