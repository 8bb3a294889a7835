import Rk65c02.Run
import Rk65c02.Tlb
import Rk65c02.Traffic
import Rk65c02.Rules
import Rk65c02.JitReachable
import Rk65c02.Interrupts
import Rk65c02.Status
import Rk65c02.Notifications
import Rk65c02.Idle
import Rk65c02.Debugging
import Rk65c02.StopRequests
import Rk65c02.Arithmetic
import Rk65c02.Returns
import Rk65c02.Footprint
import Rk65c02.Assembler
import Rk65c02.Tracing
import Rk65c02.Stepping
import Rk65c02.BlockShape
import Rk65c02.Updates
import Rk65c02.LoopBudget
import Rk65c02.Breakpoints
import Rk65c02.FaultingStores
import Rk65c02.BusMemory
import Rk65c02.StackDiscipline
import Rk65c02.Agreement
import Rk65c02.BlockInterrupts
import Rk65c02.FetchFaults
import Rk65c02.PendingWrites
import Rk65c02.Aliases
import Rk65c02.CodeCoherence
import Rk65c02.Remaps
import Rk65c02.Reference
import Rk65c02.Conformance
import Rk65c02.Stuttering
import Rk65c02.GuestCode
import Rk65c02.Leads
import Rk65c02.Loader
import Rk65c02.Programs
import Rk65c02.VirtualMemory
import Rk65c02.VirtualRuns
