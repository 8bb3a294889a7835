import Rk65c02.Native

/-! The state of an emulator: the bus and its devices, the MMU with its TLB, the JIT
cache, and the host behind the callbacks. Function pointers are names; what they do is
in `HostCode`, a parameter of the model. -/

namespace Rk65c02

def busSize : Nat := 64 * 1024
def physMax : Nat := 16 * 1024 * 1024

abbrev DevId := Nat

/-- A RAM device, or a device whose accesses go to host handlers. -/
structure Device where
  size : Addr
  ram : Bool
  deriving DecidableEq

/-- The two mapping lists, in the order in which devices were added. -/
structure Bus where
  dm : List (DevId × Addr)
  dmPhys : List (DevId × PAddr)
  dev : DevId → Device
  ram : DevId → Addr → Byte

def permR : Byte := 0x01
def permW : Byte := 0x02
def permX : Byte := 0x04

structure MmuResult where
  ok : Bool
  paddr : PAddr
  perms : Byte
  faultCode : BitVec 16
  noFillTlb : Bool
  deriving DecidableEq

structure TlbEntry where
  valid : Bool
  vpage : Byte
  ppageBase : PAddr
  perms : Byte
  epoch : BitVec 32
  deriving DecidableEq

def TlbEntry.zero : TlbEntry := ⟨false, 0, 0, 0, 0⟩

/-- The name of a host callback together with its context. -/
abbrev Cb := Nat

/-- The MMU fields of the emulator. `accessors` says that the memory accessors in force
are the translating ones. -/
structure Mmu where
  enabled : Bool
  identityFastpath : Bool
  identityActive : Bool
  updatePending : Bool
  epoch : BitVec 32
  translate : Option Cb
  fault : Option Cb
  faultReexec : Bool
  tlbEnabled : Bool
  changedAll : Bool
  changedVpage : Byte → Bool
  tlb : Byte → TlbEntry
  accessors : Bool

/-- A compiled block. `fn` is the native function, here the instructions it was compiled
from. -/
structure Block where
  startPc : Addr
  endPcExclusive : Addr
  mmuPhysPageValid : Bool
  mmuPhysPage : Byte
  mmuPhysByteCov : Bool
  mmuPhysStart : Addr
  numInsns : Nat
  fn : Option (List Instruction)
  deriving DecidableEq

/-- A deferred write event, with the physical address if that was hit. -/
structure PendingWrite where
  addr : Addr
  phys : Option Addr
  deriving DecidableEq

structure JitStats where
  writeEvents : Nat
  blocksInvalidated : Nat
  blocksCompiled : Nat
  blocksExecuted : Nat
  pagesDemoted : Nat
  runJitDisables : Nat
  insnsExecuted : Nat
  deriving DecidableEq

structure Jit where
  activeBlocks : Nat
  needsFlush : Bool
  pendingWrites : List PendingWrite
  pendingWriteOverflow : Bool
  invalidationEventsThisRun : Nat
  stats : JitStats
  compiledPageRefcnt : Byte → BitVec 16
  compiledPhysPageRefcnt : Byte → BitVec 16
  coveredPhysAddrRefcnt : Addr → BitVec 16
  compiledPhysRefsTotal : BitVec 32
  compiledCodePageRefcnt : Byte → BitVec 16
  coveredAddrRefcnt : Addr → BitVec 16
  pageInvalidationEvents : Byte → BitVec 16
  mutableCodePage : Byte → Bool
  blocks : List Block

structure TraceEntry where
  address : Addr
  insn : Instruction
  regs : Regs
  deriving DecidableEq

/-- Library calls a host callback or device handler may make. -/
inductive HostCall
  | assertIrq
  | deassertIrq
  | requestStop
  | mmuSet (translate : Option Cb) (fault : Option Cb) (enabled identityFastpath : Bool)
  | mmuClear
  | mmuBeginUpdate
  | mmuMarkChangedVpage (vpage : Byte)
  | mmuMarkChangedVrange (first last : Addr)
  | mmuEndUpdate
  | mmuTlbSet (enabled : Bool)
  | mmuTlbFlush
  | mmuTlbFlushVpage (vpage : Byte)
  | jitEnable (enable : Bool)
  | jitFlush
  | breakpointAdd (a : Addr)
  | breakpointRemove (a : Addr)
  | traceSet (on : Bool)
  | runtimeDisassemblySet (on : Bool)
  deriving DecidableEq

/-- Calls that may arrive at any point of a run, from a signal handler for example. -/
inductive AsyncCall
  | assertIrq | deassertIrq | requestStop
  deriving DecidableEq

/-- The host program. A callback sees the host's own state, may change it, and returns
the library calls it makes, in order. The translate callback has no side effects. -/
structure HostCode (H : Type) where
  translate : H → Cb → Addr → Access → MmuResult
  mmuFault : H → Cb → Addr → Access → BitVec 16 → H × List HostCall
  devRead : H → DevId → Addr → Byte × H × List HostCall
  devWrite : H → DevId → Addr → Byte → H × List HostCall
  tick : H → Cb → H × List HostCall
  idleWait : H → Cb → H × List HostCall
  onStop : H → Cb → StopReason → H × List HostCall
  async : Nat → List AsyncCall

/-- An emulator together with its host. `clock` counts the points at which asynchronous
calls may arrive. -/
structure Emu (H : Type) where
  state : EmuState
  regs : Regs
  stopreason : StopReason
  mmuLastFaultAddr : Addr
  mmuLastFaultAccess : Access
  mmuLastFaultCode : BitVec 16
  irq : Bool
  bps : List Addr
  runtimeDisassembly : Bool
  trace : Bool
  traceLog : List TraceEntry
  useJit : Bool
  jitLoopBudget : BitVec 32
  jitRequested : Bool
  jit : Option Jit
  inJitRun : Bool
  stopRequested : Bool
  onStop : Option Cb
  tick : Option Cb
  tickInterval : BitVec 32
  tickCountdown : BitVec 32
  idleWait : Option Cb
  mmu : Mmu
  bus : Bus
  host : H
  clock : Nat

def Mmu.init : Mmu where
  enabled := false
  identityFastpath := false
  identityActive := false
  updatePending := false
  epoch := 0
  translate := none
  fault := none
  faultReexec := false
  tlbEnabled := true
  changedAll := false
  changedVpage := fun _ => false
  tlb := fun _ => .zero
  accessors := false

/-- `rk65c02_init`; the registers it leaves unset are a parameter. -/
def init {H : Type} (bus : Bus) (host : H) (regs : Regs) : Emu H where
  state := .stopped
  regs := { regs with P := (pUndefined ||| pIrqDisable) &&& ~~~pDecimal }
  stopreason := .host
  mmuLastFaultAddr := 0
  mmuLastFaultAccess := .read
  mmuLastFaultCode := 0
  irq := false
  bps := []
  runtimeDisassembly := false
  trace := false
  traceLog := []
  useJit := false
  jitLoopBudget := 0
  jitRequested := false
  jit := none
  inJitRun := false
  stopRequested := false
  onStop := none
  tick := none
  tickInterval := 0
  tickCountdown := 0
  idleWait := none
  mmu := .init
  bus := bus
  host := host
  clock := 0

def page (a : Addr) : Byte := (a >>> 8).setWidth 8

theorem toNat_page (v : Addr) : (page v).toNat = v.toNat / 256 := by
  have := v.isLt
  simp only [page, BitVec.toNat_setWidth, BitVec.toNat_ushiftRight, Nat.shiftRight_eq_div_pow]
  omega

end Rk65c02
