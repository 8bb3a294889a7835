import Rk65c02.Mmu

/-! The bus, the memory accessors with their MMU faults, and the tracking of guest
stores for the JIT. -/

namespace Rk65c02

open Resumption

variable {H : Type}

namespace Bus

/-- The last mapping that holds the address wins. -/
def accessDevice (b : Bus) (addr : Addr) : Option (DevId × Addr) :=
  b.dm.foldl (fun found m =>
    if m.2.toNat ≤ addr.toNat ∧ addr.toNat < m.2.toNat + (b.dev m.1).size.toNat then some (m.1, addr - m.2)
    else found) none

/-- The first mapping wins; the end of a mapping is computed in 32 bits. -/
def accessDevicePhys (b : Bus) (addr : PAddr) : Option (DevId × Addr) :=
  if addr.toNat < busSize then none
  else
    (b.dmPhys.find? fun m => m.2 ≤ addr ∧ addr < m.2 + (b.dev m.1).size.setWidth 32).map
      fun m => (m.1, (addr - m.2).setWidth 16)

def ramWrite1 (b : Bus) (d : DevId) (off : Addr) (val : Byte) : Bus :=
  { b with ram := Function.update b.ram d (Function.update (b.ram d) off val) }

end Bus

namespace Emu

variable (hc : HostCode H)

/-- A read of a device; unmapped space reads as floating lines. -/
def deviceRead1 (e : Emu H) : Option (DevId × Addr) → Byte × Emu H
  | none => (0xFF, e)
  | some (d, off) =>
    if (e.bus.dev d).ram then (e.bus.ram d off, e)
    else
      let (val, r) := hc.devRead e.host d off
      (val, e.hostReturns r)

def deviceWrite1 (e : Emu H) (val : Byte) : Option (DevId × Addr) → Emu H
  | none => e
  | some (d, off) =>
    if (e.bus.dev d).ram then { e with bus := e.bus.ramWrite1 d off val }
    else e.hostReturns (hc.devWrite e.host d off val)

def busRead1 (e : Emu H) (addr : Addr) : Byte × Emu H := e.deviceRead1 hc (e.bus.accessDevice addr)

def busWrite1 (e : Emu H) (addr : Addr) (val : Byte) : Emu H :=
  e.deviceWrite1 hc val (e.bus.accessDevice addr)

def busRead1Phys (e : Emu H) (addr : PAddr) : Byte × Emu H :=
  if addr.toNat < busSize then e.busRead1 hc (addr.setWidth 16)
  else e.deviceRead1 hc (e.bus.accessDevicePhys addr)

def busWrite1Phys (e : Emu H) (addr : PAddr) (val : Byte) : Emu H :=
  if addr.toNat < busSize then e.busWrite1 hc (addr.setWidth 16) val
  else e.deviceWrite1 hc val (e.bus.accessDevicePhys addr)

/-- `instruction_fetch`, straight from the bus; operand bytes the mode does not have are
never read. -/
def instructionFetch (e : Emu H) (addr : Addr) : Instruction × Emu H :=
  let (opcode, e) := e.busRead1 hc addr
  match (instructionDecode opcode).mode.operands with
  | 0 => (⟨opcode, 0, 0⟩, e)
  | 1 =>
    let (op1, e) := e.busRead1 hc (addr + 1)
    (⟨opcode, op1, 0⟩, e)
  | _ =>
    let (op1, e) := e.busRead1 hc (addr + 1)
    let (op2, e) := e.busRead1 hc (addr + 2)
    (⟨opcode, op1, op2⟩, e)

/-- The text goes to standard output; the reads may run device handlers. -/
def disassemble (e : Emu H) (addr : Addr) : Emu H := (e.instructionFetch hc addr).2

/-- What `rk65c02_exec` does with the instruction at `PC` before it is fetched. -/
def disassembled (e : Emu H) (pc : Addr) : Emu H := if e.runtimeDisassembly then e.disassemble hc pc else e

def maybeCallOnStop (e : Emu H) : Emu H :=
  match e.onStop with
  | none => e
  | some cb => e.hostReturns (hc.onStop e.host cb e.stopreason)

/-- Stop with an error. Inside a compiled block this leaves the block at once. -/
def emuStopError (e : Emu H) : Out (Emu H) Unit :=
  let wasActive := e.state = .running ∨ e.state = .stepping
  let e := { e with state := .stopped, stopreason := .emuerror, stopRequested := false }
  if e.inJitRun then .exit { e with inJitRun := false }
  else if ¬wasActive then .ok () (e.maybeCallOnStop hc)
  else .ok () e

def mmuFault (e : Emu H) (vaddr : Addr) (access : Access) (code : BitVec 16) : Out (Emu H) Unit :=
  let e :=
    { e with
      mmuLastFaultAddr := vaddr
      mmuLastFaultAccess := access
      mmuLastFaultCode := code
      mmu := { e.mmu with faultReexec := true }
      useJit := false }
  let e :=
    match e.mmu.fault with
    | none => e
    | some cb => e.hostReturns (hc.mmuFault e.host cb vaddr access code)
  e.emuStopError hc

/-- A successful access at a physical address. -/
def physRead1 (e : Emu H) (paddr : PAddr) : Byte × Emu H :=
  if paddr.toNat < busSize then e.busRead1 hc (paddr.setWidth 16) else e.busRead1Phys hc paddr

def physWrite1 (e : Emu H) (paddr : PAddr) (val : Byte) : Emu H :=
  if paddr.toNat < busSize then e.busWrite1 hc (paddr.setWidth 16) val else e.busWrite1Phys hc paddr val

def memReadDirect (e : Emu H) (addr : Addr) : Out (Emu H) Byte :=
  let (v, e) := e.busRead1 hc addr
  .ok v e

def memReadMmu (e : Emu H) (addr : Addr) (access : Access) : Out (Emu H) Byte :=
  match e.mmuTranslateAddr hc addr access with
  | (.error code, e) => (e.mmuFault hc addr access code).bind fun _ e => .ok 0xFF e
  | (.ok paddr, e) =>
    let (v, e) := e.physRead1 hc paddr
    .ok v e

def memWriteDirect (e : Emu H) (addr : Addr) (val : Byte) : Out (Emu H) Unit :=
  .ok () (e.busWrite1 hc addr val)

def memWriteMmu (e : Emu H) (addr : Addr) (val : Byte) : Out (Emu H) Unit :=
  match e.mmuTranslateAddr hc addr .write with
  | (.error code, e) => e.mmuFault hc addr .write code
  | (.ok paddr, e) => .ok () (e.physWrite1 hc paddr val)

/-- `jit_translate_paddr`: an address beyond the 64K bus is no physical address for the JIT. -/
def jitTranslatePaddr (e : Emu H) (vaddr : Addr) (access : Access) : Option Addr × Emu H :=
  let (p, e) := e.mmuTranslateCached hc vaddr access
  (p.bind fun p => if busSize ≤ p.toNat then none else some (p.setWidth 16), e)

/-- The physical address of a store, if it may hold compiled code. -/
def jitPhysHit (e : Emu H) (j : Jit) (addr : Addr) : Option Addr × Emu H :=
  if j.compiledPhysRefsTotal = 0 then (none, e)
  else
    let (p, e) := e.jitTranslatePaddr hc addr .write
    (p.filter fun p => j.coveredPhysAddrRefcnt p != 0 || j.compiledPhysPageRefcnt (page p) != 0, e)

/-- Record a write event of a running block; more events than slots force a flush. -/
def jitPendWrite (j : Jit) (w : PendingWrite) : Jit :=
  if j.pendingWrites.length < jitWriteEventSlots then { j with pendingWrites := j.pendingWrites ++ [w] }
  else { j with pendingWriteOverflow := true }

def jitNoteGuestWrite (e : Emu H) (addr : Addr) : Emu H :=
  match e.jit with
  | none => e
  | some j =>
    if j.activeBlocks = 0 then e
    else
      let coveredVirt := j.compiledPageRefcnt (page addr) != 0 && j.coveredAddrRefcnt addr != 0
      let (phys, e) := e.jitPhysHit hc j addr
      if !coveredVirt && phys.isNone then e
      else
        let j := { j with stats := { j.stats with writeEvents := j.stats.writeEvents + 1 } }
        let w : PendingWrite := { addr := addr, phys := phys }
        if e.inJitRun then { e with useJit := false, jit := some (jitPendWrite j w) }
        else { e with jit := some (jitWriteEvent j w) }

/-- Read or fetch through the accessor in force. -/
def memRead1 (e : Emu H) (addr : Addr) (access : Access) : Out (Emu H) Byte :=
  if e.mmu.accessors then e.memReadMmu hc addr access else e.memReadDirect hc addr

/-- A store reports to the JIT whenever the accessor returns. -/
def memWrite1 (e : Emu H) (addr : Addr) (val : Byte) : Out (Emu H) Unit :=
  (if e.mmu.accessors then e.memWriteMmu hc addr val else e.memWriteDirect hc addr val).bind
    fun _ e => .ok () (e.jitNoteGuestWrite hc addr)

def tracePush (e : Emu H) (t : TraceEntry) : Emu H :=
  if e.trace then { e with traceLog := e.traceLog ++ [t] } else e

/-- The answer to each request, asynchronous calls having arrived. -/
def answer (e : Emu H) : (o : Op) → Out (Emu H) o.Ret
  | .fetch a => e.memRead1 hc a .fetch
  | .read a => e.memRead1 hc a .read
  | .write a v => e.memWrite1 hc a v
  | .irq => .ok e.irq e
  | .ackIrq => .ok () { e with irq := false }
  | .stop reason => .ok () { e with state := .stopped, stopreason := reason }
  | .panic => e.emuStopError hc
  | .isBreakpoint pc => .ok (e.bps.contains pc) e
  | .disassemble pc => .ok () (e.disassembled hc pc)
  | .reexec =>
    if e.state = .stopped ∧ e.mmu.faultReexec then .ok true { e with mmu := { e.mmu with faultReexec := false } }
    else .ok false e
  | .trace tpc i r => .ok () (e.tracePush ⟨tpc, i, r⟩)

def handle : CpuHandler (Emu H) := fun o r e => (arrive hc { e with regs := r }).answer hc o

def answerNative (e : Emu H) : (o : NOp) → Out (Emu H) o.Ret
  | .base o => e.answer hc o
  | .emuState => .ok e.state e
  | .useJit => .ok e.useJit e
  | .stopRequested => .ok e.stopRequested e
  | .irqLine => .ok e.irq e
  | .loopBudget => .ok e.jitLoopBudget e
  | .setLoopBudget n => .ok () { e with jitLoopBudget := n }
  | .countInsns n =>
    .ok () { e with jit := e.jit.map fun j =>
      { j with stats := { j.stats with insnsExecuted := j.stats.insnsExecuted + n } } }

def handleNative : Handler NOp NOp.Ret Regs (Emu H) := fun o r e =>
    (arrive hc { e with regs := r }).answerNative hc o

/-- The end of code that ran on the registers. -/
def putRegs {α : Type} (x : Out (Emu H) (α × Regs)) : Out (Emu H) α :=
  x.bind fun v e => .ok v.1 { e with regs := v.2 }

/-- Run code on the emulator, from and to its registers. -/
def runCpu {α : Type} (x : Cpu α) (e : Emu H) : Out (Emu H) α :=
  putRegs ((x.run e.regs).run (handle hc) e)

def runNative {α : Type} (x : NCpu α) (e : Emu H) : Out (Emu H) α :=
  putRegs ((x.run e.regs).run (handleNative hc) e)

end Emu

end Rk65c02
