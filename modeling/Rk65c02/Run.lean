import Rk65c02.Emit
import Rk65c02.Memory

/-! Compilation of blocks and the run loops. The dispatcher is a machine whose steps
are one round of its loop or one instruction of a running block. -/

namespace Rk65c02

open Resumption

variable {H : Type}

def jitOpcodeIsCondBranch (op : Byte) : Bool :=
  [0x10, 0x30, 0x50, 0x70, 0x90, 0xB0, 0xD0, 0xF0].contains op

/-- Instructions after which a block ends: those that leave the sequence and those that
halt. -/
def jitEndsBlock (i : Instruction) : Bool :=
  !jitOpcodeIsCondBranch i.opcode &&
    ((instructionDecode i.opcode).modifyPc || i.opcode == 0x60 || i.opcode == 0xDB || i.opcode == 0xCB)

/-- The record of a block that has never been compiled. -/
def Block.empty (pc : Addr) : Block where
  startPc := pc
  endPcExclusive := pc
  mmuPhysPageValid := false
  mmuPhysPage := 0
  mmuPhysByteCov := false
  mmuPhysStart := 0
  numInsns := 0
  fn := none

def Instruction.size (i : Instruction) : Addr := BitVec.ofNat 16 (instructionDecode i.opcode).size

/-- The address of each instruction of a block that starts at `pc`. -/
def insnAddrs : Addr → List Instruction → List Addr
  | _, [] => []
  | pc, i :: is => pc :: insnAddrs (pc + i.size) is

def blockEnd : Addr → List Instruction → Addr
  | pc, [] => pc
  | pc, i :: is => blockEnd (pc + i.size) is

namespace Emu

variable (hc : HostCode H)

/-- The instructions of a block, with at most `n` more from `pc`. -/
def jitBuildBlockInsns (startPc : Addr) : Nat → Addr → Emu H → Out (Emu H) (List Instruction)
  | 0, _, e => .ok [] e
  | n + 1, pc, e =>
    if page pc ≠ page startPc then .ok [] e
    else
      (e.runCpu hc (instructionFetchEmu pc)).bind fun i e =>
        if e.state ≠ .running then .ok [] e
        else if page (pc + i.size - 1) ≠ page startPc then .ok [] e
        else if jitEndsBlock i then .ok [i] e
        else (jitBuildBlockInsns startPc n (pc + i.size) e).bind fun is e => .ok (i :: is) e

/-- Physical tags exist only under a translation that is not the identity fast path. -/
def jitPhysTags (e : Emu H) (b : Block) : Block × Emu H :=
  let b := { b with mmuPhysPageValid := false, mmuPhysByteCov := false, mmuPhysStart := 0 }
  if e.mmu.enabled && !e.mmu.identityActive then
    match e.jitTranslatePaddr hc b.startPc .fetch with
    | (none, e) => (b, e)
    | (some physStart, e) =>
      let b := { b with mmuPhysPageValid := true, mmuPhysPage := page physStart, mmuPhysStart := physStart }
      if physStart &&& 0xFF == b.startPc &&& 0xFF && b.endPcExclusive != b.startPc then
        match e.jitTranslatePaddr hc (b.endPcExclusive - 1) .fetch with
        | (none, e) => (b, e)
        | (some physLast, e) =>
          ({ b with mmuPhysByteCov := physLast == physStart + (b.endPcExclusive - b.startPc) - 1 }, e)
      else (b, e)
  else (b, e)

/-- Put compiled code into its record and count it. -/
def jitInstall (j : Jit) (b : Block) : Jit :=
  let j := jitBlockPageRefsUpdate (j.setBlock b) b true
  { j with
    activeBlocks := j.activeBlocks + 1
    stats := { j.stats with blocksCompiled := j.stats.blocksCompiled + 1 } }

/-- Emission itself is assumed to succeed. -/
def jitCompileBlock (e : Emu H) (pc : Addr) : Out (Emu H) (Option Block) :=
  match e.jit with
  | none => .ok none e
  | some j =>
    let j := if (jitFindBlock j pc).isNone then { j with blocks := j.blocks ++ [.empty pc] } else j
    let b := (jitFindBlock j pc).getD (.empty pc)
    let e := { e with jit := some j }
    if b.active then .ok (some b) e
    else
      (e.jitBuildBlockInsns hc pc jitBlockMaxInsns pc).bind fun insns e =>
        if insns = [] then .ok none e
        else
          let (b, e) := e.jitPhysTags hc { b with endPcExclusive := blockEnd pc insns }
          let b := { b with numInsns := insns.length, fn := some insns }
          .ok (some b) { e with jit := e.jit.map fun j => jitInstall j b }

def applyHostStopRequest (e : Emu H) : Emu H :=
  if !e.stopRequested then e else { e with state := .stopped, stopreason := .host, stopRequested := false }

def maybeTick (e : Emu H) : Emu H :=
  match e.tick with
  | none => e
  | some cb =>
    if e.state ≠ .running ∧ e.state ≠ .stepping then e
    else if e.tickInterval = 0 then e.hostReturns (hc.tick e.host cb)
    else
      let e := { e with tickCountdown := if 0 < e.tickCountdown then e.tickCountdown - 1 else e.tickCountdown }
      if e.tickCountdown = 0 then
        let e := e.hostReturns (hc.tick e.host cb)
        { e with tickCountdown := e.tickInterval }
      else e

def pollHostControls (e : Emu H) : Emu H :=
  ((((e.arrive hc).applyHostStopRequest).maybeTick hc).applyHostStopRequest)

def maybeWaitOnIdle (e : Emu H) : Bool × Emu H :=
  match e.idleWait with
  | none => (false, e)
  | some cb =>
    if e.state ≠ .stopped ∨ e.stopreason ≠ .wai then (false, e)
    else (true, (e.hostReturns (hc.idleWait e.host cb)).applyHostStopRequest)

/-- `rk65c02_exec`. -/
def exec (e : Emu H) : Out (Emu H) Unit := e.runCpu hc Rk65c02.exec

def canUseJit (e : Emu H) : Bool :=
  e.useJit && e.jit.isSome && !e.trace && !e.runtimeDisassembly && e.bps.isEmpty

/-- The end of `rk65c02_start`, after the loop. -/
def finish (e : Emu H) : Emu H :=
  let e := e.pollHostControls hc
  if e.state = .stopped then e.maybeCallOnStop hc else e

end Emu

/-- Where a run is: at the top of the dispatcher's loop, before instruction `k` of a
running block, at the top of the interpreter's loop, or over. -/
inductive Phase
  | dispatch
  | block (b : Block) (k : Nat)
  | interp
  | done
  | stuck
  deriving DecidableEq

/-- A run of `rk65c02_start`. `disabled` is `disable_jit_for_run`. -/
structure Run (H : Type) where
  emu : Emu H
  phase : Phase
  disabled : Bool

namespace Run

variable (hc : HostCode H)

def finish (c : Run H) : Run H := { c with emu := c.emu.finish hc, phase := .done }

/-- Go on after a poll that may have stopped the run. -/
def afterPoll (c : Run H) : Run H :=
  if c.emu.state = .running then c
  else
    let (waited, e) := c.emu.maybeWaitOnIdle hc
    let c := { c with emu := e }
    if waited ∧ e.state = .running then c else c.finish hc

/-- One round of the interpreter's loop. -/
def interpStep (c : Run H) : Run H :=
  if c.emu.state ≠ .running then c.finish hc
  else
    let e := c.emu.pollHostControls hc
    if e.state ≠ .running then
      let (waited, e) := e.maybeWaitOnIdle hc
      let c := { c with emu := e }
      if waited then c else c.finish hc
    else
      match e.exec hc with
      | .ok _ e => afterPoll hc { c with emu := e.pollHostControls hc }
      | _ => { c with phase := .stuck }

/-- Process recorded writes, at the return of a block and on the fault path. -/
def processPendingWrites (c : Run H) : Run H :=
  match c.emu.jit with
  | none => c
  | some j =>
    if j.pendingWrites.isEmpty && !j.pendingWriteOverflow then c
    else
      let (j, exhausted) := jitProcessPendingWrites j
      let disable := exhausted && !c.disabled
      let j := if disable then { j with stats := { j.stats with runJitDisables := j.stats.runJitDisables + 1 } }
        else j
      let disabled := c.disabled || disable
      { c with
        emu := { c.emu with jit := some j, useJit := !disabled && c.emu.jitRequested }
        disabled := disabled }

/-- A flush requested while the block ran. -/
def processNeedsFlush (c : Run H) : Run H :=
  match c.emu.jit with
  | none => c
  | some j =>
    if j.needsFlush then
      { c with
        emu := { c.emu with jit := some (jitBackendFlush j), useJit := !c.disabled && c.emu.jitRequested } }
    else c

/-- What the dispatcher does when a block returns. -/
def blockReturn (c : Run H) : Run H :=
  let c := { c with emu := { c.emu with inJitRun := false }, phase := .dispatch }
  let c := processNeedsFlush (processPendingWrites c)
  afterPoll hc { c with emu := c.emu.pollHostControls hc }

/-- Instruction `k` of the running block, and where control goes from it. -/
def blockStep (c : Run H) (b : Block) (k : Nat) : Run H :=
  let insns := b.fn.getD []
  match insns[k]? with
  | none => { c with phase := .stuck }
  | some i =>
    match c.emu.runNative hc (nativeInsn ⟨insnAddrs b.startPc insns⟩ k i) with
    | .stuck => { c with phase := .stuck }
    | .exit e => processPendingWrites { c with emu := e, phase := .dispatch }
    | .ok next e =>
      let c := { c with emu := e }
      match next with
      | .ret => blockReturn hc c
      | .goto t => { c with phase := .block b t }
      | .fall => if k + 1 < insns.length then { c with phase := .block b (k + 1) } else blockReturn hc c

/-- Enter the native code of a block. -/
def enterBlock (c : Run H) (b : Block) : Run H :=
  let count (j : Jit) : Jit :=
    { j with stats :=
      { j.stats with
        blocksExecuted := j.stats.blocksExecuted + 1
        insnsExecuted := j.stats.insnsExecuted + b.numInsns } }
  { c with
    emu := { c.emu with jit := c.emu.jit.map count, jitLoopBudget := Rk65c02.jitLoopBudget, inJitRun := true }
    phase := .block b 0 }

/-- Dispatch an active block, unless its physical page is no longer the one mapped. -/
def dispatchBlock (c : Run H) (b : Block) : Run H :=
  if b.mmuPhysPageValid then
    let (p, e) := c.emu.jitTranslatePaddr hc c.emu.regs.PC .fetch
    let c := { c with emu := e }
    if p.map page = some b.mmuPhysPage then c.enterBlock b
    else
      { c with emu := { e with jit := e.jit.map fun j => jitInvalidateBlocksForPage j (page e.regs.PC) } }
  else c.enterBlock b

/-- One instruction in the interpreter, from the dispatcher. -/
def execHere (c : Run H) : Run H :=
  match c.emu.exec hc with
  | .ok _ e => { c with emu := e }
  | _ => { c with phase := .stuck }

/-- The block at `PC` is not active: compile it, or interpret one instruction. -/
def compileStep (c : Run H) (j : Jit) : Run H :=
  let j := if jitMaxActiveBlocks ≤ j.activeBlocks then jitBackendFlush j else j
  let e := { c.emu with jit := some j }
  match e.jitCompileBlock hc e.regs.PC with
  | .ok b e =>
    let c := { c with emu := e }
    if e.state ≠ .running then c.finish hc
    else
      match b with
      | some b => c.dispatchBlock hc b
      | none =>
        let c := c.execHere hc
        if c.phase = .dispatch ∧ c.emu.state ≠ .running then c.finish hc else c
  | _ => { c with phase := .stuck }

/-- One round of the dispatcher's loop, up to the entry of a block. -/
def dispatchStep (c : Run H) : Run H :=
  if c.emu.state ≠ .running then c.finish hc
  else
    let e := c.emu.pollHostControls hc
    let c := { c with emu := e }
    if e.state ≠ .running then
      let (waited, e) := e.maybeWaitOnIdle hc
      let c := { c with emu := e }
      if waited then c else c.finish hc
    else if e.trace || e.runtimeDisassembly || !e.bps.isEmpty then c.finish hc
    else
      match e.useJit, e.jit with
      | true, some j =>
        if e.irq && !e.regs.flag pIrqDisable then c.execHere hc
        else if j.mutableCodePage (page e.regs.PC) then c.execHere hc
        else
          match (jitFindBlock j e.regs.PC).filter Block.active with
          | some b => c.dispatchBlock hc b
          | none => c.compileStep hc j
      | _, _ => { c with phase := .interp }

def step (c : Run H) : Run H :=
  match c.phase with
  | .dispatch => c.dispatchStep hc
  | .block b k => c.blockStep hc b k
  | .interp => c.interpStep hc
  | .done | .stuck => c

end Run

/-- The beginning of `rk65c02_start`, up to the loop it chooses. -/
def Emu.start (e : Emu H) : Run H :=
  let e :=
    { e with
      useJit := e.jitRequested
      stopRequested := false
      tickCountdown := e.tickInterval
      mmu := Mmu.refreshAccessors { e.mmu with faultReexec := false }
      state := .running }
  if e.canUseJit then
    { emu := { e with jit := e.jit.map jitRunStateReset }, phase := .dispatch, disabled := false }
  else { emu := e, phase := .interp, disabled := false }

/-- The loop of `rk65c02_step`. -/
def Emu.stepLoop (hc : HostCode H) : Nat → Emu H → Out (Emu H) Unit
  | 0, e => .ok () e
  | n + 1, e =>
    if e.state ≠ .stepping then .ok () e
    else
      let e := e.pollHostControls hc
      if e.state ≠ .stepping then .ok () e
      else (e.exec hc).bind fun _ e => Emu.stepLoop hc n (e.pollHostControls hc)

/-- `rk65c02_step`. -/
def Emu.step (hc : HostCode H) (e : Emu H) (steps : BitVec 16) : Out (Emu H) Unit :=
  let e :=
    { e with
      stopRequested := false
      tickCountdown := e.tickInterval
      mmu := e.mmu.refreshAccessors
      state := .stepping }
  (Emu.stepLoop hc steps.toNat e).bind fun _ e =>
    let e := e.pollHostControls hc
    let e := if e.state = .stepping then { e with state := .stopped, stopreason := .stepped } else e
    .ok () (if e.state = .stopped then e.maybeCallOnStop hc else e)

/-- A bus of two RAM devices that fill the 64K space. -/
def ramBus (mem : Addr → Byte) : Bus where
  dm := [(0, 0), (1, 0x8000)]
  dmPhys := []
  dev := fun _ => { size := 0x8000, ram := true }
  ram := fun d off => mem (BitVec.ofNat 16 (d * 0x8000) + off)

/-- A host whose callbacks do nothing but translate. -/
def quietHost (tr : Translate) : HostCode Unit where
  translate := fun _ _ => tr
  mmuFault := fun _ _ _ _ _ => ((), [])
  devRead := fun _ _ _ => (0xFF, (), [])
  devWrite := fun _ _ _ _ => ((), [])
  tick := fun _ _ => ((), [])
  idleWait := fun _ _ => ((), [])
  onStop := fun _ _ _ => ((), [])
  async := fun _ => []

def identity : Translate :=
  fun a _ => { ok := true, paddr := a.setWidth 32, perms := 7, faultCode := 0, noFillTlb := false }

/-- The identity map without the stack page. -/
def withoutStack : Translate := fun a x => { identity a x with ok := page a != 1 }

end Rk65c02
