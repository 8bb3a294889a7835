import Rk65c02.Native

/-! The native code of each instruction, by the cases of `jit_emit_insn`. -/

namespace Rk65c02

open Cpu

inductive Logic
  | and | ora | eor
  deriving DecidableEq

inductive Shift
  | asl | lsr | rol | ror
  deriving DecidableEq

/-- The cases of the switch over the opcode. -/
inductive EmitCase
  | nop
  | clearFlag (m : Byte)
  | raiseFlag (m : Byte)
  | transfer (dst src : Off)
  | txs
  | incReg (f : Off)
  | decReg (f : Off)
  | load (dst : Off)
  | store (src : Off)
  | stz
  | logic (f : Logic)
  | adc
  | cmp (reg : Off)
  | sbc
  | incMem
  | decMem
  | shiftAcc (f : Shift)
  | shiftMem (f : Shift)
  | bit
  | rmb
  | smb
  | testBits
  | bitBranch
  | push (reg : Off)
  | pull (reg : Off)
  | plp
  | bra
  | condBranch
  | jmpAbs
  | jmpInd
  | jsr
  | rts
  deriving DecidableEq

/-- The case labels. -/
def emitCases : List (List Byte × EmitCase) := [
  ([0xEA], .nop),
  ([0x18], .clearFlag pCarry),
  ([0x38], .raiseFlag pCarry),
  ([0x58], .clearFlag pIrqDisable),
  ([0x78], .raiseFlag pIrqDisable),
  ([0xB8], .clearFlag pSignOverflow),
  ([0xD8], .clearFlag pDecimal),
  ([0xF8], .raiseFlag pDecimal),
  ([0xAA], .transfer .X .A),
  ([0xA8], .transfer .Y .A),
  ([0x8A], .transfer .A .X),
  ([0x98], .transfer .A .Y),
  ([0xBA], .transfer .X .SP),
  ([0x9A], .txs),
  ([0xE8], .incReg .X),
  ([0xCA], .decReg .X),
  ([0xC8], .incReg .Y),
  ([0x88], .decReg .Y),
  ([0x1A], .incReg .A),
  ([0x3A], .decReg .A),
  ([0xA9, 0xA5, 0xB5, 0xAD, 0xBD, 0xB9, 0xA1, 0xB1, 0xB2], .load .A),
  ([0xA2, 0xA6, 0xB6, 0xAE, 0xBE], .load .X),
  ([0xA0, 0xA4, 0xB4, 0xAC, 0xBC], .load .Y),
  ([0x85, 0x95, 0x8D, 0x9D, 0x99, 0x81, 0x91, 0x92], .store .A),
  ([0x86, 0x96, 0x8E], .store .X),
  ([0x84, 0x94, 0x8C], .store .Y),
  ([0x64, 0x74, 0x9C, 0x9E], .stz),
  ([0x29, 0x25, 0x35, 0x2D, 0x3D, 0x39, 0x21, 0x31, 0x32], .logic .and),
  ([0x09, 0x05, 0x15, 0x0D, 0x1D, 0x19, 0x01, 0x11, 0x12], .logic .ora),
  ([0x49, 0x45, 0x55, 0x4D, 0x5D, 0x59, 0x41, 0x51, 0x52], .logic .eor),
  ([0x69, 0x65, 0x75, 0x6D, 0x7D, 0x79, 0x61, 0x71, 0x72], .adc),
  ([0xC9, 0xC5, 0xD5, 0xCD, 0xDD, 0xD9, 0xC1, 0xD1, 0xD2], .cmp .A),
  ([0xE0, 0xE4, 0xEC], .cmp .X),
  ([0xC0, 0xC4, 0xCC], .cmp .Y),
  ([0xE9, 0xE5, 0xF5, 0xED, 0xFD, 0xF9, 0xE1, 0xF1, 0xF2], .sbc),
  ([0xE6, 0xF6, 0xEE, 0xFE], .incMem),
  ([0xC6, 0xD6, 0xCE, 0xDE], .decMem),
  ([0x0A], .shiftAcc .asl),
  ([0x4A], .shiftAcc .lsr),
  ([0x2A], .shiftAcc .rol),
  ([0x6A], .shiftAcc .ror),
  ([0x06, 0x16, 0x0E, 0x1E], .shiftMem .asl),
  ([0x46, 0x56, 0x4E, 0x5E], .shiftMem .lsr),
  ([0x26, 0x36, 0x2E, 0x3E], .shiftMem .rol),
  ([0x66, 0x76, 0x6E, 0x7E], .shiftMem .ror),
  ([0x89, 0x24, 0x34, 0x2C, 0x3C], .bit),
  ([0x07, 0x17, 0x27, 0x37, 0x47, 0x57, 0x67, 0x77], .rmb),
  ([0x87, 0x97, 0xA7, 0xB7, 0xC7, 0xD7, 0xE7, 0xF7], .smb),
  ([0x14, 0x1C, 0x04, 0x0C], .testBits),
  ([0x0F, 0x1F, 0x2F, 0x3F, 0x4F, 0x5F, 0x6F, 0x7F, 0x8F, 0x9F, 0xAF, 0xBF, 0xCF, 0xDF, 0xEF, 0xFF],
    .bitBranch),
  ([0x48], .push .A),
  ([0xDA], .push .X),
  ([0x5A], .push .Y),
  ([0x08], .push .P),
  ([0x68], .pull .A),
  ([0xFA], .pull .X),
  ([0x7A], .pull .Y),
  ([0x28], .plp),
  ([0x80], .bra),
  ([0x90, 0xB0, 0xF0, 0xD0, 0x30, 0x10, 0x70, 0x50], .condBranch),
  ([0x4C], .jmpAbs),
  ([0x6C], .jmpInd),
  ([0x20], .jsr),
  ([0x60], .rts)]

def emitCase (op : Byte) : Option EmitCase :=
  (emitCases.find? fun c => op ∈ c.1).map Prod.snd

/-- The addresses of the instructions of a block, its labels. -/
structure EmitCtx where
  insnAddr : List Addr

section Cases

variable (i : Instruction) (size : Nat)

def emitFlag (f : LReg → LReg → Native Unit) : Native Unit := do
  jitLdxiUc .r1 .P
  f .r1 .r1
  jitStxiC .P .r1
  jitEmitAdvancePc size

def emitTransfer (dst src : Off) : Native Unit := do
  jitLdxiUc .r1 src
  jitStxiC dst .r1
  jitEmitUpdateZn
  jitEmitAdvancePc size

def emitTxs : Native Unit := do
  jitLdxiUc .r1 .X
  jitStxiC .SP .r1
  jitEmitAdvancePc size

def emitStepReg (f : Off) (step : LReg → LReg → Word → Native Unit) : Native Unit := do
  jitLdxiUc .r1 f
  step .r1 .r1 1
  jitAndi .r1 .r1 0xFF
  jitStxiC f .r1
  jitEmitUpdateZn
  jitEmitAdvancePc size

/-- The load of the stored value is the only difference between the stores. -/
def emitStore (value : Native Unit) (effaddr : Native Unit) : Native Next := do
  effaddr
  value
  jitEmitBusWrite
  jitEmitAdvancePc size
  jitEmitBailIfJitDisabled

def emitLoad (dst : Off) (operand : Native Unit) : Native Unit := do
  operand
  jitStxiC dst .r1
  jitEmitUpdateZn
  jitEmitAdvancePc size

def emitLogic (f : Logic) (operand : Native Unit) : Native Unit := do
  operand
  jitLdxiUc .r2 .A
  match f with
  | .and => jitAndr .r1 .r2 .r1
  | .ora => jitOrr .r1 .r2 .r1
  | .eor => jitXorr .r1 .r2 .r1
  jitStxiC .A .r1
  jitEmitUpdateZn
  jitEmitAdvancePc size

/-- The binary path of `ADC` and, with the operand complemented, of `SBC`. -/
def emitAddBinary : Native Unit := do
  jitMovr .v1 .r1
  jitLdxiUc .r2 .A
  jitMovr .v2 .r2
  jitAddr .r1 .r2 .r1
  jitLdxiUc .r2 .P
  jitAndi .r2 .r2 (imm pCarry)
  branchOver beqi0 .r2 (jitAddi .r1 .r1 1)
  jitMovr .r2 .r1
  jitAndi .r2 .r2 0x100
  jitAndi .r1 .r1 0xFF
  jitXorr .v2 .v2 .r1
  jitXorr .v1 .v1 .r1
  jitAndr .v2 .v2 .v1
  jitAndi .v2 .v2 0x80
  jitLdxiUc .v1 .P
  jitAndi .v1 .v1 (notImm (pCarry ||| pSignOverflow))
  branchOver beqi0 .r2 (jitOri .v1 .v1 (imm pCarry))
  branchOver beqi0 .v2 (jitOri .v1 .v1 (imm pSignOverflow))
  jitStxiC .P .v1
  jitStxiC .A .r1
  jitEmitUpdateZn
  jitEmitAdvancePc size

def emitArith (bcd : Byte → Cpu Unit) (complement : Native Unit) (operand : Native Unit) :
    Native Unit := do
  operand
  jitLdxiUc .r2 .P
  jitAndi .r2 .r2 (imm pDecimal)
  if beqi0 (← getReg .r2) then
    complement
    emitAddBinary size
  else
    jitCallByte bcd
    jitEmitAdvancePc size

def emitCmp (reg : Off) (operand : Native Unit) : Native Unit := do
  operand
  jitLdxiUc .r2 reg
  jitLdxiUc .v1 .P
  jitAndi .v1 .v1 (notImm (pCarry ||| pZero ||| pNegative))
  let a ← getReg .r2
  branchOver (fun m => decide (a < m)) .r1 (jitOri .v1 .v1 (imm pCarry))
  jitSubr .r1 .r2 .r1
  jitAndi .r1 .r1 0xFF
  branchOver bnei0 .r1 (jitOri .v1 .v1 (imm pZero))
  branchOver (bmci 0x80) .r1 (jitOri .v1 .v1 (imm pNegative))
  jitStxiC .P .v1
  jitEmitAdvancePc size

def emitStepMem (step : LReg → LReg → Word → Native Unit) (effaddr : Native Unit) : Native Next := do
  effaddr
  jitMovr .v1 .r1
  jitEmitBusRead
  step .r1 .r1 1
  jitAndi .r1 .r1 0xFF
  jitMovr .v2 .r1
  jitMovr .r2 .r1
  jitMovr .r1 .v1
  jitEmitBusWrite
  jitMovr .r1 .v2
  jitEmitUpdateZn
  jitEmitAdvancePc size
  jitEmitBailIfJitDisabled

/-- The bit that a shift moves into the carry. -/
def Shift.out : Shift → Word
  | asl | rol => 0x80
  | lsr | ror => 0x01

/-- The carry into the shifted byte, prepared in `t` from the status in `R2`. -/
def emitCarryIn (f : Shift) (t : LReg) : Native Unit :=
  match f with
  | .asl | .lsr => pure ()
  | .rol => jitAndi t .r2 (imm pCarry)
  | .ror => do
    jitAndi t .r2 (imm pCarry)
    jitLshi t t 7

/-- The shift of the byte in `R1`, with the carry prepared in `t`. -/
def emitShift (f : Shift) (t : LReg) : Native Unit :=
  match f with
  | .asl => do
    jitLshi .r1 .r1 1
    jitAndi .r1 .r1 0xFF
  | .lsr => jitRshiU .r1 .r1 1
  | .rol => do
    jitLshi .r1 .r1 1
    jitOrr .r1 .r1 t
    jitAndi .r1 .r1 0xFF
  | .ror => do
    jitRshiU .r1 .r1 1
    jitOrr .r1 .r1 t

/-- Status and shifted byte: the part the accumulator and memory forms share. -/
def emitShiftByte (f : Shift) (t : LReg) : Native Unit := do
  jitLdxiUc .r2 .P
  emitCarryIn f t
  jitAndi .r2 .r2 (notImm pCarry)
  branchOver (bmci f.out) .r1 (jitOri .r2 .r2 (imm pCarry))
  jitStxiC .P .r2
  emitShift f t

def emitShiftAcc (f : Shift) : Native Unit := do
  jitLdxiUc .r1 .A
  emitShiftByte f .v1
  jitStxiC .A .r1
  jitEmitUpdateZn
  jitEmitAdvancePc size

def emitShiftMem (f : Shift) (effaddr : Native Unit) : Native Next := do
  effaddr
  jitMovr .v1 .r1
  jitEmitBusRead
  emitShiftByte f .v2
  jitMovr .v2 .r1
  jitEmitUpdateZn
  jitMovr .r1 .v1
  jitMovr .r2 .v2
  jitEmitBusWrite
  jitEmitAdvancePc size
  jitEmitBailIfJitDisabled

def emitBit (operand : Native Unit) : Native Unit := do
  operand
  jitLdxiUc .r2 .A
  jitLdxiUc .v1 .P
  jitAndi .v1 .v1
    (imm (if i.opcode = 0x89 then ~~~pZero else ~~~(pZero ||| pNegative ||| pSignOverflow)))
  jitAndr .r2 .r2 .r1
  branchOver bnei0 .r2 (jitOri .v1 .v1 (imm pZero))
  if i.opcode ≠ 0x89 then
    branchOver (bmci 0x80) .r1 (jitOri .v1 .v1 (imm pNegative))
    branchOver (bmci 0x40) .r1 (jitOri .v1 .v1 (imm pSignOverflow))
  jitStxiC .P .v1
  jitEmitAdvancePc size

/-- The bit number in the opcode of the bit instructions. -/
def opcodeBit (op : Byte) : Nat := ((op >>> 4) &&& 0x07).toNat

/-- `RMB` and `SMB`: one masking operation between a read and a write. -/
def emitMaskMem (mask : LReg → LReg → Native Unit) (effaddr : Native Unit) : Native Next := do
  effaddr
  jitMovr .v1 .r1
  jitEmitBusRead
  mask .r2 .r1
  jitMovr .r1 .v1
  jitEmitBusWrite
  jitEmitAdvancePc size
  jitEmitBailIfJitDisabled

def emitTestBits (effaddr : Native Unit) : Native Next := do
  let isTrb := i.opcode == 0x14 || i.opcode == 0x1C
  effaddr
  jitMovr .v1 .r1
  jitEmitBusRead
  jitMovr .v2 .r1
  jitLdxiUc .r2 .P
  jitAndi .r2 .r2 (imm (~~~pZero))
  jitLdxiUc .r1 .A
  jitAndr .r1 .r1 .v2
  branchOver bnei0 .r1 (jitOri .r2 .r2 (imm pZero))
  jitStxiC .P .r2
  jitLdxiUc .r2 .A
  if isTrb then
    jitXori .r2 .r2 0xFF
    jitAndr .r2 .v2 .r2
  else
    jitOrr .r2 .v2 .r2
  jitMovr .r1 .v1
  jitEmitBusWrite
  jitEmitAdvancePc size
  jitEmitBailIfJitDisabled

/-- `PC` moved by the size and a signed offset, as `BRA`, `BBR` and `BBS` do it. -/
def emitRelative (offset : Byte) : Native Unit := do
  jitLdxiUsPC .r1
  jitAddi .r1 .r1 (BitVec.ofNat 64 size + offset.signExtend 64)
  jitAndi .r1 .r1 0xFFFF
  jitStxiSPC .r1

def emitBitBranch : Native Unit := do
  let mask : Byte := (1 : Byte) <<< opcodeBit i.opcode
  let isBbs := i.opcode &&& 0x80 != 0
  jitMovi .r1 (i.op1.setWidth 64)
  jitEmitBusRead
  let v ← getReg .r1
  if (if isBbs then bmsi (imm mask) v else bmci (imm mask) v) then
    emitRelative size i.op2
  else
    jitEmitAdvancePc size

def emitDecSP : Native Unit := do
  jitLdxiUc .r1 .SP
  jitSubi .r1 .r1 1
  jitAndi .r1 .r1 0xFF
  jitStxiC .SP .r1

def emitIncSP : Native Unit := do
  jitLdxiUc .r1 .SP
  jitAddi .r1 .r1 1
  jitAndi .r1 .r1 0xFF
  jitStxiC .SP .r1

def emitPush (reg : Off) : Native Next := do
  jitLdxiUc .r2 .SP
  jitAddi .r1 .r2 0x100
  jitLdxiUc .r2 reg
  if i.opcode = 0x08 then jitOri .r2 .r2 (imm (pBreak ||| pUndefined))
  jitEmitBusWrite
  emitDecSP
  jitEmitAdvancePc size
  jitEmitBailIfJitDisabled

def emitPull (reg : Off) : Native Unit := do
  emitIncSP
  jitAddi .r1 .r1 0x100
  jitEmitBusRead
  jitStxiC reg .r1
  jitEmitUpdateZn
  jitEmitAdvancePc size

def emitPlp : Native Unit := do
  emitIncSP
  jitAddi .r1 .r1 0x100
  jitEmitBusRead
  jitOri .r1 .r1 (imm pUndefined)
  jitAndi .r1 .r1 (notImm pBreak)
  jitStxiC .P .r1
  jitEmitAdvancePc size

/-- Whether a conditional branch is taken, from the status in `R1`. -/
def branchTaken (op : Byte) (p : Word) : Bool :=
  if op = 0x90 then bmci (imm pCarry) p
  else if op = 0xB0 then bmsi (imm pCarry) p
  else if op = 0xF0 then bmsi (imm pZero) p
  else if op = 0xD0 then bmci (imm pZero) p
  else if op = 0x30 then bmsi (imm pNegative) p
  else if op = 0x10 then bmci (imm pNegative) p
  else if op = 0x70 then bmsi (imm pSignOverflow) p
  else bmci (imm pSignOverflow) p

/-- The guard of a backward jump: `true` returns to the dispatcher. -/
def jitEmitBackedgeGuard (spanInsns : Nat) : Native Bool := do
  useR0
  let n : BitVec 32 ← field .loopBudget
  putReg .r1 (n.signExtend 64)
  jitSubi .r1 .r1 1
  let w ← getReg .r1
  field (.setLoopBudget (w.setWidth 32))
  if w.sle 0 then return true
  let s : Bool ← field .stopRequested
  if s then return true
  let q : Bool ← field .irqLine
  if q then return true
  field (.countInsns spanInsns)
  return false

def emitCondBranch (ctx : EmitCtx) (k : Nat) : Native Next := do
  let target : Addr := ctx.insnAddr.getD k 0 + BitVec.ofNat 16 size + i.op1.signExtend 16
  jitLdxiUc .r1 .P
  if branchTaken i.opcode (← getReg .r1) then
    jitMovi .r1 (target.setWidth 64)
    jitStxiSPC .r1
    match ctx.insnAddr.idxOf? target with
    | none => return .ret
    | some t =>
      if t ≤ k then
        if ← jitEmitBackedgeGuard (k - t + 1) then
          return .ret
      return .goto t
  else
    jitEmitAdvancePc size
    return .fall

def emitJmpInd : Native Unit := do
  let iaddr : Addr := (op16 i).setWidth 16
  jitMovi .r1 (iaddr.setWidth 64)
  jitEmitBusRead
  jitMovr .v1 .r1
  jitMovi .r1 ((iaddr + 1).setWidth 64)
  jitEmitBusRead
  jitLshi .r1 .r1 8
  jitOrr .r1 .r1 .v1
  jitStxiSPC .r1

def emitJsr : Native Next := do
  jitLdxiUsPC .r1
  jitAddi .r1 .r1 2
  jitAndi .r1 .r1 0xFFFF
  jitMovr .v2 .r1
  jitLdxiUc .r2 .SP
  jitAddi .r1 .r2 0x100
  jitRshiU .r2 .v2 8
  jitEmitBusWrite
  emitDecSP
  jitAddi .r1 .r1 0x100
  jitAndi .v2 .v2 0xFF
  jitMovr .r2 .v2
  jitEmitBusWrite
  emitDecSP
  jitMovi .r1 (op16 i)
  jitStxiSPC .r1
  jitEmitBailIfJitDisabled

def emitRts : Native Unit := do
  emitIncSP
  jitAddi .r1 .r1 0x100
  jitEmitBusRead
  jitMovr .v1 .r1
  emitIncSP
  jitAddi .r1 .r1 0x100
  jitEmitBusRead
  jitLshi .r1 .r1 8
  jitOrr .r1 .r1 .v1
  jitAddi .r1 .r1 1
  jitAndi .r1 .r1 0xFFFF
  jitStxiSPC .r1

end Cases

/-- Run the interpreter for one instruction; return if it moved `PC` itself, stopped, or
disabled the JIT. -/
def emitFallback (id : InstrDef) : Native Next := do
  jitMovrR0
  cpu exec
  modify LRegs.clobber
  jitMovrR0
  if id.modifyPc then
    return .ret
  else
    useR0
    let s : EmuState ← field .emuState
    putReg .r1 (if s = .running then 1 else 0)
    let u : Bool ← field .useJit
    putReg .r2 (if u then 1 else 0)
    jitAndr .r1 .r1 .r2
    if beqi0 (← getReg .r1) then return .ret else return .fall

/-- Code that always goes on to the next instruction. -/
def falling (code : Native Unit) : Native Next := do
  code
  return .fall

def jitEmitInsn (ctx : EmitCtx) (k : Nat) (i : Instruction) : Native Next :=
  let id := instructionDecode i.opcode
  let size := id.size
  let fallback := emitFallback id
  let effaddr := jitEmitEffaddr id.mode i
  let operand := jitEmitLoadOperand id.mode i
  match emitCase i.opcode with
  | none => fallback
  | some c =>
    match c with
    | .nop => falling (jitEmitAdvancePc size)
    | .clearFlag m => falling (emitFlag size fun d s => jitAndi d s (notImm m))
    | .raiseFlag m => falling (emitFlag size fun d s => jitOri d s (imm m))
    | .transfer dst src => falling (emitTransfer size dst src)
    | .txs => falling (emitTxs size)
    | .incReg f => falling (emitStepReg size f jitAddi)
    | .decReg f => falling (emitStepReg size f jitSubi)
    | .load dst => operand.elim fallback fun x => falling (emitLoad size dst x)
    | .store src => effaddr.elim fallback (emitStore size (jitLdxiUc .r2 src))
    | .stz => effaddr.elim fallback (emitStore size (jitMovi .r2 0))
    | .logic f => operand.elim fallback fun x => falling (emitLogic size f x)
    | .adc => operand.elim fallback fun x => falling (emitArith size doAdcBcd (pure ()) x)
    | .cmp reg => operand.elim fallback fun x => falling (emitCmp size reg x)
    | .sbc => operand.elim fallback fun x => falling (emitArith size doSbcBcd (jitXori .r1 .r1 0xFF) x)
    | .incMem => effaddr.elim fallback (emitStepMem size jitAddi)
    | .decMem => effaddr.elim fallback (emitStepMem size jitSubi)
    | .shiftAcc f => falling (emitShiftAcc size f)
    | .shiftMem f => effaddr.elim fallback (emitShiftMem size f)
    | .bit => operand.elim fallback fun x => falling (emitBit i size x)
    | .rmb => effaddr.elim fallback
        (emitMaskMem size fun d s => jitAndi d s (imm (~~~((1 : Byte) <<< opcodeBit i.opcode))))
    | .smb => effaddr.elim fallback
        (emitMaskMem size fun d s => jitOri d s (imm ((1 : Byte) <<< opcodeBit i.opcode)))
    | .testBits => effaddr.elim fallback (emitTestBits i size)
    | .bitBranch => falling (emitBitBranch i size)
    | .push reg => emitPush i size reg
    | .pull reg => falling (emitPull size reg)
    | .plp => falling (emitPlp size)
    | .bra => falling (emitRelative size i.op1)
    | .condBranch => emitCondBranch i size ctx k
    | .jmpAbs => falling do
      jitMovi .r1 (op16 i)
      jitStxiSPC .r1
    | .jmpInd => falling (emitJmpInd i)
    | .jsr => emitJsr i
    | .rts => falling emitRts

/-- The code at the label of instruction `k`. It must leave the emulator in `R0` for the
code that follows. -/
def nativeInsn (ctx : EmitCtx) (k : Nat) (i : Instruction) : NCpu Next := do
  let (next, l) ← (jitEmitInsn ctx k i).run .entry
  if l.r0 then return next else NCpu.stuck

end Rk65c02
