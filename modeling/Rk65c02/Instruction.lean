import Rk65c02.Isa

/-! Operand access, the stack and the program counter, shared by all instructions. -/

namespace Rk65c02

open Cpu

def memFetch1 (a : Addr) : Cpu Byte := request (.fetch a)

def memRead1 (a : Addr) : Cpu Byte := request (.read a)

def memWrite1 (a : Addr) (v : Byte) : Cpu Unit := request (.write a v)

def panic : Cpu Unit := request .panic

@[simp] theorem memFetch1_run (a : Addr) (r : Regs) :
    (memFetch1 a).run r = .op (.fetch a) r fun v : Byte => .done (v, r) := rfl

@[simp] theorem memRead1_run (a : Addr) (r : Regs) :
    (memRead1 a).run r = .op (.read a) r fun v : Byte => .done (v, r) := rfl

@[simp] theorem memWrite1_run (a : Addr) (v : Byte) (r : Regs) :
    (memWrite1 a v).run r = .op (.write a v) r fun _ => .done ((), r) := rfl

def modifyP (f : Byte → Byte) : Cpu Unit := modify fun r => { r with P := f r.P }

/-- Little-endian pair of bytes. -/
def word (lo hi : Byte) : Addr := lo.setWidth 16 ||| (hi.setWidth 16 <<< 8)

/-- How many operand bytes a fetch reads after the opcode. -/
def Addressing.operands : Addressing → Nat
  | .immediate | .zp | .zpx | .zpy | .izp | .izpx | .izpy | .relative => 1
  | .absolute | .absolutex | .absolutey | .iabsolute | .iabsolutex | .zpr => 2
  | .implied | .accumulator => 0

/-- Operand bytes the mode does not have are never read; they are zero here. -/
def instructionFetchEmu (addr : Addr) : Cpu Instruction := do
  let opcode ← memFetch1 addr
  match (instructionDecode opcode).mode.operands with
  | 0 => return ⟨opcode, 0, 0⟩
  | 1 =>
    let op1 ← memFetch1 (addr + 1)
    return ⟨opcode, op1, 0⟩
  | _ =>
    let op1 ← memFetch1 (addr + 1)
    let op2 ← memFetch1 (addr + 2)
    return ⟨opcode, op1, op2⟩

def instructionStatusAdjustZero (regval : Byte) : Cpu Unit :=
  modifyP (setFlag pZero (regval == 0))

def instructionStatusAdjustNegative (regval : Byte) : Cpu Unit :=
  modifyP (setFlag pNegative (regval &&& pNegative != 0))

def instructionDataAddress (id : InstrDef) (i : Instruction) : Cpu Addr := do
  let r ← get
  match id.mode with
  | .zp | .zpr => return i.op1.setWidth 16
  | .zpx => return (i.op1 + r.X).setWidth 16
  | .zpy => return (i.op1 + r.Y).setWidth 16
  | .izp =>
    let lo ← memRead1 (i.op1.setWidth 16)
    let hi ← memRead1 ((i.op1 + 1).setWidth 16)
    return word lo hi
  | .izpx =>
    let lo ← memRead1 ((i.op1 + r.X).setWidth 16)
    let hi ← memRead1 ((i.op1 + r.X + 1).setWidth 16)
    return word lo hi
  | .izpy =>
    let lo ← memRead1 (i.op1.setWidth 16)
    let hi ← memRead1 ((i.op1 + 1).setWidth 16)
    return word lo hi + r.Y.setWidth 16
  | .absolute => return i.op1.setWidth 16 + (i.op2.setWidth 16 <<< 8)
  | .absolutex => return i.op1.setWidth 16 + (i.op2.setWidth 16 <<< 8) + r.X.setWidth 16
  | .absolutey => return i.op1.setWidth 16 + (i.op2.setWidth 16 <<< 8) + r.Y.setWidth 16
  | .iabsolute | .iabsolutex | .relative | .implied | .immediate | .accumulator =>
    panic
    return 0

def instructionDataRead1 (id : InstrDef) (i : Instruction) : Cpu Byte := do
  if id.mode = .accumulator then
    return (← get).A
  else if id.mode = .immediate then
    return i.op1
  else
    memRead1 (← instructionDataAddress id i)

def instructionDataWrite1 (id : InstrDef) (i : Instruction) (val : Byte) : Cpu Unit := do
  if id.mode = .accumulator then
    modify fun r => { r with A := val }
  else if id.mode = .immediate then
    panic
  else
    memWrite1 (← instructionDataAddress id i) val

def stackPush (val : Byte) : Cpu Unit := do
  memWrite1 (stackStart + (← get).SP.setWidth 16) val
  modify fun r => { r with SP := r.SP - 1 }

def stackPop : Cpu Byte := do
  modify fun r => { r with SP := r.SP + 1 }
  memRead1 (stackStart + (← get).SP.setWidth 16)

def programCounterIncrement (id : InstrDef) : Cpu Unit :=
  modify fun r => { r with PC := r.PC + BitVec.ofNat 16 id.size }

def programCounterBranch (boffset : Byte) : Cpu Unit :=
  modify fun r => { r with PC := r.PC + (boffset.signExtend 16 + 2) }

end Rk65c02
