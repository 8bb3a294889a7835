import Rk65c02.Instruction

/-! The interpreter: emulation of every instruction, interrupt entry and the execution
of one instruction. -/

namespace Rk65c02

open Cpu

def fromBcd (val : Byte) : Byte := 10 * (val >>> 4) + (0x0F &&& val)

def toBcdLoop : Nat → Byte → Nat → Byte → Byte
  | 0, _, _, bcd => bcd
  | n + 1, val, shift, bcd =>
    if val = 0 then bcd else toBcdLoop n (val / 10) (shift + 4) (bcd + ((val % 10) <<< shift))

/-- A byte has at most three decimal digits, so the loop ends after three rounds. -/
def toBcd (val : Byte) : Byte := toBcdLoop 3 val 0 0

/-- Bit `n` of a byte, the source's `BIT`. -/
def bit (val : Byte) (n : Nat) : Bool := val &&& ((1 : Byte) <<< n) != 0

def adjustZN (v : Byte) : Cpu Unit := do
  instructionStatusAdjustZero v
  instructionStatusAdjustNegative v

/-- The decimal and binary sums of `emul_adc`, before the carry. -/
def adcSum (decimal : Bool) (a arg : Byte) : Addr :=
  if decimal then (fromBcd a).setWidth 16 + (fromBcd arg).setWidth 16
  else a.setWidth 16 + arg.setWidth 16

def signOverflow (a arg : Byte) (res : Addr) : Bool :=
  (a.setWidth 16 ^^^ res) &&& (arg.setWidth 16 ^^^ res) &&& 0x80 != 0

def emulAdc (id : InstrDef) (i : Instruction) : Cpu Unit := do
  let arg ← instructionDataRead1 id i
  let r ← get
  let res := adcSum (r.flag pDecimal) r.A arg
  let res := if r.flag pCarry then res + 1 else res
  modifyP (setFlag pSignOverflow (signOverflow r.A arg res))
  if (← get).flag pDecimal then
    modifyP (setFlag pCarry (99 < res))
  else
    modifyP (setFlag pCarry (0xFF < res))
  let a := if (← get).flag pDecimal then toBcd (res.setWidth 8) else res.setWidth 8
  modify fun r => { r with A := a }
  adjustZN a

def emulAnd (id : InstrDef) (i : Instruction) : Cpu Unit := do
  let v ← instructionDataRead1 id i
  modify fun r => { r with A := r.A &&& v }
  adjustZN (← get).A

def emulAsl (id : InstrDef) (i : Instruction) : Cpu Unit := do
  let val ← instructionDataRead1 id i
  modifyP (setFlag pCarry (val &&& 0x80 != 0))
  let val := val <<< 1
  adjustZN val
  instructionDataWrite1 id i val

def bitBranch (id : InstrDef) (i : Instruction) (taken : Bool) : Cpu Unit :=
  if taken then modify fun r => { r with PC := r.PC + (i.op2.signExtend 16 + 3) }
  else programCounterIncrement id

def emulBbr (id : InstrDef) (i : Instruction) (n : Nat) : Cpu Unit := do
  let val ← instructionDataRead1 id i
  bitBranch id i (!bit val n)

def emulBbs (id : InstrDef) (i : Instruction) (n : Nat) : Cpu Unit := do
  let val ← instructionDataRead1 id i
  bitBranch id i (bit val n)

def emulBit (id : InstrDef) (i : Instruction) : Cpu Unit := do
  let v ← instructionDataRead1 id i
  modify fun r => { r with P := setFlag pZero (r.A &&& v == 0) r.P }
  if id.mode ≠ .immediate then
    let mem ← instructionDataRead1 id i
    modifyP (setFlag pSignOverflow (bit mem 6))
    modifyP (setFlag pNegative (bit mem 7))

/-- The conditional branches: taken when the flag has the given value. -/
def branchIf (m : Byte) (value : Bool) (id : InstrDef) (i : Instruction) : Cpu Unit := do
  if (← get).flag m = value then programCounterBranch i.op1 else programCounterIncrement id

def emulBcc := branchIf pCarry false
def emulBcs := branchIf pCarry true
def emulBeq := branchIf pZero true
def emulBmi := branchIf pNegative true
def emulBne := branchIf pZero false
def emulBpl := branchIf pNegative false
def emulBvc := branchIf pSignOverflow false
def emulBvs := branchIf pSignOverflow true

def emulBra (i : Instruction) : Cpu Unit := programCounterBranch i.op1

/-- Interrupt entry, shared by the hardware line and `BRK`. -/
def irq : Cpu Unit := do
  stackPush ((← get).PC >>> 8 |>.setWidth 8)
  stackPush ((← get).PC &&& 0xFF |>.setWidth 8)
  stackPush (← get).P
  modifyP (· ||| pIrqDisable)
  modifyP (· &&& ~~~pDecimal)
  modifyP (· &&& ~~~pBreak)
  let lo ← memRead1 vectorIrq
  modify fun r => { r with PC := lo.setWidth 16 }
  let hi ← memRead1 (vectorIrq + 1)
  modify fun r => { r with PC := r.PC ||| (hi.setWidth 16 <<< 8) }
  request .ackIrq

def emulBrk : Cpu Unit := do
  modify fun r => { r with PC := r.PC + 2 }
  modifyP (· ||| pBreak)
  irq

def clearFlag (m : Byte) : Cpu Unit := modifyP (· &&& ~~~m)

def raiseFlag (m : Byte) : Cpu Unit := modifyP (· ||| m)

/-- `CMP`, `CPX` and `CPY` differ in the register they compare. -/
def compare (reg : Regs → Byte) (id : InstrDef) (i : Instruction) : Cpu Unit := do
  let val ← instructionDataRead1 id i
  adjustZN (reg (← get) - val)
  modify fun r => { r with P := setFlag pCarry (!decide (reg r < val)) r.P }

def emulCmp := compare Regs.A
def emulCpx := compare Regs.X
def emulCpy := compare Regs.Y

/-- `INC` and `DEC`: the store comes before the flags. -/
def modifyMem (f : Byte → Byte) (id : InstrDef) (i : Instruction) : Cpu Unit := do
  let val ← instructionDataRead1 id i
  instructionDataWrite1 id i (f val)
  adjustZN (f val)

def emulDec := modifyMem (· - 1)
def emulInc := modifyMem (· + 1)

/-- An update of the registers whose value `v` sets Z and N. -/
def setReg (f : Regs → Regs) (v : Regs → Byte) : Cpu Unit := do
  modify f
  adjustZN (v (← get))

def emulDex := setReg (fun r => { r with X := r.X - 1 }) Regs.X
def emulDey := setReg (fun r => { r with Y := r.Y - 1 }) Regs.Y
def emulInx := setReg (fun r => { r with X := r.X + 1 }) Regs.X
def emulIny := setReg (fun r => { r with Y := r.Y + 1 }) Regs.Y
def emulTax := setReg (fun r => { r with X := r.A }) Regs.X
def emulTay := setReg (fun r => { r with Y := r.A }) Regs.Y
def emulTsx := setReg (fun r => { r with X := r.SP }) Regs.X
def emulTxa := setReg (fun r => { r with A := r.X }) Regs.A
def emulTya := setReg (fun r => { r with A := r.Y }) Regs.A

def emulTxs : Cpu Unit := modify fun r => { r with SP := r.X }

def emulEor (id : InstrDef) (i : Instruction) : Cpu Unit := do
  let v ← instructionDataRead1 id i
  modify fun r => { r with A := r.A ^^^ v }
  adjustZN (← get).A

def emulOra (id : InstrDef) (i : Instruction) : Cpu Unit := do
  let v ← instructionDataRead1 id i
  modify fun r => { r with A := r.A ||| v }
  adjustZN (← get).A

def emulJmp (id : InstrDef) (i : Instruction) : Cpu Unit := do
  match id.mode with
  | .absolute => modify fun r => { r with PC := i.op1.setWidth 16 + (i.op2.setWidth 16 <<< 8) }
  | .iabsolute =>
    let iaddr : Addr := i.op1.setWidth 16 + (i.op2.setWidth 16 <<< 8)
    let lo ← memRead1 iaddr
    let hi ← memRead1 (iaddr + 1)
    modify fun r => { r with PC := word lo hi }
  | .iabsolutex =>
    let iaddr : Addr := i.op1.setWidth 16 + (i.op2.setWidth 16 <<< 8) + (← get).X.setWidth 16
    let lo ← memRead1 iaddr
    let hi ← memRead1 (iaddr + 1)
    modify fun r => { r with PC := word lo hi }
  | _ => stuck

def emulJsr (i : Instruction) : Cpu Unit := do
  let retaddr := (← get).PC + 2
  stackPush (retaddr >>> 8 |>.setWidth 8)
  stackPush (retaddr &&& 0xFF |>.setWidth 8)
  modify fun r => { r with PC := i.op1.setWidth 16 + (i.op2.setWidth 16 <<< 8) }

/-- `LDA`, `LDX` and `LDY` differ in the register they load. -/
def load (put : Byte → Regs → Regs) (id : InstrDef) (i : Instruction) : Cpu Unit := do
  let v ← instructionDataRead1 id i
  modify (put v)
  adjustZN v

def emulLda := load fun v r => { r with A := v }
def emulLdx := load fun v r => { r with X := v }
def emulLdy := load fun v r => { r with Y := v }

def emulLsr (id : InstrDef) (i : Instruction) : Cpu Unit := do
  let val ← instructionDataRead1 id i
  modifyP (setFlag pCarry (val &&& 0x01 != 0))
  let val := val >>> 1
  adjustZN val
  instructionDataWrite1 id i val

def emulPha : Cpu Unit := do stackPush (← get).A
def emulPhp : Cpu Unit := do stackPush ((← get).P ||| pBreak ||| pUndefined)
def emulPhx : Cpu Unit := do stackPush (← get).X
def emulPhy : Cpu Unit := do stackPush (← get).Y

/-- `PLA`, `PLX` and `PLY` differ in the register they pull. -/
def pull (put : Byte → Regs → Regs) : Cpu Unit := do
  let v ← stackPop
  modify (put v)
  adjustZN v

def emulPla := pull fun v r => { r with A := v }
def emulPlx := pull fun v r => { r with X := v }
def emulPly := pull fun v r => { r with Y := v }

def emulPlp : Cpu Unit := do
  let v ← stackPop
  modifyP fun _ => (v ||| pUndefined) &&& ~~~pBreak

def emulRti : Cpu Unit := do
  let p ← stackPop
  modifyP fun _ => (p ||| pUndefined) &&& ~~~pBreak
  let lo ← stackPop
  let hi ← stackPop
  modify fun r => { r with PC := word lo hi }

def emulRts : Cpu Unit := do
  let lo ← stackPop
  let hi ← stackPop
  modify fun r => { r with PC := word lo hi }

def emulRmb (id : InstrDef) (i : Instruction) (n : Nat) : Cpu Unit := do
  let val ← instructionDataRead1 id i
  instructionDataWrite1 id i (val &&& ~~~((1 : Byte) <<< n))

def emulSmb (id : InstrDef) (i : Instruction) (n : Nat) : Cpu Unit := do
  let val ← instructionDataRead1 id i
  instructionDataWrite1 id i (val ||| ((1 : Byte) <<< n))

def emulRol (id : InstrDef) (i : Instruction) : Cpu Unit := do
  let val ← instructionDataRead1 id i
  let ncarry := val &&& 0x80 != 0
  let val := val <<< 1
  let val := if (← get).flag pCarry then val ||| 0x01 else val &&& ~~~0x01
  modifyP (setFlag pCarry ncarry)
  adjustZN val
  instructionDataWrite1 id i val

def emulRor (id : InstrDef) (i : Instruction) : Cpu Unit := do
  let val ← instructionDataRead1 id i
  let ncarry := val &&& 0x01 != 0
  let val := val >>> 1
  let val := if (← get).flag pCarry then val ||| 0x80 else val &&& ~~~0x80
  modifyP (setFlag pCarry ncarry)
  adjustZN val
  instructionDataWrite1 id i val

/-- The decimal and binary differences of `emul_sbc`, before the borrow. -/
def sbcDiff (decimal : Bool) (a arg : Byte) : Addr :=
  if decimal then (fromBcd a).setWidth 16 - (fromBcd arg).setWidth 16
  else a.setWidth 16 - arg.setWidth 16

/-- The decimal digits of a difference; `%` in C rounds towards zero. -/
def sbcBcd (res : Addr) : Byte :=
  let v := (res.toInt + 100).tmod 100
  let v := if v < 0 then v + 100 else v
  toBcd (BitVec.ofInt 8 v)

def emulSbc (id : InstrDef) (i : Instruction) : Cpu Unit := do
  let arg ← instructionDataRead1 id i
  let r ← get
  let res := sbcDiff (r.flag pDecimal) r.A arg
  let res := if r.flag pCarry then res else res - 1
  modifyP (setFlag pSignOverflow (signOverflow r.A (0xFF - arg) res))
  if (← get).flag pDecimal then
    modifyP (setFlag pCarry (!(decide (99 < res) || res &&& 0xFF00 != 0)))
  else
    modifyP (setFlag pCarry (res &&& 0xFF00 == 0))
  let a := if (← get).flag pDecimal then sbcBcd res else res.setWidth 8
  modify fun r => { r with A := a }
  adjustZN a

/-- The stores: the value is a function of the registers. -/
def store (v : Regs → Byte) (id : InstrDef) (i : Instruction) : Cpu Unit := do
  instructionDataWrite1 id i (v (← get))

def emulSta := store Regs.A
def emulStx := store Regs.X
def emulSty := store Regs.Y
def emulStz := store fun _ => 0

/-- `TRB` and `TSB` differ in the byte they store. -/
def testBits (f : Byte → Byte → Byte) (id : InstrDef) (i : Instruction) : Cpu Unit := do
  let val ← instructionDataRead1 id i
  modify fun r => { r with P := setFlag pZero (r.A &&& val == 0) r.P }
  instructionDataWrite1 id i (f val (← get).A)

def emulTrb := testBits fun val a => val &&& (a ^^^ 0xFF)
def emulTsb := testBits fun val a => val ||| a

def emulStp : Cpu Unit := request (.stop .stp)

def emulWai : Cpu Unit := request (.stop .wai)

/-- What the emulation function of an instruction does. The invalid opcodes only log. -/
def Emul.exec (id : InstrDef) (i : Instruction) : Emul → Cpu Unit
  | adc => emulAdc id i
  | and => emulAnd id i
  | asl => emulAsl id i
  | bbr n => emulBbr id i n
  | bbs n => emulBbs id i n
  | bcc => emulBcc id i
  | bcs => emulBcs id i
  | beq => emulBeq id i
  | bit => emulBit id i
  | bmi => emulBmi id i
  | bne => emulBne id i
  | bpl => emulBpl id i
  | bra => emulBra i
  | brk => emulBrk
  | bvc => emulBvc id i
  | bvs => emulBvs id i
  | clc => clearFlag pCarry
  | cld => clearFlag pDecimal
  | cli => clearFlag pIrqDisable
  | clv => clearFlag pSignOverflow
  | cmp => emulCmp id i
  | cpx => emulCpx id i
  | cpy => emulCpy id i
  | dec => emulDec id i
  | dex => emulDex
  | dey => emulDey
  | eor => emulEor id i
  | inc => emulInc id i
  | invalid => pure ()
  | inx => emulInx
  | iny => emulIny
  | jmp => emulJmp id i
  | jsr => emulJsr i
  | lda => emulLda id i
  | ldx => emulLdx id i
  | ldy => emulLdy id i
  | lsr => emulLsr id i
  | nop => pure ()
  | ora => emulOra id i
  | pha => emulPha
  | php => emulPhp
  | phx => emulPhx
  | phy => emulPhy
  | pla => emulPla
  | plp => emulPlp
  | plx => emulPlx
  | ply => emulPly
  | rmb n => emulRmb id i n
  | rol => emulRol id i
  | ror => emulRor id i
  | rti => emulRti
  | rts => emulRts
  | sbc => emulSbc id i
  | sec => raiseFlag pCarry
  | sed => raiseFlag pDecimal
  | sei => raiseFlag pIrqDisable
  | smb n => emulSmb id i n
  | sta => emulSta id i
  | stp => emulStp
  | stx => emulStx id i
  | sty => emulSty id i
  | stz => emulStz id i
  | tax => emulTax
  | tay => emulTay
  | trb => emulTrb id i
  | tsb => emulTsb id i
  | tsx => emulTsx
  | txa => emulTxa
  | txs => emulTxs
  | tya => emulTya
  | wai => emulWai

def irqAsserted : Cpu Bool := request .irq

def debugPCIsBreakpoint : Cpu Bool := do request (.isBreakpoint (← get).PC)

/-- `disassemble` at `PC`, if runtime disassembly is on. -/
def runtimeDisassemble : Cpu Unit := do request (.disassemble (← get).PC)

/-- Whether the instruction stopped on an MMU fault, so that `PC` must not advance; asking
clears the mark. -/
def faultReexec : Cpu Bool := request .reexec

/-- The instruction at `PC` once it is fetched: its emulation and the step to the next. -/
def execInsn (tpc : Addr) (i : Instruction) : Cpu Unit := do
  let id := instructionDecode i.opcode
  id.emul.exec id i
  if ← faultReexec then
    pure ()
  else if id.modifyPc then
    pure ()
  else
    programCounterIncrement id
  request (.trace tpc i (← get))

/-- Execute a single instruction, entering a pending interrupt first. -/
def exec : Cpu Unit := do
  let tpc := (← get).PC
  if (← irqAsserted) && !(← get).flag pIrqDisable then
    irq
  if ← debugPCIsBreakpoint then
    request (.stop .breakpoint)
  else
    runtimeDisassemble
    let i ← instructionFetchEmu (← get).PC
    execInsn tpc i

end Rk65c02
