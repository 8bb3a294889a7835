import Rk65c02.Instruction
import Mathlib.Logic.Function.Basic

/-! The programmer's model of the processor: registers, six flags and memory, with each instruction
told as arithmetic on numbers. -/

namespace Rk65c02

structure Flags where
  n : Bool
  v : Bool
  d : Bool
  i : Bool
  z : Bool
  c : Bool
  deriving DecidableEq, Repr

/-- The status byte, with the break bit `b` and the unused bit set. -/
def Flags.byte (f : Flags) (b : Bool) : Byte :=
  BitVec.ofNat 8 (128 * f.n.toNat + 64 * f.v.toNat + 32 + 16 * b.toNat + 8 * f.d.toNat + 4 *
    f.i.toNat + 2 * f.z.toNat +
    f.c.toNat)

def Flags.ofByte (p : Byte) : Flags :=
  ⟨p.getLsbD 7, p.getLsbD 6, p.getLsbD 3, p.getLsbD 2, p.getLsbD 1, p.getLsbD 0⟩

/-- The state of the processor. A store to an address that is not in `ram` is lost. -/
structure Model where
  A : Byte
  X : Byte
  Y : Byte
  SP : Byte
  PC : Addr
  flags : Flags
  ram : Addr → Bool
  mem : Addr → Byte
  halt : Option StopReason

/-- The number that two decimal digits stand for. -/
def digits (b : Byte) : Nat := 10 * (b.toNat / 16) + b.toNat % 16

/-- The last two decimal digits of a number. -/
def lastDigits (n : Nat) : Byte := BitVec.ofNat 8 (16 * (n / 10 % 10) + n % 10)

namespace Model

section Operands

variable (s : Model) (i : Instruction)

def store (a : Addr) (v : Byte) : Model := { s with mem := if s.ram a then Function.update s.mem a v else s.mem }

def zeroPage (n : Nat) : Addr := BitVec.ofNat 16 (n % 256)

/-- The address stored at a place of the zero page. -/
def pointer (n : Nat) : Nat := (s.mem (zeroPage n)).toNat + 256 * (s.mem (zeroPage (n + 1))).toNat

def target : Nat := i.op1.toNat + 256 * i.op2.toNat

/-- The effective address, before it is reduced to 16 bits. -/
def address : Addressing → Nat
  | .zpx => (i.op1.toNat + s.X.toNat) % 256
  | .zpy => (i.op1.toNat + s.Y.toNat) % 256
  | .izp => s.pointer i.op1.toNat
  | .izpx => s.pointer (i.op1.toNat + s.X.toNat)
  | .izpy => s.pointer i.op1.toNat + s.Y.toNat
  | .absolute | .iabsolute => target i
  | .absolutex | .iabsolutex => target i + s.X.toNat
  | .absolutey => target i + s.Y.toNat
  | .zp | .zpr | .relative | .implied | .immediate | .accumulator => i.op1.toNat

def place (mode : Addressing) : Addr := BitVec.ofNat 16 (s.address i mode)

def operand : Addressing → Byte
  | .accumulator => s.A
  | .immediate => i.op1
  | mode => s.mem (s.place i mode)

def putOperand (v : Byte) : Addressing → Model
  | .accumulator => { s with A := v }
  | mode => s.store (s.place i mode) v

end Operands

section Effects

variable (s : Model)

/-- The zero and negative flags after a result. -/
def result (v : Byte) : Model := { s with flags := { s.flags with z := v = 0, n := 128 ≤ v.toNat } }

def setA (v : Byte) : Model := { s with A := v }.result v

def setX (v : Byte) : Model := { s with X := v }.result v

def setY (v : Byte) : Model := { s with Y := v }.result v

def carry (c : Bool) : Model := { s with flags := { s.flags with c := c } }

def overflow (v : Bool) : Model := { s with flags := { s.flags with v := v } }

/-- The sum with the carry, in decimal or in binary. -/
def sum (m : Byte) : Nat :=
  if s.flags.d then digits s.A + digits m + s.flags.c.toNat else s.A.toNat + m.toNat + s.flags.c.toNat

/-- Operands of one sign with a sum of the other: `V` is that of the binary number also in decimal mode. -/
def add (m : Byte) : Model :=
  let n := s.sum m
  let v := s.A.msb == m.msb && decide (128 ≤ n % 256) != s.A.msb
  let r := if s.flags.d then lastDigits (n % 256) else BitVec.ofNat 8 n
  (s.overflow v |>.carry (if s.flags.d then 99 < n else 255 < n)).setA r

/-- The difference, less one if there is no carry. -/
def difference (m : Byte) : Int :=
  if s.flags.d then (digits s.A : Int) - digits m - (!s.flags.c).toNat
    else (s.A.toNat : Int) - m.toNat - (!s.flags.c).toNat

def subtract (m : Byte) : Model :=
  let n := s.difference m
  let v := s.A.msb != m.msb && decide (128 ≤ n % 256) != s.A.msb
  let r := if s.flags.d then lastDigits (n % 100).toNat else BitVec.ofInt 8 n
  (s.overflow v |>.carry (if s.flags.d then 0 ≤ n ∧ n ≤ 99 else 0 ≤ n)).setA r

def compareWith (reg m : Byte) : Model := (s.result (reg - m)).carry (m.toNat ≤ reg.toNat)

def push (v : Byte) : Model := { s.store (BitVec.ofNat 16 (256 + s.SP.toNat)) v with SP := s.SP - 1 }

def pull : Model := { s with SP := s.SP + 1 }

/-- The byte at the stack pointer, the last one pulled. -/
def top : Byte := s.mem (BitVec.ofNat 16 (256 + s.SP.toNat))

def pushAddr (a : Addr) : Model := (s.push (BitVec.ofNat 8 (a.toNat / 256))).push (BitVec.ofNat 8 a.toNat)

/-- Go to the number `n`, from a pair of bytes. -/
def goto (n : Int) : Model := { s with PC := BitVec.ofInt 16 n }

/-- Pull an address and go there, or `k` bytes further. -/
def goBack (k : Nat) : Model := s.pull.pull.goto (s.pull.top.toNat + 256 * s.pull.pull.top.toNat + k)

def wordAt (n : Nat) : Nat := (s.mem (BitVec.ofNat 16 n)).toNat + 256 * (s.mem (BitVec.ofNat 16 (n + 1))).toNat

def branchIf (taken : Bool) (offset : Byte) : Model := if taken then s.goto (s.PC.toNat + offset.toInt) else s

/-- Enter the interrupt handler. -/
def interrupt (b : Bool) : Model :=
  let t := (s.pushAddr s.PC).push (s.flags.byte b)
  { t with flags := { s.flags with i := true, d := false } }.goto (t.wordAt 0xFFFE)

end Effects

section Instructions

variable (s : Model) (i : Instruction) (mode : Addressing)

def replace (v : Byte) : Model := (s.putOperand i v mode).result v

/-- `ASL` and `ROL`: the carry is what does not fit. -/
def shiftLeft (n : Nat) : Model := (s.carry (256 ≤ n)).replace i mode (BitVec.ofNat 8 n)

/-- `LSR` and `ROR`: the carry is the remainder. -/
def shiftRight (n : Nat) : Model := (s.carry (n % 2 = 1)).replace i mode (BitVec.ofNat 8 (n / 2))

def testZero (m : Byte) : Model := { s with flags := { s.flags with z := s.A &&& m = 0 } }

def testBits (m : Byte) : Model :=
  let s := s.testZero m
  if mode = .immediate then s else { s with flags := { s.flags with n := 128 ≤ m.toNat, v := m.getLsbD 6 } }

def setFlags (f : Flags → Flags) : Model := { s with flags := f s.flags }

/-- What an instruction does once `PC` stands behind it. -/
def perform : Emul → Model
  | .adc => s.add (s.operand i mode)
  | .and => s.setA (s.A &&& s.operand i mode)
  | .asl => s.shiftLeft i mode (2 * (s.operand i mode).toNat)
  | .bbr n => s.branchIf (!(s.operand i mode).getLsbD n) i.op2
  | .bbs n => s.branchIf ((s.operand i mode).getLsbD n) i.op2
  | .bcc => s.branchIf (!s.flags.c) i.op1
  | .bcs => s.branchIf s.flags.c i.op1
  | .beq => s.branchIf s.flags.z i.op1
  | .bit => s.testBits mode (s.operand i mode)
  | .bmi => s.branchIf s.flags.n i.op1
  | .bne => s.branchIf (!s.flags.z) i.op1
  | .bpl => s.branchIf (!s.flags.n) i.op1
  | .bra => s.branchIf true i.op1
  | .brk => s.interrupt true
  | .bvc => s.branchIf (!s.flags.v) i.op1
  | .bvs => s.branchIf s.flags.v i.op1
  | .clc => s.setFlags ({ · with c := false })
  | .cld => s.setFlags ({ · with d := false })
  | .cli => s.setFlags ({ · with i := false })
  | .clv => s.setFlags ({ · with v := false })
  | .cmp => s.compareWith s.A (s.operand i mode)
  | .cpx => s.compareWith s.X (s.operand i mode)
  | .cpy => s.compareWith s.Y (s.operand i mode)
  | .dec => s.replace i mode (s.operand i mode - 1)
  | .dex => s.setX (s.X - 1)
  | .dey => s.setY (s.Y - 1)
  | .eor => s.setA (s.A ^^^ s.operand i mode)
  | .inc => s.replace i mode (s.operand i mode + 1)
  | .invalid => s
  | .inx => s.setX (s.X + 1)
  | .iny => s.setY (s.Y + 1)
  | .jmp => if mode = .absolute then s.goto (target i) else s.goto (s.wordAt (s.address i mode))
  | .jsr => (s.pushAddr (s.PC - 1)).goto (target i)
  | .lda => s.setA (s.operand i mode)
  | .ldx => s.setX (s.operand i mode)
  | .ldy => s.setY (s.operand i mode)
  | .lsr => s.shiftRight i mode (s.operand i mode).toNat
  | .nop => s
  | .ora => s.setA (s.A ||| s.operand i mode)
  | .pha => s.push s.A
  | .php => s.push (s.flags.byte true)
  | .phx => s.push s.X
  | .phy => s.push s.Y
  | .pla => s.pull.setA s.pull.top
  | .plp => s.pull.setFlags fun _ => .ofByte s.pull.top
  | .plx => s.pull.setX s.pull.top
  | .ply => s.pull.setY s.pull.top
  | .rmb n => s.putOperand i (s.operand i mode &&& ~~~BitVec.twoPow 8 n) mode
  | .rol => s.shiftLeft i mode (2 * (s.operand i mode).toNat + s.flags.c.toNat)
  | .ror => s.shiftRight i mode ((s.operand i mode).toNat + 256 * s.flags.c.toNat)
  | .rti => (s.pull.setFlags fun _ => .ofByte s.pull.top).goBack 0
  | .rts => s.goBack 1
  | .sbc => s.subtract (s.operand i mode)
  | .sec => s.setFlags ({ · with c := true })
  | .sed => s.setFlags ({ · with d := true })
  | .sei => s.setFlags ({ · with i := true })
  | .smb n => s.putOperand i (s.operand i mode ||| BitVec.twoPow 8 n) mode
  | .sta => s.putOperand i s.A mode
  | .stp => { s with halt := some .stp }
  | .stx => s.putOperand i s.X mode
  | .sty => s.putOperand i s.Y mode
  | .stz => s.putOperand i 0 mode
  | .tax => s.setX s.A
  | .tay => s.setY s.A
  | .trb => (s.testZero (s.operand i mode)).putOperand i (s.operand i mode &&& ~~~s.A) mode
  | .tsb => (s.testZero (s.operand i mode)).putOperand i (s.operand i mode ||| s.A) mode
  | .tsx => s.setX s.SP
  | .txa => s.setA s.X
  | .txs => { s with SP := s.X }
  | .tya => s.setA s.Y
  | .wai => { s with halt := some .wai }

end Instructions

/-- The instruction at `PC`, with the operand bytes that its mode has. -/
def fetched (s : Model) : Instruction :=
  let n := (instructionDecode (s.mem s.PC)).mode.operands
  ⟨s.mem s.PC, if 1 ≤ n then s.mem (s.PC + 1) else 0, if 2 ≤ n then s.mem (s.PC + 2) else 0⟩

/-- One instruction. -/
def instruction (s : Model) : Model :=
  let id := instructionDecode s.fetched.opcode
  { s with PC := s.PC + BitVec.ofNat 16 id.size }.perform s.fetched id.mode id.emul

/-- One step, with the interrupt line as it stands; a halted processor stays as it is. -/
def step (line : Bool) (s : Model) : Model :=
  if s.halt.isSome then s else (if line && !s.flags.i then s.interrupt false else s).instruction

end Model

end Rk65c02
