import Rk65c02.Resumption

/-! Registers, run states and the requests an instruction makes of the emulator.
An instruction is a program over the registers; everything else it needs, memory
above all, it asks of its environment. A request carries the registers in force
when it is made, since a fault may leave the instruction there. -/

namespace Rk65c02

open Resumption

abbrev Byte := BitVec 8
abbrev Addr := BitVec 16
abbrev PAddr := BitVec 32
abbrev Word := BitVec 64

structure Regs where
  A : Byte
  X : Byte
  Y : Byte
  PC : Addr
  SP : Byte
  P : Byte
  deriving DecidableEq, Repr

def pCarry : Byte := 0x01
def pZero : Byte := 0x02
def pIrqDisable : Byte := 0x04
def pDecimal : Byte := 0x08
def pBreak : Byte := 0x10
def pUndefined : Byte := 0x20
def pSignOverflow : Byte := 0x40
def pNegative : Byte := 0x80

def stackStart : Addr := 0x0100
def vectorIrq : Addr := 0xFFFE

inductive EmuState
  | stopped | running | stepping
  deriving DecidableEq, Repr

inductive StopReason
  | stp | wai | breakpoint | watchpoint | stepped | host | emuerror
  deriving DecidableEq, Repr

/-- MMU access class. -/
inductive Access
  | fetch | read | write
  deriving DecidableEq, Repr

structure Instruction where
  opcode : Byte
  op1 : Byte
  op2 : Byte
  deriving DecidableEq, Repr

/-- What the code of one instruction asks of the emulator. -/
inductive Op
  | fetch (a : Addr)
  | read (a : Addr)
  | write (a : Addr) (v : Byte)
  | irq
  | ackIrq
  | stop (reason : StopReason)
  | panic
  | isBreakpoint (pc : Addr)
  | disassemble (pc : Addr)
  | reexec
  | trace (tpc : Addr) (i : Instruction) (r : Regs)
  deriving DecidableEq, Repr

@[reducible] def Op.Ret : Op → Type
  | fetch _ | read _ => Byte
  | irq | isBreakpoint _ | reexec => Bool
  | write _ _ | ackIrq | stop _ | panic | disassemble _ | trace _ _ _ => Unit

abbrev CpuTree := Tree Op Op.Ret Regs

/-- The code of an instruction: a program over the registers. -/
abbrev Cpu := StateT Regs CpuTree

abbrev CpuHandler (S : Type) := Handler Op Op.Ret Regs S

namespace Cpu

def request (o : Op) : Cpu o.Ret := fun r => .op o r fun v => .done (v, r)

@[simp] theorem run_request (o : Op) (r : Regs) :
    (request o).run r = .op o r fun v => .done (v, r) := rfl

def stuck {α : Type} : Cpu α := fun _ => .stuck

@[simp] theorem run_stuck {α : Type} (r : Regs) : (stuck : Cpu α).run r = .stuck := rfl

@[simp] theorem run_ite {α : Type} (c : Prop) [Decidable c] (x y : Cpu α) (r : Regs) :
    (if c then x else y).run r = if c then x.run r else y.run r := by
  split <;> rfl

end Cpu

/-- The source's `if (c) P |= m; else P &= ~m;`. -/
def setFlag (m : Byte) (c : Bool) (P : Byte) : Byte := if c then P ||| m else P &&& ~~~m

def Regs.flag (r : Regs) (m : Byte) : Bool := r.P &&& m != 0

end Rk65c02
