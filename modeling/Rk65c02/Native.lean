import Rk65c02.Emulation

/-! Native code. `jit_emit_insn` emits Lightning instructions; here every emitted
instruction is its documented effect, so the definitions below are at once the
emitter and the code it emits. Lightning registers are 64-bit words, undefined until
they are written; C calls clobber `R0`, `R1` and `R2` and see their arguments truncated
to the parameter types. Code that reads an undefined register is stuck. -/

namespace Rk65c02

open Cpu Resumption

/-- What native code asks of the emulator: what the interpreter asks, and fields of the
emulator that only native code reads or writes. -/
inductive NOp
  | base (o : Op)
  | emuState
  | useJit
  | stopRequested
  | irqLine
  | loopBudget
  | setLoopBudget (n : BitVec 32)
  | countInsns (n : Nat)

@[reducible] def NOp.Ret : NOp → Type
  | base o => o.Ret
  | useJit | stopRequested | irqLine => Bool
  | emuState => EmuState
  | loopBudget => BitVec 32
  | setLoopBudget _ | countInsns _ => Unit

/-- Code between the labels of a block, over the guest registers. -/
abbrev NCpu := StateT Regs (Tree NOp NOp.Ret Regs)

namespace NCpu

def request (o : NOp) : NCpu o.Ret := fun r => .op o r fun v => .done (v, r)

@[simp] theorem run_request (o : NOp) (r : Regs) :
    (request o).run r = .op o r fun v => .done (v, r) := rfl

def stuck {α : Type} : NCpu α := fun _ => .stuck

@[simp] theorem run_stuck {α : Type} (r : Regs) : (stuck : NCpu α).run r = .stuck := rfl

/-- C code called from native code. -/
def ofCpu {α : Type} (x : Cpu α) : NCpu α := fun r => (x.run r).lift NOp.base fun _ v => v

end NCpu

/-- `R0` holds the emulator pointer or nothing; `V0` always holds it and is left out. -/
structure LRegs where
  r0 : Bool
  r1 : Option Word
  r2 : Option Word
  v1 : Option Word
  v2 : Option Word
  deriving DecidableEq

inductive LReg
  | r1 | r2 | v1 | v2
  deriving DecidableEq

namespace LRegs

def get (l : LRegs) : LReg → Option Word
  | .r1 => l.r1
  | .r2 => l.r2
  | .v1 => l.v1
  | .v2 => l.v2

def set (l : LRegs) (d : LReg) (w : Word) : LRegs :=
  match d with
  | .r1 => { l with r1 := some w }
  | .r2 => { l with r2 := some w }
  | .v1 => { l with v1 := some w }
  | .v2 => { l with v2 := some w }

/-- What a C call leaves: the callee-saved registers. -/
def clobber (l : LRegs) : LRegs := { l with r0 := false, r1 := none, r2 := none }

/-- The registers at an instruction label. -/
def entry : LRegs := ⟨true, none, none, none, none⟩

end LRegs

abbrev Native := StateT LRegs NCpu

/-- The byte fields of `e->regs`, by their offsets. -/
inductive Off
  | A | X | Y | SP | P
  deriving DecidableEq

namespace Off

def get : Off → Regs → Byte
  | A, r => r.A
  | X, r => r.X
  | Y, r => r.Y
  | SP, r => r.SP
  | P, r => r.P

def put : Off → Byte → Regs → Regs
  | A, v, r => { r with A := v }
  | X, v, r => { r with X := v }
  | Y, v, r => { r with Y := v }
  | SP, v, r => { r with SP := v }
  | P, v, r => { r with P := v }

end Off

section Instructions

def cpu {α : Type} (x : Cpu α) : Native α := StateT.lift (NCpu.ofCpu x)

/-- A field of the emulator. -/
def field (o : NOp) : Native o.Ret := StateT.lift (NCpu.request o)

def halt {α : Type} : Native α := StateT.lift NCpu.stuck

def getReg (s : LReg) : Native Word := do
  match (← get).get s with
  | some w => return w
  | none => halt

def putReg (d : LReg) (w : Word) : Native Unit := modify fun l => l.set d w

/-- Every access through `R0` needs it to hold the emulator. -/
def useR0 : Native Unit := do
  if (← get).r0 then pure () else halt

def jitMovrR0 : Native Unit := modify fun l => { l with r0 := true }

def jitMovi (d : LReg) (w : Word) : Native Unit := putReg d w

def unary (f : Word → Word) (d s : LReg) : Native Unit := do putReg d (f (← getReg s))

def binary (f : Word → Word → Word) (d s t : LReg) : Native Unit := do
  putReg d (f (← getReg s) (← getReg t))

def jitMovr := unary id
def jitAddi (d s : LReg) (w : Word) : Native Unit := unary (· + w) d s
def jitSubi (d s : LReg) (w : Word) : Native Unit := unary (· - w) d s
def jitAndi (d s : LReg) (w : Word) : Native Unit := unary (· &&& w) d s
def jitOri (d s : LReg) (w : Word) : Native Unit := unary (· ||| w) d s
def jitXori (d s : LReg) (w : Word) : Native Unit := unary (· ^^^ w) d s
def jitLshi (d s : LReg) (n : Nat) : Native Unit := unary (· <<< n) d s
def jitRshiU (d s : LReg) (n : Nat) : Native Unit := unary (· >>> n) d s
def jitAddr := binary (· + ·)
def jitSubr := binary (· - ·)
def jitAndr := binary (· &&& ·)
def jitOrr := binary (· ||| ·)
def jitXorr := binary (· ^^^ ·)

def jitLdxiUc (d : LReg) (f : Off) : Native Unit := do
  useR0
  putReg d ((f.get (← cpu get)).setWidth 64)

def jitStxiC (f : Off) (s : LReg) : Native Unit := do
  useR0
  let w ← getReg s
  cpu (modify (f.put (w.setWidth 8)))

def jitLdxiUsPC (d : LReg) : Native Unit := do
  useR0
  putReg d ((← cpu get).PC.setWidth 64)

def jitStxiSPC (s : LReg) : Native Unit := do
  useR0
  let w ← getReg s
  cpu (modify fun r => { r with PC := w.setWidth 16 })

/-- A forward branch over `body`: it is skipped when the test holds. -/
def branchOver (test : Word → Bool) (s : LReg) (body : Native Unit) : Native Unit := do
  if test (← getReg s) then pure () else body

def bnei0 (w : Word) : Bool := w != 0
def beqi0 (w : Word) : Bool := w == 0
def bmci (m w : Word) : Bool := w &&& m == 0
def bmsi (m w : Word) : Bool := w &&& m != 0

end Instructions

/-- A flag mask as an immediate, and its complement as C computes it in an `int`. -/
def imm (m : Byte) : Word := m.setWidth 64

def notImm (m : Byte) : Word := ~~~(m.setWidth 64)

def jitEmitAdvancePc (size : Nat) : Native Unit := do
  jitLdxiUsPC .r1
  jitAddi .r1 .r1 (BitVec.ofNat 64 size)
  jitStxiSPC .r1

def jitEmitUpdateZn : Native Unit := do
  jitLdxiUc .r2 .P
  jitAndi .r2 .r2 (notImm (pZero ||| pNegative))
  branchOver bnei0 .r1 (jitOri .r2 .r2 (imm pZero))
  branchOver (bmci 0x80) .r1 (jitOri .r2 .r2 (imm pNegative))
  jitStxiC .P .r2

def jitEmitBusRead : Native Unit := do
  useR0
  let a ← getReg .r1
  let v ← cpu (memRead1 (a.setWidth 16))
  modify LRegs.clobber
  putReg .r1 (v.setWidth 64)
  jitAndi .r1 .r1 0xFF
  jitMovrR0

def jitEmitBusWrite : Native Unit := do
  useR0
  let a ← getReg .r1
  let v ← getReg .r2
  cpu (memWrite1 (a.setWidth 16) (v.setWidth 8))
  modify LRegs.clobber
  jitMovrR0

/-- A call of a C helper with one byte argument, taken from `R1`. -/
def jitCallByte (f : Byte → Cpu Unit) : Native Unit := do
  useR0
  let v ← getReg .r1
  cpu (f (v.setWidth 8))
  modify LRegs.clobber
  jitMovrR0

/-- Control after the code of one instruction: into the next one, to the label of an
instruction of the block, or back to the dispatcher. -/
inductive Next
  | fall
  | goto (k : Nat)
  | ret
  deriving DecidableEq, Repr

/-- Return to the dispatcher if the instruction disabled the JIT. -/
def jitEmitBailIfJitDisabled : Native Next := do
  useR0
  let u : Bool ← field .useJit
  putReg .r1 (if u then 1 else 0)
  if beqi0 (← getReg .r1) then return .ret else return .fall

def op16 (i : Instruction) : Word := i.op1.setWidth 64 ||| (i.op2.setWidth 64 <<< 8)

/-- The effective address into `R1`; modes that have none are left to the interpreter. -/
def jitEmitEffaddr (mode : Addressing) (i : Instruction) : Option (Native Unit) :=
  match mode with
  | .immediate | .zp => some (jitMovi .r1 (i.op1.setWidth 64))
  | .zpx => some do
    jitLdxiUc .r1 .X
    jitAddi .r1 .r1 (i.op1.setWidth 64)
    jitAndi .r1 .r1 0xFF
  | .zpy => some do
    jitLdxiUc .r1 .Y
    jitAddi .r1 .r1 (i.op1.setWidth 64)
    jitAndi .r1 .r1 0xFF
  | .absolute => some (jitMovi .r1 (op16 i))
  | .absolutex => some do
    jitLdxiUc .r1 .X
    jitAddi .r1 .r1 (op16 i)
  | .absolutey => some do
    jitLdxiUc .r1 .Y
    jitAddi .r1 .r1 (op16 i)
  | .izp => some do
    jitMovi .r1 (i.op1.setWidth 64)
    jitEmitBusRead
    jitMovr .v1 .r1
    jitMovi .r1 ((i.op1 + 1).setWidth 64)
    jitEmitBusRead
    jitLshi .r1 .r1 8
    jitOrr .r1 .r1 .v1
  | .izpx => some do
    jitLdxiUc .r2 .X
    jitAddi .r2 .r2 (i.op1.setWidth 64)
    jitAndi .r2 .r2 0xFF
    jitMovr .r1 .r2
    jitEmitBusRead
    jitMovr .v1 .r1
    jitLdxiUc .r2 .X
    jitAddi .r2 .r2 (i.op1.setWidth 64 + 1)
    jitAndi .r1 .r2 0xFF
    jitEmitBusRead
    jitLshi .r1 .r1 8
    jitOrr .r1 .r1 .v1
  | .izpy => some do
    jitMovi .r1 (i.op1.setWidth 64)
    jitEmitBusRead
    jitMovr .v1 .r1
    jitMovi .r1 ((i.op1 + 1).setWidth 64)
    jitEmitBusRead
    jitLshi .r1 .r1 8
    jitOrr .r1 .r1 .v1
    jitLdxiUc .r2 .Y
    jitAddr .r1 .r1 .r2
  | .accumulator => some (pure ())
  | .implied | .zpr | .relative | .iabsolute | .iabsolutex => none

def jitEmitLoadOperand (mode : Addressing) (i : Instruction) : Option (Native Unit) :=
  (jitEmitEffaddr mode i).map fun code => do
    code
    if mode ≠ .immediate then jitEmitBusRead

def adjustCarry (c : Bool) : Cpu Unit := modifyP (setFlag pCarry c)

/-- The decimal branch of `emul_adc`, called from native code. -/
def doAdcBcd (operand : Byte) : Cpu Unit := do
  let r ← get
  let res := (fromBcd r.A).setWidth 16 + (fromBcd operand).setWidth 16
  let res := if r.flag pCarry then res + 1 else res
  modifyP (setFlag pSignOverflow (signOverflow r.A operand res))
  adjustCarry (99 < res)
  let a := toBcd (res.setWidth 8)
  modify fun r => { r with A := a }
  adjustZN a

/-- The decimal branch of `emul_sbc`, called from native code. -/
def doSbcBcd (operand : Byte) : Cpu Unit := do
  let r ← get
  let res := (fromBcd r.A).setWidth 16 - (fromBcd operand).setWidth 16
  let res := if r.flag pCarry then res else res - 1
  modifyP (setFlag pSignOverflow (signOverflow r.A (0xFF - operand) res))
  adjustCarry (!(decide (99 < res) || res &&& 0xFF00 != 0))
  let a := sbcBcd res
  modify fun r => { r with A := a }
  adjustZN a

end Rk65c02
