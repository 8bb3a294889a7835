import Rk65c02.NativeOperand

/-! The native code of each case follows the emulation function it was written after. -/

namespace Rk65c02

open Resumption Cpu

/-- The native registers at the end of an instruction hold the emulator in `R0`. -/
def Ready : Unit → LRegs → Unit → Regs → Prop := fun _ l _ _ => l.r0 = true

/-- An emulation function and the step to the next instruction. -/
def thenNext (id : InstrDef) (x : Cpu Unit) : Cpu Unit := do
  x
  programCounterIncrement id

section Interpreter

variable (r : Regs)

@[simp] theorem programCounterIncrement_run (id : InstrDef) :
    (programCounterIncrement id).run r = .done ((), { r with PC := r.PC + BitVec.ofNat 16 id.size }) := by
  rfl

@[simp] theorem modifyP_run (f : Byte → Byte) : (modifyP f).run r = .done ((), { r with P := f r.P }) := by
  rfl

attribute [simp] adjustZN_run

end Interpreter

variable {id : InstrDef} {i : Instruction} {code : Native Unit} (r : Regs)

theorem emitNop_follows : Follows (jitEmitAdvancePc id.size) .entry (thenNext id (pure ())) r Ready := by
  simp [Follows, ofCpu_run, thenNext]
  exact .done ⟨rfl, rfl⟩

theorem emitClearFlag_follows (m : Byte) :
    Follows (emitFlag id.size fun d s => jitAndi d s (notImm m)) .entry (thenNext id (clearFlag m)) r Ready := by
  simp [Follows, ofCpu_run, thenNext, clearFlag, emitFlag, zext_and_notImm]
  exact .done ⟨by simp, rfl⟩

theorem emitRaiseFlag_follows (m : Byte) :
    Follows (emitFlag id.size fun d s => jitOri d s (imm m)) .entry (thenNext id (raiseFlag m)) r Ready := by
  simp [Follows, ofCpu_run, thenNext, raiseFlag, emitFlag, zext_or_imm]
  exact .done ⟨by simp, rfl⟩

theorem emitTransfer_follows (dst src : Off) (hd : ∀ v r, dst.get (dst.put v r) = v) :
    Follows (emitTransfer id.size dst src) .entry
      (thenNext id (setReg (fun r => dst.put (src.get r) r) dst.get)) r Ready := by
  simp [Follows, ofCpu_run, thenNext, setReg, emitTransfer, hd]
  exact .done ⟨rfl, rfl⟩

theorem emitTxs_follows : Follows (emitTxs id.size) .entry (thenNext id emulTxs) r Ready := by
  simp [Follows, ofCpu_run, thenNext, emulTxs, emitTxs]
  exact .done ⟨rfl, rfl⟩

theorem emitIncReg_follows (f : Off) (hf : ∀ v r, f.get (f.put v r) = v) :
    Follows (emitStepReg id.size f jitAddi) .entry
      (thenNext id (setReg (fun r => f.put (f.get r + 1) r) f.get)) r Ready := by
  simp [Follows, ofCpu_run, thenNext, setReg, emitStepReg, hf, add_one_mask]
  exact .done ⟨rfl, rfl⟩

theorem emitDecReg_follows (f : Off) (hf : ∀ v r, f.get (f.put v r) = v) :
    Follows (emitStepReg id.size f jitSubi) .entry
      (thenNext id (setReg (fun r => f.put (f.get r - 1) r) f.get)) r Ready := by
  simp [Follows, ofCpu_run, thenNext, setReg, emitStepReg, hf, sub_one_mask]
  exact .done ⟨rfl, rfl⟩

/-- After its operand, code that makes no further request is compared by its end. -/
theorem Follows.operand {y : Byte → Cpu Unit} {x : Native Unit} {l : LRegs}
    (hop : Follows code l (instructionDataRead1 id i) r (ByteIn r))
    (h : ∀ v r2 v1 v2, Follows x ⟨true, some (v.setWidth 64), r2, v1, v2⟩ (y v) r Ready) :
    Follows (code >>= fun _ => x) l (instructionDataRead1 id i >>= y) r Ready := by
  refine hop.bind ?_
  rintro _ ⟨r0, r1, r2, v1, v2⟩ v r' ⟨rfl, hr0, hr1⟩
  obtain rfl : r0 = true := hr0
  obtain rfl : r1 = _ := hr1
  exact h v r2 v1 v2

theorem emitLoad_follows (dst : Off)
    (hop : ∀ l, l.r0 = true → Follows code l (instructionDataRead1 id i) r (ByteIn r)) :
    Follows (emitLoad id.size dst code) .entry (thenNext id (load dst.put id i)) r Ready := by
  unfold emitLoad thenNext load
  rw [bind_assoc]
  refine Follows.operand r (hop _ rfl) ?_
  intro v r2 v1 v2
  simp [Follows, ofCpu_run]
  exact .done ⟨rfl, rfl⟩

/-- The logic operations of the interpreter share their shape. -/
def logicOp (f : Byte → Byte → Byte) (id : InstrDef) (i : Instruction) : Cpu Unit := do
  let v ← instructionDataRead1 id i
  modify fun r => { r with A := f r.A v }
  adjustZN (← get).A

def Logic.apply : Logic → Byte → Byte → Byte
  | and => (· &&& ·)
  | ora => (· ||| ·)
  | eor => (· ^^^ ·)

theorem emitLogic_follows (f : Logic)
    (hop : ∀ l, l.r0 = true → Follows code l (instructionDataRead1 id i) r (ByteIn r)) :
    Follows (emitLogic id.size f code) .entry (thenNext id (logicOp f.apply id i)) r Ready := by
  unfold emitLogic thenNext logicOp
  rw [bind_assoc]
  refine Follows.operand r (hop _ rfl) ?_
  intro v r2 v1 v2
  cases f <;> simp [Follows, ofCpu_run, Logic.apply] <;> exact .done ⟨rfl, rfl⟩

theorem orFlag_cmp (P : Byte) (c z n : Bool) :
    orFlag pNegative n (orFlag pZero z (orFlag pCarry c (P &&& ~~~(pCarry ||| pZero ||| pNegative)))) =
      setFlag pCarry c (setFlag pNegative n (setFlag pZero z P)) := by
  rw [BitVec.or_assoc, orFlag_clear_or (by decide), orFlag_clear_or (by decide), orFlag_clear,
    setFlag_comm (m := pZero) (by decide), setFlag_comm (m := pNegative) (by decide)]

theorem zext_lt (a b : Byte) : decide (a.setWidth 64 < b.setWidth 64) = decide (a < b) := by
  have ha := a.isLt
  have hb := b.isLt
  simp only [BitVec.lt_def, BitVec.toNat_setWidth]
  rw [Nat.mod_eq_of_lt (by omega), Nat.mod_eq_of_lt (by omega)]

theorem emitCmp_follows (reg : Off) (hreg : ∀ v r, reg.get { r with P := v } = reg.get r)
    (hop : ∀ l, l.r0 = true → Follows code l (instructionDataRead1 id i) r (ByteIn r)) :
    Follows (emitCmp id.size reg code) .entry (thenNext id (compare reg.get id i)) r Ready := by
  unfold emitCmp thenNext compare
  rw [bind_assoc]
  refine Follows.operand r (hop _ rfl) ?_
  intro v r2 v1 v2
  have h : orFlag pNegative (!(reg.get r - v &&& 128#8 == 0#8)) (orFlag pZero (!(reg.get r - v != 0#8))
      (orFlag pCarry (!decide (reg.get r < v)) (r.P &&& ~~~(pCarry ||| pZero ||| pNegative)))) =
      setFlag pCarry (!decide (reg.get r < v)) (znFlags (reg.get r - v) r.P) := by
    rw [orFlag_cmp, znFlags]
    simp [bne, pNegative]
  simp [Follows, ofCpu_run, zext_and_notImm, bnei0_zext, bmci_80, sub_mask, zext_lt, hreg, h]
  exact .done ⟨rfl, rfl⟩

/-- The sum with carry that both sides compute, before it is truncated. -/
def addSum (a v : Byte) (c : Bool) : Addr := if c then a.setWidth 16 + v.setWidth 16 + 1
    else a.setWidth 16 + v.setWidth 16

theorem toNat_addSum (a v : Byte) (c : Bool) : (addSum a v c).toNat = a.toNat + v.toNat + c.toNat := by
  have ha := a.isLt
  have hv := v.isLt
  unfold addSum
  cases c <;> simp <;> omega

theorem addSum_zext (a v : Byte) (c : Bool) :
    (if c then a.setWidth 64 + v.setWidth 64 + 1#64 else a.setWidth 64 + v.setWidth 64) =
    (addSum a v c).setWidth 64 := by
  have h := toNat_addSum a v c
  have ha := a.isLt
  have hv := v.isLt
  apply BitVec.eq_of_toNat_eq
  rw [BitVec.toNat_setWidth, h]
  cases c <;> simp

theorem addSum_carry (a v : Byte) (c : Bool) :
    beqi0 ((addSum a v c).setWidth 64 &&& 256#64) = !decide (0xFF < addSum a v c) := by
  have h := toNat_addSum a v c
  have ha := a.isLt
  have hv := v.isLt
  have hc := c.toNat_lt
  have h256 : 256#64 = BitVec.twoPow 64 8 := by decide
  have hbit : ((addSum a v c).setWidth 64).getLsbD 8 = decide (0xFF < addSum a v c) := by
    rw [BitVec.getLsbD_setWidth, BitVec.getLsbD, Nat.testBit_eq_decide_div_mod_eq, h]
    simp only [BitVec.lt_def, h]
    simp
    omega
  rw [h256, BitVec.and_twoPow, hbit]
  cases decide (0xFF < addSum a v c) <;> decide

theorem and80_trunc (x : Addr) : (x &&& 0x80 != 0) = (x.setWidth 8 &&& 128#8 != 0) := by
  have h16 : (0x80 : Addr) = BitVec.twoPow 16 7 := by decide
  have h8 : 128#8 = BitVec.twoPow 8 7 := by decide
  rw [h16, h8, BitVec.and_twoPow, BitVec.and_twoPow]
  rw [BitVec.getLsbD_setWidth]
  cases x.getLsbD 7 <;> decide

theorem beqi0_and (a b : Byte) : beqi0 (a.setWidth 64 &&& b.setWidth 64) = (a &&& b == 0#8) := by
  rw [zext_and, beqi0_zext]
  rfl

theorem beqi0_overflow (a b s : Byte) :
    beqi0 ((a.setWidth 64 ^^^ s.setWidth 64) &&& (b.setWidth 64 ^^^ s.setWidth 64) &&& 128#64) =
      !((a ^^^ s) &&& (b ^^^ s) &&& 128#8 != 0#8) := by
  have h : 128#64 = (128#8).setWidth 64 := by decide
  rw [h, zext_xor, zext_xor, zext_and, beqi0_and]
  simp [bne]

theorem orFlag_add (P : Byte) (c v : Bool) :
    orFlag pSignOverflow v (orFlag pCarry c (P &&& ~~~(pCarry ||| pSignOverflow))) =
      setFlag pCarry c (setFlag pSignOverflow v P) := by
  rw [orFlag_clear_or (by decide), orFlag_clear, setFlag_comm (by decide)]

/-- The registers after a binary addition with carry. -/
def addRegs (r : Regs) (v : Byte) : Regs :=
  let s := addSum r.A v (r.P &&& pCarry != 0)
  let a := s.setWidth 8
  { r with
    A := a
    P := znFlags a (setFlag pCarry (0xFF < s)
      (setFlag pSignOverflow ((r.A ^^^ a) &&& (v ^^^ a) &&& 128#8 != 0#8) r.P)) }

theorem emitAddBinary_run (size : Nat) (v : Byte) (r2 v1 v2 : Option Word) :
    ∃ l, ((emitAddBinary size).run ⟨true, some (v.setWidth 64), r2, v1, v2⟩).run r =
      .done (((), l), { addRegs r v with PC := r.PC + BitVec.ofNat 16 size }) ∧ l.r0 = true := by
  have hs : (if r.P &&& pCarry = 0#8 then r.A.setWidth 64 + v.setWidth 64
      else r.A.setWidth 64 + v.setWidth 64 + 1#64) = (addSum r.A v (r.P &&& pCarry != 0)).setWidth 64 := by
    rw [← addSum_zext]
    by_cases h : r.P &&& pCarry = 0#8 <;> simp [bne, h]
  simp [emitAddBinary, zext_and_notImm, zext_and_imm, beqi0_and, hs, addr_mask_byte, beqi0_overflow, addSum_carry,
    orFlag_add, addRegs]

theorem decimal_setFlag_overflow (P : Byte) (b : Bool) :
    setFlag pSignOverflow b P &&& pDecimal = 0#8 ↔ P &&& pDecimal = 0#8 := by
  rw [setFlag_and (by decide)]

theorem decimal_setFlag_carry (P : Byte) (b : Bool) :
    setFlag pCarry b P &&& pDecimal = 0#8 ↔ P &&& pDecimal = 0#8 := by
  rw [setFlag_and (by decide)]

/-- `emul_adc` after its operand. -/
def adcWith (arg : Byte) : Cpu Unit := do
  let r ← get
  let res := adcSum (r.flag pDecimal) r.A arg
  let res := if r.flag pCarry then res + 1 else res
  modifyP (setFlag pSignOverflow (signOverflow r.A arg res))
  if (← get).flag pDecimal then
    modifyP (setFlag pCarry (99 < res))
  else
    modifyP (setFlag pCarry (0xFF < res))
  let a := if (← get).flag pDecimal then toBcd (res.setWidth 8) else res.setWidth 8
  modify fun r => { r with A := a }
  adjustZN a

theorem emulAdc_eq (id : InstrDef) (i : Instruction) : emulAdc id i = instructionDataRead1 id i >>= adcWith := rfl

theorem signOverflow_eq (a v : Byte) (s : Addr) :
    signOverflow a v s = ((a ^^^ s.setWidth 8) &&& (v ^^^ s.setWidth 8) &&& 128#8 != 0#8) := by
  unfold signOverflow
  rw [and80_trunc]
  simp

theorem adcWith_binary (v : Byte) (hd : r.P &&& pDecimal = 0#8) :
    (adcWith v).run r = .done ((), addRegs r v) := by
  have hs : (if r.P &&& pCarry = 0#8 then r.A.setWidth 16 + v.setWidth 16
      else r.A.setWidth 16 + v.setWidth 16 + 1#16) = addSum r.A v (r.P &&& pCarry != 0) := by
    unfold addSum
    by_cases h : r.P &&& pCarry = 0#8 <;> simp [bne, h]
  simp [adcWith, Regs.flag, decimal_setFlag_overflow, decimal_setFlag_carry, hd, adcSum,
    hs, signOverflow_eq, addRegs]

theorem adcWith_decimal (v : Byte) (hd : r.P &&& pDecimal ≠ 0#8) : (adcWith v).run r = (doAdcBcd v).run r := by
  simp [adcWith, doAdcBcd, adjustCarry, Regs.flag, decimal_setFlag_overflow, decimal_setFlag_carry, hd, adcSum]

/-- `emul_sbc` after its operand. -/
def sbcWith (arg : Byte) : Cpu Unit := do
  let r ← get
  let res := sbcDiff (r.flag pDecimal) r.A arg
  let res := if r.flag pCarry then res else res - 1
  modifyP (setFlag pSignOverflow (signOverflow r.A (0xFF - arg) res))
  if (← get).flag pDecimal then
    modifyP (setFlag pCarry (!(decide (99 < res) || res &&& 0xFF00 != 0)))
  else
    modifyP (setFlag pCarry (res &&& 0xFF00 == 0))
  let a := if (← get).flag pDecimal then sbcBcd res else res.setWidth 8
  modify fun r => { r with A := a }
  adjustZN a

theorem emulSbc_eq (id : InstrDef) (i : Instruction) : emulSbc id i = instructionDataRead1 id i >>= sbcWith := rfl

/-- The difference with borrow of the interpreter. -/
def subDiff (a v : Byte) (c : Bool) : Addr :=
  if c then a.setWidth 16 - v.setWidth 16 else a.setWidth 16 - v.setWidth 16 - 1

theorem subDiff_add (a v : Byte) (c : Bool) : addSum a (~~~v) c = subDiff a v c + 256#16 := by
  have h := toNat_addSum a (~~~v) c
  have ha := a.isLt
  have hv := v.isLt
  apply BitVec.eq_of_toNat_eq
  rw [h, BitVec.toNat_not]
  unfold subDiff
  cases c <;> simp <;> omega

theorem subDiff_trunc (a v : Byte) (c : Bool) : (addSum a (~~~v) c).setWidth 8 = (subDiff a v c).setWidth 8 := by
  rw [subDiff_add, BitVec.setWidth_add _ _ (by decide)]
  simp

theorem high_eq_zero (x : Addr) : (x &&& 65280#16 == 0#16) = decide (x.toNat < 256) := by
  have hor : x = x &&& 65280#16 ||| x &&& 255#16 := by
    rw [← BitVec.and_or_distrib_left]
    exact BitVec.and_allOnes.symm
  rw [Bool.eq_iff_iff, beq_iff_eq, decide_eq_true_iff]
  constructor
  · intro h
    rw [hor, h, BitVec.zero_or, BitVec.toNat_and]
    exact Nat.lt_of_le_of_lt Nat.and_le_right (by decide)
  · intro h
    have hx : x &&& 255#16 = x := by
      apply BitVec.eq_of_toNat_eq
      exact (Nat.and_two_pow_sub_one_eq_mod x.toNat 8).trans (Nat.mod_eq_of_lt h)
    have hd : 255#16 &&& 65280#16 = 0#16 := by decide
    rw [← hx, BitVec.and_assoc, hd, BitVec.and_zero]

theorem subDiff_carry (a v : Byte) (c : Bool) :
    (subDiff a v c &&& 65280#16 == 0#16) = decide (255#16 < addSum a (~~~v) c) := by
  have h := toNat_addSum a (~~~v) c
  have hd := subDiff_add a v c
  have hc := c.toNat_lt
  have ha := a.isLt
  have hv := (~~~v).isLt
  have hlt := (subDiff a v c).isLt
  rw [high_eq_zero]
  simp only [BitVec.lt_def, decide_eq_decide, BitVec.toNat_ofNat]
  rw [hd, BitVec.toNat_add, BitVec.toNat_ofNat] at h ⊢
  omega

theorem sbcWith_binary (v : Byte) (hd : r.P &&& pDecimal = 0#8) :
    (sbcWith v).run r = .done ((), addRegs r (~~~v)) := by
  have hs : (if r.P &&& pCarry = 0#8 then r.A.setWidth 16 - v.setWidth 16 - 1#16
      else r.A.setWidth 16 - v.setWidth 16) = subDiff r.A v (r.P &&& pCarry != 0) := by
    unfold subDiff
    by_cases h : r.P &&& pCarry = 0#8 <;> simp [bne, h]
  have hnot : ∀ v : Byte, 255#8 - v = ~~~v := fun v => by bv_omega
  simp [sbcWith, Regs.flag, decimal_setFlag_overflow, decimal_setFlag_carry, hd, sbcDiff,
    hs, signOverflow_eq, addRegs,
    subDiff_trunc, subDiff_carry, hnot]

theorem sbcWith_decimal (v : Byte) (hd : r.P &&& pDecimal ≠ 0#8) : (sbcWith v).run r = (doSbcBcd v).run r := by
  simp [sbcWith, doSbcBcd, adjustCarry, Regs.flag, decimal_setFlag_overflow, decimal_setFlag_carry, hd, sbcDiff]

theorem jitCallByte_run (f : Byte → Cpu Unit) (v : Byte) (c d e : Option Word) :
    ((jitCallByte f).run ⟨true, some (v.setWidth 64), c, d, e⟩).run r =
      (NCpu.ofCpu (f v)).run r >>= fun p => .done (((), ⟨true, none, none, d, e⟩), p.2) := by
  simp [jitCallByte, cpu]

theorem emitArith_follows {bcd : Byte → Cpu Unit} {complement : Native Unit} {y : Byte → Cpu Unit}
    {f : Byte → Byte}
    (hcompl : ∀ v c d e, (complement.run ⟨true, some (BitVec.setWidth 64 v), c, d, e⟩).run r =
      .done (((), ⟨true, some ((f v).setWidth 64), c, d, e⟩), r))
    (hbin : ∀ v, r.P &&& pDecimal = 0#8 → (y v).run r = .done ((), addRegs r (f v)))
    (hdec : ∀ v, r.P &&& pDecimal ≠ 0#8 → (y v).run r = (bcd v).run r)
    (hbcd : ∀ v, ∃ r', (bcd v).run r = .done ((), r'))
    (hop : ∀ l, l.r0 = true → Follows code l (instructionDataRead1 id i) r (ByteIn r)) :
    Follows (emitArith id.size bcd complement code) .entry
      (thenNext id (instructionDataRead1 id i >>= y)) r Ready := by
  unfold emitArith thenNext
  rw [bind_assoc]
  refine Follows.operand r (hop _ rfl) ?_
  intro v r2 v1 v2
  unfold Follows
  by_cases hd : r.P &&& pDecimal = 0#8
  · have h0 : beqi0 0#64 = true := by decide
    obtain ⟨l, hl, hl0⟩ := emitAddBinary_run r id.size (f v) (some 0#64) v1 v2
    simp [ofCpu_run, zext_and_imm, hd, h0, hcompl, hbin v hd, hl]
    exact .done ⟨rfl, hl0⟩
  · obtain ⟨r', hr'⟩ := hbcd v
    simp [ofCpu_run, zext_and_imm, beqi0_and, hd, hdec v hd, jitCallByte_run, hr']
    exact .done ⟨rfl, rfl⟩

theorem emitAdc_follows (hop : ∀ l, l.r0 = true → Follows code l (instructionDataRead1 id i) r (ByteIn r)) :
    Follows (emitArith id.size doAdcBcd (pure ()) code) .entry (thenNext id (emulAdc id i)) r Ready := by
  rw [emulAdc_eq]
  refine emitArith_follows (f := fun v => v) r ?_ (adcWith_binary r) (adcWith_decimal r) ?_ hop
  · intro v c d e
    simp
  · intro v
    simp [doAdcBcd, adjustCarry]

theorem emitSbc_follows (hop : ∀ l, l.r0 = true → Follows code l (instructionDataRead1 id i) r (ByteIn r)) :
    Follows (emitArith id.size doSbcBcd (jitXori .r1 .r1 0xFF) code) .entry
    (thenNext id (emulSbc id i)) r Ready := by
  have hnot : ∀ v : Byte, v.setWidth 64 ^^^ 255#64 = (~~~v).setWidth 64 := fun v => by
    rw [← BitVec.xor_allOnes]
    exact zext_xor v 255
  rw [emulSbc_eq]
  refine emitArith_follows (f := fun v => ~~~v) r ?_ (sbcWith_binary r) (sbcWith_decimal r) ?_ hop
  · intro v c d e
    simp [hnot]
  · intro v
    simp [doSbcBcd, adjustCarry]

/-- `BIT` with its operand read once, as native code does it. -/
def bitOnce (id : InstrDef) (i : Instruction) : Cpu Unit := do
  let v ← instructionDataRead1 id i
  modify fun r => { r with P := setFlag pZero (r.A &&& v == 0) r.P }
  if id.mode ≠ .immediate then
    modifyP (setFlag pSignOverflow (bit v 6))
    modifyP (setFlag pNegative (bit v 7))

theorem orFlag_bit (P : Byte) (z n v : Bool) :
    orFlag pSignOverflow v
      (orFlag pNegative n (orFlag pZero z (P &&& ~~~(pZero ||| pNegative ||| pSignOverflow)))) =
      setFlag pNegative n (setFlag pSignOverflow v (setFlag pZero z P)) := by
  rw [BitVec.or_assoc, orFlag_clear_or (by decide), orFlag_clear_or (by decide), orFlag_clear,
    setFlag_comm (m := pSignOverflow) (by decide)]

theorem bnei0_and (a b : Byte) : bnei0 (a.setWidth 64 &&& b.setWidth 64) = !(a &&& b == 0#8) := by
  rw [zext_and, bnei0_zext]
  rfl

theorem bit_6 (v : Byte) : bit v 6 = !(v &&& 64#8 == 0#8) := rfl

theorem bit_7 (v : Byte) : bit v 7 = !(v &&& 128#8 == 0#8) := rfl

theorem emitBit_follows (him : id.mode = .immediate ↔ i.opcode = 0x89)
    (hop : ∀ l, l.r0 = true → Follows code l (instructionDataRead1 id i) r (ByteIn r)) :
    Follows (emitBit i id.size code) .entry (thenNext id (bitOnce id i)) r Ready := by
  unfold emitBit thenNext bitOnce
  rw [bind_assoc]
  refine Follows.operand r (hop _ rfl) ?_
  intro v r2 v1 v2
  by_cases h : i.opcode = 137#8
  · simp [Follows, ofCpu_run, h, him.2 h, zext_and_imm, bnei0_and, orFlag_clear]
    exact .done ⟨rfl, rfl⟩
  · have hm : id.mode ≠ .immediate := fun hm => h (him.1 hm)
    simp [Follows, ofCpu_run, h, hm, zext_and_imm, bnei0_and, bmci_80, bmci_40, orFlag_bit, bit_6, bit_7]
    exact .done ⟨rfl, rfl⟩

end Rk65c02
