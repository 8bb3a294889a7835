import Rk65c02.NativeCases

/-! The native code of the instructions that store, push, pull or branch, with where
control goes after it; and the fallback to the interpreter. -/

namespace Rk65c02

open Resumption Cpu

variable {id : InstrDef} {i : Instruction} {code : Native Unit} (r : Regs)

/-- Native code from the label of an instruction, as a program that also says where control goes. -/
def Ends (x : Native Next) (y : NCpu Next) (r : Regs) : Prop :=
  Same (fun p q => p.2 = q.2 ∧ p.1.1 = q.1 ∧ p.1.2.r0 = true) ((x.run .entry).run r) (y.run r)

/-- Where code goes that is followed by the test of `use_jit`. -/
def bailOut : NCpu Next := do
  let u : Bool ← NCpu.request .useJit
  return if u then .fall else .ret

theorem Follows.falling {y : Cpu Unit} (h : Follows code .entry y r Ready) :
    Ends (falling code) (NCpu.ofCpu y >>= fun _ => pure .fall) r := by
  unfold Ends Rk65c02.falling
  rw [StateT.run_bind, StateT.run_bind, StateT.run_bind]
  refine Same.bind h ?_
  rintro ⟨⟨_, l⟩, r'⟩ ⟨_, _⟩ ⟨rfl, hl⟩
  exact .done ⟨rfl, rfl, hl⟩

theorem Follows.bails {y : Cpu Unit} (h : Follows code .entry y r Ready) :
    Ends (code >>= fun _ => jitEmitBailIfJitDisabled) (NCpu.ofCpu y >>= fun _ => bailOut) r := by
  unfold Ends
  rw [StateT.run_bind, StateT.run_bind, StateT.run_bind]
  refine Same.bind h ?_
  rintro ⟨⟨_, r0, r1, r2, v1, v2⟩, r'⟩ ⟨_, _⟩ ⟨rfl, hl⟩
  obtain rfl : r0 = true := hl
  simp [bailOut]
  exact .op fun u => .done ⟨rfl, rfl, rfl⟩

theorem emitStore_ends {value : Native Unit} {v : Regs → Byte} (hi : id.mode ≠ .immediate)
    (ha : id.mode ≠ .accumulator) (hc : jitEmitEffaddr id.mode i = some code)
    (hv : ∀ b c d e, (value.run ⟨true, b, c, d, e⟩).run r = .done
      (((), ⟨true, b, some ((v r).setWidth 64), d, e⟩), r)) :
    Ends (emitStore id.size value code) (NCpu.ofCpu (thenNext id (store v id i)) >>= fun _ => bailOut) r := by
  have hstore : thenNext id (store v id i) = (do
      let x ← get
      let a ← instructionDataAddress id i
      memWrite1 a (v x)
      programCounterIncrement id) := by
    simp [thenNext, store, instructionDataWrite1, hi, ha]
  have hcode : emitStore id.size value code =
      (do code; value; jitEmitBusWrite; jitEmitAdvancePc id.size) >>= fun _ => jitEmitBailIfJitDisabled := by
    simp [emitStore]
  have h : Follows (do code; value; jitEmitBusWrite; jitEmitAdvancePc id.size) .entry (do
      let a ← instructionDataAddress id i
      memWrite1 a (v r)
      programCounterIncrement id) r Ready := by
    refine (effaddr_follows hc hi ha rfl rfl r).bind ?_
    rintro _ ⟨r0, r1, r2, v1, v2⟩ a r' ⟨rfl, hr0, w, hr1, rfl⟩
    obtain rfl : r0 = true := hr0
    obtain rfl : r1 = some w := hr1
    simp [Follows, ofCpu_run, hv]
    exact same_write rfl (by simp) (.done ⟨rfl, rfl⟩)
  rw [hcode, hstore]
  exact h.bails r

section Modify

variable (hd : id.mode.direct = true) (hc : jitEmitEffaddr id.mode i = some code)

include hd hc

theorem emitIncMem_ends :
    Ends (emitStepMem id.size jitAddi code) (NCpu.ofCpu (thenNext id (emulInc id i)) >>= fun _ => bailOut) r := by
  obtain ⟨w, hw, ha⟩ := effaddr_direct hd i r hc none none none none
  simp [Ends, bailOut, ofCpu_run, thenNext, emulInc, modifyMem, emitStepMem, hd, hw, add_one_mask]
  exact same_read ha fun v => same_write ha (by simp) (.op fun u => .done ⟨rfl, rfl, rfl⟩)

theorem emitDecMem_ends :
    Ends (emitStepMem id.size jitSubi code) (NCpu.ofCpu (thenNext id (emulDec id i)) >>= fun _ => bailOut) r := by
  obtain ⟨w, hw, ha⟩ := effaddr_direct hd i r hc none none none none
  simp [Ends, bailOut, ofCpu_run, thenNext, emulDec, modifyMem, emitStepMem, hd, hw, sub_one_mask]
  exact same_read ha fun v => same_write ha (by simp) (.op fun u => .done ⟨rfl, rfl, rfl⟩)

end Modify

/-- The shifted byte, with the carry that comes in. -/
def Shift.apply (c : Bool) (v : Byte) : Shift → Byte
  | asl => v <<< 1
  | lsr => v >>> 1
  | rol => if c then v <<< 1 ||| 0x01 else v <<< 1 &&& ~~~0x01
  | ror => if c then v >>> 1 ||| 0x80 else v >>> 1 &&& ~~~0x80

def Shift.outByte : Shift → Byte
  | asl | rol => 0x80
  | lsr | ror => 0x01

/-- The shifts of the interpreter share their shape. -/
def shiftOp (f : Shift) (id : InstrDef) (i : Instruction) : Cpu Unit := do
  let val ← instructionDataRead1 id i
  let c := (← get).flag pCarry
  modifyP (setFlag pCarry (val &&& f.outByte != 0))
  adjustZN (f.apply c val)
  instructionDataWrite1 id i (f.apply c val)

theorem trunc_asl (v : Byte) : (v.setWidth 64 <<< 1).setWidth 8 = v <<< 1 := by bv_omega

theorem zext_asl (v : Byte) : v.setWidth 64 <<< 1 &&& 255#64 = (v <<< 1).setWidth 64 := by
  rw [mask_byte, trunc_asl]

theorem zext_lsr (v : Byte) : v.setWidth 64 >>> 1 = (v >>> 1).setWidth 64 := by bv_omega

theorem carry_cases (P : Byte) : P &&& pCarry = 0 ∨ P &&& pCarry = 1 := by
  have h : (P &&& pCarry).toNat = P.toNat % 2 := Nat.and_two_pow_sub_one_eq_mod P.toNat 1
  rcases Nat.mod_two_eq_zero_or_one P.toNat with hp | hp
  · exact .inl (BitVec.eq_of_toNat_eq (h.trans hp))
  · exact .inr (BitVec.eq_of_toNat_eq (h.trans hp))

theorem asl_low (v : Byte) : v <<< 1 &&& ~~~0x01#8 = v <<< 1 := by
  ext i hi
  by_cases h0 : i = 0 <;> simp [h0, -BitVec.reduceNot]

theorem lsr_high (v : Byte) : v >>> 1 &&& ~~~0x80#8 = v >>> 1 := by
  have h : 0x80#8 = BitVec.twoPow 8 7 := by decide
  rw [h]
  ext i hi
  by_cases h7 : i = 7
  · simp [h7, BitVec.getElem_twoPow]
  · simp [BitVec.getElem_twoPow, h7]

theorem zext_rol (P v : Byte) : (v.setWidth 64 <<< 1 ||| P.setWidth 64 &&& imm pCarry) &&& 255#64 =
    (Shift.rol.apply (P &&& pCarry != 0) v).setWidth 64 := by
  rw [zext_and_imm, mask_byte, BitVec.setWidth_or, trunc_asl]
  rcases carry_cases P with hh | hh <;> rw [hh]
  · change _ = (v <<< 1 &&& ~~~0x01#8).setWidth 64
    rw [asl_low]
    simp
  · simp [Shift.apply]

theorem zext_ror (P v : Byte) : v.setWidth 64 >>> 1 ||| (P.setWidth 64 &&& imm pCarry) <<< 7 =
    (Shift.ror.apply (P &&& pCarry != 0) v).setWidth 64 := by
  rw [zext_and_imm, zext_lsr]
  rcases carry_cases P with hh | hh <;> rw [hh]
  · change _ = (v >>> 1 &&& ~~~0x80#8).setWidth 64
    rw [lsr_high]
    simp
  · exact zext_or (v >>> 1) 0x80

theorem bmci_out (f : Shift) (v : Byte) : bmci f.out (v.setWidth 64) = !(v &&& f.outByte != 0) := by
  cases f
  · rw [Shift.outByte, bne, Bool.not_not]
    exact bmci_80 v
  · rw [Shift.outByte, bne, Bool.not_not]
    exact bmci_01 v
  · rw [Shift.outByte, bne, Bool.not_not]
    exact bmci_80 v
  · rw [Shift.outByte, bne, Bool.not_not]
    exact bmci_01 v

/-- The carry goes through `V1` or `V2`; code that uses `V2` keeps the address in `V1`. -/
theorem emitShiftByte_run (f : Shift) {t : LReg} (ht : t = .v1 ∨ t = .v2) (v : Byte) (c d e : Option Word) :
    ∃ r2 v1 v2, ((emitShiftByte f t).run ⟨true, some (v.setWidth 64), c, d, e⟩).run r =
      .done (((), ⟨true, some ((f.apply (r.flag pCarry) v).setWidth 64), r2, v1, v2⟩),
        { r with P := setFlag pCarry (v &&& f.outByte != 0) r.P }) ∧ (t = .v2 → v1 = d) := by
  rcases ht with rfl | rfl
  all_goals
    cases f with
    | asl =>
      simp [emitShiftByte, emitCarryIn, emitShift, zext_and_notImm, bmci_out, orFlag_clear, zext_asl, Shift.apply]
    | lsr => simp [emitShiftByte, emitCarryIn, emitShift, zext_and_notImm, bmci_out, orFlag_clear, Shift.apply]
    | rol =>
      simp [emitShiftByte, emitCarryIn, emitShift, zext_and_notImm, bmci_out, orFlag_clear, Regs.flag, zext_rol]
    | ror =>
      simp [emitShiftByte, emitCarryIn, emitShift, zext_and_notImm, bmci_out, orFlag_clear, Regs.flag, zext_ror]

theorem emitShiftAcc_follows (f : Shift) (hm : id.mode = .accumulator) :
    Follows (emitShiftAcc id.size f) .entry (thenNext id (shiftOp f id i)) r Ready := by
  obtain ⟨r2, v1, v2, hs, -⟩ := emitShiftByte_run r f (.inl rfl) r.A none none none
  simp [Follows, ofCpu_run, thenNext, shiftOp, instructionDataRead1, instructionDataWrite1, hm, emitShiftAcc, hs]
  exact .done ⟨rfl, rfl⟩

theorem directAddr_flags (mode : Addressing) (i : Instruction) (r : Regs) (P : Byte) :
    directAddr mode i { r with P := P } = directAddr mode i r := by
  cases mode <;> rfl

theorem emitShiftMem_ends (f : Shift) (hd : id.mode.direct = true) (hc : jitEmitEffaddr id.mode i = some code) :
    Ends (emitShiftMem id.size f code) (NCpu.ofCpu (thenNext id (shiftOp f id i)) >>= fun _ => bailOut) r := by
  obtain ⟨w, hw, ha⟩ := effaddr_direct hd i r hc none none none none
  simp [Ends, bailOut, ofCpu_run, thenNext, shiftOp, emitShiftMem, hd, hw]
  refine same_read ha fun v => ?_
  obtain ⟨r2, v1, v2, hs, hv⟩ := emitShiftByte_run r f (.inr rfl) v none (some w) none
  obtain rfl : v1 = some w := hv rfl
  simp [hs]
  exact same_write (ha.trans (directAddr_flags ..).symm) (by simp) (.op fun u => .done ⟨rfl, rfl, rfl⟩)

theorem emitMaskMem_ends {f : Word → Word} {g : Byte → Byte}
    (hf : ∀ v : Byte, f (v.setWidth 64) = (g v).setWidth 64)
    (hd : id.mode.direct = true) (hc : jitEmitEffaddr id.mode i = some code) :
    Ends (emitMaskMem id.size (unary f) code)
      (NCpu.ofCpu (thenNext id (do
        let val ← instructionDataRead1 id i
        instructionDataWrite1 id i (g val))) >>= fun _ => bailOut) r := by
  obtain ⟨w, hw, ha⟩ := effaddr_direct hd i r hc none none none none
  simp [Ends, bailOut, ofCpu_run, thenNext, emitMaskMem, hd, hw, hf]
  exact same_read ha fun v => same_write ha (by simp) (.op fun u => .done ⟨rfl, rfl, rfl⟩)

theorem emitTrb_ends (hop : (i.opcode == 0x14 || i.opcode == 0x1C) = true) (hd : id.mode.direct = true)
    (hc : jitEmitEffaddr id.mode i = some code) :
    Ends (emitTestBits i id.size code) (NCpu.ofCpu (thenNext id (emulTrb id i)) >>= fun _ => bailOut) r := by
  obtain ⟨w, hw, ha⟩ := effaddr_direct hd i r hc none none none none
  unfold emitTestBits
  rw [hop]
  simp [Ends, bailOut, ofCpu_run, thenNext, emulTrb, testBits, hd, hw, bnei0_and, zext_and_imm, orFlag_clear]
  refine same_read ha fun v => same_write (ha.trans (directAddr_flags ..).symm) ?_
    (.op fun u => .done ⟨rfl, rfl, rfl⟩)
  simp

theorem emitTsb_ends (hop : (i.opcode == 0x14 || i.opcode == 0x1C) = false) (hd : id.mode.direct = true)
    (hc : jitEmitEffaddr id.mode i = some code) :
    Ends (emitTestBits i id.size code) (NCpu.ofCpu (thenNext id (emulTsb id i)) >>= fun _ => bailOut) r := by
  obtain ⟨w, hw, ha⟩ := effaddr_direct hd i r hc none none none none
  unfold emitTestBits
  rw [hop]
  simp [Ends, bailOut, ofCpu_run, thenNext, emulTsb, testBits, hd, hw, bnei0_and, zext_and_imm, orFlag_clear]
  refine same_read ha fun v => same_write (ha.trans (directAddr_flags ..).symm) ?_
    (.op fun u => .done ⟨rfl, rfl, rfl⟩)
  simp

theorem signExtend_trunc (o : Byte) : (o.signExtend 64).setWidth 16 = o.signExtend 16 := by
  ext i hi
  have h : i < 64 := by omega
  simp [BitVec.getElem_signExtend, h]

theorem emitRelative_run (n : Nat) (o : Byte) (b c d e : Option Word) :
    ∃ w, ((emitRelative n o).run ⟨true, b, c, d, e⟩).run r =
      .done (((), ⟨true, some w, c, d, e⟩), { r with PC := r.PC + (o.signExtend 16 + BitVec.ofNat 16 n) }) := by
  simp [emitRelative, mask_addr, trunc_add, signExtend_trunc, BitVec.add_comm (BitVec.ofNat 16 n)]

theorem emitBra_follows (hs : id.size = 2) : Follows (emitRelative id.size i.op1) .entry (emulBra i) r Ready := by
  obtain ⟨w, hw⟩ := emitRelative_run r 2 i.op1 none none none none
  simp [Follows, ofCpu_run, emulBra, programCounterBranch, hs, hw]
  exact .done ⟨rfl, rfl⟩

theorem bit_bmsi (v : Byte) (n : Nat) : bmsi (imm ((1 : Byte) <<< n)) (v.setWidth 64) = bit v n := bmsi_zext v _

theorem bit_bmci (v : Byte) (n : Nat) : bmci (imm ((1 : Byte) <<< n)) (v.setWidth 64) = !bit v n := by
  rw [imm, bmci_zext, bit, bne, Bool.not_not]

theorem bitBranch_run (taken : Bool) : (bitBranch id i taken).run r = .done ((),
    { r with PC := r.PC + if taken then i.op2.signExtend 16 + 3 else BitVec.ofNat 16 id.size }) := by
  cases taken <;> rfl

/-- Whether `BBR` or `BBS` branches, from the byte in `R1`. -/
def bitTaken (op : Byte) (v : Word) : Bool :=
  if op &&& 0x80 != 0 then bmsi (imm ((1 : Byte) <<< opcodeBit op)) v
    else bmci (imm ((1 : Byte) <<< opcodeBit op)) v

theorem bitTaken_zext (op v : Byte) : bitTaken op (v.setWidth 64) =
    if op &&& 0x80 != 0 then bit v (opcodeBit op) else !bit v (opcodeBit op) := by
  rw [bitTaken, bit_bmsi, bit_bmci]

theorem emitBitBranch_eq (size : Nat) : emitBitBranch i size = (do
    jitMovi .r1 (i.op1.setWidth 64)
    jitEmitBusRead
    let v ← getReg .r1
    if bitTaken i.opcode v then emitRelative size i.op2 else jitEmitAdvancePc size) := rfl

theorem emitBitBranch_follows {taken : Byte → Bool} (hs : id.size = 3) (hm : id.mode = .zpr)
    (ht : ∀ v : Byte, bitTaken i.opcode (v.setWidth 64) = taken v) :
    Follows (emitBitBranch i id.size) .entry
      (instructionDataRead1 id i >>= fun v => bitBranch id i (taken v)) r Ready := by
  rw [emitBitBranch_eq]
  simp [Follows, ofCpu_run, instructionDataRead1, instructionDataAddress, hm, hs, bitBranch_run, ht]
  refine same_read (by simp) fun v => ?_
  obtain ⟨w, hw⟩ := emitRelative_run r 3 i.op2 (some (v.setWidth 64)) none none none
  cases taken v with
  | true =>
    rw [if_pos rfl, hw]
    exact .done ⟨rfl, rfl⟩
  | false =>
    rw [if_neg Bool.false_ne_true, jitEmitAdvancePc_run]
    exact .done ⟨rfl, rfl⟩

theorem stackAddr_trunc (sp : Byte) : (sp.setWidth 64 + 256#64).setWidth 16 = stackStart + sp.setWidth 16 := by
  unfold stackStart
  bv_omega

theorem emitPush_ends {reg : Off} {v : Regs → Byte}
    (hv : v r = if i.opcode = 0x08 then reg.get r ||| (pBreak ||| pUndefined) else reg.get r) :
    Ends (emitPush i id.size reg)
      (NCpu.ofCpu (thenNext id (do stackPush (v (← get)))) >>= fun _ => bailOut) r := by
  by_cases h : i.opcode = 8#8
  · simp [Ends, bailOut, ofCpu_run, thenNext, emitPush, emitDecSP, stackPush, sub_one_mask, h]
    refine same_write (stackAddr_trunc r.SP) ?_ (.op fun u => .done ⟨rfl, rfl, rfl⟩)
    rw [hv, if_pos (by simpa using h), zext_or_imm]
    simp
  · simp [Ends, bailOut, ofCpu_run, thenNext, emitPush, emitDecSP, stackPush, sub_one_mask, h]
    refine same_write (stackAddr_trunc r.SP) ?_ (.op fun u => .done ⟨rfl, rfl, rfl⟩)
    rw [hv, if_neg (by simpa using h)]
    simp

theorem emitPull_follows (reg : Off) : Follows (emitPull id.size reg) .entry
    (thenNext id (pull reg.put)) r Ready := by
  simp [Follows, ofCpu_run, thenNext, emitPull, emitIncSP, pull, stackPop, add_one_mask]
  exact same_read (stackAddr_trunc _) fun v => .done ⟨rfl, rfl⟩

theorem emitPlp_follows : Follows (emitPlp id.size) .entry (thenNext id emulPlp) r Ready := by
  have h : ∀ v : Byte, (v ||| (imm pUndefined).setWidth 8) &&& (notImm pBreak).setWidth 8 =
      (v ||| pUndefined) &&& ~~~pBreak := fun _ => rfl
  simp [Follows, ofCpu_run, thenNext, emitPlp, emitIncSP, emulPlp, stackPop, add_one_mask, h]
  exact same_read (stackAddr_trunc _) fun v => .done ⟨rfl, rfl⟩

theorem emitJmpAbs_follows (hm : id.mode = .absolute) :
    Follows (do jitMovi .r1 (op16 i); jitStxiSPC .r1) .entry (emulJmp id i) r Ready := by
  simp [Follows, ofCpu_run, emulJmp, hm, op16_trunc]
  exact .done ⟨rfl, rfl⟩

theorem word_comm (lo hi : Byte) : hi.setWidth 16 <<< 8 ||| lo.setWidth 16 = word lo hi := BitVec.or_comm ..

theorem emitJmpInd_follows (hm : id.mode = .iabsolute) : Follows (emitJmpInd i) .entry
    (emulJmp id i) r Ready := by
  simp [Follows, ofCpu_run, emulJmp, hm, emitJmpInd, op16_trunc, word_comm]
  exact same_read (by simp) fun lo => same_read (by simp) fun hi => .done ⟨rfl, rfl⟩

theorem retaddr_high (pc : Addr) :
    ((pc.setWidth 64 + 2#64 &&& 65535#64) >>> 8).setWidth 8 = ((pc + 2#16) >>> 8).setWidth 8 := by
  rw [mask_addr, trunc_add _ (by decide)]
  ext k hk
  simp
  omega

theorem retaddr_low (pc : Addr) : (pc.setWidth 64 + 2#64 &&& 65535#64 &&& 255#64).setWidth 8 =
    (pc + 2#16).setWidth 8 &&& 255#8 := by
  rw [mask_addr, trunc_add _ (by decide), addr_mask_byte]
  have h : ∀ b : Byte, b = b &&& 255#8 := fun b => (BitVec.and_allOnes (x := b)).symm
  simpa using h _

theorem emitJsr_ends :
    Ends (emitJsr i) (NCpu.ofCpu (emulJsr i) >>= fun _ => bailOut) r := by
  simp [Ends, bailOut, ofCpu_run, emitJsr, emulJsr, emitDecSP, stackPush, sub_one_mask, op16_trunc]
  refine same_write (stackAddr_trunc _) (retaddr_high r.PC) (same_write (stackAddr_trunc _) (retaddr_low r.PC) ?_)
  exact .op fun u => .done ⟨rfl, rfl, rfl⟩

theorem return_trunc (lo hi : Byte) : ((hi.setWidth 64 <<< 8 ||| lo.setWidth 64) + 1#64).setWidth
    16 &&& 65535#16 =
    word lo hi + 1#16 := by
  rw [trunc_add _ (by decide), word_trunc]
  exact BitVec.and_allOnes

theorem emitRts_follows (hs : id.size = 1) : Follows emitRts .entry (thenNext id emulRts) r Ready := by
  simp [Follows, ofCpu_run, thenNext, emitRts, emulRts, emitIncSP, stackPop, add_one_mask, hs, return_trunc]
  exact same_read (stackAddr_trunc _) fun lo => same_read (stackAddr_trunc _) fun hi => .done ⟨rfl, rfl⟩

/-- The guard of a backward jump, as a program over the guest registers. -/
def backedgeGuard (span : Nat) : NCpu Bool := do
  let n : BitVec 32 ← NCpu.request .loopBudget
  let w := n.signExtend 64 - 1
  NCpu.request (.setLoopBudget (w.setWidth 32))
  if w.sle 0 then return true
  let s : Bool ← NCpu.request .stopRequested
  if s then return true
  let q : Bool ← NCpu.request .irqLine
  if q then return true
  NCpu.request (.countInsns span)
  return false

/-- Where a conditional branch goes. -/
def branchControl (ctx : EmitCtx) (k : Nat) (target : Addr) (taken : Bool) : NCpu Next :=
  if taken then
    match ctx.insnAddr.idxOf? target with
    | none => return .ret
    | some t => do
      if t ≤ k then
        if ← backedgeGuard (k - t + 1) then
          return .ret
      return .goto t
  else return .fall

theorem jitEmitBackedgeGuard_same (span : Nat) (b c d e : Option Word) :
    Same (fun p q => p.2 = q.2 ∧ p.1.1 = q.1 ∧ p.1.2.r0 = true)
      (((jitEmitBackedgeGuard span).run ⟨true, b, c, d, e⟩).run r) ((backedgeGuard span).run r) := by
  simp [jitEmitBackedgeGuard, backedgeGuard, field]
  refine .op fun n : BitVec 32 => .op fun _ => ?_
  dsimp only [Tree.bind]
  by_cases hn : BitVec.sle (BitVec.signExtend 64 n - 1#64) 0#64 = true
  · rw [if_pos hn, if_pos hn]
    exact .done ⟨rfl, rfl, rfl⟩
  · rw [if_neg hn, if_neg hn]
    refine .op fun s => ?_
    dsimp only [Tree.bind]
    cases s with
    | true => exact .done ⟨rfl, rfl, rfl⟩
    | false =>
      refine .op fun q => ?_
      cases q with
      | true => exact .done ⟨rfl, rfl, rfl⟩
      | false => exact .op fun _ => .done ⟨rfl, rfl, rfl⟩

/-- The target of a conditional branch at instruction `k`. -/
def branchTarget (ctx : EmitCtx) (k : Nat) (i : Instruction) (size : Nat) : Addr :=
  ctx.insnAddr.getD k 0 + BitVec.ofNat 16 size + i.op1.signExtend 16

theorem emitCondBranch_ends {ctx : EmitCtx} {k : Nat} {m : Byte} {value : Bool} (hs : id.size = 2)
    (ht : branchTaken i.opcode (r.P.setWidth 64) = decide (r.flag m = value))
    (hpc : r.PC = ctx.insnAddr.getD k 0) :
    Ends (emitCondBranch i id.size ctx k)
      (NCpu.ofCpu (branchIf m value id i) >>= fun _ =>
        branchControl ctx k (branchTarget ctx k i id.size) (decide (r.flag m = value))) r := by
  have htarget : ctx.insnAddr[k]?.getD 0#16 + 2#16 + i.op1.signExtend 16 =
    r.PC + (i.op1.signExtend 16 + 2#16) := by
    rw [hpc, List.getD_eq_getElem?_getD, BitVec.add_assoc, BitVec.add_comm 2#16]
    rfl
  unfold Ends emitCondBranch branchControl branchIf
  by_cases h : r.flag m = value
  · simp [ofCpu_run, h, ht, branchTarget, programCounterBranch, hs, htarget]
    generalize ctx.insnAddr.idxOf? (r.PC + (i.op1.signExtend 16 + 2#16)) = label
    cases label with
    | none => exact .done ⟨rfl, rfl, rfl⟩
    | some t =>
      by_cases hk : t ≤ k
      · simp only [if_pos hk, StateT.run_bind]
        refine (jitEmitBackedgeGuard_same _ (k - t + 1) _ _ _ _).bind ?_
        rintro ⟨⟨g, l⟩, r'⟩ ⟨_, _⟩ ⟨rfl, rfl, hl⟩
        cases g <;> exact .done ⟨rfl, rfl, hl⟩
      · simp only [if_neg hk]
        exact .done ⟨rfl, rfl, rfl⟩
  · simp [ofCpu_run, h, ht]
    exact .done ⟨rfl, rfl, rfl⟩

/-- What follows the interpreter in a fallback. -/
def fallbackControl (id : InstrDef) : NCpu Next :=
  if id.modifyPc then return .ret
  else do
    let s : EmuState ← NCpu.request .emuState
    let u : Bool ← NCpu.request .useJit
    return if s = .running ∧ u = true then .fall else .ret

theorem emitFallback_eq : (do
    let (next, l) ← (emitFallback id).run .entry
    if l.r0 then return next else NCpu.stuck) = (NCpu.ofCpu exec >>= fun _ => fallbackControl id) := by
  funext r
  change StateT.run _ r = StateT.run _ r
  simp [emitFallback, cpu, fallbackControl]
  refine congrArg _ (funext fun p => ?_)
  by_cases h : id.modifyPc = true
  · simp [h]
  · simp [h, field]
    refine congrArg (Tree.op _ _) (funext fun s => congrArg (Tree.op _ _) (funext fun u => ?_))
    dsimp only [Tree.bind]
    by_cases hs : s = .running <;> cases u <;> simp [hs, beqi0]

end Rk65c02
