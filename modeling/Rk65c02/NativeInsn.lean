import Rk65c02.NativeControl

/-! Every natively compiled instruction against the interpreter's emulation of it. The
decode table and the case labels of the emitter are compared once, opcode by opcode. -/

namespace Rk65c02

open Resumption Cpu

def Emul.clears : List (Emul × Byte) :=
  [(.clc, pCarry), (.cli, pIrqDisable), (.clv, pSignOverflow), (.cld, pDecimal)]

def Emul.raises : List (Emul × Byte) := [(.sec, pCarry), (.sei, pIrqDisable), (.sed, pDecimal)]

def Emul.transfers : List (Emul × Off × Off) :=
  [(.tax, .X, .A), (.tay, .Y, .A), (.txa, .A, .X), (.tya, .A, .Y), (.tsx, .X, .SP)]

structure Branch where
  op : Byte
  emul : Emul
  flag : Byte
  value : Bool

/-- The conditional branches: the flag they test and the value on which they branch. -/
def branches : List Branch :=
  [⟨0x90, .bcc, pCarry, false⟩, ⟨0xB0, .bcs, pCarry, true⟩, ⟨0xF0, .beq, pZero, true⟩, ⟨0xD0, .bne, pZero, false⟩,
    ⟨0x30, .bmi, pNegative, true⟩, ⟨0x10, .bpl, pNegative, false⟩, ⟨0x70, .bvs, pSignOverflow, true⟩,
    ⟨0x50, .bvc, pSignOverflow, false⟩]

/-- What the table must say of an opcode for its emitter case to be about the same
instruction. -/
def EmitCase.emulates (op : Byte) (id : InstrDef) : EmitCase → Bool
  | nop => id.emul = .nop
  | clearFlag m => (id.emul, m) ∈ Emul.clears
  | raiseFlag m => (id.emul, m) ∈ Emul.raises
  | transfer dst src => (id.emul, dst, src) ∈ Emul.transfers
  | txs => id.emul = .txs
  | incReg f =>
    (id.emul, f) ∈ [(Emul.inx, Off.X), (.iny, .Y)] ∨ (id.emul = .inc ∧ f = .A ∧ id.mode = .accumulator)
  | decReg f =>
    (id.emul, f) ∈ [(Emul.dex, Off.X), (.dey, .Y)] ∨ (id.emul = .dec ∧ f = .A ∧ id.mode = .accumulator)
  | load f => (id.emul, f) ∈ [(Emul.lda, Off.A), (.ldx, .X), (.ldy, .Y)]
  | store f => (id.emul, f) ∈ [(Emul.sta, Off.A), (.stx, .X), (.sty, .Y)]
  | stz => id.emul = .stz
  | logic f => (id.emul, f) ∈ [(Emul.and, Logic.and), (.ora, .ora), (.eor, .eor)]
  | adc => id.emul = .adc
  | cmp f => (id.emul, f) ∈ [(Emul.cmp, Off.A), (.cpx, .X), (.cpy, .Y)]
  | sbc => id.emul = .sbc
  | incMem => id.emul = .inc
  | decMem => id.emul = .dec
  | shiftAcc f =>
    (id.emul, f) ∈ [(Emul.asl, Shift.asl), (.lsr, .lsr), (.rol, .rol), (.ror, .ror)] ∧ id.mode = .accumulator
  | shiftMem f => (id.emul, f) ∈ [(Emul.asl, Shift.asl), (.lsr, .lsr), (.rol, .rol), (.ror, .ror)]
  | bit => id.emul = .bit ∧ (id.mode = .immediate ↔ op = 0x89)
  | rmb => id.emul = .rmb (opcodeBit op)
  | smb => id.emul = .smb (opcodeBit op)
  | testBits => id.emul = if op == 0x14 || op == 0x1C then .trb else .tsb
  | bitBranch =>
    (id.emul = if op &&& 0x80 != 0 then .bbs (opcodeBit op) else .bbr (opcodeBit op)) ∧ id.mode = .zpr
  | push f =>
    (id.emul, f) ∈ [(Emul.pha, Off.A), (.phx, .X), (.phy, .Y), (.php, .P)] ∧ (op = 0x08 ↔ id.emul = .php)
  | pull f => (id.emul, f) ∈ [(Emul.pla, Off.A), (.plx, .X), (.ply, .Y)]
  | plp => id.emul = .plp
  | bra => id.emul = .bra
  | condBranch => ∃ b ∈ branches, b.op = op ∧ b.emul = id.emul
  | jmpAbs => id.emul = .jmp ∧ id.mode = .absolute
  | jmpInd => id.emul = .jmp ∧ id.mode = .iabsolute
  | jsr => id.emul = .jsr
  | rts => id.emul = .rts

/-- The operand forms the cases are written for. -/
inductive Form
  | none
  | operand
  | address
  | direct
  deriving DecidableEq

def EmitCase.form : EmitCase → Form
  | load _ | logic _ | adc | cmp _ | sbc | bit => .operand
  | store _ | stz => .address
  | incMem | decMem | shiftMem _ | rmb | smb | testBits => .direct
  | _ => .none

/-- The cases that test `use_jit` after the instruction. -/
def EmitCase.bails : EmitCase → Bool
  | store _ | stz | incMem | decMem | shiftMem _ | rmb | smb | testBits | push _ | jsr => true
  | _ => false

def Form.fits (mode : Addressing) : Form → Bool
  | none => true
  | operand => mode.direct || mode ∈ [.immediate, .izp, .izpx, .izpy]
  | address => mode.direct || mode ∈ [.izp, .izpx, .izpy]
  | direct => mode.direct

/-- The cases whose instruction writes `PC` itself, and the sizes that the emitter builds
into the code. -/
def EmitCase.jumps : EmitCase → Bool
  | bitBranch | bra | condBranch | jmpAbs | jmpInd | jsr => true
  | _ => false

def EmitCase.size? : EmitCase → Option Nat
  | bitBranch => some 3
  | bra | condBranch => some 2
  | rts => some 1
  | _ => none

structure EmitCase.Fits (op : Byte) (id : InstrDef) (c : EmitCase) : Prop where
  emulates : c.emulates op id = true
  form : c.form.fits id.mode = true
  jumps : id.modifyPc = c.jumps
  size : ∀ n, c.size? = some n → id.size = n

theorem emitCase_mem {op : Byte} {c : EmitCase} (hc : emitCase op = some c) :
    ∃ ops, (ops, c) ∈ emitCases ∧ op ∈ ops := by
  obtain ⟨⟨ops, _⟩, he, rfl⟩ := Option.map_eq_some_iff.1 hc
  exact ⟨ops, List.mem_of_find?_eq_some he, by simpa using List.find?_some he⟩

theorem emitCase_fits {op : Byte} {c : EmitCase} (hc : emitCase op = some c) :
    c.Fits op (instructionDecode op) := by
  have h : emitCases.all (fun e => e.1.all fun op =>
      e.2.emulates op (instructionDecode op) && e.2.form.fits (instructionDecode op).mode &&
        (instructionDecode op).modifyPc == e.2.jumps && e.2.size?.all fun n =>
          (instructionDecode op).size == n) := by
    decide +kernel
  obtain ⟨ops, he, hop⟩ := emitCase_mem hc
  have hh := List.all_eq_true.1 (List.all_eq_true.1 h _ he) op hop
  simp only [Bool.and_eq_true, beq_iff_eq] at hh
  obtain ⟨⟨⟨hm, hf⟩, hj⟩, hs⟩ := hh
  refine ⟨hm, hf, hj, fun n hn => ?_⟩
  simpa [hn] using hs

/-- The emulation function of an instruction, with the operand of `BIT` read once. -/
def emulOnce (id : InstrDef) (i : Instruction) : Cpu Unit :=
  if id.emul = .bit then bitOnce id i else id.emul.exec id i

/-- The interpreter's part of an instruction after its fetch, without debugging and faults. -/
def withNext (id : InstrDef) (x : Cpu Unit) : Cpu Unit := if id.modifyPc then x else thenNext id x

/-- What the native code of an instruction does, in terms of the interpreter. -/
def nativeProgram (ctx : EmitCtx) (k : Nat) (i : Instruction) (c : EmitCase) : NCpu Next := do
  let id := instructionDecode i.opcode
  let r ← get
  NCpu.ofCpu (withNext id (emulOnce id i))
  if c = .condBranch then
    branchControl ctx k (branchTarget ctx k i id.size) (branchTaken i.opcode (r.P.setWidth 64))
  else if c.bails then bailOut
  else return .fall

section Operands

variable {id : InstrDef} {i : Instruction} {c : EmitCase}

theorem Form.operand_some (h : Form.operand.fits id.mode = true) :
    ∃ code, jitEmitLoadOperand id.mode i = some code ∧ id.mode ≠ .accumulator := by
  generalize id.mode = mode at h ⊢
  cases mode <;> first | exact ⟨_, rfl, by decide⟩ | cases h

theorem Form.address_some (h : Form.address.fits id.mode = true) :
    ∃ code, jitEmitEffaddr id.mode i = some code ∧ id.mode ≠ .immediate ∧ id.mode ≠ .accumulator := by
  generalize id.mode = mode at h ⊢
  cases mode <;> first | exact ⟨_, rfl, by decide, by decide⟩ | cases h

theorem Form.direct_some (h : Form.direct.fits id.mode = true) :
    ∃ code, jitEmitEffaddr id.mode i = some code ∧ id.mode.direct = true := by
  generalize id.mode = mode at h ⊢
  cases mode <;> first | exact ⟨_, rfl, rfl⟩ | cases h

end Operands

section Cases

variable {ctx : EmitCtx} {k : Nat} {i : Instruction} {c : EmitCase} {x : Native Next} {y : Cpu Unit} {r : Regs}

theorem Ends.falls (hb : c.bails = false) (hc : c ≠ .condBranch)
    (hy : withNext (instructionDecode i.opcode) (emulOnce (instructionDecode i.opcode) i) = y)
    (h : Ends x (NCpu.ofCpu y >>= fun _ => pure .fall) r) : Ends x (nativeProgram ctx k i c) r := by
  subst hy
  simp only [Ends, nativeProgram, if_neg hc, hb, Bool.false_eq_true, if_false]
  exact h

theorem Ends.bails (hb : c.bails = true) (hc : c ≠ .condBranch)
    (hy : withNext (instructionDecode i.opcode) (emulOnce (instructionDecode i.opcode) i) = y)
    (h : Ends x (NCpu.ofCpu y >>= fun _ => bailOut) r) : Ends x (nativeProgram ctx k i c) r := by
  subst hy
  simp only [Ends, nativeProgram, if_neg hc, hb, if_true]
  exact h

theorem withNext_emulOnce {e : Emul} {id : InstrDef} (he : id.emul = e) (hb : e ≠ .bit)
    (hj : id.modifyPc = c.jumps) :
    withNext id (emulOnce id i) = if c.jumps then e.exec id i else thenNext id (e.exec id i) := by
  rw [withNext, emulOnce, hj, he, if_neg hb]

theorem modifyMem_accumulator {id : InstrDef} (hm : id.mode = .accumulator) (f : Byte → Byte) :
    modifyMem f id i = setReg (fun r => Off.A.put (f (Off.A.get r)) r) Off.A.get := by
  funext r
  simp only [modifyMem, instructionDataRead1, instructionDataWrite1, hm, if_true]
  rfl

theorem withNext_bit {id : InstrDef} (he : id.emul = .bit) (hj : id.modifyPc = c.jumps) :
    withNext id (emulOnce id i) = if c.jumps then bitOnce id i else thenNext id (bitOnce id i) := by
  rw [withNext, emulOnce, hj, he, if_pos rfl]

/-- The branch test of the emitter is the flag test of the emulation function. -/
theorem branchTaken_flag : ∀ b ∈ branches, ∀ P : Byte,
    branchTaken b.op (P.setWidth 64) = decide ((P &&& b.flag != 0) = b.value) := by
  intro b hb P
  have hset (m : Byte) : bmsi (imm m) (P.setWidth 64) = decide ((P &&& m != 0) = true) := by
    rw [imm, bmsi_zext, Bool.decide_eq_true]
  have hclear (m : Byte) : bmci (imm m) (P.setWidth 64) = decide ((P &&& m != 0) = false) := by
    rw [imm, bmci_zext, Bool.decide_eq_false, bne, Bool.not_not]
  simp only [branches, List.mem_cons, List.not_mem_nil, or_false] at hb
  rcases hb with rfl | rfl | rfl | rfl | rfl | rfl | rfl | rfl
  · exact hclear pCarry
  · exact hset pCarry
  · exact hset pZero
  · exact hclear pZero
  · exact hset pNegative
  · exact hclear pNegative
  · exact hset pSignOverflow
  · exact hclear pSignOverflow

theorem branch_exec {b : Branch} (hb : b ∈ branches) (id : InstrDef) (i : Instruction) :
    b.emul.exec id i = branchIf b.flag b.value id i ∧ b.emul ≠ .bit := by
  simp only [branches, List.mem_cons, List.not_mem_nil, or_false] at hb
  rcases hb with rfl | rfl | rfl | rfl | rfl | rfl | rfl | rfl <;> exact ⟨rfl, by decide⟩

theorem emitPush_case {reg : Off}
    (he : ((instructionDecode i.opcode).emul, reg) ∈ [(Emul.pha, Off.A), (.phx, .X), (.phy, .Y), (.php, .P)] ∧
      (i.opcode = 0x08 ↔ (instructionDecode i.opcode).emul = .php))
    (hj : (instructionDecode i.opcode).modifyPc = (EmitCase.push reg).jumps) :
    Ends (emitPush i (instructionDecode i.opcode).size reg) (nativeProgram ctx k i (.push reg)) r := by
  obtain ⟨he, hop⟩ := he
  have hno : ∀ e : Emul, (instructionDecode i.opcode).emul = e → e ≠ .php → i.opcode ≠ 0x08 :=
    fun e he hne h => hne (he ▸ hop.1 h)
  simp only [List.mem_cons, Prod.mk.injEq, List.not_mem_nil, or_false] at he
  rcases he with ⟨he, rfl⟩ | ⟨he, rfl⟩ | ⟨he, rfl⟩ | ⟨he, rfl⟩
  · exact .bails rfl (by simp) (withNext_emulOnce he (by decide) hj)
      (emitPush_ends (v := Regs.A) r (if_neg (hno _ he (by decide))).symm)
  · exact .bails rfl (by simp) (withNext_emulOnce he (by decide) hj)
      (emitPush_ends (v := Regs.X) r (if_neg (hno _ he (by decide))).symm)
  · exact .bails rfl (by simp) (withNext_emulOnce he (by decide) hj)
      (emitPush_ends (v := Regs.Y) r (if_neg (hno _ he (by decide))).symm)
  · refine .bails rfl (by simp) (withNext_emulOnce he (by decide) hj)
      (emitPush_ends (v := fun r => r.P ||| pBreak ||| pUndefined) r ?_)
    rw [if_pos (hop.2 he), get_P, BitVec.or_assoc]

theorem emitCondBranch_case
    (he : ∃ b ∈ branches, b.op = i.opcode ∧ b.emul = (instructionDecode i.opcode).emul)
    (hj : (instructionDecode i.opcode).modifyPc = EmitCase.condBranch.jumps)
    (hs : (instructionDecode i.opcode).size = 2) (hpc : r.PC = ctx.insnAddr.getD k 0) :
    Ends (emitCondBranch i (instructionDecode i.opcode).size ctx k) (nativeProgram ctx k i .condBranch) r := by
  obtain ⟨b, hb, hop, hemul⟩ := he
  have hbr := branch_exec hb (instructionDecode i.opcode) i
  have ht : branchTaken i.opcode (r.P.setWidth 64) = decide (r.flag b.flag = b.value) :=
    hop ▸ branchTaken_flag b hb r.P
  have hy : withNext (instructionDecode i.opcode) (emulOnce (instructionDecode i.opcode) i) =
      branchIf b.flag b.value (instructionDecode i.opcode) i :=
    (withNext_emulOnce hemul.symm hbr.2 hj).trans hbr.1
  have h := emitCondBranch_ends (i := i) r hs ht hpc
  rw [← ht] at h
  simp only [Ends, nativeProgram, hy, if_true]
  exact h

theorem jitEmitInsn_ends (hc : emitCase i.opcode = some c) (hpc : r.PC = ctx.insnAddr.getD k 0) :
    Ends (jitEmitInsn ctx k i) (nativeProgram ctx k i c) r := by
  obtain ⟨he, hform, hj, hs⟩ := emitCase_fits hc
  simp only [jitEmitInsn, hc]
  cases c with
  | nop =>
    exact .falls rfl (by simp) (withNext_emulOnce (of_decide_eq_true he) (by decide) hj)
      ((emitNop_follows r).falling r)
  | clearFlag m =>
    refine .falls rfl (by simp) ?_ ((emitClearFlag_follows r m).falling r)
    replace he := of_decide_eq_true he
    simp only [Emul.clears, List.mem_cons, Prod.mk.injEq, List.not_mem_nil, or_false] at he
    rcases he with ⟨he, rfl⟩ | ⟨he, rfl⟩ | ⟨he, rfl⟩ | ⟨he, rfl⟩ <;> exact withNext_emulOnce he (by decide) hj
  | raiseFlag m =>
    refine .falls rfl (by simp) ?_ ((emitRaiseFlag_follows r m).falling r)
    replace he := of_decide_eq_true he
    simp only [Emul.raises, List.mem_cons, Prod.mk.injEq, List.not_mem_nil, or_false] at he
    rcases he with ⟨he, rfl⟩ | ⟨he, rfl⟩ | ⟨he, rfl⟩ <;> exact withNext_emulOnce he (by decide) hj
  | transfer dst src =>
    replace he := of_decide_eq_true he
    simp only [Emul.transfers, List.mem_cons, Prod.mk.injEq, List.not_mem_nil, or_false] at he
    rcases he with ⟨he, rfl, rfl⟩ | ⟨he, rfl, rfl⟩ | ⟨he, rfl, rfl⟩ | ⟨he, rfl, rfl⟩ | ⟨he, rfl, rfl⟩ <;>
      exact .falls rfl (by simp) (withNext_emulOnce he (by decide) hj)
        ((emitTransfer_follows r _ _ fun _ _ => rfl).falling r)
  | txs =>
    exact .falls rfl (by simp) (withNext_emulOnce (of_decide_eq_true he) (by decide) hj)
      ((emitTxs_follows r).falling r)
  | incReg f =>
    refine .falls rfl (by simp) ?_ ((emitIncReg_follows r f fun _ _ => by cases f <;> rfl).falling r)
    replace he := of_decide_eq_true he
    simp only [List.mem_cons, Prod.mk.injEq, List.not_mem_nil, or_false] at he
    rcases he with (⟨he, rfl⟩ | ⟨he, rfl⟩) | ⟨he, rfl, hm⟩
    · exact withNext_emulOnce he (by decide) hj
    · exact withNext_emulOnce he (by decide) hj
    · exact (withNext_emulOnce he (by decide) hj).trans (congrArg (thenNext _) (modifyMem_accumulator hm _))
  | decReg f =>
    refine .falls rfl (by simp) ?_ ((emitDecReg_follows r f fun _ _ => by cases f <;> rfl).falling r)
    replace he := of_decide_eq_true he
    simp only [List.mem_cons, Prod.mk.injEq, List.not_mem_nil, or_false] at he
    rcases he with (⟨he, rfl⟩ | ⟨he, rfl⟩) | ⟨he, rfl, hm⟩
    · exact withNext_emulOnce he (by decide) hj
    · exact withNext_emulOnce he (by decide) hj
    · exact (withNext_emulOnce he (by decide) hj).trans (congrArg (thenNext _) (modifyMem_accumulator hm _))
  | load dst =>
    obtain ⟨code, hcode, ha⟩ := Form.operand_some (i := i) hform
    rw [hcode]
    refine .falls rfl (by simp) ?_
      ((emitLoad_follows r dst fun l hl => operand_follows hcode ha rfl hl r).falling r)
    replace he := of_decide_eq_true he
    simp only [List.mem_cons, Prod.mk.injEq, List.not_mem_nil, or_false] at he
    rcases he with ⟨he, rfl⟩ | ⟨he, rfl⟩ | ⟨he, rfl⟩ <;> exact withNext_emulOnce he (by decide) hj
  | store src =>
    obtain ⟨code, hcode, hi, ha⟩ := Form.address_some (i := i) hform
    rw [hcode]
    refine .bails rfl (by simp) ?_ (emitStore_ends (v := src.get) r hi ha hcode fun b c d e => by simp)
    replace he := of_decide_eq_true he
    simp only [List.mem_cons, Prod.mk.injEq, List.not_mem_nil, or_false] at he
    rcases he with ⟨he, rfl⟩ | ⟨he, rfl⟩ | ⟨he, rfl⟩ <;> exact withNext_emulOnce he (by decide) hj
  | stz =>
    obtain ⟨code, hcode, hi, ha⟩ := Form.address_some (i := i) hform
    rw [hcode]
    exact .bails rfl (by simp) (withNext_emulOnce (of_decide_eq_true he) (by decide) hj)
      (emitStore_ends r hi ha hcode fun b c d e => by simp)
  | logic f =>
    obtain ⟨code, hcode, ha⟩ := Form.operand_some (i := i) hform
    rw [hcode]
    refine .falls rfl (by simp) ?_
      ((emitLogic_follows r f fun l hl => operand_follows hcode ha rfl hl r).falling r)
    replace he := of_decide_eq_true he
    simp only [List.mem_cons, Prod.mk.injEq, List.not_mem_nil, or_false] at he
    rcases he with ⟨he, rfl⟩ | ⟨he, rfl⟩ | ⟨he, rfl⟩ <;> exact withNext_emulOnce he (by decide) hj
  | adc =>
    obtain ⟨code, hcode, ha⟩ := Form.operand_some (i := i) hform
    rw [hcode]
    exact .falls rfl (by simp) (withNext_emulOnce (of_decide_eq_true he) (by decide) hj)
      ((emitAdc_follows r fun l hl => operand_follows hcode ha rfl hl r).falling r)
  | cmp reg =>
    obtain ⟨code, hcode, ha⟩ := Form.operand_some (i := i) hform
    rw [hcode]
    replace he := of_decide_eq_true he
    simp only [List.mem_cons, Prod.mk.injEq, List.not_mem_nil, or_false] at he
    rcases he with ⟨he, rfl⟩ | ⟨he, rfl⟩ | ⟨he, rfl⟩ <;>
      exact .falls rfl (by simp) (withNext_emulOnce he (by decide) hj)
        ((emitCmp_follows r _ (fun _ _ => rfl) fun l hl => operand_follows hcode ha rfl hl r).falling r)
  | sbc =>
    obtain ⟨code, hcode, ha⟩ := Form.operand_some (i := i) hform
    rw [hcode]
    exact .falls rfl (by simp) (withNext_emulOnce (of_decide_eq_true he) (by decide) hj)
      ((emitSbc_follows r fun l hl => operand_follows hcode ha rfl hl r).falling r)
  | incMem =>
    obtain ⟨code, hcode, hd⟩ := Form.direct_some (i := i) hform
    rw [hcode]
    exact .bails rfl (by simp) (withNext_emulOnce (of_decide_eq_true he) (by decide) hj)
      (emitIncMem_ends r hd hcode)
  | decMem =>
    obtain ⟨code, hcode, hd⟩ := Form.direct_some (i := i) hform
    rw [hcode]
    exact .bails rfl (by simp) (withNext_emulOnce (of_decide_eq_true he) (by decide) hj)
      (emitDecMem_ends r hd hcode)
  | shiftAcc f =>
    replace he := of_decide_eq_true he
    simp only [List.mem_cons, Prod.mk.injEq, List.not_mem_nil, or_false] at he
    obtain ⟨he, hm⟩ := he
    refine .falls rfl (by simp) ?_ ((emitShiftAcc_follows (i := i) r f hm).falling r)
    rcases he with ⟨he, rfl⟩ | ⟨he, rfl⟩ | ⟨he, rfl⟩ | ⟨he, rfl⟩ <;> exact withNext_emulOnce he (by decide) hj
  | shiftMem f =>
    obtain ⟨code, hcode, hd⟩ := Form.direct_some (i := i) hform
    rw [hcode]
    refine .bails rfl (by simp) ?_ (emitShiftMem_ends r f hd hcode)
    replace he := of_decide_eq_true he
    simp only [List.mem_cons, Prod.mk.injEq, List.not_mem_nil, or_false] at he
    rcases he with ⟨he, rfl⟩ | ⟨he, rfl⟩ | ⟨he, rfl⟩ | ⟨he, rfl⟩ <;> exact withNext_emulOnce he (by decide) hj
  | bit =>
    obtain ⟨code, hcode, ha⟩ := Form.operand_some (i := i) hform
    rw [hcode]
    obtain ⟨he, him⟩ := of_decide_eq_true he
    exact .falls rfl (by simp) (withNext_bit he hj)
      ((emitBit_follows r him fun l hl => operand_follows hcode ha rfl hl r).falling r)
  | rmb =>
    obtain ⟨code, hcode, hd⟩ := Form.direct_some (i := i) hform
    rw [hcode]
    exact .bails rfl (by simp) (withNext_emulOnce (of_decide_eq_true he) (by simp) hj)
      (emitMaskMem_ends r (fun v => zext_and_imm v _) hd hcode)
  | smb =>
    obtain ⟨code, hcode, hd⟩ := Form.direct_some (i := i) hform
    rw [hcode]
    exact .bails rfl (by simp) (withNext_emulOnce (of_decide_eq_true he) (by simp) hj)
      (emitMaskMem_ends r (fun v => zext_or_imm v _) hd hcode)
  | testBits =>
    obtain ⟨code, hcode, hd⟩ := Form.direct_some (i := i) hform
    rw [hcode]
    replace he := of_decide_eq_true he
    cases hop : i.opcode == 0x14 || i.opcode == 0x1C with
    | true =>
      rw [hop, if_pos rfl] at he
      exact .bails rfl (by simp) (withNext_emulOnce he (by decide) hj) (emitTrb_ends r hop hd hcode)
    | false =>
      rw [hop, if_neg Bool.false_ne_true] at he
      exact .bails rfl (by simp) (withNext_emulOnce he (by decide) hj) (emitTsb_ends r hop hd hcode)
  | bitBranch =>
    obtain ⟨he, hm⟩ := of_decide_eq_true he
    have ht := bitTaken_zext i.opcode
    cases hop : i.opcode &&& 0x80 != 0 with
    | true =>
      rw [hop, if_pos rfl] at he
      simp only [hop, if_true] at ht
      exact .falls rfl (by simp) (withNext_emulOnce he (by simp) hj)
        ((emitBitBranch_follows r (hs 3 rfl) hm ht).falling r)
    | false =>
      rw [hop, if_neg Bool.false_ne_true] at he
      simp only [hop, Bool.false_eq_true, if_false] at ht
      exact .falls rfl (by simp) (withNext_emulOnce he (by simp) hj)
        ((emitBitBranch_follows r (hs 3 rfl) hm ht).falling r)
  | push reg => exact emitPush_case (of_decide_eq_true he) hj
  | pull reg =>
    refine .falls rfl (by simp) ?_ ((emitPull_follows r reg).falling r)
    replace he := of_decide_eq_true he
    simp only [List.mem_cons, Prod.mk.injEq, List.not_mem_nil, or_false] at he
    rcases he with ⟨he, rfl⟩ | ⟨he, rfl⟩ | ⟨he, rfl⟩ <;> exact withNext_emulOnce he (by decide) hj
  | plp =>
    exact .falls rfl (by simp) (withNext_emulOnce (of_decide_eq_true he) (by decide) hj)
      ((emitPlp_follows r).falling r)
  | bra =>
    exact .falls rfl (by simp) (withNext_emulOnce (of_decide_eq_true he) (by decide) hj)
      ((emitBra_follows r (hs 2 rfl)).falling r)
  | condBranch => exact emitCondBranch_case (of_decide_eq_true he) hj (hs 2 rfl) hpc
  | jmpAbs =>
    obtain ⟨he, hm⟩ := of_decide_eq_true he
    exact .falls rfl (by simp) (withNext_emulOnce he (by decide) hj) ((emitJmpAbs_follows r hm).falling r)
  | jmpInd =>
    obtain ⟨he, hm⟩ := of_decide_eq_true he
    exact .falls rfl (by simp) (withNext_emulOnce he (by decide) hj) ((emitJmpInd_follows r hm).falling r)
  | jsr => exact .bails rfl (by simp) (withNext_emulOnce (of_decide_eq_true he) (by decide) hj) (emitJsr_ends r)
  | rts =>
    exact .falls rfl (by simp) (withNext_emulOnce (of_decide_eq_true he) (by decide) hj)
      ((emitRts_follows r (hs 1 rfl)).falling r)

/-- Native code is the interpreter's code: the same requests with the same registers, in the
same order, with the same registers at the end. -/
theorem nativeInsn_eq (hc : emitCase i.opcode = some c) (hpc : r.PC = ctx.insnAddr.getD k 0) :
    (nativeInsn ctx k i).run r = (nativeProgram ctx k i c).run r := by
  have h := jitEmitInsn_ends (k := k) hc hpc
  refine Same.eq ?_
  unfold nativeInsn
  rw [← Tree.bind_done ((nativeProgram ctx k i c).run r), StateT.run_bind]
  refine Same.bind h ?_
  rintro ⟨⟨next, l⟩, r'⟩ ⟨_, _⟩ ⟨rfl, rfl, hl⟩
  simp only [show l.r0 = true from hl, if_true]
  exact .done rfl

theorem nativeInsn_fallback (hc : emitCase i.opcode = none) :
    nativeInsn ctx k i = NCpu.ofCpu exec >>= fun _ => fallbackControl (instructionDecode i.opcode) := by
  rw [← emitFallback_eq]
  simp only [nativeInsn, jitEmitInsn, hc]

end Cases

end Rk65c02
