import Rk65c02.NativeCases
import Rk65c02.Requests

/-! Instructions that do nothing. A byte that cannot be fetched reads as `0xFF`, and with such a
byte only a few instructions leave memory and every register alone. -/

namespace Rk65c02

open Resumption Cpu

/-- The instruction asks nothing of the emulator and changes no register. -/
def Instruction.Inert (i : Instruction) (r : Regs) : Prop :=
  (i.emul.exec (instructionDecode i.opcode) i).run r = .done ((), r)

/-- Z and N are those of the byte. -/
def Regs.Reflects (r : Regs) (v : Byte) : Prop :=
  r.flag pZero = (v == 0) ∧ r.flag pNegative = (v &&& pNegative != 0)

/-- The registers that an immediate instruction leaves alone, if its operand is `0xFF`. -/
def Emul.Idle (r : Regs) : Emul → Prop
  | lda | ora => r.A = 0xFF ∧ r.Reflects 0xFF
  | ldx => r.X = 0xFF ∧ r.Reflects 0xFF
  | ldy => r.Y = 0xFF ∧ r.Reflects 0xFF
  | and => r.Reflects r.A
  | bit => r.flag pZero = (r.A == 0)
  | cmp => r.flag pCarry = (r.A == 0xFF) ∧ r.Reflects (r.A - 0xFF)
  | cpx => r.flag pCarry = (r.X == 0xFF) ∧ r.Reflects (r.X - 0xFF)
  | cpy => r.flag pCarry = (r.Y == 0xFF) ∧ r.Reflects (r.Y - 0xFF)
  -- a carry makes up for the `0xFF`, and so does a borrow
  | adc => r.flag pDecimal = false ∧ r.flag pCarry = true ∧ r.flag pSignOverflow = false ∧ r.Reflects r.A
  | sbc => r.flag pDecimal = false ∧ r.flag pCarry = false ∧ r.flag pSignOverflow = false ∧ r.Reflects r.A
  | _ => False

section Flags

variable {m P Q : Byte}

theorem and_twoPow_bne {k : Nat} (hk : k < 8) (P : Byte) : (P &&& BitVec.twoPow 8 k != 0) = P.getLsbD k := by
  have hne : ∀ k < 8, BitVec.twoPow 8 k ≠ 0 := by decide
  rw [BitVec.and_twoPow]
  cases P.getLsbD k with
  | false => rfl
  | true => exact bne_iff_ne.2 (hne k hk)

theorem setFlag_twoPow {k : Nat} (hk : k < 8) (b : Bool) (P : Byte) :
    setFlag (BitVec.twoPow 8 k) b P = P ↔ P.getLsbD k = b := by
  constructor
  · intro h
    rw [← h]
    cases b <;> simp [setFlag, hk]
  · intro h
    ext j hj
    by_cases hjk : j = k
    · subst hjk
      rw [← BitVec.getLsbD_eq_getElem, ← BitVec.getLsbD_eq_getElem, h]
      cases b <;> simp [setFlag, hj]
    · cases b <;> simp [setFlag, BitVec.getElem_twoPow, hjk]

theorem setFlag_self (hm : m ∈ [pCarry, pZero, pSignOverflow, pNegative]) (b : Bool) (P : Byte) :
    setFlag m b P = P ↔ (P &&& m != 0) = b := by
  obtain ⟨k, hk, rfl⟩ : ∃ k < 8, m = BitVec.twoPow 8 k := by
    simp only [List.mem_cons, List.not_mem_nil, or_false] at hm
    rcases hm with rfl | rfl | rfl | rfl
    · exact ⟨0, by decide, rfl⟩
    · exact ⟨1, by decide, rfl⟩
    · exact ⟨6, by decide, rfl⟩
    · exact ⟨7, by decide, rfl⟩
  rw [setFlag_twoPow hk, and_twoPow_bne hk]

/-- A flag set last shows in the result, and what came before left it alone. -/
theorem setFlag_fix (hm : m ∈ [pCarry, pZero, pSignOverflow, pNegative]) (hq : Q &&& m = P &&& m) (b : Bool) :
    setFlag m b Q = P ↔ (P &&& m != 0) = b ∧ Q = P := by
  constructor
  · intro h
    have hQ : Q = P := by
      subst h
      ext i hi
      have hb : (Q &&& m)[i] = (setFlag m b Q &&& m)[i] := by rw [← hq]
      cases b <;> cases hmi : m[i] <;> simp [setFlag, hmi] at hb ⊢ <;> exact hb
    subst hQ
    exact ⟨(setFlag_self hm b Q).1 h, rfl⟩
  · rintro ⟨hb, rfl⟩
    exact (setFlag_self hm b Q).2 hb

theorem znFlags_fix (hz : Q &&& pZero = P &&& pZero) (hn : Q &&& pNegative = P &&& pNegative) (v : Byte) :
    znFlags v Q = P ↔
      ((P &&& pZero != 0) = (v == 0) ∧ (P &&& pNegative != 0) = (v &&& pNegative != 0)) ∧ Q = P := by
  rw [znFlags, setFlag_fix (by decide) (by rw [setFlag_and (by decide), hn]), setFlag_fix (by decide) hz]
  rw [← and_assoc]
  exact and_congr_left' and_comm

end Flags

section Immediate

variable {id : InstrDef} {i : Instruction} {r : Regs}

/-- Code that asks nothing is inert if it puts back what it finds. -/
theorem inert_of_run {c : Cpu Unit} {a x y p : Byte}
    (h : c.run r = .done ((), { r with A := a, X := x, Y := y, P := p })) :
    c.run r = .done ((), r) ↔ r.A = a ∧ r.X = x ∧ r.Y = y ∧ p = r.P := by
  rw [h]
  obtain ⟨A, X, Y, PC, SP, P⟩ := r
  simp [Regs.mk.injEq, eq_comm]

theorem znFlags_self (v : Byte) : znFlags v r.P = r.P ↔ r.Reflects v :=
  (znFlags_fix rfl rfl v).trans (and_iff_left rfl)

theorem compareFlags_self (v : Byte) (c : Bool) :
    setFlag pCarry c (znFlags v r.P) = r.P ↔ r.flag pCarry = c ∧ r.Reflects v := by
  rw [setFlag_fix (by decide) (by rw [znFlags, setFlag_and (by decide), setFlag_and (by decide)]), znFlags_self]
  rfl

theorem sumFlags_self (a : Byte) (c v : Bool) : znFlags a (setFlag pCarry c (setFlag pSignOverflow v r.P)) = r.P ↔
    r.Reflects a ∧ r.flag pCarry = c ∧ r.flag pSignOverflow = v := by
  rw [znFlags_fix (by rw [setFlag_and (by decide), setFlag_and (by decide)])
    (by rw [setFlag_and (by decide), setFlag_and (by decide)]), setFlag_fix (by decide)
      (by rw [setFlag_and (by decide)]),
    setFlag_fix (by decide) rfl]
  exact and_congr_right fun _ => and_congr_right fun _ => and_iff_left rfl

/-- A sum that leaves `A` alone: the carry makes up for the operand. -/
theorem addSum_fix {v : Byte} {t : Bool} (hv : (v, t) ∈ [((0xFF : Byte), true), (0, false)])
    (a : Byte) (c : Bool) :
    a = (addSum a v c).setWidth 8 ∧ c = decide (0xFF < addSum a v c) ↔ c = t := by
  have ha := a.isLt
  have hlt : 0xFF < addSum a v c ↔ 255 < (addSum a v c).toNat := BitVec.lt_def
  rw [← BitVec.toNat_inj, BitVec.toNat_setWidth]
  simp only [hlt, toNat_addSum]
  simp only [List.mem_cons, List.not_mem_nil, or_false, Prod.mk.injEq] at hv
  rcases hv with ⟨rfl, rfl⟩ | ⟨rfl, rfl⟩ <;> cases c <;> simp <;> omega

theorem addRegs_fix {c : Cpu Unit} {v : Byte} {t : Bool} (hv : (v, t) ∈ [((0xFF : Byte), true), (0, false)])
    (h : c.run r = .done ((), addRegs r v)) :
    c.run r = .done ((), r) ↔ r.flag pCarry = t ∧ r.flag pSignOverflow = false ∧ r.Reflects r.A := by
  have hover : ((r.A ^^^ r.A) &&& (v ^^^ r.A) &&& 128#8 != 0#8) = false := by simp
  have hs := addSum_fix hv r.A (r.flag pCarry)
  refine (inert_of_run (a := (addRegs r v).A) (x := r.X) (y := r.Y) h).trans ?_
  rw [addRegs, sumFlags_self]
  constructor
  · rintro ⟨ha, -, -, hz, hc, hov⟩
    have ha : r.A = (addSum r.A v (r.flag pCarry)).setWidth 8 := ha
    change r.Reflects ((addSum r.A v (r.flag pCarry)).setWidth 8) at hz
    change _ = ((r.A ^^^ (addSum r.A v (r.flag pCarry)).setWidth 8) &&&
      (v ^^^ (addSum r.A v (r.flag pCarry)).setWidth 8) &&& 128#8 != 0#8) at hov
    rw [← ha] at hz hov
    exact ⟨hs.1 ⟨ha, hc⟩, hov.trans hover, hz⟩
  · rintro ⟨ht, hov, hz⟩
    obtain ⟨ha, hc⟩ := hs.2 ht
    refine ⟨ha, rfl, rfl, ?_, hc, ?_⟩
    · change r.Reflects ((addSum r.A v (r.flag pCarry)).setWidth 8)
      rwa [← ha]
    · change _ = ((r.A ^^^ (addSum r.A v (r.flag pCarry)).setWidth 8) &&&
        (v ^^^ (addSum r.A v (r.flag pCarry)).setWidth 8) &&& 128#8 != 0#8)
      rw [← ha]
      exact hov.trans hover.symm

/-- A decimal sum with `0xFF` is over 99: it leaves the carry set, and with a carry it is another
number. A decimal difference is another number in any case. -/
theorem decimal_moves : ∀ (a : Byte) (c : Bool),
    ¬(a = toBcd ((if c then (fromBcd a).setWidth 16 + (fromBcd 0xFF).setWidth 16 + 1
          else (fromBcd a).setWidth 16 + (fromBcd 0xFF).setWidth 16 : Addr).setWidth 8) ∧
        c = decide (99 < (if c then (fromBcd a).setWidth 16 + (fromBcd 0xFF).setWidth 16 + 1
          else (fromBcd a).setWidth 16 + (fromBcd 0xFF).setWidth 16 : Addr))) ∧
      a ≠ sbcBcd (if c then (fromBcd a).setWidth 16 - (fromBcd 0xFF).setWidth 16
        else (fromBcd a).setWidth 16 - (fromBcd 0xFF).setWidth 16 - 1) := by
  decide +kernel

variable (hm : id.mode = .immediate) (hv : i.op1 = 0xFF)

include hm hv

theorem dataRead_immediate : instructionDataRead1 id i = pure 0xFF := by
  simp [instructionDataRead1, hm, hv]

theorem load_inert {m : Emul} (h : m ∈ [.lda, .ldx, .ldy]) : (m.exec id i).run r = .done ((), r) ↔ m.Idle r := by
  have hd := dataRead_immediate hm hv
  simp only [List.mem_cons, List.not_mem_nil, or_false] at h
  rcases h with rfl | rfl | rfl
  · refine (inert_of_run (a := 0xFF) (x := r.X) (y := r.Y) (p := znFlags 0xFF r.P) ?_).trans ?_
    · rw [Emul.exec, emulLda, load, hd]
      rfl
    · simp [znFlags_self, Emul.Idle]
  · refine (inert_of_run (a := r.A) (x := 0xFF) (y := r.Y) (p := znFlags 0xFF r.P) ?_).trans ?_
    · rw [Emul.exec, emulLdx, load, hd]
      rfl
    · simp [znFlags_self, Emul.Idle]
  · refine (inert_of_run (a := r.A) (x := r.X) (y := 0xFF) (p := znFlags 0xFF r.P) ?_).trans ?_
    · rw [Emul.exec, emulLdy, load, hd]
      rfl
    · simp [znFlags_self, Emul.Idle]

theorem logic_inert {m : Emul} (h : m ∈ [.and, .ora, .eor, .bit]) :
    (m.exec id i).run r = .done ((), r) ↔ m.Idle r := by
  have hd := dataRead_immediate hm hv
  simp only [List.mem_cons, List.not_mem_nil, or_false] at h
  rcases h with rfl | rfl | rfl | rfl
  · refine (inert_of_run (a := r.A &&& 0xFF) (x := r.X) (y := r.Y) (p := znFlags (r.A &&& 0xFF) r.P) ?_).trans ?_
    · rw [Emul.exec, emulAnd, hd]
      rfl
    · have ha : r.A &&& 0xFF = r.A := BitVec.and_allOnes
      rw [ha, znFlags_self]
      simp [Emul.Idle]
  · refine (inert_of_run (a := r.A ||| 0xFF) (x := r.X) (y := r.Y) (p := znFlags (r.A ||| 0xFF) r.P) ?_).trans ?_
    · rw [Emul.exec, emulOra, hd]
      rfl
    · have ha : r.A ||| 0xFF = 0xFF := BitVec.or_allOnes
      rw [ha, znFlags_self]
      simp [Emul.Idle]
  · refine (inert_of_run (a := r.A ^^^ 0xFF) (x := r.X) (y := r.Y) (p := znFlags (r.A ^^^ 0xFF) r.P) ?_).trans ?_
    · rw [Emul.exec, emulEor, hd]
      rfl
    · refine ⟨fun h => ?_, False.elim⟩
      -- the lowest bit changes
      have hbit := congrArg (BitVec.getLsbD · 0) h.1
      simp at hbit
  · refine (inert_of_run (a := r.A) (x := r.X) (y := r.Y)
      (p := setFlag pZero (r.A &&& 0xFF == 0) r.P) ?_).trans ?_
    · simp only [Emul.exec, emulBit, hd, hm]
      rfl
    · have ha : r.A &&& 0xFF = r.A := BitVec.and_allOnes
      rw [ha, setFlag_fix (by decide) rfl]
      simp [Emul.Idle, Regs.flag]

theorem compare_inert {m : Emul} (h : m ∈ [.cmp, .cpx, .cpy]) :
    (m.exec id i).run r = .done ((), r) ↔ m.Idle r := by
  have hd := dataRead_immediate hm hv
  have hc (a : Byte) : (!decide (a < 0xFF)) = (a == 0xFF) := by
    by_cases ha : a = 0xFF
    · rw [ha]
      rfl
    · have hlt : a < 0xFF := by bv_omega
      rw [decide_eq_true hlt, beq_false_of_ne ha]
      rfl
  have hp : ∀ (c : Cpu Unit) (a : Byte),
      c.run r = .done ((), { r with P := setFlag pCarry (!decide (a < 0xFF)) (znFlags (a - 0xFF) r.P) }) →
      (c.run r = .done ((), r) ↔ r.flag pCarry = (a == 0xFF) ∧ r.Reflects (a - 0xFF)) := by
    intro c a h
    refine (inert_of_run (a := r.A) (x := r.X) (y := r.Y) h).trans ?_
    rw [compareFlags_self, hc]
    simp
  simp only [List.mem_cons, List.not_mem_nil, or_false] at h
  rcases h with rfl | rfl | rfl
  · refine hp _ r.A ?_
    rw [Emul.exec, emulCmp, compare, hd]
    rfl
  · refine hp _ r.X ?_
    rw [Emul.exec, emulCpx, compare, hd]
    rfl
  · refine hp _ r.Y ?_
    rw [Emul.exec, emulCpy, compare, hd]
    rfl

theorem adc_inert : (Emul.exec id i .adc).run r = .done ((), r) ↔ Emul.Idle r .adc := by
  have hrun : (Emul.exec id i .adc).run r = (adcWith 0xFF).run r := by
    rw [Emul.exec, emulAdc_eq, dataRead_immediate hm hv]
    rfl
  rw [hrun]
  by_cases hd : r.P &&& pDecimal = 0#8
  · rw [addRegs_fix (v := 0xFF) (t := true) (by decide) (adcWith_binary r 0xFF hd)]
    simp [Emul.Idle, Regs.flag, hd]
  · obtain ⟨res, hres⟩ : ∃ res : Addr,
      (if r.flag pCarry then (fromBcd r.A).setWidth 16 + (fromBcd 0xFF).setWidth 16 + 1
      else (fromBcd r.A).setWidth 16 + (fromBcd 0xFF).setWidth 16) = res := ⟨_, rfl⟩
    have ho : (doAdcBcd 0xFF).run r = .done ((), { r with
        A := toBcd (res.setWidth 8)
        P := znFlags (toBcd (res.setWidth 8))
          (setFlag pCarry (99 < res) (setFlag pSignOverflow (signOverflow r.A 0xFF res) r.P)) }) := by
      rw [← hres]
      rfl
    rw [adcWith_decimal r 0xFF hd]
    refine iff_of_false (fun h => ?_) fun h => hd (by simpa [Regs.flag] using h.1)
    rw [inert_of_run (x := r.X) (y := r.Y) ho, sumFlags_self] at h
    rw [← hres] at h
    exact (decimal_moves r.A (r.flag pCarry)).1 ⟨h.1, h.2.2.2.2.1⟩

theorem sbc_inert : (Emul.exec id i .sbc).run r = .done ((), r) ↔ Emul.Idle r .sbc := by
  have hrun : (Emul.exec id i .sbc).run r = (sbcWith 0xFF).run r := by
    rw [Emul.exec, emulSbc_eq, dataRead_immediate hm hv]
    rfl
  rw [hrun]
  by_cases hd : r.P &&& pDecimal = 0#8
  · rw [addRegs_fix (v := 0) (t := false) (by decide) (sbcWith_binary r 0xFF hd)]
    simp [Emul.Idle, Regs.flag, hd]
  · rw [sbcWith_decimal r 0xFF hd]
    refine iff_of_false (fun h => ?_) fun h => hd (by simpa [Regs.flag] using h.1)
    rw [inert_of_run (x := r.X) (y := r.Y) rfl] at h
    exact (decimal_moves r.A (r.flag pCarry)).2 h.1

theorem immediate_inert {m : Emul}
    (h : m ∈ [.lda, .ldx, .ldy, .and, .ora, .eor, .bit, .cmp, .cpx, .cpy, .adc, .sbc]) :
    (m.exec id i).run r = .done ((), r) ↔ m.Idle r := by
  simp only [List.mem_cons, List.not_mem_nil, or_false] at h
  rcases h with rfl | rfl | rfl | rfl | rfl | rfl | rfl | rfl | rfl | rfl | rfl | rfl
  iterate 3 exact load_inert hm hv (by decide)
  iterate 4 exact logic_inert hm hv (by decide)
  iterate 3 exact compare_inert hm hv (by decide)
  · exact adc_inert hm hv
  · exact sbc_inert hm hv

end Immediate

section Requests

variable {α β : Type} {id : InstrDef} {i : Instruction}

/-- Code that begins with a request. -/
def Cpu.Begins (x : Cpu α) : Prop := ∀ r, ∃ o n k, x.run r = .op o n k

theorem Cpu.Begins.bind {x : Cpu α} (h : x.Begins) (f : α → Cpu β) : (x >>= f).Begins := by
  intro r
  obtain ⟨o, n, k, hx⟩ := h r
  exact ⟨o, n, _, by rw [StateT.run_bind, hx, Tree.op_bind]⟩

theorem Cpu.Begins.not_done {x : Cpu α} (h : x.Begins) (r : Regs) (v : α × Regs) : x.run r ≠ .done v := by
  obtain ⟨o, n, k, hx⟩ := h r
  intro hd
  cases hx.symm.trans hd

theorem dataRead_begins (hm : id.mode.addresses = true) : (instructionDataRead1 id i).Begins := by
  intro r
  obtain ⟨mnemonic, mode, size, emul, modifyPc⟩ := id
  cases mode with
  | zp | zpr | zpx | zpy | izp | izpx | izpy | absolute | absolutex | absolutey => exact ⟨_, _, _, rfl⟩
  | _ => cases hm

theorem dataWrite_begins (hm : id.mode.addresses = true) (v : Byte) : (instructionDataWrite1 id i v).Begins := by
  intro r
  obtain ⟨mnemonic, mode, size, emul, modifyPc⟩ := id
  cases mode with
  | zp | zpr | zpx | zpy | izp | izpx | izpy | absolute | absolutex | absolutey => exact ⟨_, _, _, rfl⟩
  | _ => cases hm

/-- The instructions that read or write the operand. -/
def Emul.accesses : Emul → Bool
  | adc | and | asl | bbr _ | bbs _ | bit | cmp | cpx | cpy | dec | eor | inc | lda | ldx | ldy | lsr | ora
  | rmb _ | rol
  | ror | sbc | smb _ | sta | stx | sty | stz | trb | tsb => true
  | _ => false

theorem accesses_begin {m : Emul} (h : m.accesses = true) (hm : id.mode.addresses = true) :
    (m.exec id i).Begins := by
  cases m with
  | sta | stx | sty | stz => exact fun r => dataWrite_begins hm _ r
  | adc | and | asl | bbr | bbs | bit | cmp | cpx | cpy | dec | eor | inc | lda | ldx | ldy | lsr | ora | rmb
  | rol | ror
  | sbc | smb | trb | tsb => exact (dataRead_begins hm).bind _
  | _ => cases h

end Requests

theorem operand_classes : ∀ op : Byte, (instructionDecode op).mode.operands ≠ 0 →
    ((instructionDecode op).emul = .nop ∨ (instructionDecode op).emul = .invalid) ∨
    ((instructionDecode op).mode = .immediate ∧ (instructionDecode op).emul ∈
      [.lda, .ldx, .ldy, .and, .ora, .eor, .bit, .cmp, .cpx, .cpy, .adc, .sbc]) ∨
    ((instructionDecode op).mode = .relative ∧ (instructionDecode op).size = 2 ∧ (instructionDecode op).emul ∈
      [.bcc, .bcs, .beq, .bne, .bmi, .bpl, .bvs, .bvc, .bra]) ∨
    ((instructionDecode op).emul = .jmp ∧ (instructionDecode op).mode ∈ [.absolute, .iabsolute, .iabsolutex]) ∨
    (instructionDecode op).emul = .jsr ∨
    ((instructionDecode op).mode.addresses = true ∧ (instructionDecode op).emul.accesses = true) :=
  forall_opcode (p := fun _ id => id.mode.operands ≠ 0 → (id.emul = .nop ∨ id.emul = .invalid) ∨
    (id.mode = .immediate ∧ id.emul ∈ [.lda, .ldx, .ldy, .and, .ora, .eor, .bit, .cmp, .cpx, .cpy, .adc, .sbc]) ∨
    (id.mode = .relative ∧ id.size = 2 ∧ id.emul ∈ [.bcc, .bcs, .beq, .bne, .bmi, .bpl, .bvs, .bvc, .bra]) ∨
    (id.emul = .jmp ∧ id.mode ∈ [.absolute, .iabsolute, .iabsolutex]) ∨ id.emul = .jsr ∨
    (id.mode.addresses = true ∧ id.emul.accesses = true)) (by decide +kernel)

/-- A branch by `0xFF` goes one byte on, and one that is not taken goes on by its size. -/
theorem branch_moves {id : InstrDef} {i : Instruction} {m : Emul} {r : Regs} (hs : id.size = 2)
    (hv : i.op1 = 0xFF)
    (h : m ∈ [.bcc, .bcs, .beq, .bne, .bmi, .bpl, .bvs, .bvc, .bra]) : (m.exec id i).run r ≠ .done ((), r) := by
  have htaken : (programCounterBranch i.op1).run r ≠ .done ((), r) := by
    intro hd
    have hpc : r.PC + ((0xFF : Byte).signExtend 16 + 2) = r.PC :=
      hv ▸ congrArg Regs.PC (Prod.ext_iff.1 (Tree.done.inj hd)).2
    exact absurd (BitVec.self_eq_add_right.1 hpc.symm) (by decide)
  have hnext : (programCounterIncrement id).run r ≠ .done ((), r) := by
    intro hd
    have hpc : r.PC + BitVec.ofNat 16 2 = r.PC := hs ▸ congrArg Regs.PC (Prod.ext_iff.1 (Tree.done.inj hd)).2
    exact absurd (BitVec.self_eq_add_right.1 hpc.symm) (by decide)
  have hif : ∀ f v, (branchIf f v id i).run r ≠ .done ((), r) := by
    intro f v
    simp only [branchIf, StateT.run_bind, StateT.run_get, Tree.pure_eq, Tree.done_bind]
    split
    · exact htaken
    · exact hnext
  simp only [List.mem_cons, List.not_mem_nil, or_false] at h
  rcases h with rfl | rfl | rfl | rfl | rfl | rfl | rfl | rfl | rfl
  iterate 8 exact hif _ _
  exact htaken

/-- For a mnemonic that neither has no function nor jumps, only an immediate operand is left. -/
theorem immediate_of_inert {m : Emul} {mode : Addressing} {r : Regs} {p : Prop} (hn : m ≠ .nop)
    (hi : m ≠ .invalid) (hj : m ≠ .jmp)
    (h : m = .nop ∨ m = .invalid ∨ mode = .immediate ∧ m.Idle r ∨ m = .jmp ∧ p) :
    mode = .immediate ∧ m.Idle r := by
  rcases h with h | h | h | h
  · exact absurd h hn
  · exact absurd h hi
  · exact h
  · exact absurd h.1 hj

/-- The instructions with operands that do nothing, if the operand of an instruction of two bytes
reads as `0xFF`: those without a function, immediate ones that find their result in the registers,
and a jump to itself. -/
theorem Instruction.inert_iff {i : Instruction} {r : Regs} (h : (instructionDecode i.opcode).mode.operands ≠ 0)
    (hv : (instructionDecode i.opcode).mode.operands = 1 → i.op1 = 0xFF) :
    i.Inert r ↔ i.emul = .nop ∨ i.emul = .invalid ∨
      (instructionDecode i.opcode).mode = .immediate ∧ i.emul.Idle r ∨
      i.emul = .jmp ∧ (instructionDecode i.opcode).mode = .absolute ∧
        r.PC = i.op1.setWidth 16 + (i.op2.setWidth 16 <<< 8) := by
  have hclass := operand_classes i.opcode h
  unfold Inert emul
  generalize instructionDecode i.opcode = id at hclass hv ⊢
  obtain ⟨mnemonic, mode, size, m, modifyPc⟩ := id
  dsimp only at hclass hv ⊢
  rcases hclass with hm | ⟨rfl, hm⟩ | ⟨rfl, hs, hm⟩ | ⟨rfl, hm⟩ | rfl | ⟨hmode, hm⟩
  · rcases hm with rfl | rfl
    · exact iff_of_true rfl (.inl rfl)
    · exact iff_of_true rfl (.inr (.inl rfl))
  · refine (immediate_inert rfl (hv rfl) hm).trans ⟨fun hi => .inr (.inr (.inl ⟨rfl, hi⟩)), fun hi => ?_⟩
    exact (immediate_of_inert (by rintro rfl; simp at hm) (by rintro rfl; simp at hm)
      (by rintro rfl; simp at hm) hi).2
  · refine iff_of_false (branch_moves hs (hv rfl) hm) fun hi => ?_
    cases (immediate_of_inert (by rintro rfl; simp at hm) (by rintro rfl; simp at hm)
      (by rintro rfl; simp at hm) hi).1
  · simp only [List.mem_cons, List.not_mem_nil, or_false] at hm
    rcases hm with rfl | rfl | rfl
    · obtain ⟨A, X, Y, PC, SP, P⟩ := r
      simp [Emul.exec, emulJmp, eq_comm]
    · exact iff_of_false (by intro hd; cases hd) (by simp)
    · exact iff_of_false (by intro hd; cases hd) (by simp)
  · exact iff_of_false (by intro hd; cases hd) (by simp [Emul.Idle])
  · refine iff_of_false ((accesses_begin hm hmode).not_done r _) fun hi => ?_
    have hmode' := (immediate_of_inert (by rintro rfl; cases hm) (by rintro rfl; cases hm)
      (by rintro rfl; cases hm) hi).1
    rw [hmode'] at hmode
    cases hmode

end Rk65c02
