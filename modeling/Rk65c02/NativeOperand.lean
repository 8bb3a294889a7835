import Rk65c02.NativeRun

/-! Native operand access follows the interpreter's. -/

namespace Rk65c02

open Resumption Cpu

section Words

theorem or_shift_eq_add (lo hi : Byte) :
    (lo.setWidth 64 ||| hi.setWidth 64 <<< 8).setWidth 16 = lo.setWidth 16 + hi.setWidth 16 <<< 8 := by
  apply BitVec.eq_of_toNat_eq
  have h1 := lo.isLt
  have h2 := hi.isLt
  have hs : hi.toNat <<< 8 = hi.toNat * 256 := Nat.shiftLeft_eq ..
  have ho : lo.toNat ||| hi.toNat <<< 8 = hi.toNat * 256 + lo.toNat := by
    rw [Nat.or_comm, ← Nat.shiftLeft_add_eq_or_of_lt (by omega), hs]
  simp only [BitVec.toNat_setWidth, BitVec.toNat_or, BitVec.toNat_shiftLeft, BitVec.toNat_add]
  rw [Nat.mod_eq_of_lt (by omega : lo.toNat < 2 ^ 64), Nat.mod_eq_of_lt (by omega : hi.toNat < 2 ^ 64),
    Nat.mod_eq_of_lt (by omega : hi.toNat < 2 ^ 16), hs, Nat.mod_eq_of_lt
      (by omega : hi.toNat * 256 < 2 ^ 64), ← hs, ho,
    hs]
  omega

theorem op16_trunc (i : Instruction) : (op16 i).setWidth 16 = i.op1.setWidth 16 + i.op2.setWidth 16 <<< 8 :=
  or_shift_eq_add i.op1 i.op2

theorem word_trunc (lo hi : Byte) : (hi.setWidth 64 <<< 8 ||| lo.setWidth 64).setWidth 16 = word lo hi := by
  rw [BitVec.or_comm]
  unfold word
  ext k hk
  simp only [BitVec.getElem_setWidth, BitVec.getLsbD_or, BitVec.getLsbD_setWidth, BitVec.getLsbD_shiftLeft,
    BitVec.getElem_or, BitVec.getElem_shiftLeft]
  by_cases h : k < 8
  · simp [h, show k < 64 by omega]
  · simp [h, show k < 64 by omega, show k - 8 < 64 by omega]

theorem zext_trunc (a : Byte) : (a.setWidth 64).setWidth 16 = a.setWidth 16 := by simp

theorem index_trunc (a b : Byte) :
    ((a.setWidth 64 + b.setWidth 64) &&& 255#64).setWidth 16 = (a + b).setWidth 16 := by
  rw [zext_add_mask, zext_trunc]

theorem next_index_trunc (a b : Byte) :
    ((a.setWidth 64 + (b.setWidth 64 + 1#64)) &&& 255#64).setWidth 16 = (b + a + 1#8).setWidth 16 := by
  rw [mask_byte, trunc_add _ (by decide), trunc_add _ (by decide)]
  rw [BitVec.add_comm b a, BitVec.add_assoc]
  simp

theorem indexed_trunc (i : Instruction) (x : Byte) :
    (x.setWidth 64 + op16 i).setWidth 16 = i.op1.setWidth 16 + i.op2.setWidth 16 <<< 8 + x.setWidth 16 := by
  rw [trunc_add _ (by decide), op16_trunc, zext_trunc, BitVec.add_comm]

end Words

/-- `R1` holds the address that the interpreter computes. -/
def AddrIn (r : Regs) : Unit → LRegs → Addr → Regs → Prop := fun _ l a r' =>
  r' = r ∧ l.r0 = true ∧ ∃ w, l.r1 = some w ∧ w.setWidth 16 = a

/-- `R1` holds the operand that the interpreter reads. -/
def ByteIn (r : Regs) : Unit → LRegs → Byte → Regs → Prop := fun _ l v r' =>
  r' = r ∧ l.r0 = true ∧ l.r1 = some (v.setWidth 64)

theorem effaddr_follows {mode : Addressing} {i : Instruction} {code : Native Unit}
    (hc : jitEmitEffaddr mode i = some code) (hi : mode ≠ .immediate) (ha : mode ≠ .accumulator) {id : InstrDef}
    (hm : id.mode = mode) {l : LRegs} (hl : l.r0 = true) (r : Regs) :
    Follows code l (instructionDataAddress id i) r (AddrIn r) := by
  obtain ⟨r0, r1, r2, v1, v2⟩ := l
  obtain rfl : r0 = true := hl
  unfold Follows
  rw [ofCpu_run]
  cases mode <;> cases hc
  case immediate => exact absurd rfl hi
  case accumulator => exact absurd rfl ha
  all_goals simp [instructionDataAddress, hm]
  case zp => exact .done ⟨rfl, rfl, rfl, _, rfl, by simp⟩
  case zpx => exact .done ⟨rfl, rfl, rfl, _, rfl, (index_trunc ..).trans (by rw [BitVec.add_comm])⟩
  case zpy => exact .done ⟨rfl, rfl, rfl, _, rfl, (index_trunc ..).trans (by rw [BitVec.add_comm])⟩
  case absolute => exact .done ⟨rfl, rfl, rfl, _, rfl, op16_trunc i⟩
  case absolutex => exact .done ⟨rfl, rfl, rfl, _, rfl, indexed_trunc i r.X⟩
  case absolutey => exact .done ⟨rfl, rfl, rfl, _, rfl, indexed_trunc i r.Y⟩
  case izp =>
    rw [zext_trunc, zext_trunc]
    exact .op fun lo => .op fun hi => .done ⟨rfl, rfl, rfl, _, rfl, word_trunc lo hi⟩
  case izpx =>
    rw [index_trunc, next_index_trunc, BitVec.add_comm r.X]
    exact .op fun lo => .op fun hi => .done ⟨rfl, rfl, rfl, _, rfl, word_trunc lo hi⟩
  case izpy =>
    rw [zext_trunc, zext_trunc]
    refine .op fun lo => .op fun hi => .done ⟨rfl, rfl, rfl, _, rfl, ?_⟩
    rw [trunc_add _ (by decide), word_trunc, zext_trunc]

theorem operand_follows {mode : Addressing} {i : Instruction} {code : Native Unit}
    (hc : jitEmitLoadOperand mode i = some code) (ha : mode ≠ .accumulator) {id : InstrDef} (hm : id.mode = mode)
    {l : LRegs} (hl : l.r0 = true) (r : Regs) :
    Follows code l (instructionDataRead1 id i) r (ByteIn r) := by
  obtain ⟨addr, haddr, rfl⟩ := Option.map_eq_some_iff.1 hc
  unfold instructionDataRead1
  rw [hm, if_neg ha]
  by_cases hi : mode = .immediate
  · subst hi
    cases haddr
    obtain ⟨r0, r1, r2, v1, v2⟩ := l
    obtain rfl : r0 = true := hl
    unfold Follows
    simp [ofCpu_run]
    exact .done ⟨rfl, rfl, rfl, rfl⟩
  · rw [if_neg hi, if_pos hi]
    refine (effaddr_follows haddr hi ha hm hl r).bind ?_
    rintro _ ⟨r0, r1, r2, v1, v2⟩ a r' ⟨rfl, hr0, w, hr1, rfl⟩
    obtain rfl : r0 = true := hr0
    obtain rfl : r1 = some w := hr1
    unfold Follows
    simp [ofCpu_run]
    exact .op fun v => .done ⟨rfl, rfl, rfl, rfl⟩

/-- The modes whose address depends on the registers alone. -/
def Addressing.direct : Addressing → Bool
  | .zp | .zpx | .zpy | .absolute | .absolutex | .absolutey => true
  | _ => false

def directAddr (mode : Addressing) (i : Instruction) (r : Regs) : Addr :=
  match mode with
  | .zpx => (i.op1 + r.X).setWidth 16
  | .zpy => (i.op1 + r.Y).setWidth 16
  | .absolute => i.op1.setWidth 16 + i.op2.setWidth 16 <<< 8
  | .absolutex => i.op1.setWidth 16 + i.op2.setWidth 16 <<< 8 + r.X.setWidth 16
  | .absolutey => i.op1.setWidth 16 + i.op2.setWidth 16 <<< 8 + r.Y.setWidth 16
  | _ => i.op1.setWidth 16

section Direct

variable {id : InstrDef} (hd : id.mode.direct = true) (i : Instruction) (r : Regs)

include hd

theorem dataAddress_direct : (instructionDataAddress id i).run r = .done (directAddr id.mode i r, r) := by
  unfold instructionDataAddress directAddr
  generalize id.mode = mode at hd
  cases mode <;> cases hd <;> simp

theorem direct_ne : id.mode ≠ .accumulator ∧ id.mode ≠ .immediate := by
  constructor <;> rintro h <;> rw [h] at hd <;> cases hd

@[simp] theorem dataRead1_direct : (instructionDataRead1 id i).run r =
    .op (.read (directAddr id.mode i r)) r fun v : Byte => .done (v, r) := by
  unfold instructionDataRead1
  rw [if_neg (direct_ne hd).1, if_neg (direct_ne hd).2]
  simp [dataAddress_direct hd]

@[simp] theorem dataWrite1_direct (v : Byte) : (instructionDataWrite1 id i v).run r =
    .op (.write (directAddr id.mode i r) v) r fun _ => .done ((), r) := by
  unfold instructionDataWrite1
  rw [if_neg (direct_ne hd).1, if_neg (direct_ne hd).2]
  simp [dataAddress_direct hd]

theorem effaddr_direct {code : Native Unit} (hc : jitEmitEffaddr id.mode i = some code)
    (r1 r2 v1 v2 : Option Word) :
    ∃ w, (code.run ⟨true, r1, r2, v1, v2⟩).run r = .done (((), ⟨true, some w, r2, v1, v2⟩), r) ∧
      w.setWidth 16 = directAddr id.mode i r := by
  generalize id.mode = mode at hd hc
  cases mode <;> cases hd <;> cases hc <;> simp [directAddr]
  · rw [← index_trunc, BitVec.add_comm]
    simp
  · rw [← index_trunc, BitVec.add_comm]
    simp
  · exact op16_trunc i
  · exact indexed_trunc i r.X
  · exact indexed_trunc i r.Y

end Direct

end Rk65c02
