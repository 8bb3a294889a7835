import Rk65c02.Agreement
import Rk65c02.Reference

/-! The emulator conforms to the programmer's model: on RAM one `rk65c02_exec` is one step of the
model, for every opcode, and a run of `rk65c02_start`, interpreted or compiled, is a run of the model. -/

namespace Rk65c02

open Resumption Cpu

/-- Memory as a program sees it. -/
structure GuestMemory where
  ram : Addr → Bool
  mem : Addr → Byte
  halt : Option StopReason

namespace GuestMemory

def answer (line : Bool) (g : GuestMemory) : (o : Op) → Out GuestMemory o.Ret
  | .fetch a => .ok (g.mem a) g
  | .read a => .ok (g.mem a) g
  | .write a v => .ok () { g with mem := if g.ram a then Function.update g.mem a v else g.mem }
  | .irq => .ok line g
  | .ackIrq => .ok () g
  | .stop reason => .ok () { g with halt := some reason }
  | .panic => .stuck
  | .isBreakpoint _ => .ok false g
  | .disassemble _ => .ok () g
  | .reexec => .ok false g
  | .trace _ _ _ => .ok () g

def handle (line : Bool) : CpuHandler GuestMemory := fun o _ g => g.answer line o

end GuestMemory

def Bus.mapped (b : Bus) (a : Addr) : Bool := (b.accessDevice a).isSome

theorem Bus.RamOnce.peek_poke_eq {b : Bus} (h : b.RamOnce) (a : Addr) (v : Byte) :
    (b.poke a v).peek = if b.mapped a then Function.update b.peek a v else b.peek := by
  unfold Bus.mapped
  cases hl : b.accessDevice a with
  | none =>
    rw [Bus.poke, hl]
    rfl
  | some l =>
    funext a'
    by_cases ha : a' = a
    · rw [ha, Option.isSome_some, if_pos rfl, Function.update_self, peek, poke_accessDevice, hl]
      simp [Bus.poke, hl, ramWrite1]
    · rw [Option.isSome_some, if_pos rfl, Function.update_of_ne ha, h.peek_poke v ha]

/-- The machine holds the memory and has stopped, if it has, for the same reason. -/
structure Machine.Holds (m : Machine) (g : GuestMemory) : Prop where
  once : m.bus.RamOnce
  ram : m.bus.mapped = g.ram
  mem : m.bus.peek = g.mem
  halt : g.halt.elim (m.state = .running) fun q => m.state = .stopped ∧ m.stopreason = q

theorem Machine.Holds.answer {line : Bool} {m : Machine} {g g' : GuestMemory} {o : Op} {v : o.Ret} (h : m.Holds g)
    (hg : g.answer line o = .ok v g') : ∃ m', m.answer line o = .ok v m' ∧ m'.Holds g' := by
  cases o with
  | fetch a =>
    cases hg
    exact ⟨m, by rw [← h.mem]; rfl, h⟩
  | read a =>
    cases hg
    exact ⟨m, by rw [← h.mem]; rfl, h⟩
  | write a v =>
    cases hg
    refine ⟨_, rfl, h.once.poke a v, ?_, ?_, h.halt⟩
    · exact (funext fun a' => congrArg _ (Bus.poke_accessDevice m.bus a v a')).trans h.ram
    · rw [h.once.peek_poke_eq, h.ram, h.mem]
  | stop reason =>
    cases hg
    exact ⟨_, rfl, h.once, h.ram, h.mem, rfl, rfl⟩
  | panic => cases hg
  | _ =>
    cases hg
    exact ⟨m, rfl, h⟩

/-- What code does on the memory it does on the machine. -/
theorem Machine.Holds.run {α : Type} {line : Bool} {m : Machine} {g g' : GuestMemory}
    {x : Cpu α} {r : Regs} {v : α × Regs}
    (h : m.Holds g) (hr : (x.run r).run (GuestMemory.handle line) g = .ok v g') :
    ∃ m', (x.run r).run (Machine.handle line) m = .ok v m' ∧ m'.Holds g' :=
  Tree.run_simulates (h := Machine.handle line) (g := GuestMemory.handle line) (L := Machine.Holds)
    (fun _ _ _ _ _ _ hl hg => hl.answer hg) (x.run r) h hr

namespace Model

def regs (s : Model) : Regs := ⟨s.A, s.X, s.Y, s.PC, s.SP, s.flags.byte false⟩

def guestMemory (s : Model) : GuestMemory := ⟨s.ram, s.mem, s.halt⟩

/-- Code that takes the processor from `s` to `s'`, with the answer `a`. -/
def Does {α : Type} (line : Bool) (x : Cpu α) (s : Model) (a : α) (s' : Model) : Prop :=
  (x.run s.regs).run (GuestMemory.handle line) s.guestMemory = .ok (a, s'.regs) s'.guestMemory

section Does

variable {α β : Type} {line : Bool} {s s' s'' : Model} {a : α} {b : β}

theorem Does.bind {x : Cpu α} {f : α → Cpu β} (hx : Does line x s a s') (hf : Does line (f a) s' b s'') :
    Does line (x >>= f) s b s'' := by
  unfold Does at hx hf ⊢
  rw [StateT.run_bind, Tree.run_bind, hx]
  exact hf

theorem does_pure {a' : α} (s : Model) (h : a = a') : Does line (pure a) s a' s := h ▸ rfl

theorem does_get (s : Model) : Does line get s s.regs s := rfl

theorem does_modify {f : Regs → Regs} (s' : Model) (h : f s.regs = s'.regs)
    (hm : s'.guestMemory = s.guestMemory) :
    Does line (modify f) s () s' := by
  unfold Does
  rw [← h, hm]
  rfl

theorem does_read (s : Model) (a : Addr) : Does line (memRead1 a) s (s.mem a) s := rfl

theorem does_write (s : Model) (a : Addr) (v : Byte) :
    Does line (memWrite1 a v) s () (s.store a v) := rfl

end Does

section Flags

variable (f : Flags) (b x : Bool)

theorem bit_eq (v : Byte) (n : Nat) : bit v n = v.getLsbD n := by
  rw [bit, show (1 : Byte) <<< n = BitVec.twoPow 8 n from rfl, BitVec.and_twoPow]
  cases h : v.getLsbD n with
  | false => rfl
  | true =>
    have hn : 2 ^ n < 2 ^ 8 := Nat.pow_lt_pow_right (by decide) (BitVec.lt_of_getLsbD h)
    have h0 : BitVec.twoPow 8 n ≠ 0#8 := by
      intro h0
      have hpos := congrArg BitVec.toNat h0
      rw [BitVec.toNat_twoPow, Nat.mod_eq_of_lt hn] at hpos
      exact absurd hpos (Nat.ne_of_gt (Nat.two_pow_pos n))
    simpa using h0

theorem sign_eq (v : Byte) : (v &&& 0x80 != 0) = v.msb := bit_eq v 7

theorem setFlag_byte : setFlag pNegative b (f.byte x) = { f with n := b }.byte x ∧
    setFlag pSignOverflow b (f.byte x) = { f with v := b }.byte x ∧
    setFlag pDecimal b (f.byte x) = { f with d := b }.byte x ∧
    setFlag pIrqDisable b (f.byte x) = { f with i := b }.byte x ∧
    setFlag pZero b (f.byte x) = { f with z := b }.byte x ∧ setFlag pCarry b (f.byte x) =
      { f with c := b }.byte x := by
  obtain ⟨n, v, d, i, z, c⟩ := f
  revert n v d i z c b x
  decide +kernel

theorem byte_flags : Flags.ofByte (f.byte b) = f ∧ f.byte false ||| pBreak = f.byte true ∧
    f.byte false ||| pBreak ||| pUndefined = f.byte true ∧
    (f.byte b ||| pIrqDisable) &&& ~~~pDecimal &&& ~~~pBreak = { f with i := true, d := false }.byte false := by
  obtain ⟨n, v, d, i, z, c⟩ := f
  revert n v d i z c b
  decide +kernel

theorem flag_regs (s : Model) : s.regs.flag pNegative = s.flags.n ∧ s.regs.flag pSignOverflow = s.flags.v ∧
    s.regs.flag pDecimal = s.flags.d ∧ s.regs.flag pIrqDisable = s.flags.i ∧ s.regs.flag pZero = s.flags.z ∧
    s.regs.flag pCarry = s.flags.c := by
  have hf := (byte_flags s.flags false).1
  have hbit := bit_eq (s.flags.byte false)
  exact ⟨(hbit 7).trans (congrArg Flags.n hf), (hbit 6).trans (congrArg Flags.v hf),
    (hbit 3).trans (congrArg Flags.d hf), (hbit 2).trans (congrArg Flags.i hf),
    (hbit 1).trans (congrArg Flags.z hf), (hbit 0).trans (congrArg Flags.c hf)⟩

theorem byte_ofByte (p : Byte) : (p ||| pUndefined) &&& ~~~pBreak = (Flags.ofByte p).byte false := by
  revert p
  decide +kernel

end Flags

section Parts

variable {line : Bool} {s s' : Model} {i : Instruction} {id : InstrDef}

theorem does_modifyP {g : Byte → Byte} {f : Flags} (h : g (s.flags.byte false) = f.byte false) :
    Does line (modifyP g) s () { s with flags := f } := does_modify _ (by rw [regs, h]; rfl) rfl

theorem does_adjustZN (s : Model) (v : Byte) : Does line (adjustZN v) s () (s.result v) := by
  refine (does_modifyP (setFlag_byte _ _ _).2.2.2.2.1).bind (does_modifyP ?_)
  rw [(setFlag_byte _ _ _).1, pNegative, sign_eq, BitVec.msb_eq_decide]
  rfl

theorem stack_eq (sp : Byte) : stackStart + sp.setWidth 16 = BitVec.ofNat 16 (256 + sp.toNat) := by
  unfold stackStart
  bv_omega

theorem does_push (s : Model) (v : Byte) : Does line (stackPush v) s () (s.push v) := by
  rw [push, ← stack_eq]
  exact Does.bind (does_get s) (Does.bind (does_write s _ v) (does_modify _ rfl rfl))

theorem does_pop (s : Model) : Does line stackPop s s.pull.top s.pull := by
  rw [top, ← stack_eq]
  exact Does.bind (does_modify s.pull rfl rfl) (Does.bind (does_get _) (does_read _ _))

theorem word_eq (lo hi : Byte) : word lo hi = BitVec.ofNat 16 (lo.toNat + 256 * hi.toNat) := by
  have hlo := lo.isLt
  have hhi := hi.isLt
  have hor := Nat.shiftLeft_add_eq_or_of_lt (b := lo.toNat) (i := 8) hlo hi.toNat
  rw [Nat.shiftLeft_eq] at hor
  apply BitVec.eq_of_toNat_eq
  rw [word, BitVec.toNat_or, BitVec.toNat_shiftLeft, BitVec.toNat_setWidth, BitVec.toNat_setWidth,
    BitVec.toNat_ofNat, Nat.shiftLeft_eq, Nat.mod_eq_of_lt (by omega : lo.toNat < 2 ^ 16),
    Nat.mod_eq_of_lt (by omega : hi.toNat < 2 ^ 16),
    Nat.mod_eq_of_lt (by omega), Nat.mod_eq_of_lt (by omega), Nat.or_comm, ← hor]
  omega

theorem target_eq (i : Instruction) : i.op1.setWidth 16 + i.op2.setWidth 16 <<< 8 = BitVec.ofNat 16
    (target i) := by
  have h1 := i.op1.isLt
  have h2 := i.op2.isLt
  unfold target
  apply BitVec.eq_of_toNat_eq
  simp only [BitVec.toNat_add, BitVec.toNat_shiftLeft, BitVec.toNat_setWidth, BitVec.toNat_ofNat,
    Nat.shiftLeft_eq]
  omega

theorem zeroPage_add (x y : Byte) : (x + y).setWidth 16 = zeroPage (x.toNat + y.toNat) := by
  unfold zeroPage
  bv_omega

theorem zeroPage_add_one (x y : Byte) : (x + y + 1).setWidth 16 = zeroPage (x.toNat + y.toNat + 1) := by
  unfold zeroPage
  bv_omega

theorem ofNat_add_byte (n : Nat) (b : Byte) : BitVec.ofNat 16 n + b.setWidth 16 = BitVec.ofNat 16
    (n + b.toNat) := by
  bv_omega

theorem zeroPage_byte (x : Byte) : x.setWidth 16 = zeroPage x.toNat := by
  unfold zeroPage
  bv_omega

/-- The address that the code computes for an operand is the one of the model. -/
theorem does_dataAddress (hm : id.mode.addresses = true) :
    Does line (instructionDataAddress id i) s (s.place i id.mode) s := by
  refine Does.bind (does_get s) ?_
  cases h : id.mode with
  | zp | zpr => exact does_pure s (by unfold place address; bv_omega)
  | zpx => exact does_pure s (zeroPage_add i.op1 s.X)
  | zpy => exact does_pure s (zeroPage_add i.op1 s.Y)
  | absolute => exact does_pure s (target_eq i)
  | absolutex => exact does_pure s ((congrArg (· + s.X.setWidth 16) (target_eq i)).trans (ofNat_add_byte _ _))
  | absolutey => exact does_pure s ((congrArg (· + s.Y.setWidth 16) (target_eq i)).trans (ofNat_add_byte _ _))
  | izp =>
    refine Does.bind (does_read s _) (Does.bind (does_read s _) (does_pure s ?_))
    rw [word_eq, zeroPage_byte, zeroPage_add]
    rfl
  | izpx =>
    refine Does.bind (does_read s _) (Does.bind (does_read s _) (does_pure s ?_))
    rw [word_eq, zeroPage_add, zeroPage_add_one]
    rfl
  | izpy =>
    refine Does.bind (does_read s _) (Does.bind (does_read s _) (does_pure s ?_))
    rw [word_eq, zeroPage_byte, zeroPage_add]
    exact ofNat_add_byte _ _
  | iabsolute | iabsolutex | relative | implied | immediate | accumulator =>
    rw [h] at hm
    cases hm

theorem does_operand (hm : id.mode.reads = true) : Does line (instructionDataRead1 id i) s
    (s.operand i id.mode) s := by
  unfold instructionDataRead1
  by_cases ha : id.mode = .accumulator
  · rw [if_pos ha, ha]
    exact Does.bind (does_get s) (does_pure s rfl)
  by_cases hi : id.mode = .immediate
  · rw [if_neg ha, if_pos hi, hi]
    exact does_pure s rfl
  · have hm' : id.mode.addresses = true := by simpa [Addressing.reads, ha, hi] using hm
    have ho : s.operand i id.mode = s.mem (s.place i id.mode) := by
      cases h : id.mode with
      | accumulator => exact absurd h ha
      | immediate => exact absurd h hi
      | _ => rfl
    rw [if_neg ha, if_neg hi, ho]
    exact Does.bind (does_dataAddress hm') (does_read s _)

theorem does_putOperand (hm : id.mode.writes = true) (v : Byte) :
    Does line (instructionDataWrite1 id i v) s () (s.putOperand i v id.mode) := by
  unfold instructionDataWrite1
  by_cases ha : id.mode = .accumulator
  · rw [if_pos ha, ha]
    exact does_modify _ rfl rfl
  · have hm' : id.mode.addresses = true := by simpa [Addressing.writes, ha] using hm
    have hi : id.mode ≠ .immediate := by
      intro hi
      rw [hi] at hm'
      cases hm'
    have ho : s.putOperand i v id.mode = s.store (s.place i id.mode) v := by
      cases h : id.mode with
      | accumulator => exact absurd h ha
      | _ => rfl
    rw [if_neg ha, if_neg hi, ho]
    exact Does.bind (does_dataAddress hm') (does_write s _ v)

end Parts

section Sums

theorem bcd_digits (b : Byte) : (fromBcd b).toNat = digits b ∧ toBcd b = lastDigits b.toNat := by
  revert b
  decide +kernel

theorem digits_le (b : Byte) : digits b ≤ 165 := by
  have hb := b.isLt
  unfold digits
  omega

theorem msb_ofNat (n : Nat) : (BitVec.ofNat 8 n).msb = decide (128 ≤ n % 256) := by
  rw [BitVec.msb_eq_decide, BitVec.toNat_ofNat]

theorem signOverflow_ofNat (a m : Byte) (n : Nat) :
    signOverflow a m (BitVec.ofNat 16 n) = (a.msb == m.msb && decide (128 ≤ n % 256) != a.msb) := by
  have hw : (BitVec.ofNat 16 n).setWidth 8 = BitVec.ofNat 8 n := by bv_omega
  rw [signOverflow_eq, hw, ← msb_ofNat]
  refine (sign_eq _).trans ?_
  rw [BitVec.msb_and, BitVec.msb_xor, BitVec.msb_xor]
  cases a.msb <;> cases m.msb <;> cases (BitVec.ofNat 8 n).msb <;> rfl

variable (s : Model) (m : Byte)

theorem sum_lt : s.sum m < 512 := by
  have hA := s.A.isLt
  have hm := m.isLt
  have hdA := digits_le s.A
  have hdm := digits_le m
  have hc := Bool.toNat_le s.flags.c
  unfold sum
  split <;> omega

/-- The sum of the code is the sum of the model. -/
theorem adcSum_carry (a m : Byte) (d c : Bool) : (if c then adcSum d a m + 1 else adcSum d a m) =
    BitVec.ofNat 16 (if d then digits a + digits m + c.toNat else a.toNat + m.toNat + c.toNat) := by
  have ha := (bcd_digits a).1
  have hm := (bcd_digits m).1
  unfold adcSum
  cases d <;> cases c <;> simp only [Bool.false_eq_true, if_false, if_true, Bool.toNat_false, Bool.toNat_true] <;>
    bv_omega

/-- The end of `ADC` and `SBC`: overflow, carry and the result, the last two depending on the mode. -/
theorem does_finish (line : Bool) (s : Model) (v : Bool) (c : Bool → Bool) (f : Bool → Byte) :
    Does line (do
      modifyP (setFlag pSignOverflow v)
      if (← get).flag pDecimal then
        modifyP (setFlag pCarry (c true))
      else
        modifyP (setFlag pCarry (c false))
      let a := f ((← get).flag pDecimal)
      modify fun r => { r with A := a }
      adjustZN a) s () (((s.overflow v).carry (c s.flags.d)).setA (f s.flags.d)) := by
  refine Does.bind (does_modifyP (setFlag_byte _ _ _).2.1) (Does.bind (does_get _) ?_)
  rw [(flag_regs _).2.2.1]
  have hc (b : Bool) : Does line (do
      modifyP (setFlag pCarry b)
      let a := f ((← get).flag pDecimal)
      modify fun r => { r with A := a }
      adjustZN a) (s.overflow v) () (((s.overflow v).carry b).setA (f s.flags.d)) := by
    refine Does.bind (does_modifyP (setFlag_byte _ _ _).2.2.2.2.2) (Does.bind (does_get _) ?_)
    rw [(flag_regs _).2.2.1]
    exact Does.bind (does_modify { (s.overflow v).carry b with A := f s.flags.d } rfl rfl) (does_adjustZN _ _)
  dsimp only
  by_cases hd : s.flags.d = true
  · rw [if_pos hd, congrArg c hd]
    exact hc _
  · rw [if_neg hd, congrArg c (Bool.eq_false_iff.2 hd)]
    exact hc _

theorem does_add {line : Bool} {s : Model} {i : Instruction} {id : InstrDef} (hm : id.mode.reads = true) :
    Does line (emulAdc id i) s () (s.add (s.operand i id.mode)) := by
  refine Does.bind (does_operand hm) (Does.bind (does_get s) ?_)
  generalize s.operand i id.mode = m
  have hs : (if s.regs.flag pCarry then adcSum (s.regs.flag pDecimal) s.regs.A m + 1 else
      adcSum (s.regs.flag pDecimal) s.regs.A m) = BitVec.ofNat 16 (s.sum m) := by
    rw [(flag_regs s).2.2.1, (flag_regs s).2.2.2.2.2]
    exact adcSum_carry _ _ _ _
  have hn := s.sum_lt m
  have h99 : decide (99 < BitVec.ofNat 16 (s.sum m)) = decide (99 < s.sum m) := decide_eq_decide.2 (by bv_omega)
  have h255 : decide (0xFF < BitVec.ofNat 16 (s.sum m)) = decide (255 < s.sum m) :=
    decide_eq_decide.2 (by bv_omega)
  have hw : (BitVec.ofNat 16 (s.sum m)).setWidth 8 = BitVec.ofNat 8 (s.sum m) := by bv_omega
  have hf := does_finish line s (signOverflow s.A m (BitVec.ofNat 16 (s.sum m)))
    (fun d => if d then decide (99 < BitVec.ofNat 16 (s.sum m)) else decide (0xFF < BitVec.ofNat 16 (s.sum m)))
    fun d => if d then toBcd ((BitVec.ofNat 16 (s.sum m)).setWidth 8) else (BitVec.ofNat 16 (s.sum m)).setWidth 8
  have hadd : s.add m = ((s.overflow (signOverflow s.A m (BitVec.ofNat 16 (s.sum m)))).carry
      (if s.flags.d then decide (99 < BitVec.ofNat 16 (s.sum m))
        else decide (0xFF < BitVec.ofNat 16 (s.sum m)))).setA
      (if s.flags.d then toBcd ((BitVec.ofNat 16 (s.sum m)).setWidth 8)
        else (BitVec.ofNat 16 (s.sum m)).setWidth 8) := by
    rw [add, signOverflow_ofNat, hw, (bcd_digits _).2, BitVec.toNat_ofNat, h99, h255]
  dsimp only
  rw [hs, hadd]
  exact hf

theorem difference_bounds : -256 ≤ s.difference m ∧ s.difference m ≤ 255 := by
  have hA := s.A.isLt
  have hm := m.isLt
  have hdA := digits_le s.A
  have hdm := digits_le m
  have hc := Bool.toNat_le (!s.flags.c)
  unfold difference
  split <;> omega

/-- The difference of the code is the difference of the model. -/
theorem sbcDiff_borrow (a m : Byte) (d c : Bool) : (if c then sbcDiff d a m else sbcDiff d a m - 1) =
    BitVec.ofInt 16 (if d then (digits a : Int) - digits m - (!c).toNat
      else (a.toNat : Int) - m.toNat - (!c).toNat) := by
  have ha := a.isLt
  have hm := m.isLt
  have hda := digits_le a
  have hdm := digits_le m
  have hfa := (bcd_digits a).1
  have hfm := (bcd_digits m).1
  apply BitVec.eq_of_toNat_eq
  unfold sbcDiff
  cases d <;> cases c <;>
    simp only [Bool.false_eq_true, if_false, if_true, Bool.not_false, Bool.not_true, Bool.toNat_false,
      Bool.toNat_true, BitVec.toNat_sub, BitVec.toNat_setWidth, BitVec.toNat_ofInt, hfa, hfm,
      show (1 : Addr).toNat = 1 from rfl] <;>
    omega

theorem setWidth_ofInt (n : Int) : (BitVec.ofInt 16 n).setWidth 8 = BitVec.ofInt 8 n := by
  apply BitVec.eq_of_toNat_eq
  rw [BitVec.toNat_setWidth, BitVec.toNat_ofInt, BitVec.toNat_ofInt]
  omega

theorem signOverflow_ofInt (a m : Byte) (n : Int) :
    signOverflow a (0xFF - m) (BitVec.ofInt 16 n) = (a.msb != m.msb && decide (128 ≤ n % 256) != a.msb) := by
  have hmsb : (BitVec.ofInt 8 n).msb = decide (128 ≤ n % 256) := by
    rw [BitVec.msb_eq_decide, BitVec.toNat_ofInt]
    exact decide_eq_decide.2 (by omega)
  have hneg : (0xFF - m).msb = !m.msb := by
    rw [show (0xFF : Byte) - m = ~~~m from BitVec.allOnes_sub_eq_not m, BitVec.msb_not]
    rfl
  rw [signOverflow_eq, setWidth_ofInt, ← hmsb]
  refine (sign_eq _).trans ?_
  rw [BitVec.msb_and, BitVec.msb_xor, BitVec.msb_xor, hneg]
  cases a.msb <;> cases m.msb <;> cases (BitVec.ofInt 8 n).msb <;> rfl

theorem sbcBcd_ofInt {n : Int} (hl : -256 ≤ n) (hu : n ≤ 255) :
    sbcBcd (BitVec.ofInt 16 n) = lastDigits (n % 100).toNat := by
  have hi : (BitVec.ofInt 16 n).toInt = n := by
    rw [BitVec.toInt_ofInt]
    exact Int.bmod_eq_of_le (by omega) (by omega)
  have hmod : (if (n + 100).tmod 100 < 0 then (n + 100).tmod 100 + 100 else (n + 100).tmod 100) = n % 100 := by
    rcases Int.le_total 0 (n + 100) with h | h
    · rw [Int.tmod_eq_emod_of_nonneg h, if_neg (by omega)]
      omega
    · have ht : (n + 100).tmod 100 = -((-(n + 100)) % 100) := by
        rw [← Int.tmod_eq_emod_of_nonneg (by omega), Int.neg_tmod, Int.neg_neg]
      rw [ht]
      split <;> omega
  unfold sbcBcd
  rw [hi]
  dsimp only
  rw [hmod, (bcd_digits _).2, BitVec.toNat_ofInt]
  exact congrArg lastDigits (by omega)

theorem does_subtract {line : Bool} {s : Model} {i : Instruction} {id : InstrDef} (hm : id.mode.reads = true) :
    Does line (emulSbc id i) s () (s.subtract (s.operand i id.mode)) := by
  refine Does.bind (does_operand hm) (Does.bind (does_get s) ?_)
  generalize s.operand i id.mode = m
  have hs : (if s.regs.flag pCarry then sbcDiff (s.regs.flag pDecimal) s.regs.A m else
      sbcDiff (s.regs.flag pDecimal) s.regs.A m - 1) = BitVec.ofInt 16 (s.difference m) := by
    rw [(flag_regs s).2.2.1, (flag_regs s).2.2.2.2.2]
    exact sbcDiff_borrow _ _ _ _
  obtain ⟨hl, hu⟩ := s.difference_bounds m
  have hz : (BitVec.ofInt 16 (s.difference m) &&& 0xFF00 == 0) = decide (0 ≤ s.difference m) := by
    refine (high_eq_zero _).trans (decide_eq_decide.2 ?_)
    rw [BitVec.toNat_ofInt]
    omega
  have h99 : decide (99 < BitVec.ofInt 16 (s.difference m)) = !decide
    (0 ≤ s.difference m ∧ s.difference m ≤ 99) := by
    rw [← decide_not]
    refine decide_eq_decide.2 ?_
    rw [BitVec.lt_def, BitVec.toNat_ofInt, show (99 : Addr).toNat = 99 from rfl]
    omega
  have hd : (!(decide (99 < BitVec.ofInt 16 (s.difference m)) || BitVec.ofInt 16
    (s.difference m) &&& 0xFF00 != 0)) =
      decide (0 ≤ s.difference m ∧ s.difference m ≤ 99) := by
    rw [bne, hz, h99]
    by_cases h : 0 ≤ s.difference m
    · simp [h]
    · simp [h]
  have hf := does_finish line s (signOverflow s.A (0xFF - m) (BitVec.ofInt 16 (s.difference m)))
    (fun d => if d then !(decide (99 < BitVec.ofInt 16 (s.difference m)) || BitVec.ofInt 16
      (s.difference m) &&& 0xFF00 != 0)
      else BitVec.ofInt 16 (s.difference m) &&& 0xFF00 == 0)
    fun d => if d then sbcBcd (BitVec.ofInt 16 (s.difference m))
      else (BitVec.ofInt 16 (s.difference m)).setWidth 8
  have hsub : s.subtract m = ((s.overflow (signOverflow s.A (0xFF - m) (BitVec.ofInt 16 (s.difference m)))).carry
      (if s.flags.d then
        !(decide (99 < BitVec.ofInt 16 (s.difference m)) || BitVec.ofInt 16 (s.difference m) &&& 0xFF00 != 0)
      else BitVec.ofInt 16 (s.difference m) &&& 0xFF00 == 0)).setA
      (if s.flags.d then sbcBcd (BitVec.ofInt 16 (s.difference m))
        else (BitVec.ofInt 16 (s.difference m)).setWidth 8) := by
    rw [subtract, signOverflow_ofInt, hd, hz, setWidth_ofInt, sbcBcd_ofInt hl hu]
  dsimp only
  rw [hs, hsub]
  exact hf

end Sums

section Instructions

variable {line : Bool} {s : Model} {i : Instruction} {id : InstrDef}

theorem shift_once (v : Byte) : (v &&& 0x80 != 0) = decide (256 ≤ 2 * v.toNat) ∧
    v <<< 1 = BitVec.ofNat 8 (2 * v.toNat) ∧
    (v &&& 0x01 != 0) = decide (v.toNat % 2 = 1) ∧ v >>> 1 = BitVec.ofNat 8 (v.toNat / 2) := by
  refine ⟨?_, by bv_omega, ?_, by bv_omega⟩
  · rw [sign_eq, BitVec.msb_eq_decide]
    exact decide_eq_decide.2 (by omega)
  · refine (bit_eq v 0).trans ?_
    rw [BitVec.getLsbD, Nat.testBit_zero]

theorem rotate_once (v : Byte) (c : Bool) : (v &&& 0x80 != 0) = decide (256 ≤ 2 * v.toNat + c.toNat) ∧
    (if c then v <<< 1 ||| 0x01 else v <<< 1 &&& ~~~0x01) = BitVec.ofNat 8 (2 * v.toNat + c.toNat) ∧
    (v &&& 0x01 != 0) = decide ((v.toNat + 256 * c.toNat) % 2 = 1) ∧
    (if c then v >>> 1 ||| 0x80 else v >>> 1 &&& ~~~0x80) = BitVec.ofNat 8 ((v.toNat + 256 * c.toNat) / 2) := by
  revert v c
  decide +kernel

theorem result_putOperand (s : Model) (i : Instruction) (v w : Byte) (mode : Addressing) :
    (s.result v).putOperand i w mode = (s.putOperand i w mode).result v := by
  cases mode <;> rfl

/-- The shifts: carry and result from the operand, then the store. -/
theorem does_shift (hm : id.mode.writes = true) (c : Bool) (v : Byte) :
    Does line (do
      modifyP (setFlag pCarry c)
      adjustZN v
      instructionDataWrite1 id i v) s () ((s.carry c).replace i id.mode v) := by
  refine Does.bind (does_modifyP (setFlag_byte _ _ _).2.2.2.2.2) (Does.bind (does_adjustZN _ v) ?_)
  rw [replace, ← result_putOperand]
  exact does_putOperand hm v

theorem does_asl (hm : id.mode.writes = true) :
    Does line (emulAsl id i) s () (s.shiftLeft i id.mode (2 * (s.operand i id.mode).toNat)) := by
  obtain ⟨hc, hv, -⟩ := shift_once (s.operand i id.mode)
  refine Does.bind (does_operand (Addressing.reads_of_writes hm)) ?_
  rw [shiftLeft, ← hc, ← hv]
  exact does_shift hm _ _

theorem does_lsr (hm : id.mode.writes = true) :
    Does line (emulLsr id i) s () (s.shiftRight i id.mode (s.operand i id.mode).toNat) := by
  obtain ⟨-, -, hc, hv⟩ := shift_once (s.operand i id.mode)
  refine Does.bind (does_operand (Addressing.reads_of_writes hm)) ?_
  rw [shiftRight, ← hc, ← hv]
  exact does_shift hm _ _

theorem does_rol (hm : id.mode.writes = true) :
    Does line (emulRol id i) s ()
      (s.shiftLeft i id.mode (2 * (s.operand i id.mode).toNat + s.flags.c.toNat)) := by
  obtain ⟨hc, hv, -⟩ := rotate_once (s.operand i id.mode) s.flags.c
  refine Does.bind (does_operand (Addressing.reads_of_writes hm)) (Does.bind (does_get s) ?_)
  rw [shiftLeft, ← hc, ← hv, (flag_regs s).2.2.2.2.2]
  exact does_shift hm _ _

theorem does_ror (hm : id.mode.writes = true) :
    Does line (emulRor id i) s ()
      (s.shiftRight i id.mode ((s.operand i id.mode).toNat + 256 * s.flags.c.toNat)) := by
  obtain ⟨-, -, hc, hv⟩ := rotate_once (s.operand i id.mode) s.flags.c
  refine Does.bind (does_operand (Addressing.reads_of_writes hm)) (Does.bind (does_get s) ?_)
  rw [shiftRight, ← hc, ← hv, (flag_regs s).2.2.2.2.2]
  exact does_shift hm _ _

theorem does_testZero (s : Model) (m : Byte) :
    Does line (modify fun r => { r with P := setFlag pZero (r.A &&& m == 0) r.P }) s () (s.testZero m) :=
  does_modify _ (congrArg (Regs.mk s.A s.X s.Y s.PC s.SP) (setFlag_byte _ _ _).2.2.2.2.1) rfl

theorem does_bit (hm : id.mode.reads = true) :
    Does line (emulBit id i) s () (s.testBits id.mode (s.operand i id.mode)) := by
  have ho : (s.testZero (s.operand i id.mode)).operand i id.mode = s.operand i id.mode := by cases id.mode <;> rfl
  refine Does.bind (does_operand hm) (Does.bind (does_testZero s _) ?_)
  unfold testBits
  by_cases hi : id.mode = .immediate
  · rw [if_neg (not_not.mpr hi), if_pos hi]
    exact does_pure _ rfl
  · rw [if_pos hi, if_neg hi]
    refine Does.bind (does_operand hm) (Does.bind (does_modifyP (setFlag_byte _ _ _).2.1) ?_)
    have hn : decide (128 ≤ (s.operand i id.mode).toNat) = bit (s.operand i id.mode) 7 := by
      rw [bit_eq, ← BitVec.msb_eq_getLsbD_last, BitVec.msb_eq_decide]
    rw [ho, ← bit_eq, hn]
    exact does_modifyP (setFlag_byte _ _ _).1

theorem does_compare (hm : id.mode.reads = true) {reg : Regs → Byte}
    (hreg : ∀ r P, reg { r with P := P } = reg r) :
    Does line (compare reg id i) s () (s.compareWith (reg s.regs) (s.operand i id.mode)) := by
  refine Does.bind (does_operand hm)
    (Does.bind (does_get s) (Does.bind (does_adjustZN s _) (does_modify _ ?_ rfl)))
  have hr : reg (s.result (reg s.regs - s.operand i id.mode)).regs = reg s.regs := hreg s.regs _
  have hc : (!decide (reg s.regs < s.operand i id.mode)) = decide
    ((s.operand i id.mode).toNat ≤ (reg s.regs).toNat) := by
    rw [← decide_not, decide_eq_decide, BitVec.lt_def, Nat.not_lt]
  rw [hr, hc]
  exact congrArg (Regs.mk s.A s.X s.Y s.PC s.SP) (setFlag_byte _ _ _).2.2.2.2.2

theorem does_load (hm : id.mode.reads = true) {put : Byte → Regs → Regs} {t : Model}
    (ht : put (s.operand i id.mode) s.regs = t.regs) (hf : t.guestMemory = s.guestMemory) :
    Does line (load put id i) s () (t.result (s.operand i id.mode)) :=
  Does.bind (does_operand hm) (Does.bind (does_modify t ht hf) (does_adjustZN t _))

theorem does_logic (hm : id.mode.reads = true) (f : Byte → Byte → Byte) :
    Does line (do
      let v ← instructionDataRead1 id i
      modify fun r => { r with A := f r.A v }
      adjustZN (← get).A) s () (s.setA (f s.A (s.operand i id.mode))) :=
  Does.bind (does_operand hm) (Does.bind (does_modify { s with A := f s.A (s.operand i id.mode) } rfl rfl)
    (Does.bind (does_get _) (does_adjustZN _ _)))

theorem does_setReg {f : Regs → Regs} {v : Regs → Byte} {t : Model} (ht : f s.regs = t.regs)
    (hf : t.guestMemory = s.guestMemory) :
    Does line (setReg f v) s () (t.result (v t.regs)) :=
  Does.bind (does_modify t ht hf) (Does.bind (does_get t) (does_adjustZN t _))

theorem does_modifyMem (hm : id.mode.writes = true) (f : Byte → Byte) :
    Does line (modifyMem f id i) s () (s.replace i id.mode (f (s.operand i id.mode))) :=
  Does.bind (does_operand (Addressing.reads_of_writes hm)) (Does.bind (does_putOperand hm _) (does_adjustZN _ _))

theorem does_pull {put : Byte → Regs → Regs} {t : Model} (ht : put s.pull.top s.pull.regs = t.regs)
    (hf : t.guestMemory = s.pull.guestMemory) :
    Does line (Rk65c02.pull put) s () (t.result s.pull.top) :=
  Does.bind (does_pop s) (Does.bind (does_modify t ht hf) (does_adjustZN t _))

theorem does_store (hm : id.mode.writes = true) (v : Regs → Byte) :
    Does line (Rk65c02.store v id i) s () (s.putOperand i (v s.regs) id.mode) :=
  Does.bind (does_get s) (does_putOperand hm _)

theorem does_testBits (hm : id.mode.writes = true) (f : Byte → Byte → Byte) :
    Does line (Rk65c02.testBits f id i) s ()
      ((s.testZero (s.operand i id.mode)).putOperand i (f (s.operand i id.mode) s.A) id.mode) :=
  Does.bind (does_operand (Addressing.reads_of_writes hm))
    (Does.bind (does_testZero s _) (Does.bind (does_get _) (does_putOperand hm _)))

theorem does_replaceBits (hm : id.mode.writes = true) (f : Byte → Byte) :
    Does line (do
      let val ← instructionDataRead1 id i
      instructionDataWrite1 id i (f val)) s () (s.putOperand i (f (s.operand i id.mode)) id.mode) :=
  Does.bind (does_operand (Addressing.reads_of_writes hm)) (does_putOperand hm _)

theorem does_stop (s : Model) (reason : StopReason) :
    Does line (request (.stop reason)) s () { s with halt := some reason } :=
  rfl

end Instructions

section Straight

variable {line : Bool} {s : Model} {i : Instruction} {id : InstrDef}

/-- The instruction does not set `PC`. -/
def straight : Emul → Bool
  | .bbr _ | .bbs _ | .bcc | .bcs | .beq | .bmi | .bne | .bpl | .bra | .brk | .bvc | .bvs | .jmp | .jsr | .rti
  | .rts => false
  | _ => true

theorem xor_ones (v : Byte) : v ^^^ 0xFF = ~~~v := BitVec.xor_allOnes

theorem does_clearFlag {m : Byte} {f : Flags} (h : setFlag m false (s.flags.byte false) = f.byte false) :
    Does line (clearFlag m) s () { s with flags := f } := does_modifyP h

theorem does_raiseFlag {m : Byte} {f : Flags} (h : setFlag m true (s.flags.byte false) = f.byte false) :
    Does line (raiseFlag m) s () { s with flags := f } := does_modifyP h

/-- The instructions that leave `PC` alone. -/
theorem does_straight {e : Emul} (hf : e.fits id.mode = true) (hs : straight e = true) :
    Does line (e.exec id i) s () (s.perform i id.mode e) := by
  cases e with
  | adc => exact does_add hf
  | sbc => exact does_subtract hf
  | and => exact does_logic hf (· &&& ·)
  | eor => exact does_logic hf (· ^^^ ·)
  | ora => exact does_logic hf (· ||| ·)
  | asl => exact does_asl hf
  | lsr => exact does_lsr hf
  | rol => exact does_rol hf
  | ror => exact does_ror hf
  | bit => exact does_bit hf
  | clc => exact does_clearFlag (setFlag_byte _ _ _).2.2.2.2.2
  | cld => exact does_clearFlag (setFlag_byte _ _ _).2.2.1
  | cli => exact does_clearFlag (setFlag_byte _ _ _).2.2.2.1
  | clv => exact does_clearFlag (setFlag_byte _ _ _).2.1
  | sec => exact does_raiseFlag (setFlag_byte _ _ _).2.2.2.2.2
  | sed => exact does_raiseFlag (setFlag_byte _ _ _).2.2.1
  | sei => exact does_raiseFlag (setFlag_byte _ _ _).2.2.2.1
  | cmp | cpx | cpy => exact does_compare hf fun _ _ => rfl
  | dec => exact does_modifyMem hf (· - 1)
  | inc => exact does_modifyMem hf (· + 1)
  | dex | dey | inx | iny | tax | tay | tsx | txa | tya => exact does_setReg rfl rfl
  | lda | ldx | ldy => exact does_load hf rfl rfl
  | nop | invalid => exact does_pure s rfl
  | pha | phx | phy => exact Does.bind (does_get s) (does_push s _)
  | php =>
    refine Does.bind (does_get s) ?_
    rw [perform, ← (byte_flags s.flags false).2.2.1]
    exact does_push s _
  | pla | plx | ply => exact does_pull rfl rfl
  | plp => exact Does.bind (does_pop s) (does_modifyP (byte_ofByte _))
  | rmb n => exact does_replaceBits hf (· &&& ~~~BitVec.twoPow 8 n)
  | smb n => exact does_replaceBits hf (· ||| BitVec.twoPow 8 n)
  | sta | stx | sty | stz => exact does_store hf _
  | stp | wai => exact does_stop s _
  | trb =>
    rw [perform, ← xor_ones]
    exact does_testBits hf fun v a => v &&& (a ^^^ 0xFF)
  | tsb => exact does_testBits hf (· ||| ·)
  | txs => exact does_modify _ rfl rfl
  | bbr _ | bbs _ | bcc | bcs | beq | bmi | bne | bpl | bra | brk | bvc | bvs | jmp | jsr | rti | rts => cases hs

theorem perform_pc {e : Emul} (hs : straight e = true) (s : Model) (p : Addr) (mode : Addressing) :
    { s with PC := p }.perform i mode e = { s.perform i mode e with PC := p } := by
  cases e <;> first | cases hs; done | rfl | (cases mode <;> rfl)

end Straight

section Control

variable {line : Bool} {s : Model} {i : Instruction} {id : InstrDef}

theorem goto_nat (s : Model) (n : Nat) : s.goto n = { s with PC := BitVec.ofNat 16 n } := by
    rw [goto, BitVec.ofInt_natCast]

theorem goBack_eq (s : Model) (k : Nat) : s.goBack k =
    { s.pull.pull with PC := word s.pull.top s.pull.pull.top + BitVec.ofNat 16 k } := by
  rw [word_eq, ← BitVec.ofNat_add, ← goto_nat]
  rfl

/-- A displacement counts from the next instruction. -/
theorem displaced (p : Addr) (size : Nat) (off : Byte) : p + (off.signExtend 16 + BitVec.ofNat 16 size) =
    BitVec.ofInt 16 ((p + BitVec.ofNat 16 size).toNat + off.toInt) := by
  rw [BitVec.ofInt_add, BitVec.ofInt_natCast, BitVec.ofNat_toNat, BitVec.setWidth_eq, BitVec.signExtend,
    BitVec.add_comm (BitVec.ofInt 16 _), BitVec.add_assoc]

theorem does_next (s : Model) : Does line (programCounterIncrement id) s ()
    { s with PC := s.PC + BitVec.ofNat 16 id.size } :=
  does_modify _ rfl rfl

theorem does_branchIf {m : Byte} {value : Bool} {taken : Bool} (hz : id.size = 2)
    (ht : decide (s.regs.flag m = value) = taken) : Does line (Rk65c02.branchIf m value id i) s ()
      ({ s with PC := s.PC + BitVec.ofNat 16 id.size }.branchIf taken i.op1) := by
  refine Does.bind (does_get s) ?_
  subst ht
  by_cases h : s.regs.flag m = value
  · rw [if_pos h, decide_eq_true h, hz]
    refine does_modify _ ?_ rfl
    exact congrArg (Regs.mk s.A s.X s.Y · s.SP _) (displaced s.PC 2 i.op1)
  · rw [if_neg h, decide_eq_false h]
    exact does_next s

theorem does_bitBranch (hz : id.size = 3) (taken : Bool) : Does line (bitBranch id i taken) s ()
    ({ s with PC := s.PC + BitVec.ofNat 16 id.size }.branchIf taken i.op2) := by
  cases taken with
  | true =>
    rw [hz]
    refine does_modify _ ?_ rfl
    exact congrArg (Regs.mk s.A s.X s.Y · s.SP _) (displaced s.PC 3 i.op2)
  | false => exact does_next s

theorem high_byte (a : Addr) : (a >>> 8).setWidth 8 = BitVec.ofNat 8 (a.toNat / 256) := by bv_omega

theorem low_byte (a : Addr) : (a &&& 0xFF).setWidth 8 = BitVec.ofNat 8 a.toNat := by
  rw [BitVec.setWidth_and, BitVec.ofNat_toNat]
  exact BitVec.and_allOnes

theorem does_jsr (hz : id.size = 3) : Does line (emulJsr i) s ()
    (({ s with PC := s.PC + BitVec.ofNat 16 id.size }.pushAddr (s.PC + BitVec.ofNat 16 id.size - 1)).goto
      (target i)) := by
  have ha : s.PC + BitVec.ofNat 16 3 - 1 = s.PC + 2 := by bv_omega
  rw [hz, ha, goto_nat, ← target_eq, pushAddr, ← high_byte, ← low_byte]
  exact Does.bind (does_get s) (Does.bind (does_push s _) (Does.bind (does_push _ _) (does_modify _ rfl rfl)))

theorem goto_wordAt (s : Model) (n : Nat) : s.goto (s.wordAt n) =
    { s with PC := word (s.mem (BitVec.ofNat 16 n)) (s.mem (BitVec.ofNat 16 n + 1)) } := by
  rw [goto_nat, word_eq, wordAt, BitVec.ofNat_add n 1]
  rfl

theorem does_word (n : Nat) : Does line (do
    let lo ← memRead1 (BitVec.ofNat 16 n)
    let hi ← memRead1 (BitVec.ofNat 16 n + 1)
    modify fun r => { r with PC := word lo hi }) s () (s.goto (s.wordAt n)) := by
  rw [goto_wordAt]
  exact Does.bind (does_read s _) (Does.bind (does_read s _) (does_modify _ rfl rfl))

theorem does_jmp (hm : Emul.jmp.fits id.mode = true) : Does line (emulJmp id i) s ()
    (if id.mode = .absolute then s.goto (target i) else s.goto (s.wordAt (s.address i id.mode))) := by
  unfold emulJmp
  generalize id.mode = mode at hm
  cases mode with
  | absolute =>
    rw [if_pos rfl, goto_nat, ← target_eq]
    exact does_modify _ rfl rfl
  | iabsolute =>
    simp only [target_eq]
    exact does_word _
  | iabsolutex =>
    have ha : BitVec.ofNat 16 (target i) + s.regs.X.setWidth 16 = BitVec.ofNat 16 (s.address i .iabsolutex) :=
      ofNat_add_byte _ _
    refine Does.bind (does_get s) ?_
    simp only [target_eq, ha]
    exact does_word _
  | _ => cases hm

theorem does_rti (s : Model) :
    Does line emulRti s () ((s.pull.setFlags fun _ => .ofByte s.pull.top).goBack 0) := by
  rw [goBack_eq, BitVec.add_zero]
  exact Does.bind (does_pop s)
    (Does.bind (does_modifyP (byte_ofByte _)) (Does.bind (does_pop _) (Does.bind (does_pop _)
    (does_modify _ rfl rfl))))

theorem does_rts (s : Model) : Does line emulRts s () (s.goBack 0) := by
  rw [goBack_eq, BitVec.add_zero]
  exact Does.bind (does_pop _) (Does.bind (does_pop _) (does_modify _ rfl rfl))

/-- Interrupt entry, with the break bit of `P` as it is to be pushed. -/
theorem irq_run (line : Bool) (s : Model) (b : Bool) :
    (irq.run { s.regs with P := s.flags.byte b }).run (GuestMemory.handle line) s.guestMemory =
      .ok ((), (s.interrupt b).regs) (s.interrupt b).guestMemory := by
  have hv : s.interrupt b = _ :=
    goto_wordAt { (s.pushAddr s.PC).push (s.flags.byte b) with flags := { s.flags with i := true, d := false } }
      0xFFFE
  rw [hv]
  simp only [pushAddr, push, store, regs, guestMemory, ← (byte_flags s.flags b).2.2.2,
    ← stack_eq, ← high_byte, ← low_byte]
  rfl

theorem does_irq (s : Model) : Does line irq s () (s.interrupt false) := irq_run line s false

theorem does_brk (hz : id.size = 2) :
    Does line emulBrk s () ({ s with PC := s.PC + BitVec.ofNat 16 id.size }.interrupt true) := by
  rw [hz, Does, ← irq_run, ← (byte_flags _ false).2.1]
  rfl

/-- The size and `modify_pc` that the emulation function counts on. -/
def Sized (id : InstrDef) : Prop :=
  match id.emul with
  | .bcc | .bcs | .beq | .bmi | .bne | .bpl | .bra | .brk | .bvc | .bvs => id.size = 2 ∧ id.modifyPc = true
  | .bbr _ | .bbs _ | .jsr => id.size = 3 ∧ id.modifyPc = true
  | .jmp | .rti => id.modifyPc = true
  | .rts => id.size = 1 ∧ id.modifyPc = false
  | _ => id.modifyPc = false

instance (id : InstrDef) : Decidable (Sized id) := by
  unfold Sized
  split <;> infer_instance

theorem instructionDecode_sized : ∀ op : Byte, Sized (instructionDecode op) :=
  forall_opcode (p := fun _ id => Sized id) (by decide +kernel)

end Control

section Exec

variable {line : Bool} {s t : Model} {i : Instruction} {id : InstrDef} {e : Emul}

theorem does_bbr {n : Nat} (hm : id.mode.reads = true) (hz : id.size = 3) : Does line (emulBbr id i n) s ()
    ({ s with PC := s.PC + BitVec.ofNat 16 id.size }.branchIf (!(s.operand i id.mode).getLsbD n) i.op2) := by
  rw [← bit_eq]
  exact Does.bind (does_operand hm) (does_bitBranch hz _)

theorem does_bbs {n : Nat} (hm : id.mode.reads = true) (hz : id.size = 3) : Does line (emulBbs id i n) s ()
    ({ s with PC := s.PC + BitVec.ofNat 16 id.size }.branchIf ((s.operand i id.mode).getLsbD n) i.op2) := by
  rw [← bit_eq]
  exact Does.bind (does_operand hm) (does_bitBranch hz _)

theorem does_bra (hz : id.size = 2) : Does line (emulBra i) s ()
    ({ s with PC := s.PC + BitVec.ofNat 16 id.size }.branchIf true i.op1) := by
  rw [hz]
  exact does_modify _ (congrArg (Regs.mk s.A s.X s.Y · s.SP _) (displaced s.PC 2 i.op1)) rfl

theorem operand_pc (s : Model) (p : Addr) (mode : Addressing) :
    { s with PC := p }.operand i mode = s.operand i mode := by
  cases mode <;> rfl

/-- An instruction that sets `PC` itself. -/
theorem does_jump (hf : e.fits id.mode = true) (he : id.emul = e) (hz : Sized id) (hm : id.modifyPc = true) :
    Does line (e.exec id i) s () ({ s with PC := s.PC + BitVec.ofNat 16 id.size }.perform i id.mode e) := by
  obtain ⟨hn, hv, -, -, hzero, hc⟩ := flag_regs s
  unfold Sized at hz
  rw [he] at hz
  cases e with
  | bcc => exact does_branchIf hz.1 (by rw [hc, Bool.decide_eq_false])
  | bcs => exact does_branchIf hz.1 (by rw [hc, Bool.decide_eq_true])
  | beq => exact does_branchIf hz.1 (by rw [hzero, Bool.decide_eq_true])
  | bmi => exact does_branchIf hz.1 (by rw [hn, Bool.decide_eq_true])
  | bne => exact does_branchIf hz.1 (by rw [hzero, Bool.decide_eq_false])
  | bpl => exact does_branchIf hz.1 (by rw [hn, Bool.decide_eq_false])
  | bvc => exact does_branchIf hz.1 (by rw [hv, Bool.decide_eq_false])
  | bvs => exact does_branchIf hz.1 (by rw [hv, Bool.decide_eq_true])
  | bra => exact does_bra hz.1
  | brk => exact does_brk hz.1
  | bbr n =>
    rw [perform, operand_pc]
    exact does_bbr hf hz.1
  | bbs n =>
    rw [perform, operand_pc]
    exact does_bbs hf hz.1
  | jmp => exact does_jmp hf
  | jsr => exact does_jsr hz.1
  | rti => exact does_rti s
  | rts => cases hz.2.symm.trans hm
  | _ => cases hz.symm.trans hm

/-- The step to the next instruction, which `modify_pc` leaves to the emulation function. -/
theorem does_execInsn {next : Model} (tpc : Addr) (hid : instructionDecode i.opcode = id)
    (h : Does line (id.emul.exec id i) s () t)
    (ht : (if id.modifyPc then t else { t with PC := t.PC + BitVec.ofNat 16 id.size }) = next) :
    Does line (execInsn tpc i) s () next := by
  subst hid ht
  have hre : Does line faultReexec t false t := rfl
  refine Does.bind h (Does.bind hre ?_)
  rw [if_neg Bool.false_ne_true]
  split
  · rfl
  · exact Does.bind (does_next t) (Does.bind (does_get _) rfl)

/-- Once fetched, an instruction does what the model's does. -/
theorem does_insn (tpc : Addr) (hid : instructionDecode i.opcode = id) : Does line (execInsn tpc i) s ()
    ({ s with PC := s.PC + BitVec.ofNat 16 id.size }.perform i id.mode id.emul) := by
  have hf := instructionDecode_fits i.opcode
  have hz := instructionDecode_sized i.opcode
  rw [hid] at hf hz
  by_cases hm : id.modifyPc = true
  · exact does_execInsn tpc hid (does_jump hf rfl hz hm) (if_pos hm)
  by_cases hs : straight id.emul = true
  · refine does_execInsn tpc hid (does_straight hf hs) ?_
    have hpc := congrArg PC (perform_pc (i := i) hs s s.PC id.mode)
    change (s.perform i id.mode id.emul).PC = s.PC at hpc
    rw [if_neg hm, hpc]
    exact (perform_pc hs s _ id.mode).symm
  · have hr : id.emul = .rts ∧ id.size = 1 := by
      revert hs hz
      unfold Sized
      cases id.emul <;> simp [straight, hm]
    refine does_execInsn tpc hid (t := s.goBack 0) (hr.1 ▸ does_rts s) ?_
    rw [if_neg hm, hr.1, hr.2, perform, goBack_eq, goBack_eq, BitVec.add_zero]
    rfl

theorem does_fetch (s : Model) : Does line (instructionFetchEmu s.PC) s s.fetched s := by
  have hop : Does line (memFetch1 s.PC) s (s.mem s.PC) s := rfl
  refine Does.bind hop ?_
  simp only [fetched]
  generalize (instructionDecode (s.mem s.PC)).mode.operands = n
  rcases n with _ | _ | n <;> rfl

theorem does_fetchHere (s : Model) : Does line fetchHere s (some s.fetched) s := by
  have hb : Does line debugPCIsBreakpoint s false s := rfl
  refine Does.bind hb ?_
  have hd : Does line runtimeDisassemble s () s := rfl
  rw [if_neg Bool.false_ne_true]
  exact Does.bind hd (Does.bind (does_get s) (Does.bind (does_fetch s) (does_pure s rfl)))

theorem does_hardwareEntry (s : Model) :
    Does line hardwareEntry s () (if line && !s.flags.i then s.interrupt false else s) := by
  have hl : Does line irqAsserted s line s := rfl
  refine Does.bind hl (Does.bind (does_get s) ?_)
  rw [(flag_regs s).2.2.2.1]
  split
  · exact does_irq s
  · exact does_pure s rfl

/-- `rk65c02_exec` is one step of the model. -/
theorem does_exec (h : s.halt = none) : Does line exec s () (s.step line) := by
  rw [exec_eq, step, h]
  exact Does.bind (does_get s) (Does.bind (Does.bind (does_hardwareEntry s) (does_fetchHere _)) (does_insn _ rfl))

end Exec

end Model

/-- The machine and its registers are in the state that the model tells. -/
structure Model.Tells (s : Model) (c : Regs × Machine) : Prop where
  regs : c.1 = s.regs
  holds : c.2.Holds s.guestMemory

namespace Model.Tells

variable {s : Model} {c : Regs × Machine}

theorem running_iff (h : s.Tells c) : c.2.state = .running ↔ s.halt = none := by
  have hh := h.holds.halt
  cases hq : s.halt with
  | none => simpa [guestMemory, hq] using hh
  | some q => simp_all [guestMemory]

/-- One step of the machine is one step of the model. -/
theorem advance (h : s.Tells c) (line : Bool) : (s.step line).Tells (Machine.advance line c) := by
  cases hq : s.halt with
  | some q =>
    have hstop : c.2.state ≠ .running := by simp [h.running_iff, hq]
    have hstep : s.step line = s := by simp [step, hq]
    rw [Machine.advance, if_neg hstop, hstep]
    exact h
  | none =>
    have hd : Does line exec s () (s.step line) := does_exec hq
    obtain ⟨m', hr, hm'⟩ := h.holds.run hd
    rw [Machine.advance, if_pos (h.running_iff.2 hq), Machine.step, h.regs, hr]
    exact ⟨rfl, hm'⟩

theorem iterate (h : s.Tells c) (line : Bool) (n : Nat) : ((step line)^[n] s).Tells
    ((Machine.advance line)^[n] c) := by
  induction n with
  | zero => exact h
  | succ n ih =>
    rw [Function.iterate_succ_apply', Function.iterate_succ_apply']
    exact ih.advance line

end Model.Tells

variable {H : Type} {hc : HostCode H} {e : Emu H}

/-- What a run of the emulator starts from, in the terms of the model. -/
def Emu.model (e : Emu H) : Model :=
  ⟨e.regs.A, e.regs.X, e.regs.Y, e.regs.SP, e.regs.PC, .ofByte e.regs.P, e.bus.mapped, e.bus.peek, none⟩

theorem Emu.Plain.model_tells (h : e.Plain) (hp : (e.regs.P ||| pUndefined) &&& ~~~pBreak = e.regs.P) :
    e.model.Tells e.start.emu.guest := by
  obtain ⟨-, -, hg⟩ := h.start
  rw [hg]
  refine ⟨?_, h.bus, rfl, rfl, rfl⟩
  rw [Model.regs, Emu.model, ← Model.byte_ofByte, hp]

namespace Run

variable {c : Run H} {s : Model}

/-- If the model halts, the run ends where it halts. -/
theorem ends_told (hs : hc.Undisturbed) (h : c.Stands) (ht : s.Tells c.emu.guest) {k : Nat}
    (hk : ((Model.step false)^[k] s).halt ≠ none) :
    ∃ n, (c.steps hc n).phase = .done ∧ (c.steps hc n).emu.Rests ∧
      ((Model.step false)^[k] s).Tells (c.steps hc n).emu.guest := by
  have htk := ht.iterate false k
  have hstop : ((Machine.advance false)^[k] c.emu.guest).2.state ≠ .running := fun hr => hk (htk.running_iff.1 hr)
  obtain ⟨n, hn⟩ := (ends_iff hs h).2 ⟨k, hstop⟩
  obtain ⟨hst, l, hg, -⟩ := steps_stand hs h n
  rw [Stands, hn] at hst
  have hl : ((Machine.advance false)^[l] c.emu.guest).2.state ≠ .running := hg ▸ hst.2
  refine ⟨n, hn, hst.1, ?_⟩
  rw [hg, ← Machine.iterate_stopped hl (Nat.le_max_left l k), Machine.iterate_stopped hstop
    (Nat.le_max_right l k)]
  exact htk

end Run

end Rk65c02
