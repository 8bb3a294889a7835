import Rk65c02.NativeCases
import Mathlib.Data.Nat.Digits.Defs

/-! Chains of `ADC` and `SBC` over the bytes of long numbers, in binary and in decimal mode. -/

namespace Rk65c02

open Resumption Cpu

/-- Run an operation on pairs of bytes in turn, the first byte loaded into `A`; only the flags
connect the steps. -/
def chain (op : Byte → Cpu Unit) : List (Byte × Byte) → Cpu (List Byte)
  | [] => pure []
  | (a, b) :: ps => do
    modify fun r => { r with A := a }
    op b
    let d := (← get).A
    let ds ← chain op ps
    pure (d :: ds)

/-- The number that little-endian bytes stand for. -/
def number (base : Nat) (digit : Byte → Nat) (ds : List Byte) : Nat := Nat.ofDigits base (ds.map digit)

def Regs.carry (r : Regs) : Nat := (r.flag pCarry).toNat

def Regs.borrow (r : Regs) : Nat := (!r.flag pCarry).toNat

/-- How a base writes its digits in bytes. -/
structure Radix where
  base : Nat
  digit : Byte → Nat
  Valid : Byte → Prop
  one_lt : 1 < base
  digit_lt : ∀ b, Valid b → digit b < base

namespace Radix

variable (x : Radix) {op : Byte → Cpu Unit} {I : Byte → Prop}

def left (ps : List (Byte × Byte)) : Nat := number x.base x.digit (ps.map Prod.fst)

def right (ps : List (Byte × Byte)) : Nat := number x.base x.digit (ps.map Prod.snd)

/-- The chain leaves the exact sum: its bytes and the final carry. -/
def Adds (op : Byte → Cpu Unit) (r : Regs) (ps : List (Byte × Byte)) : Prop :=
  ∃ ds r', (chain op ps).run r = .done (ds, r') ∧ ds.length = ps.length ∧ (∀ d ∈ ds, x.Valid d) ∧
    number x.base x.digit ds + x.base ^ ps.length * r'.carry = x.left ps + x.right ps + r.carry

/-- The chain leaves the difference modulo the range, and clears the carry on a borrow. -/
def Subtracts (op : Byte → Cpu Unit) (r : Regs) (ps : List (Byte × Byte)) : Prop :=
  ∃ ds r', (chain op ps).run r = .done (ds, r') ∧ ds.length = ps.length ∧ (∀ d ∈ ds, x.Valid d) ∧
    (number x.base x.digit ds : Int) = (x.left ps - x.right ps - (1 - r.carry)) % (x.base ^ ps.length : Nat) ∧
    (r'.flag pCarry = false ↔ (x.left ps : Int) - x.right ps - (1 - r.carry) < 0)

/-- One addition in the base, under a condition on the flags that it keeps. -/
def AddStep (op : Byte → Cpu Unit) (I : Byte → Prop) : Prop :=
  ∀ r b, I r.P → x.Valid r.A → x.Valid b → ∃ r', (op b).run r = .done ((), r') ∧ I r'.P ∧ x.Valid r'.A ∧
    x.digit r'.A + x.base * r'.carry = x.digit r.A + x.digit b + r.carry

/-- One subtraction in the base, under a condition on the flags that it keeps. -/
def SubStep (op : Byte → Cpu Unit) (I : Byte → Prop) : Prop :=
  ∀ r b, I r.P → x.Valid r.A → x.Valid b → ∃ r', (op b).run r = .done ((), r') ∧ I r'.P ∧ x.Valid r'.A ∧
    x.digit r'.A + x.digit b + r.borrow = x.digit r.A + x.base * r'.borrow

theorem chain_cons {a b : Byte} {ps : List (Byte × Byte)} {r r' r'' : Regs} {ds : List Byte}
    (hh : (op b).run { r with A := a } = .done ((), r')) (ht : (chain op ps).run r' = .done (ds, r'')) :
    (chain op ((a, b) :: ps)).run r = .done (r'.A :: ds, r'') := by
  simp [chain, hh, ht]

theorem number_cons (base : Nat) (digit : Byte → Nat) (d : Byte) (ds : List Byte) :
    number base digit (d :: ds) = digit d + base * number base digit ds := by
  simp [number, Nat.ofDigits_cons]

theorem number_lt {ds : List Byte} (hd : ∀ d ∈ ds, x.Valid d) :
    number x.base x.digit ds < x.base ^ ds.length := by
  have hl : ∀ n ∈ ds.map x.digit, n < x.base := by
    simpa using fun d hm => x.digit_lt d (hd d hm)
  simpa [number] using Nat.ofDigits_lt_base_pow_length x.one_lt hl

theorem AddStep.adds (hs : x.AddStep op I) {ps : List (Byte × Byte)} {r : Regs} (hi : I r.P)
    (hv : ∀ p ∈ ps, x.Valid p.1 ∧ x.Valid p.2) : x.Adds op r ps := by
  induction ps generalizing r with
  | nil => exact ⟨[], r, rfl, rfl, by simp, by simp [left, right, number]⟩
  | cons p ps ih =>
    obtain ⟨a, b⟩ := p
    have hp := hv (a, b) (by simp)
    obtain ⟨r', hr, hi', hd, he⟩ := hs { r with A := a } b hi hp.1 hp.2
    obtain ⟨ds, r'', ht, hl, hds, hn⟩ := ih hi' fun q hq => hv q (by simp [hq])
    refine ⟨r'.A :: ds, r'', chain_cons hr ht, by simp [hl], ?_, ?_⟩
    · simpa using ⟨hd, hds⟩
    · have hc : ({ r with A := a } : Regs).carry = r.carry := rfl
      simp only [left, right, List.map_cons, number_cons, List.length_cons, Nat.pow_succ'] at he hn ⊢
      rw [hc] at he
      -- The carry of the head is what the tail starts from.
      have hm := congrArg (x.base * ·) hn
      simp only [Nat.mul_add, ← Nat.mul_assoc] at hm
      omega

theorem SubStep.equation (hs : x.SubStep op I) {ps : List (Byte × Byte)} {r : Regs} (hi : I r.P)
    (hv : ∀ p ∈ ps, x.Valid p.1 ∧ x.Valid p.2) :
    ∃ ds r', (chain op ps).run r = .done (ds, r') ∧ ds.length = ps.length ∧ (∀ d ∈ ds, x.Valid d) ∧
      number x.base x.digit ds + x.right ps + r.borrow = x.left ps + x.base ^ ps.length * r'.borrow := by
  induction ps generalizing r with
  | nil => exact ⟨[], r, rfl, rfl, by simp, by simp [left, right, number]⟩
  | cons p ps ih =>
    obtain ⟨a, b⟩ := p
    have hp := hv (a, b) (by simp)
    obtain ⟨r', hr, hi', hd, he⟩ := hs { r with A := a } b hi hp.1 hp.2
    obtain ⟨ds, r'', ht, hl, hds, hn⟩ := ih hi' fun q hq => hv q (by simp [hq])
    refine ⟨r'.A :: ds, r'', chain_cons hr ht, by simp [hl], ?_, ?_⟩
    · simpa using ⟨hd, hds⟩
    · have hc : ({ r with A := a } : Regs).borrow = r.borrow := rfl
      simp only [left, right, List.map_cons, number_cons, List.length_cons, Nat.pow_succ'] at he hn ⊢
      rw [hc] at he
      have hm := congrArg (x.base * ·) hn
      simp only [Nat.mul_add, ← Nat.mul_assoc] at hm
      omega

theorem SubStep.subtracts (hs : x.SubStep op I) {ps : List (Byte × Byte)} {r : Regs} (hi : I r.P)
    (hv : ∀ p ∈ ps, x.Valid p.1 ∧ x.Valid p.2) : x.Subtracts op r ps := by
  obtain ⟨ds, r', hr, hl, hds, hn⟩ := hs.equation x hi hv
  have hlt := x.number_lt hds
  rw [hl] at hlt
  have hw : (r.borrow : Int) = 1 - r.carry := by
    unfold Regs.borrow Regs.carry
    cases r.flag pCarry <;> rfl
  refine ⟨ds, r', hr, hl, hds, ?_⟩
  generalize hN : x.base ^ ps.length = N at hn hlt ⊢
  cases hf : r'.flag pCarry with
  | false =>
    have hb : r'.borrow = 1 := by simp [Regs.borrow, hf]
    rw [hb, Nat.mul_one] at hn
    have hd : (x.left ps : Int) - x.right ps - (1 - r.carry) = number x.base x.digit ds - N := by omega
    rw [hd, Int.sub_emod_right, Int.emod_eq_of_lt (by omega) (by omega)]
    exact ⟨rfl, by simp; omega⟩
  | true =>
    have hb : r'.borrow = 0 := by simp [Regs.borrow, hf]
    rw [hb, Nat.mul_zero] at hn
    have hd : (x.left ps : Int) - x.right ps - (1 - r.carry) = number x.base x.digit ds := by omega
    rw [hd, Int.emod_eq_of_lt (by omega) (by omega)]
    exact ⟨rfl, by simp⟩

end Radix

/-- All bytes, in base 256. -/
def Radix.binary : Radix where
  base := 256
  digit := BitVec.toNat
  Valid _ := True
  one_lt := by decide
  digit_lt b _ := b.isLt

/-- Two decimal digits to the byte. -/
def IsBcd (b : Byte) : Prop := b.toNat / 16 ≤ 9 ∧ b.toNat % 16 ≤ 9

instance (b : Byte) : Decidable (IsBcd b) := inferInstanceAs (Decidable (_ ∧ _))

def bcdValue (b : Byte) : Nat := 10 * (b.toNat / 16) + b.toNat % 16

/-- The valid BCD bytes, in base 100. -/
def Radix.decimal : Radix where
  base := 100
  digit := bcdValue
  Valid := IsBcd
  one_lt := by decide
  digit_lt b h := by
    unfold IsBcd at h
    unfold bcdValue
    omega

theorem flag_carry_setFlag (c : Bool) (P : Byte) : (setFlag pCarry c P &&& pCarry != 0) = c := by
  cases c with
  | false =>
    have he : P &&& ~~~pCarry &&& pCarry = 0 := by
      ext i hi
      simp [pCarry]
      grind
    simp [setFlag, he]
  | true =>
    have he : (P ||| pCarry) &&& pCarry = pCarry := by
      ext i hi
      simp
      grind
    simp only [setFlag, if_true, he]
    decide

theorem znFlags_and {m : Byte} (hz : pZero &&& m = 0) (hn : pNegative &&& m = 0) (v P : Byte) :
    znFlags v P &&& m = P &&& m := by
  rw [znFlags, setFlag_and hn, setFlag_and hz]

/-- The registers after an arithmetic instruction: the result, its flags, carry and overflow. -/
def Regs.result (r : Regs) (a : Byte) (c v : Bool) : Regs :=
  { r with A := a, P := znFlags a (setFlag pCarry c (setFlag pSignOverflow v r.P)) }

theorem result_flag_carry (r : Regs) (a : Byte) (c v : Bool) : (r.result a c v).flag pCarry = c := by
  unfold Regs.flag Regs.result
  rw [znFlags_and (by decide) (by decide)]
  exact flag_carry_setFlag c _

theorem result_decimal (r : Regs) (a : Byte) (c v : Bool) :
    (r.result a c v).P &&& pDecimal = r.P &&& pDecimal := by
  unfold Regs.result
  rw [znFlags_and (by decide) (by decide), setFlag_and (by decide), setFlag_and (by decide)]

theorem addRegs_eq (r : Regs) (v : Byte) :
    ∃ o, addRegs r v = r.result ((addSum r.A v (r.flag pCarry)).setWidth 8)
    (0xFF < addSum r.A v (r.flag pCarry)) o :=
  ⟨_, rfl⟩

theorem addRegs_binary (r : Regs) (v : Byte) :
    (addRegs r v).P &&& pDecimal = r.P &&& pDecimal ∧
      (addRegs r v).A.toNat + 256 * (addRegs r v).carry = r.A.toNat + v.toNat + r.carry := by
  obtain ⟨o, he⟩ := addRegs_eq r v
  have hs := toNat_addSum r.A v (r.flag pCarry)
  have ha := r.A.isLt
  have hv := v.isLt
  have hc := (r.flag pCarry).toNat_lt
  rw [he]
  refine ⟨result_decimal _ _ _ _, ?_⟩
  unfold Regs.carry
  rw [result_flag_carry]
  change ((addSum r.A v (r.flag pCarry)).setWidth 8).toNat + _ = _
  rw [BitVec.toNat_setWidth, hs]
  have hlt : 0xFF < addSum r.A v (r.flag pCarry) ↔ 255 < r.A.toNat + v.toNat + (r.flag pCarry).toNat := by
    rw [BitVec.lt_def, hs]
    rfl
  by_cases hb : 0xFF < addSum r.A v (r.flag pCarry)
  · have := hlt.mp hb
    simp only [hb, decide_true, Bool.toNat_true]
    omega
  · have := mt hlt.mpr hb
    simp only [hb, decide_false, Bool.toNat_false]
    omega

theorem adcWith_addStep : Radix.binary.AddStep adcWith fun P => P &&& pDecimal = 0 := by
  intro r b hd _ _
  obtain ⟨hk, he⟩ := addRegs_binary r b
  exact ⟨addRegs r b, adcWith_binary r b hd, hk.trans hd, trivial, he⟩

theorem sbcWith_subStep : Radix.binary.SubStep sbcWith fun P => P &&& pDecimal = 0 := by
  intro r b hd _ _
  obtain ⟨hk, he⟩ := addRegs_binary r (~~~b)
  refine ⟨addRegs r (~~~b), sbcWith_binary r b hd, hk.trans hd, trivial, ?_⟩
  change (addRegs r (~~~b)).A.toNat + b.toNat + r.borrow = r.A.toNat + 256 * (addRegs r (~~~b)).borrow
  have hb := b.isLt
  have hw : ∀ r : Regs, r.borrow + r.carry = 1 := fun r => by
    unfold Regs.borrow Regs.carry
    cases r.flag pCarry <;> rfl
  have h1 := hw r
  have h2 := hw (addRegs r (~~~b))
  rw [BitVec.toNat_not] at he
  omega

theorem toNat_fromBcd {b : Byte} (h : IsBcd b) : (fromBcd b).toNat = bcdValue b := by
  have hl : (15 &&& b : Byte).toNat = b.toNat % 16 := by
    rw [BitVec.toNat_and, Nat.and_comm]
    exact Nat.and_two_pow_sub_one_eq_mod b.toNat 4
  have hh : (b >>> 4).toNat = b.toNat / 16 := by
    rw [BitVec.toNat_ushiftRight, Nat.shiftRight_eq_div_pow]
  have ht : ((10 : Nat) : Byte).toNat = 10 := rfl
  unfold IsBcd at h
  unfold fromBcd bcdValue
  rw [BitVec.toNat_add, BitVec.toNat_mul, hh, hl, ht]
  omega

/-- A byte has three decimal digits; the third is shifted out. -/
theorem toBcd_value : ∀ v : Byte, IsBcd (toBcd v) ∧ bcdValue (toBcd v) = v.toNat % 100 := by
  decide +kernel

theorem doAdcBcd_run (r : Regs) (v : Byte) :
    ∃ o, (doAdcBcd v).run r = .done
      ((), r.result (toBcd ((addSum (fromBcd r.A) (fromBcd v) (r.flag pCarry)).setWidth 8))
      (99 < addSum (fromBcd r.A) (fromBcd v) (r.flag pCarry)) o) :=
  ⟨signOverflow r.A v (addSum (fromBcd r.A) (fromBcd v) (r.flag pCarry)), rfl⟩

theorem doSbcBcd_run (r : Regs) (v : Byte) :
    ∃ o, (doSbcBcd v).run r = .done ((), r.result (sbcBcd (subDiff (fromBcd r.A) (fromBcd v) (r.flag pCarry)))
      (!(decide (99 < subDiff (fromBcd r.A) (fromBcd v) (r.flag pCarry)) ||
        subDiff (fromBcd r.A) (fromBcd v) (r.flag pCarry) &&& 0xFF00 != 0)) o) :=
  ⟨signOverflow r.A (0xFF - v) (subDiff (fromBcd r.A) (fromBcd v) (r.flag pCarry)), rfl⟩

theorem doAdcBcd_addStep (d : Byte) : Radix.decimal.AddStep doAdcBcd fun P => P &&& pDecimal = d := by
  intro r b hd ha hb
  obtain ⟨o, he⟩ := doAdcBcd_run r b
  refine ⟨_, he, (result_decimal _ _ _ _).trans hd, (toBcd_value _).1, ?_⟩
  have hs := toNat_addSum (fromBcd r.A) (fromBcd b) (r.flag pCarry)
  rw [toNat_fromBcd ha, toNat_fromBcd hb] at hs
  have hla := Radix.decimal.digit_lt _ ha
  have hlb := Radix.decimal.digit_lt _ hb
  have hc := (r.flag pCarry).toNat_lt
  change bcdValue (toBcd _) + 100 * _ = bcdValue r.A + bcdValue b + (r.flag pCarry).toNat
  change bcdValue r.A < 100 at hla
  change bcdValue b < 100 at hlb
  unfold Regs.carry
  rw [result_flag_carry, (toBcd_value _).2, BitVec.toNat_setWidth, ← hs]
  generalize addSum (fromBcd r.A) (fromBcd b) (r.flag pCarry) = s at hs ⊢
  by_cases h : 99 < s
  · have : 99 < s.toNat := h
    simp only [h, decide_true, Bool.toNat_true]
    omega
  · have : ¬99 < s.toNat := h
    simp only [h, decide_false, Bool.toNat_false]
    omega

theorem toNat_subDiff (a v : Byte) (c : Bool) :
    (subDiff a v c).toNat = (65536 + a.toNat - v.toNat - (!c).toNat) % 65536 := by
  have ha := a.isLt
  have hv := v.isLt
  unfold subDiff
  cases c <;> simp [BitVec.toNat_sub] <;> omega

/-- A difference of two decimal digits pairs and a borrow, in 16 bits. -/
theorem sbcBcd_value {s : Addr} {d : Int} (hs : s.toInt = d) (hl : -100 ≤ d) (hu : d < 100) :
    IsBcd (sbcBcd s) ∧ (bcdValue (sbcBcd s) : Int) = d % 100 := by
  have hm : (d + 100).tmod 100 = d % 100 := by
    rw [Int.tmod_eq_emod_of_nonneg (by omega)]
    omega
  have hn : ¬d % 100 < 0 := by omega
  have he : sbcBcd s = toBcd (BitVec.ofInt 8 (d % 100)) := by
    simp only [sbcBcd, hs, hm, if_neg hn]
  rw [he]
  refine ⟨(toBcd_value _).1, ?_⟩
  rw [(toBcd_value _).2, BitVec.toNat_ofInt]
  omega

theorem doSbcBcd_subStep (d : Byte) : Radix.decimal.SubStep doSbcBcd fun P => P &&& pDecimal = d := by
  intro r b hd ha hb
  obtain ⟨o, he⟩ := doSbcBcd_run r b
  have hs := toNat_subDiff (fromBcd r.A) (fromBcd b) (r.flag pCarry)
  rw [toNat_fromBcd ha, toNat_fromBcd hb] at hs
  have hla : bcdValue r.A < 100 := Radix.decimal.digit_lt _ ha
  have hlb : bcdValue b < 100 := Radix.decimal.digit_lt _ hb
  have hc := (!r.flag pCarry).toNat_lt
  generalize subDiff (fromBcd r.A) (fromBcd b) (r.flag pCarry) = s at hs he
  have hi : s.toInt = bcdValue r.A - bcdValue b - ((!r.flag pCarry).toNat : Int) := by
    rw [BitVec.toInt_eq_toNat_cond]
    split <;> omega
  obtain ⟨hv, hval⟩ := sbcBcd_value hi (by omega) (by omega)
  refine ⟨_, he, (result_decimal _ _ _ _).trans hd, hv, ?_⟩
  change bcdValue (sbcBcd s) + bcdValue b + (!r.flag pCarry).toNat = bcdValue r.A + 100 * _
  unfold Regs.borrow
  have hz : (s &&& 0xFF00 != 0) = !decide (s.toNat < 256) := by
    rw [← high_eq_zero]
    rfl
  rw [result_flag_carry, hz]
  by_cases h : 99 < s
  · have hb : 99 < s.toNat := h
    simp only [h, decide_true, Bool.true_or, Bool.not_true, Bool.not_false, Bool.toNat_true]
    omega
  · have hb : ¬99 < s.toNat := h
    have hk : s.toNat < 256 := by omega
    simp only [h, hk, decide_true, decide_false, Bool.not_true, Bool.or_false, Bool.not_false, Bool.toNat_false]
    omega

theorem adcWith_addStep_decimal : Radix.decimal.AddStep adcWith fun P => P &&& pDecimal ≠ 0 := by
  intro r b hd ha hb
  obtain ⟨r', hr, hk, hh⟩ := doAdcBcd_addStep (r.P &&& pDecimal) r b rfl ha hb
  exact ⟨r', (adcWith_decimal r b hd).trans hr, hk.trans_ne hd, hh⟩

theorem sbcWith_subStep_decimal : Radix.decimal.SubStep sbcWith fun P => P &&& pDecimal ≠ 0 := by
  intro r b hd ha hb
  obtain ⟨r', hr, hk, hh⟩ := doSbcBcd_subStep (r.P &&& pDecimal) r b rfl ha hb
  exact ⟨r', (sbcWith_decimal r b hd).trans hr, hk.trans_ne hd, hh⟩

/-- Every chain of `ADC` or `SBC`, interpreted or through the decimal helpers of native code,
computes exactly; `adcWith` and `sbcWith` are the emulation functions after their operand. -/
theorem multi_byte_arithmetic (r : Regs) (ps : List (Byte × Byte)) :
    (∀ id i, emulAdc id i = instructionDataRead1 id i >>= adcWith) ∧
    (∀ id i, emulSbc id i = instructionDataRead1 id i >>= sbcWith) ∧
    (r.flag pDecimal = false → Radix.binary.Adds adcWith r ps ∧ Radix.binary.Subtracts sbcWith r ps) ∧
    ((∀ p ∈ ps, IsBcd p.1 ∧ IsBcd p.2) →
      (r.flag pDecimal = true → Radix.decimal.Adds adcWith r ps ∧ Radix.decimal.Subtracts sbcWith r ps) ∧
      Radix.decimal.Adds doAdcBcd r ps ∧ Radix.decimal.Subtracts doSbcBcd r ps) := by
  refine ⟨emulAdc_eq, emulSbc_eq, fun hd => ?_, fun hv => ⟨fun hd => ?_, ?_, ?_⟩⟩
  · have hz : r.P &&& pDecimal = 0 := by simpa [Regs.flag] using hd
    exact ⟨adcWith_addStep.adds _ hz (by simp [Radix.binary]), sbcWith_subStep.subtracts _ hz
      (by simp [Radix.binary])⟩
  · have hz : r.P &&& pDecimal ≠ 0 := by simpa [Regs.flag] using hd
    exact ⟨adcWith_addStep_decimal.adds _ hz hv, sbcWith_subStep_decimal.subtracts _ hz hv⟩
  · exact (doAdcBcd_addStep (r.P &&& pDecimal)).adds _ rfl hv
  · exact (doSbcBcd_subStep (r.P &&& pDecimal)).subtracts _ rfl hv

theorem multi_byte_arithmetic_pairs :
    Radix.binary.Adds adcWith ⟨0, 0, 0, 0, 0, 0⟩ [(0xFF, 0x01), (0x12, 0x34)] ∧
      Radix.decimal.Subtracts doSbcBcd ⟨0, 0, 0, 0, 0, 0⟩ [(0x00, 0x99), (0x42, 0x07)] :=
  ⟨((multi_byte_arithmetic ⟨0, 0, 0, 0, 0, 0⟩ [(0xFF, 0x01), (0x12, 0x34)]).2.2.1 rfl).1,
    ((multi_byte_arithmetic ⟨0, 0, 0, 0, 0, 0⟩ [(0x00, 0x99), (0x42, 0x07)]).2.2.2 (by simp [IsBcd])).2.2⟩

end Rk65c02
