import Rk65c02.Conformance
import Mathlib.Data.BitVec
import Mathlib.Tactic.Ring

/-! Rules for guest code: what the instructions of a program do where the program stands in memory. -/

namespace Rk65c02

/-- The bytes stand in memory from `org` on. -/
def Code (mem : Addr → Byte) (org : Addr) (code : List Byte) : Prop :=
  ∀ k < code.length, mem (org + BitVec.ofNat 16 k) = code.getD k 0

namespace Model

/-- The instruction at a place of the code. -/
def insnOf (code : List Byte) (k : Nat) : Instruction :=
  let n := (instructionDecode (code.getD k 0)).mode.operands
  ⟨code.getD k 0, if 1 ≤ n then code.getD (k + 1) 0 else 0, if 2 ≤ n then code.getD (k + 2) 0 else 0⟩

theorem fetched_code {s : Model} {org : Addr} {code : List Byte} {k : Nat} (hc : Code s.mem org code)
    (hpc : s.PC = org + BitVec.ofNat 16 k)
    (hk : k + (instructionDecode (code.getD k 0)).mode.operands < code.length) :
    s.fetched = insnOf code k := by
  have hadd (j : Nat) : s.PC + BitVec.ofNat 16 j = org + BitVec.ofNat 16 (k + j) := by
    rw [hpc, BitVec.ofNat_add, BitVec.add_assoc]
  have h0 : s.mem s.PC = code.getD k 0 := by rw [hpc, hc k (by omega)]
  unfold fetched insnOf
  rw [h0]
  dsimp only
  congr 1
  · split
    · rw [show (1 : Addr) = BitVec.ofNat 16 1 from rfl, hadd, hc _ (by omega)]
    · rfl
  · split
    · rw [show (2 : Addr) = BitVec.ofNat 16 2 from rfl, hadd, hc _ (by omega)]
    · rfl

/-- The instruction stands at place `k` of the code. -/
def Has (code : List Byte) (k : Nat) (i : Instruction) : Prop :=
  insnOf code k = i ∧ k + (instructionDecode i.opcode).mode.operands < code.length

instance (code : List Byte) (k : Nat) (i : Instruction) : Decidable (Has code k i) :=
  inferInstanceAs (Decidable (_ ∧ _))

/-- The address of a byte of the stack. -/
def cell (sp : Byte) : Addr := BitVec.ofNat 16 (256 + sp.toNat)

theorem toNat_cell (sp : Byte) : (cell sp).toNat = 256 + sp.toNat := by
  have h := sp.isLt
  unfold cell
  rw [BitVec.toNat_ofNat]
  omega

theorem cell_low (sp : Byte) : (cell sp).toNat < 0x200 := by
  have h := sp.isLt
  rw [toNat_cell]
  omega

/-- The address of a byte of the zero page. -/
def zp (z : Byte) : Addr := BitVec.ofNat 16 z.toNat

theorem toNat_zp (z : Byte) : (zp z).toNat = z.toNat := by
  have h := z.isLt
  unfold zp
  rw [BitVec.toNat_ofNat]
  omega

theorem zp_low (z : Byte) : (zp z).toNat < 0x200 := by
  have h := z.isLt
  rw [toNat_zp]
  omega

@[simp] theorem cell_inj {x y : Byte} : cell x = cell y ↔ x = y := by
  refine ⟨fun h => ?_, congrArg cell⟩
  have hn := congrArg BitVec.toNat h
  rw [toNat_cell, toNat_cell] at hn
  exact BitVec.eq_of_toNat_eq (by omega)

@[simp] theorem zp_inj {x y : Byte} : zp x = zp y ↔ x = y := by
  refine ⟨fun h => ?_, congrArg zp⟩
  have hn := congrArg BitVec.toNat h
  rw [toNat_zp, toNat_zp] at hn
  exact BitVec.eq_of_toNat_eq hn

@[simp] theorem zp_ne_cell (x y : Byte) : zp x ≠ cell y := by
  intro h
  have hx := x.isLt
  have hn := congrArg BitVec.toNat h
  rw [toNat_zp, toNat_cell] at hn
  omega

@[simp] theorem cell_ne_zp (x y : Byte) : cell x ≠ zp y := (zp_ne_cell y x).symm

/-- A program above the stack page, and RAM below it. -/
structure Guest (org : Addr) (prog : List Byte) (s₀ : Model) : Prop where
  code : Code s₀.mem org prog
  high : 0x200 ≤ org.toNat
  fits : org.toNat + prog.length ≤ 0x10000
  ram : ∀ x : Addr, x.toNat < 0x200 → s₀.ram x = true

/-- The processor at place `k` of the program, with what the program works on. The rest is as in `s₀`. -/
structure Point (s₀ : Model) (org : Addr) (k : Nat) (a sp : Byte) (m : Addr → Byte) (s : Model) : Prop where
  pc : s.PC = org + BitVec.ofNat 16 k
  acc : s.A = a
  sp : s.SP = sp
  mem : s.mem = m
  high : ∀ x : Addr, 0x200 ≤ x.toNat → m x = s₀.mem x
  x : s.X = s₀.X
  y : s.Y = s₀.Y
  ram : s.ram = s₀.ram
  binary : s.flags.d = false
  run : s.halt = none

theorem add_binary {s : Model} (m : Byte) (hd : s.flags.d = false) (hc : s.flags.c = false) :
    (s.add m).A = s.A + m := by
  have hs : s.sum m = s.A.toNat + m.toNat := by simp [sum, hd, hc]
  change (if s.flags.d then lastDigits (s.sum m % 256) else BitVec.ofNat 8 (s.sum m)) = _
  rw [hd, if_neg Bool.false_ne_true, hs, BitVec.ofNat_add, BitVec.ofNat_toNat, BitVec.ofNat_toNat,
    BitVec.setWidth_eq,
    BitVec.setWidth_eq]

theorem org_add {org : Addr} {n t : Nat} (h : n = org.toNat + t) :
    BitVec.ofNat 16 n = org + BitVec.ofNat 16 t := by
  rw [h, BitVec.ofNat_add, BitVec.ofNat_toNat, BitVec.setWidth_eq]

section Rules

variable {org : Addr} {prog : List Byte} {s₀ s : Model} {k : Nat} {a sp z v w : Byte} {m : Addr → Byte}

theorem Point.code (h : Point s₀ org k a sp m s) (g : Guest org prog s₀) : Code s.mem org prog := by
  intro j hj
  have hfit := g.fits
  have hhigh := g.high
  rw [h.mem, h.high _ (by bv_omega), g.code j hj]

theorem Point.step {i : Instruction} {e : Emul} {mode : Addressing} {n : Nat} (h : Point s₀ org k a sp m s)
    (g : Guest org prog s₀) (hi : Has prog k i) (hd : (instructionDecode i.opcode).emul = e ∧
      (instructionDecode i.opcode).mode = mode ∧ (instructionDecode i.opcode).size = n) :
    s.step false = { s with PC := org + BitVec.ofNat 16 (k + n) }.perform i mode e := by
  obtain ⟨rfl, hk⟩ := hi
  obtain ⟨rfl, rfl, rfl⟩ := hd
  have hs : s.step false = s.instruction := by simp [Model.step, h.run]
  have hf : s.fetched = insnOf prog k := fetched_code (h.code g) h.pc hk
  rw [hs, instruction, hf, h.pc, BitVec.add_assoc, ← BitVec.ofNat_add]

theorem Point.at (h : Point s₀ org k a sp m s) (n : Nat) :
    Point s₀ org n a sp m { s with PC := org + BitVec.ofNat 16 n } :=
  ⟨rfl, h.acc, h.sp, h.mem, h.high, h.x, h.y, h.ram, h.binary, h.run⟩

theorem Point.putA (h : Point s₀ org k a sp m s) (v : Byte) : Point s₀ org k v sp m { s with A := v } :=
  ⟨h.pc, rfl, h.sp, h.mem, h.high, h.x, h.y, h.ram, h.binary, h.run⟩

theorem Point.putSP (h : Point s₀ org k a sp m s) (v : Byte) : Point s₀ org k a v m { s with SP := v } :=
  ⟨h.pc, h.acc, rfl, h.mem, h.high, h.x, h.y, h.ram, h.binary, h.run⟩

theorem Point.putFlags (h : Point s₀ org k a sp m s) {f : Flags} (hf : f.d = s.flags.d) :
    Point s₀ org k a sp m { s with flags := f } :=
  ⟨h.pc, h.acc, h.sp, h.mem, h.high, h.x, h.y, h.ram, hf.trans h.binary, h.run⟩

/-- A store below the program. -/
theorem Point.store (h : Point s₀ org k a sp m s) (g : Guest org prog s₀) {x : Addr}
    (hx : x.toNat < 0x200) (v : Byte) :
    Point s₀ org k a sp (Function.update m x v) (s.store x v) := by
  refine ⟨h.pc, h.acc, h.sp, ?_, fun y hy => ?_, h.x, h.y, h.ram, h.binary, h.run⟩
  · rw [Model.store, h.ram, g.ram x hx, if_pos rfl, h.mem]
  · rw [Function.update_of_ne (fun he => by rw [he] at hy; omega), h.high y hy]

variable (h : Point s₀ org k a sp m s) (g : Guest org prog s₀)

include h g

theorem Point.pla (hi : Has prog k ⟨0x68, 0, 0⟩) :
    Point s₀ org (k + 1) (m (cell (sp + 1))) (sp + 1) m (s.step false) := by
  rw [h.step g hi ⟨rfl, rfl, rfl⟩]
  obtain ⟨rfl, rfl, rfl⟩ := And.intro h.acc (And.intro h.sp h.mem)
  exact (((h.at (k + 1)).putSP _).putA _).putFlags rfl

theorem Point.pha (hi : Has prog k ⟨0x48, 0, 0⟩) :
    Point s₀ org (k + 1) a (sp - 1) (Function.update m (cell sp) a) (s.step false) := by
  rw [h.step g hi ⟨rfl, rfl, rfl⟩]
  obtain ⟨rfl, rfl, rfl⟩ := And.intro h.acc (And.intro h.sp h.mem)
  exact ((h.at (k + 1)).store g (cell_low _) _).putSP _

theorem Point.sta (hi : Has prog k ⟨0x85, z, 0⟩) :
    Point s₀ org (k + 2) a sp (Function.update m (zp z) a) (s.step false) := by
  rw [h.step g hi ⟨rfl, rfl, rfl⟩]
  obtain ⟨rfl, rfl, rfl⟩ := And.intro h.acc (And.intro h.sp h.mem)
  exact (h.at (k + 2)).store g (zp_low z) _

theorem Point.lda (hi : Has prog k ⟨0xA5, z, 0⟩) : Point s₀ org (k + 2) (m (zp z)) sp m (s.step false) := by
  rw [h.step g hi ⟨rfl, rfl, rfl⟩]
  obtain ⟨rfl, rfl, rfl⟩ := And.intro h.acc (And.intro h.sp h.mem)
  exact ((h.at (k + 2)).putA _).putFlags rfl

theorem Point.ldaImm (hi : Has prog k ⟨0xA9, v, 0⟩) :
    Point s₀ org (k + 2) v sp m (s.step false) ∧ (s.step false).flags.z = decide (v = 0) := by
  rw [h.step g hi ⟨rfl, rfl, rfl⟩]
  exact ⟨((h.at (k + 2)).putA _).putFlags rfl, rfl⟩

theorem Point.clc (hi : Has prog k ⟨0x18, 0, 0⟩) :
    Point s₀ org (k + 1) a sp m (s.step false) ∧ (s.step false).flags.c = false := by
  rw [h.step g hi ⟨rfl, rfl, rfl⟩]
  exact ⟨(h.at (k + 1)).putFlags rfl, rfl⟩

/-- A binary sum, with the carry clear. -/
theorem Point.adc (hi : Has prog k ⟨0x65, z, 0⟩) (hc : s.flags.c = false) :
    Point s₀ org (k + 2) (a + m (zp z)) sp m (s.step false) := by
  rw [h.step g hi ⟨rfl, rfl, rfl⟩]
  obtain ⟨rfl, rfl, rfl⟩ := And.intro h.acc (And.intro h.sp h.mem)
  have hsum : ({ s with PC := org + BitVec.ofNat 16 (k + 2) }.add (s.mem (zp z))).A = s.A + s.mem (zp z) :=
    add_binary _ h.binary hc
  rw [← hsum]
  exact ((h.at (k + 2)).putA _).putFlags rfl

theorem Point.asl (hi : Has prog k ⟨0x06, z, 0⟩) :
    Point s₀ org (k + 2) a sp (Function.update m (zp z) (BitVec.ofNat 8 (2 * (m (zp z)).toNat)))
    (s.step false) := by
  rw [h.step g hi ⟨rfl, rfl, rfl⟩]
  obtain ⟨rfl, rfl, rfl⟩ := And.intro h.acc (And.intro h.sp h.mem)
  exact (((h.at (k + 2)).putFlags rfl).store g (zp_low z) _).putFlags rfl

theorem Point.lsr (hi : Has prog k ⟨0x46, z, 0⟩) :
    Point s₀ org (k + 2) a sp (Function.update m (zp z) (BitVec.ofNat 8 ((m (zp z)).toNat / 2))) (s.step false) ∧
      (s.step false).flags.c = decide ((m (zp z)).toNat % 2 = 1) ∧
      (s.step false).flags.z = decide (BitVec.ofNat 8 ((m (zp z)).toNat / 2) = 0) := by
  rw [h.step g hi ⟨rfl, rfl, rfl⟩]
  obtain ⟨rfl, rfl, rfl⟩ := And.intro h.acc (And.intro h.sp h.mem)
  exact ⟨(((h.at (k + 2)).putFlags rfl).store g (zp_low z) _).putFlags rfl, rfl, rfl⟩

theorem Point.cmp (hi : Has prog k ⟨0xC5, z, 0⟩) : Point s₀ org (k + 2) a sp m (s.step false) ∧
    (s.step false).flags.n = decide (128 ≤ (a - m (zp z)).toNat) := by
  rw [h.step g hi ⟨rfl, rfl, rfl⟩]
  obtain ⟨rfl, rfl, rfl⟩ := And.intro h.acc (And.intro h.sp h.mem)
  exact ⟨((h.at (k + 2)).putFlags rfl).putFlags rfl, rfl⟩

omit g in
theorem Point.branchIf {t : Nat} {off : Byte} (ht : (t : Int) = k + off.toInt) (taken : Bool) :
    Point s₀ org (if taken then t else k) a sp m (s.branchIf taken off) := by
  cases taken with
  | false => exact h
  | true =>
    have hpc : BitVec.ofInt 16 (s.PC.toNat + off.toInt) = org + BitVec.ofNat 16 t := by
      rw [BitVec.ofInt_add, BitVec.ofInt_natCast, BitVec.ofNat_toNat, BitVec.setWidth_eq, h.pc, BitVec.add_assoc,
        ← BitVec.ofInt_natCast, ← BitVec.ofInt_add, ← ht, BitVec.ofInt_natCast]
    have hb : s.branchIf true off = { s with PC := org + BitVec.ofNat 16 t } := by rw [← hpc]; rfl
    rw [hb]
    exact h.at t

/-- A branch, by the flag that its opcode tests. -/
theorem Point.branch {e : Emul} {op d : Byte} {t : Nat} {b : Model → Bool} (hi : Has prog k ⟨op, d, 0⟩)
    (hd : (instructionDecode op).emul = e ∧ (instructionDecode op).mode = .relative ∧
      (instructionDecode op).size = 2)
    (he : ∀ s : Model, s.perform ⟨op, d, 0⟩ .relative e = s.branchIf (b s) d)
    (ht : (t : Int) = (k + 2 : Nat) + d.toInt) :
    Point s₀ org (if b { s with PC := org + BitVec.ofNat 16 (k + 2) } then t else k + 2) a sp m (s.step false) ∧
      (s.step false).flags = s.flags := by
  rw [h.step g hi hd, he]
  refine ⟨(h.at (k + 2)).branchIf ht _, ?_⟩
  generalize b _ = taken
  cases taken <;> rfl

theorem Point.bcs {d : Byte} {t : Nat} (hi : Has prog k ⟨0xB0, d, 0⟩) (ht : (t : Int) = (k + 2 : Nat) + d.toInt) :
    Point s₀ org (if s.flags.c then t else k + 2) a sp m (s.step false) ∧ (s.step false).flags = s.flags :=
  h.branch g (b := (·.flags.c)) hi ⟨rfl, rfl, rfl⟩ (fun _ => rfl) ht

theorem Point.bne {d : Byte} {t : Nat} (hi : Has prog k ⟨0xD0, d, 0⟩) (ht : (t : Int) = (k + 2 : Nat) + d.toInt) :
    Point s₀ org (if !s.flags.z then t else k + 2) a sp m (s.step false) :=
  (h.branch g (b := (!·.flags.z)) hi ⟨rfl, rfl, rfl⟩ (fun _ => rfl) ht).1

theorem Point.beq {d : Byte} {t : Nat} (hi : Has prog k ⟨0xF0, d, 0⟩) (ht : (t : Int) = (k + 2 : Nat) + d.toInt) :
    Point s₀ org (if s.flags.z then t else k + 2) a sp m (s.step false) :=
  (h.branch g (b := (·.flags.z)) hi ⟨rfl, rfl, rfl⟩ (fun _ => rfl) ht).1

theorem Point.bpl {d : Byte} {t : Nat} (hi : Has prog k ⟨0x10, d, 0⟩) (ht : (t : Int) = (k + 2 : Nat) + d.toInt) :
    Point s₀ org (if !s.flags.n then t else k + 2) a sp m (s.step false) :=
  (h.branch g (b := (!·.flags.n)) hi ⟨rfl, rfl, rfl⟩ (fun _ => rfl) ht).1

omit g in
theorem Point.goto {n t : Nat} (ht : n = org.toNat + t) : Point s₀ org t a sp m (s.goto n) := by
  rw [goto_nat, org_add ht]
  exact h.at t

theorem Point.jsr {l u : Byte} {t : Nat} (hi : Has prog k ⟨0x20, l, u⟩)
    (ht : l.toNat + 256 * u.toNat = org.toNat + t)
    {ret : Addr} (hret : org + BitVec.ofNat 16 (k + 3) - 1 = ret) :
    Point s₀ org t a (sp - 1 - 1)
      (Function.update (Function.update m (cell sp) (BitVec.ofNat 8 (ret.toNat / 256)))
      (cell (sp - 1)) (BitVec.ofNat 8 ret.toNat)) (s.step false) := by
  rw [h.step g hi ⟨rfl, rfl, rfl⟩]
  obtain ⟨rfl, rfl, rfl⟩ := And.intro h.acc (And.intro h.sp h.mem)
  subst hret
  exact (((((h.at (k + 3)).store g (cell_low _) _).putSP _).store g (cell_low _) _).putSP _).goto ht

theorem Point.rts {t : Nat} (hi : Has prog k ⟨0x60, 0, 0⟩)
    (ht : (m (cell (sp + 1))).toNat + 256 * (m (cell (sp + 1 + 1))).toNat + 1 = org.toNat + t) :
    Point s₀ org t a (sp + 1 + 1) m (s.step false) := by
  rw [h.step g hi ⟨rfl, rfl, rfl⟩]
  obtain ⟨rfl, rfl, rfl⟩ := And.intro h.acc (And.intro h.sp h.mem)
  exact (((h.at (k + 1)).putSP _).putSP _).goto ht

/-- Pull a byte and keep it in the zero page. -/
theorem Point.pullTo {w : Byte} (hi : Has prog k ⟨0x68, 0, 0⟩) (hs : Has prog (k + 1) ⟨0x85, z, 0⟩)
    (hw : m (cell (sp + 1)) = w) :
    Point s₀ org (k + 3) w (sp + 1) (Function.update m (zp z) w) (s.step false |>.step false) :=
  hw ▸ (h.pla g hi).sta g hs

/-- Push a byte of the zero page. -/
theorem Point.pushFrom {w : Byte} (hi : Has prog k ⟨0xA5, z, 0⟩) (hs : Has prog (k + 2) ⟨0x48, 0, 0⟩)
    (hw : m (zp z) = w) :
    Point s₀ org (k + 3) w (sp - 1) (Function.update m (cell sp) w) (s.step false |>.step false) :=
  hw ▸ (h.lda g hi).pha g hs

theorem Point.stp (hi : Has prog k ⟨0xDB, 0, 0⟩) : s.step false =
    { s with PC := org + BitVec.ofNat 16 (k + 1), halt := some .stp } := h.step g hi ⟨rfl, rfl, rfl⟩

end Rules

theorem update_zp_cell (m : Addr → Byte) (x z v : Byte) : Function.update m (zp z) v (cell x) = m (cell x) :=
  Function.update_of_ne (cell_ne_zp x z) v m

theorem update_cell_zp (m : Addr → Byte) (x z v : Byte) : Function.update m (cell x) v (zp z) = m (zp z) :=
  Function.update_of_ne (zp_ne_cell z x) v m

/-- Where a program ends: the byte `v` is on top of the stack, and some memory is as it was. -/
structure Returns (s₀ : Model) (sp v : Byte) (kept : Addr → Prop) (s : Model) : Prop where
  halt : s.halt = some .stp
  stack : s.SP = sp
  top : s.mem (cell (sp + 1)) = v
  x : s.X = s₀.X
  y : s.Y = s₀.Y
  mem : ∀ x, kept x → s.mem x = s₀.mem x

section Calls

variable {s₀ s : Model} {prog : List Byte} {a sp : Byte} {m₀ : Addr → Byte}

/-- A call of the routine behind `jsr` and `stp`: the return address is on the stack. -/
theorem Point.called (g : Guest 0xC000 prog s₀) (h : Point s₀ 0xC000 0 a sp m₀ s)
    (hi : Has prog 0 ⟨0x20, 0x04, 0xC0⟩) :
    ∃ m, Point s₀ 0xC000 4 a (sp - 1 - 1) m (s.step false) ∧ m (cell (sp - 1)) = 0x02 ∧ m (cell sp) = 0xC0 ∧
      ∀ x, x ≠ cell sp → x ≠ cell (sp - 1) → m x = m₀ x := by
  have hne : cell sp ≠ cell (sp - 1) := fun he => absurd (cell_inj.1 he) (by bv_omega)
  have hret : (0xC000 : Addr) + BitVec.ofNat 16 (0 + 3) - 1 = 0xC002 := by decide
  refine ⟨_, h.jsr g (t := 4) hi (by decide) hret, ?_, ?_, fun x hx hx' => ?_⟩
  · rw [Function.update_self]
    rfl
  · rw [Function.update_of_ne hne, Function.update_self]
    rfl
  · rw [Function.update_of_ne hx', Function.update_of_ne hx]

/-- The end of the routine, with the result in `A` and the return address in the zero page. -/
theorem Point.leave (g : Guest 0xC000 prog s₀) {k : Nat} {v l u : Byte} {m : Addr → Byte}
    (h : Point s₀ 0xC000 k v (sp + 1 + 1) m s) (hlo : m (zp l) = 0x02) (hhi : m (zp u) = 0xC0)
    (hcode : Has prog k ⟨0x48, 0, 0⟩ ∧ Has prog (k + 1) ⟨0xA5, u, 0⟩ ∧ Has prog (k + 3) ⟨0x48, 0, 0⟩ ∧
      Has prog (k + 4) ⟨0xA5, l, 0⟩ ∧ Has prog (k + 6) ⟨0x48, 0, 0⟩ ∧ Has prog (k + 7) ⟨0x60, 0, 0⟩ ∧
      Has prog 3 ⟨0xDB, 0, 0⟩) :
    ∃ n, Returns s₀ (sp + 1) v
      (fun x => x ∉ [sp, sp + 1, sp + 1 + 1].map cell ∧ m x = s₀.mem x) ((Model.step false)^[n] s) := by
  obtain ⟨i1, i2, i3, i4, i5, i6, i7⟩ := hcode
  have hb : sp + 1 + 1 - 1 = sp + 1 ∧ sp + 1 - 1 = sp ∧ sp - 1 + 1 = sp := ⟨by bv_omega, by bv_omega, by bv_omega⟩
  have hs : sp + 1 ≠ sp ∧ sp + 1 + 1 ≠ sp ∧ sp + 1 + 1 ≠ sp + 1 := ⟨by bv_omega, by bv_omega, by bv_omega⟩
  have h1 := h.pha g i1
  rw [hb.1] at h1
  have h2 := h1.pushFrom g i2 i3 (by rw [update_cell_zp, hhi])
  rw [hb.2.1] at h2
  have h3 := h2.pushFrom g i4 i5 (by rw [update_cell_zp, update_cell_zp, hlo])
  have h4 := h3.rts g (t := 3) i6 (by simp)
  rw [hb.2.2] at h4
  refine ⟨7, ?_⟩
  change Returns _ _ _ _ (Model.step false _)
  rw [h4.stp g i7]
  refine ⟨rfl, h4.sp, (congrFun h4.mem _).trans ?_, h4.x, h4.y, fun x ⟨hx, hmx⟩ => (congrFun h4.mem x).trans ?_⟩
  · rw [Function.update_of_ne (mt cell_inj.1 hs.2.1), Function.update_of_ne (mt cell_inj.1 hs.2.2),
      Function.update_self]
  · simp only [List.map_cons, List.map_nil, List.mem_cons, List.not_mem_nil, or_false, not_or] at hx
    rw [Function.update_of_ne hx.1, Function.update_of_ne hx.2.1, Function.update_of_ne hx.2.2, hmx]

end Calls

end Model

end Rk65c02
