import Rk65c02.Emit

/-! Symbolic execution of native code: what each emitted instruction does to the native
registers, and the arithmetic of bytes held in 64-bit words. -/

namespace Rk65c02

open Resumption Cpu

section Words

variable (a b m : Byte) (x : Addr) (w : Word)

theorem zext_and : a.setWidth 64 &&& b.setWidth 64 = (a &&& b).setWidth 64 := by simp

theorem zext_or : a.setWidth 64 ||| b.setWidth 64 = (a ||| b).setWidth 64 := by simp

theorem zext_xor : a.setWidth 64 ^^^ b.setWidth 64 = (a ^^^ b).setWidth 64 := by simp

theorem zext_and_notImm : a.setWidth 64 &&& notImm m = (a &&& ~~~m).setWidth 64 := by
  ext i hi
  simp only [notImm, BitVec.getElem_and, BitVec.getElem_setWidth, BitVec.getElem_not, BitVec.getLsbD_and,
    BitVec.getLsbD_not]
  by_cases h : i < 8
  · simp [h]
  · simp [h, BitVec.getLsbD_of_ge a i (by omega)]

theorem zext_or_imm : a.setWidth 64 ||| imm m = (a ||| m).setWidth 64 := zext_or a m

theorem zext_and_imm : a.setWidth 64 &&& imm m = (a &&& m).setWidth 64 := zext_and a m

theorem mask_byte : w &&& 255#64 = (w.setWidth 8).setWidth 64 := by
  apply BitVec.eq_of_toNat_eq
  have h := Nat.and_two_pow_sub_one_eq_mod w.toNat 8
  simp only [BitVec.toNat_and, BitVec.toNat_setWidth]
  rw [Nat.mod_eq_of_lt (by omega : w.toNat % 2 ^ 8 < 2 ^ 64)]
  exact h

theorem addr_mask_byte : x.setWidth 64 &&& 255#64 = (x.setWidth 8).setWidth 64 := by
  rw [mask_byte]
  simp

theorem mask_addr : w &&& 65535#64 = (w.setWidth 16).setWidth 64 := by
  apply BitVec.eq_of_toNat_eq
  have h := Nat.and_two_pow_sub_one_eq_mod w.toNat 16
  simp only [BitVec.toNat_and, BitVec.toNat_setWidth]
  rw [Nat.mod_eq_of_lt (by omega : w.toNat % 2 ^ 16 < 2 ^ 64)]
  exact h

theorem zext_add_mask : (a.setWidth 64 + b.setWidth 64) &&& 255#64 = (a + b).setWidth 64 := by
  rw [mask_byte, BitVec.setWidth_add _ _ (by decide)]
  simp

theorem trunc_add {n : Nat} (hn : n ≤ 64) (u : Word) : (w + u).setWidth n = w.setWidth n + u.setWidth n :=
  BitVec.setWidth_add _ _ hn

theorem trunc_sub {n : Nat} (hn : n ≤ 64) (u : Word) : (w - u).setWidth n = w.setWidth n - u.setWidth n := by
  have h : w - u + u = w := BitVec.sub_add_cancel w u
  have h' := trunc_add (w - u) hn u
  rw [h] at h'
  rw [h', BitVec.add_sub_cancel]

theorem add_one_mask : (a.setWidth 64 + 1#64) &&& 255#64 = (a + 1#8).setWidth 64 := by
  rw [mask_byte, trunc_add _ (by decide)]
  simp

theorem sub_one_mask : (a.setWidth 64 - 1#64) &&& 255#64 = (a - 1#8).setWidth 64 := by
  rw [mask_byte, trunc_sub _ (by decide)]
  simp

theorem sub_mask : (a.setWidth 64 - b.setWidth 64) &&& 255#64 = (a - b).setWidth 64 := by
  rw [mask_byte, trunc_sub _ (by decide)]
  simp

theorem zext_eq_zero : a.setWidth 64 = 0#64 ↔ a = 0#8 := by bv_omega

theorem bnei0_zext : bnei0 (a.setWidth 64) = (a != 0) := by
  simp [bnei0, bne, BEq.beq, zext_eq_zero]

theorem beqi0_zext : beqi0 (a.setWidth 64) = (a == 0) := by
  simp [beqi0, BEq.beq, zext_eq_zero]

theorem bmci_zext : bmci (m.setWidth 64) (a.setWidth 64) = (a &&& m == 0) := by
  unfold bmci
  rw [zext_and]
  exact beqi0_zext (a &&& m)

theorem bmci_80 : bmci 128#64 (a.setWidth 64) = (a &&& 128#8 == 0#8) := by
  have h : 128#64 = (128#8).setWidth 64 := by decide
  rw [h]
  exact bmci_zext a 128

theorem bmci_40 : bmci 64#64 (a.setWidth 64) = (a &&& 64#8 == 0#8) := by
  have h : 64#64 = (64#8).setWidth 64 := by decide
  rw [h]
  exact bmci_zext a 64

theorem bmci_01 : bmci 1#64 (a.setWidth 64) = (a &&& 1#8 == 0#8) := by
  have h : 1#64 = (1#8).setWidth 64 := by decide
  rw [h]
  exact bmci_zext a 1

theorem bmsi_zext : bmsi (m.setWidth 64) (a.setWidth 64) = (a &&& m != 0) := by
  unfold bmsi
  rw [zext_and]
  exact bnei0_zext (a &&& m)

end Words

section Primitives

variable (l : LRegs) (r : Regs)

@[simp] theorem getReg_run {s : LReg} (h : (l.get s).isSome = true) :
    ((getReg s).run l).run r = .done (((l.get s).getD 0, l), r) := by
  obtain ⟨w, hw⟩ := Option.isSome_iff_exists.1 h
  simp [getReg, hw]

@[simp] theorem putReg_run (d : LReg) (w : Word) : ((putReg d w).run l).run r = .done (((), l.set d w), r) := rfl

@[simp] theorem useR0_run (h : l.r0 = true) : (useR0.run l).run r = .done (((), l), r) := by
  simp [useR0, h]

@[simp] theorem jitMovrR0_run : (jitMovrR0.run l).run r = .done (((), { l with r0 := true }), r) := rfl

@[simp] theorem jitMovi_run (d : LReg) (w : Word) : ((jitMovi d w).run l).run r = .done
    (((), l.set d w), r) := rfl

@[simp] theorem unary_run (f : Word → Word) (d : LReg) {s : LReg} (h : (l.get s).isSome = true) :
    ((unary f d s).run l).run r = .done (((), l.set d (f ((l.get s).getD 0))), r) := by
  simp [unary, h]

@[simp] theorem binary_run (f : Word → Word → Word) (d : LReg) {s t : LReg} (hs : (l.get s).isSome = true)
    (ht : (l.get t).isSome = true) :
    ((binary f d s t).run l).run r = .done (((), l.set d (f ((l.get s).getD 0) ((l.get t).getD 0))), r) := by
  simp [binary, hs, ht]

theorem cpu_get_run : ((cpu get).run l).run r = .done ((r, l), r) := rfl

theorem cpu_modify_run (f : Regs → Regs) : ((cpu (modify f)).run l).run r = .done (((), l), f r) := rfl

@[simp] theorem jitLdxiUc_run (d : LReg) (f : Off) (h : l.r0 = true) :
    ((jitLdxiUc d f).run l).run r = .done (((), l.set d ((f.get r).setWidth 64)), r) := by
  simp [jitLdxiUc, h, cpu_get_run]

@[simp] theorem jitStxiC_run (f : Off) {s : LReg} (h : l.r0 = true) (hs : (l.get s).isSome = true) :
    ((jitStxiC f s).run l).run r = .done (((), l), f.put (((l.get s).getD 0).setWidth 8) r) := by
  simp [jitStxiC, h, hs, cpu_modify_run]

@[simp] theorem jitLdxiUsPC_run (d : LReg) (h : l.r0 = true) :
    ((jitLdxiUsPC d).run l).run r = .done (((), l.set d (r.PC.setWidth 64)), r) := by
  simp [jitLdxiUsPC, h, cpu_get_run]

@[simp] theorem jitStxiSPC_run {s : LReg} (h : l.r0 = true) (hs : (l.get s).isSome = true) :
    ((jitStxiSPC s).run l).run r = .done (((), l), { r with PC := ((l.get s).getD 0).setWidth 16 }) := by
  simp [jitStxiSPC, h, hs, cpu_modify_run]

attribute [simp] jitMovr jitAddi jitSubi jitAndi jitOri jitXori jitLshi jitRshiU jitAddr
    jitSubr jitAndr jitOrr jitXorr

theorem set_get {d : LReg} (h : (l.get d).isSome = true) : l.set d ((l.get d).getD 0) = l := by
  obtain ⟨r0, r1, r2, v1, v2⟩ := l
  cases d <;> simp only [LRegs.get, LRegs.set] at h ⊢ <;>
    (obtain ⟨w, rfl⟩ := Option.isSome_iff_exists.1 h; rfl)

/-- A branch over an update of one register is a choice of its value. -/
@[simp] theorem branchOver_unary_run (test : Word → Bool) (f : Word → Word) {s d : LReg}
    (hs : (l.get s).isSome = true) (hd : (l.get d).isSome = true) :
    ((branchOver test s (unary f d d)).run l).run r =
      .done (((), l.set d (if test ((l.get s).getD 0) then (l.get d).getD 0 else f ((l.get d).getD 0))), r) := by
  simp only [branchOver, StateT.run_bind, getReg_run l r hs, Tree.done_bind]
  split
  · rw [set_get l hd]
    rfl
  · exact unary_run l r f d hd

/-- A flag raised by the code a branch may skip. -/
def orFlag (m : Byte) (c : Bool) (P : Byte) : Byte := if c then P ||| m else P

@[simp high] theorem branchOver_ori_run (test : Word → Bool) (m : Byte) {s d : LReg}
    (hs : (l.get s).isSome = true) (hd : (l.get d).isSome = true)
    (hb : (((l.get d).getD 0).setWidth 8).setWidth 64 = (l.get d).getD 0) :
    ((branchOver test s (unary (· ||| imm m) d d)).run l).run r =
      .done (((), l.set d ((orFlag m (!test ((l.get s).getD 0)) (((l.get d).getD 0).setWidth 8)).setWidth 64)),
        r) := by
  rw [branchOver_unary_run l r test _ hs hd]
  unfold orFlag
  cases test ((l.get s).getD 0) with
  | true =>
    simp only [if_true, Bool.not_true, Bool.false_eq_true, if_false]
    rw [hb]
  | false =>
    simp only [Bool.false_eq_true, if_false, Bool.not_false, if_true]
    rw [← zext_or_imm, hb]

section Literals

variable (a : Bool) (w : Word) (b c d e : Option Word)

@[simp] theorem get_r1 : LRegs.get ⟨a, b, c, d, e⟩ .r1 = b := by simp only [LRegs.get]
@[simp] theorem get_r2 : LRegs.get ⟨a, b, c, d, e⟩ .r2 = c := by simp only [LRegs.get]
@[simp] theorem get_v1 : LRegs.get ⟨a, b, c, d, e⟩ .v1 = d := by simp only [LRegs.get]
@[simp] theorem get_v2 : LRegs.get ⟨a, b, c, d, e⟩ .v2 = e := by simp only [LRegs.get]
@[simp] theorem set_r1 : LRegs.set ⟨a, b, c, d, e⟩ .r1 w = ⟨a, some w, c, d, e⟩ := rfl
@[simp] theorem set_r2 : LRegs.set ⟨a, b, c, d, e⟩ .r2 w = ⟨a, b, some w, d, e⟩ := rfl
@[simp] theorem set_v1 : LRegs.set ⟨a, b, c, d, e⟩ .v1 w = ⟨a, b, c, some w, e⟩ := rfl
@[simp] theorem set_v2 : LRegs.set ⟨a, b, c, d, e⟩ .v2 w = ⟨a, b, c, d, some w⟩ := rfl
@[simp] theorem entry_eq : LRegs.entry = ⟨true, none, none, none, none⟩ := by simp only [LRegs.entry]
@[simp] theorem clobber_mk : LRegs.clobber ⟨a, b, c, d, e⟩ = ⟨false, none, none, d, e⟩ := rfl

end Literals

section Offsets

variable (v : Byte)

@[simp] theorem get_A : Off.A.get r = r.A := by simp only [Off.get]
@[simp] theorem get_X : Off.X.get r = r.X := by simp only [Off.get]
@[simp] theorem get_Y : Off.Y.get r = r.Y := by simp only [Off.get]
@[simp] theorem get_SP : Off.SP.get r = r.SP := by simp only [Off.get]
@[simp] theorem get_P : Off.P.get r = r.P := by simp only [Off.get]
@[simp] theorem put_A : Off.A.put v r = { r with A := v } := by simp only [Off.put]
@[simp] theorem put_X : Off.X.put v r = { r with X := v } := by simp only [Off.put]
@[simp] theorem put_Y : Off.Y.put v r = { r with Y := v } := by simp only [Off.put]
@[simp] theorem put_SP : Off.SP.put v r = { r with SP := v } := by simp only [Off.put]
@[simp] theorem put_P : Off.P.put v r = { r with P := v } := by simp only [Off.put]

end Offsets

end Primitives

/-- Z and N from a byte, as both the interpreter and native code leave them. -/
def znFlags (v P : Byte) : Byte := setFlag pNegative (v &&& pNegative != 0) (setFlag pZero (v == 0) P)

theorem adjustZN_run (v : Byte) (r : Regs) : (adjustZN v).run r = .done ((), { r with P := znFlags v r.P }) := rfl

section Flags

variable {m n : Byte}

theorem getElem_of_disjoint (h : m &&& n = 0) {i : Nat} (hi : i < 8) (hm : m[i] = true) : n[i] = false := by
  have hb : (m &&& n)[i] = false := by
    rw [h]
    simp
  simpa [hm] using hb

/-- Clearing a flag and setting it on a condition, as native code does it. -/
theorem orFlag_clear (m : Byte) (c : Bool) (P : Byte) : orFlag m c (P &&& ~~~m) = setFlag m c P := by
  cases c with
  | false => rfl
  | true =>
    ext i hi
    by_cases hm : m[i] = true <;> simp [orFlag, setFlag, hm]

/-- The same with several flags cleared at once. -/
theorem orFlag_clear_or (h : m &&& n = 0) (c : Bool) (P : Byte) :
    orFlag m c (P &&& ~~~(m ||| n)) = setFlag m c P &&& ~~~n := by
  ext i hi
  have hb := getElem_of_disjoint h hi
  cases c <;> by_cases hm : m[i] = true <;> simp [orFlag, setFlag, hm, hb]

theorem setFlag_comm (h : m &&& n = 0) (c d : Bool) (P : Byte) :
    setFlag m c (setFlag n d P) = setFlag n d (setFlag m c P) := by
  ext i hi
  have hb := getElem_of_disjoint h hi
  cases c <;> cases d <;> by_cases hm : m[i] = true <;> simp [setFlag, hm, hb]

theorem setFlag_and (h : m &&& n = 0) (c : Bool) (P : Byte) : setFlag m c P &&& n = P &&& n := by
  ext i hi
  have hb := getElem_of_disjoint h hi
  cases c <;> by_cases hm : m[i] = true <;> simp [setFlag, hm, hb]

theorem orFlag_zn (P : Byte) (z n : Bool) :
    orFlag pNegative n (orFlag pZero z (P &&& ~~~(pZero ||| pNegative))) = setFlag pNegative n
    (setFlag pZero z P) := by
  rw [orFlag_clear_or (by decide), orFlag_clear]

end Flags

section Blocks

variable (c d e : Option Word) (r : Regs)

@[simp] theorem jitEmitAdvancePc_run (size : Nat) (b : Option Word) :
    ((jitEmitAdvancePc size).run ⟨true, b, c, d, e⟩).run r =
      .done (((), ⟨true, some (r.PC.setWidth 64 + BitVec.ofNat 64 size), c, d, e⟩),
        { r with PC := r.PC + BitVec.ofNat 16 size }) := by
  simp [jitEmitAdvancePc, trunc_add]

@[simp] theorem jitEmitUpdateZn_run {w : Word} (hw : (w.setWidth 8).setWidth 64 = w) :
    (jitEmitUpdateZn.run ⟨true, some w, c, d, e⟩).run r =
      .done (((), ⟨true, some w, some ((znFlags (w.setWidth 8) r.P).setWidth 64), d, e⟩),
        { r with P := znFlags (w.setWidth 8) r.P }) := by
  generalize w.setWidth 8 = v at hw
  subst hw
  have h : orFlag pNegative (!(v &&& 128#8 == 0#8))
      (orFlag pZero (!(v != 0#8)) (r.P &&& ~~~(pZero ||| pNegative))) = znFlags v r.P := by
    rw [orFlag_zn, znFlags]
    simp [bne, pNegative]
  simp [jitEmitUpdateZn, zext_and_notImm, bnei0_zext, bmci_80, h]

@[simp] theorem jitEmitBusRead_run (w : Word) :
    (jitEmitBusRead.run ⟨true, some w, c, d, e⟩).run r =
      .op (.base (.read (w.setWidth 16))) r fun v : Byte =>
        .done (((), ⟨true, some (v.setWidth 64), none, d, e⟩), r) := by
  have h : ∀ v : Byte, v.setWidth 64 &&& (0xFF : Word) = v.setWidth 64 := fun v =>
    (mask_byte (v.setWidth 64)).trans (by simp)
  refine congrArg (Tree.op _ r) (funext fun v : Byte => ?_)
  exact congrArg (fun x => Tree.done (((), (⟨true, some x, none, d, e⟩ : LRegs)), r)) (h v)

@[simp] theorem jitEmitBusWrite_run (w u : Word) :
    (jitEmitBusWrite.run ⟨true, some w, some u, d, e⟩).run r =
      .op (.base (.write (w.setWidth 16) (u.setWidth 8))) r fun _ => .done (((), ⟨true, none, none, d, e⟩), r) :=
  rfl

@[simp] theorem jitEmitBailIfJitDisabled_run (b : Option Word) :
    (jitEmitBailIfJitDisabled.run ⟨true, b, c, d, e⟩).run r =
      .op .useJit r fun u : Bool =>
        .done ((if u then .fall else .ret, ⟨true, some (if u then 1 else 0), c, d, e⟩), r) :=
  congrArg (Tree.op _ r) (funext fun u : Bool => by cases u <;> rfl)

end Blocks

section Requests

variable {α β : Type} {Q : α → β → Prop} {a a' : Addr} {v v' : Byte} {n : Regs}

theorem same_read {k : Byte → Tree NOp NOp.Ret Regs α} {l : Byte → Tree NOp NOp.Ret Regs β} (ha : a = a')
    (h : ∀ x, Same Q (k x) (l x)) : Same (R := NOp.Ret) Q (.op (NOp.base (.read a)) n k)
    (.op (NOp.base (.read a')) n l) := by
  subst ha
  exact .op h

theorem same_write {k : Unit → Tree NOp NOp.Ret Regs α} {l : Unit → Tree NOp NOp.Ret Regs β} (ha : a = a')
    (hv : v = v') (h : Same Q (k ()) (l ())) :
    Same (R := NOp.Ret) Q (.op (NOp.base (.write a v)) n k) (.op (NOp.base (.write a' v')) n l) := by
  subst ha hv
  exact .op fun _ => h

end Requests

/-- Native code from the registers `l` makes the requests of `y`, ends with the same guest
registers, and its result and native registers are related to the result of `y` by `Q`. -/
def Follows {α β : Type} (x : Native α) (l : LRegs) (y : Cpu β) (r : Regs)
    (Q : α → LRegs → β → Regs → Prop) : Prop :=
  Same (fun p q => p.2 = q.2 ∧ Q p.1.1 p.1.2 q.1 q.2) ((x.run l).run r) ((NCpu.ofCpu y).run r)

theorem ofCpu_run {α : Type} (x : Cpu α) (r : Regs) :
    (NCpu.ofCpu x).run r = (x.run r).lift NOp.base fun _ v => v := rfl

theorem Follows.bind {α β γ δ : Type} {x : Native α} {f : α → Native γ} {y : Cpu β} {g : β → Cpu δ} {l : LRegs}
    {r : Regs} {Q : α → LRegs → β → Regs → Prop} {Q' : γ → LRegs → δ → Regs → Prop} (h : Follows x l y r Q)
    (hf : ∀ a l' b r', Q a l' b r' → Follows (f a) l' (g b) r' Q') : Follows (x >>= f) l (y >>= g) r Q' := by
  unfold Follows
  rw [StateT.run_bind, StateT.run_bind, ofCpu_run, StateT.run_bind, Tree.lift_bind]
  refine Same.bind h ?_
  rintro ⟨⟨a, l'⟩, r'⟩ ⟨b, _⟩ ⟨rfl, hq⟩
  exact hf a l' b _ hq

end Rk65c02
