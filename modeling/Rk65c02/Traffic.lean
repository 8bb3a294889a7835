import Rk65c02.NativeRequests

/-! Device traffic: the data accesses of native code and of the interpreter for one
instruction, against a device whose reads may answer anything. -/

namespace Rk65c02

open Resumption Cpu

inductive DataAccess
  | read (a : Addr) (v : Byte)
  | write (a : Addr) (v : Byte)
  deriving DecidableEq

/-- A stateful device: what a read returns depends on all accesses made before it. -/
abbrev Dev := List DataAccess → Addr → Byte

/-- The device answers the data accesses of an instruction and keeps their log. -/
def serve (dev : Dev) : CpuHandler (List DataAccess) := fun o _ log =>
  match o with
  | .read a => .ok (dev log a) (log ++ [.read a (dev log a)])
  | .write a v => .ok () (log ++ [.write a v])
  | .fetch _ => .ok 0 log
  | .irq | .isBreakpoint _ | .reexec => .ok false log
  | .ackIrq | .stop _ | .panic | .disassemble _ | .trace _ _ _ => .ok () log

/-- The fields of the emulator that native code reads; they may hold anything. -/
structure JitFields where
  emuState : EmuState
  useJit : Bool
  stopRequested : Bool
  irqLine : Bool
  loopBudget : BitVec 32

def serveNative (dev : Dev) (fields : JitFields) : Handler NOp NOp.Ret Regs (List DataAccess) := fun o r log =>
  match o with
  | .base o => serve dev o r log
  | .emuState => .ok fields.emuState log
  | .useJit => .ok fields.useJit log
  | .stopRequested => .ok fields.stopRequested log
  | .irqLine => .ok fields.irqLine log
  | .loopBudget => .ok fields.loopBudget log
  | .setLoopBudget _ | .countInsns _ => .ok () log

/-- Log and registers after an instruction, in native code and in the interpreter. -/
def nativeTraffic (ctx : EmitCtx) (k : Nat) (i : Instruction) (r : Regs) (dev : Dev) (fields : JitFields) :
    Out (List DataAccess) Regs :=
  (((nativeInsn ctx k i).run r).run (serveNative dev fields) []).bind fun p log => .ok p.2 log

def emulTraffic (i : Instruction) (r : Regs) (dev : Dev) : Out (List DataAccess) Regs :=
  let id := instructionDecode i.opcode
  (((withNext id (id.emul.exec id i)).run r).run (serve dev) []).bind fun p log => .ok p.2 log

section Traffic

variable {ctx : EmitCtx} {k : Nat} {i : Instruction} {c : EmitCase} {r : Regs} {dev : Dev} {fields : JitFields}

theorem serveNative_ok (dev : Dev) (fields : JitFields) (o : NOp) (n : Regs) (log : List DataAccess) :
    ∃ v log', serveNative dev fields o n log = .ok v log' := by
  cases o with
  | base o => cases o <;> exact ⟨_, _, rfl⟩
  | _ => exact ⟨_, _, rfl⟩

theorem ofCpu_serve {α : Type} (x : Cpu α) (r : Regs) (log : List DataAccess) :
    ((NCpu.ofCpu x).run r).run (serveNative dev fields) log = (x.run r).run (serve dev) log := by
  refine Tree.run_lift (fun o n s => ?_) (x.run r) log
  cases o <;> rfl

/-- Code after the accesses of an instruction that only decides where control goes. -/
def Quiet (x : NCpu Next) : Prop :=
  ∀ dev fields r log, ∃ next, (x.run r).run (serveNative dev fields) log = .ok (next, r) log

theorem quiet_pure (next : Next) : Quiet (pure next) := fun _ _ _ _ => ⟨next, rfl⟩

theorem quiet_bailOut : Quiet bailOut := fun _ _ _ _ => ⟨_, rfl⟩

theorem backedgeGuard_serve (dev : Dev) (fields : JitFields) (span : Nat) (r : Regs) (log : List DataAccess) :
    ∃ g, ((backedgeGuard span).run r).run (serveNative dev fields) log = .ok (g, r) log := by
  unfold backedgeGuard
  change ∃ g, Tree.run _ (StateT.run (if BitVec.sle (BitVec.signExtend 64 fields.loopBudget - 1) 0 then
    pure true else _) r) log = _
  split
  · exact ⟨true, rfl⟩
  · change ∃ g, Tree.run _ (StateT.run (if fields.stopRequested then pure true else _) r) log = _
    split
    · exact ⟨true, rfl⟩
    · change ∃ g, Tree.run _ (StateT.run (if fields.irqLine then pure true else _) r) log = _
      split
      · exact ⟨true, rfl⟩
      · exact ⟨false, rfl⟩

theorem quiet_branchControl (ctx : EmitCtx) (k : Nat) (target : Addr) (taken : Bool) :
    Quiet (branchControl ctx k target taken) := by
  intro dev fields r log
  cases taken with
  | false => exact ⟨.fall, rfl⟩
  | true =>
    unfold branchControl
    rw [if_pos rfl]
    split
    · exact ⟨.ret, rfl⟩
    · rename_i t _
      by_cases hk : t ≤ k
      · obtain ⟨g, hg⟩ := backedgeGuard_serve dev fields (k - t + 1) r log
        simp only [if_pos hk, StateT.run_bind, Tree.run_bind, hg, Out.ok_bind]
        cases g
        · exact ⟨_, rfl⟩
        · exact ⟨_, rfl⟩
      · rw [if_neg hk]
        exact ⟨_, rfl⟩

theorem nativeProgram_serve : (((nativeProgram ctx k i c).run r).run (serveNative dev fields) []).bind
      (fun p log => .ok p.2 log) =
    (((withNext (instructionDecode i.opcode) (emulOnce (instructionDecode i.opcode) i)).run r).run
      (serve dev) []).bind
      fun p log => .ok p.2 log := by
  have hq : Quiet (if c = .condBranch then branchControl ctx k
    (branchTarget ctx k i (instructionDecode i.opcode).size)
      (branchTaken i.opcode (r.P.setWidth 64)) else if c.bails then bailOut else pure .fall) := by
    split
    · exact quiet_branchControl _ _ _ _
    · split
      · exact quiet_bailOut
      · exact quiet_pure _
  have hrun : (nativeProgram ctx k i c).run r =
      (NCpu.ofCpu (withNext (instructionDecode i.opcode) (emulOnce (instructionDecode i.opcode) i)) >>= fun _ =>
        if c = .condBranch then branchControl ctx k (branchTarget ctx k i (instructionDecode i.opcode).size)
          (branchTaken i.opcode (r.P.setWidth 64)) else if c.bails then bailOut else pure .fall).run r := rfl
  rw [hrun, StateT.run_bind, Tree.run_bind, ofCpu_serve]
  generalize ((withNext (instructionDecode i.opcode) (emulOnce (instructionDecode i.opcode) i)).run r).run
    (serve dev) [] = o
  cases o with
  | ok p log =>
    obtain ⟨next, hn⟩ := hq dev fields p.2 log
    simp only [Out.ok_bind, hn]
  | exit log => rfl
  | stuck => rfl

theorem nativeTraffic_eq (hc : emitCase i.opcode = some c) (hpc : r.PC = ctx.insnAddr.getD k 0) :
    nativeTraffic ctx k i r dev fields =
      (((withNext (instructionDecode i.opcode) (emulOnce (instructionDecode i.opcode) i)).run r).run
        (serve dev) []).bind
        fun p log => .ok p.2 log := by
  rw [nativeTraffic, nativeInsn_eq hc hpc, nativeProgram_serve]

theorem nativeTraffic_ok (hc : emitCase i.opcode = some c) (dev : Dev) (fields : JitFields) :
    ∃ r' log, nativeTraffic ctx k i r dev fields = .ok r' log := by
  have hsat := nativeInsn_sat (G := fun _ => True) (r := r) trivial hc ctx k
  obtain ⟨p, log, h⟩ := hsat.run_answers (s := []) (serveNative_ok dev fields)
  exact ⟨p.2, log, by rw [nativeTraffic, h]; rfl⟩

theorem emulOnce_eq {id : InstrDef} (h : ¬(id.emul = .bit ∧ id.mode ≠ .immediate)) :
    emulOnce id i = id.emul.exec id i := by
  unfold emulOnce
  by_cases hb : id.emul = .bit
  · have hm : id.mode = .immediate := Decidable.not_not.1 fun hm => h ⟨hb, hm⟩
    rw [if_pos hb, hb]
    simp [Emul.exec, bitOnce, emulBit, hm]
  · rw [if_neg hb]

theorem bit_direct : ∀ op : Byte, (instructionDecode op).emul = .bit → (instructionDecode op).mode ≠ .immediate →
    (instructionDecode op).mode.direct = true ∧ (instructionDecode op).modifyPc = false :=
  forall_opcode (p := fun _ id => id.emul = .bit → id.mode ≠ .immediate → id.mode.direct = true ∧
    id.modifyPc = false)
    (by decide +kernel)

theorem bitOnce_log (dev : Dev) {id : InstrDef} (hd : id.mode.direct = true) (hj : id.modifyPc = false) :
    ∃ p v, ((withNext id (bitOnce id i)).run r).run (serve dev) [] = .ok p [v] := by
  simp [withNext, hj, thenNext, bitOnce, hd, (direct_ne hd).2, serve]

theorem emulBit_log (dev : Dev) {id : InstrDef} (hd : id.mode.direct = true) (hj : id.modifyPc = false) :
    ∃ p v w, ((withNext id (emulBit id i)).run r).run (serve dev) [] = .ok p [v, w] := by
  simp [withNext, hj, thenNext, emulBit, hd, (direct_ne hd).2, serve]

end Traffic

/-- Native code and the interpreter make the same accesses, with the same values in the same
order, and end with the same registers, exactly for the instructions other than `BIT` with
a memory operand. -/
theorem device_traffic_iff {i : Instruction} {c : EmitCase} (hc : emitCase i.opcode = some c)
    (ctx : EmitCtx) (k : Nat) (r : Regs) (hpc : r.PC = ctx.insnAddr.getD k 0) (dev : Dev) (fields : JitFields) :
    (∃ r' log, nativeTraffic ctx k i r dev fields = .ok r' log ∧ emulTraffic i r dev = .ok r' log) ↔
      ¬((instructionDecode i.opcode).emul = .bit ∧ (instructionDecode i.opcode).mode ≠ .immediate) := by
  constructor
  · rintro ⟨r', log, hn, he⟩ ⟨hb, hm⟩
    obtain ⟨hd, hj⟩ := bit_direct i.opcode hb hm
    obtain ⟨p, v, hp⟩ := bitOnce_log (i := i) (r := r) dev hd hj
    obtain ⟨q, u, w, hq⟩ := emulBit_log (i := i) (r := r) dev hd hj
    rw [nativeTraffic_eq hc hpc, emulOnce, if_pos hb, hp] at hn
    simp only [emulTraffic, hb, Emul.exec, hq] at he
    cases hn
    simp at he
  · intro h
    obtain ⟨r', log, hn⟩ := nativeTraffic_ok (r := r) (k := k) hc dev fields
    refine ⟨r', log, hn, ?_⟩
    rw [nativeTraffic_eq hc hpc, emulOnce_eq h] at hn
    exact hn

/-- Registers at the address of the one instruction of a block. -/
def trafficRegs : Regs := ⟨0xFF, 0, 0, 0x0200, 0xFF, 0x20⟩

def trafficFields : JitFields := ⟨.running, true, false, false, 256⟩

/-- A device that reads as zero once and then as `0xC0`. -/
def clearOnce : Dev := fun log _ => if log = [] then 0x00 else 0xC0

theorem device_traffic_lda :
    ∃ r' log, nativeTraffic ⟨[0x0200]⟩ 0 ⟨0xA5, 0x10, 0⟩ trafficRegs clearOnce trafficFields = .ok r' log ∧
      emulTraffic ⟨0xA5, 0x10, 0⟩ trafficRegs clearOnce = .ok r' log :=
  (device_traffic_iff (c := .load .A) (by decide +kernel) ⟨[0x0200]⟩ 0 trafficRegs (by decide +kernel) clearOnce
    trafficFields).2 (by decide +kernel)

/-- `BIT` reads its operand twice in the interpreter and once in native code. -/
theorem bit_traffic_differs :
    nativeTraffic ⟨[0x0200]⟩ 0 ⟨0x24, 0x10, 0⟩ trafficRegs clearOnce trafficFields =
        .ok ⟨0xFF, 0, 0, 0x0202, 0xFF, 0x22⟩ [.read 0x10 0x00] ∧
      emulTraffic ⟨0x24, 0x10, 0⟩ trafficRegs clearOnce =
        .ok ⟨0xFF, 0, 0, 0x0202, 0xFF, 0xE2⟩ [.read 0x10 0x00, .read 0x10 0xC0] := by
  decide +kernel

end Rk65c02
