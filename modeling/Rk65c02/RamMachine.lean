import Rk65c02.BlockShape
import Rk65c02.BusMemory
import Rk65c02.Footprint
import Rk65c02.Traffic

/-! The processor over RAM alone: no MMU, no device, no host. What an instruction does on the
emulator in such surroundings is what it does here. -/

namespace Rk65c02

open Resumption Cpu

theorem operands_lt_size (op : Byte) : (instructionDecode op).mode.operands < (instructionDecode op).size :=
  forall_opcode (p := fun _ id => id.mode.operands < id.size) (by decide +kernel) op

theorem Image.insnAt_congr {f g : Addr → Byte} {a : Addr}
    (h : ∀ k < (Image.insnAt f a).bytes, g (a + BitVec.ofNat 16 k) = f (a + BitVec.ofNat 16 k)) :
    Image.insnAt g a = Image.insnAt f a := by
  have hsize := operands_lt_size (f a)
  rw [Instruction.bytes, Image.insnAt_opcode] at h
  have h0 := h 0 (by omega)
  rw [BitVec.add_zero] at h0
  unfold Image.insnAt
  rw [h0]
  generalize (instructionDecode (f a)).mode.operands = n at hsize
  rcases n with _ | _ | n
  · rfl
  · exact congrArg (Instruction.mk _ · 0) (h 1 (by omega))
  · exact congrArg₂ (Instruction.mk _) (h 1 (by omega)) (h 2 (by omega))

/-- The bytes from `pc` on are the instructions. -/
def Reads (f : Addr → Byte) : Addr → List Instruction → Prop
  | _, [] => True
  | pc, i :: is => Image.insnAt f pc = i ∧ Reads f (pc + i.size) is

theorem Reads.congr {f g : Addr → Byte} {pc : Addr} {is : List Instruction} (hr : Reads f pc is)
    (h : ∀ a ∈ insnBytes pc is, g a = f a) : Reads g pc is := by
  induction is generalizing pc with
  | nil => trivial
  | cons i is ih =>
    obtain ⟨rfl, hr⟩ := hr
    refine ⟨Image.insnAt_congr fun k hk => h _ ?_, ih hr fun a ha => h a (List.mem_append_right _ ha)⟩
    exact List.mem_append_left _ (List.mem_map.mpr ⟨k, List.mem_range.mpr hk, rfl⟩)

theorem Reads.at {f : Addr → Byte} {pc : Addr} {is : List Instruction} (hr : Reads f pc is)
    {k : Nat} {i : Instruction} (hi : is[k]? = some i) : Image.insnAt f ((insnAddrs pc is).getD k 0) = i := by
  induction is generalizing pc k with
  | nil => cases hi
  | cons j is ih =>
    cases k with
    | zero =>
      cases hi
      exact hr.1
    | succ k => exact ih hr.2 hi

theorem mem_dropLast_of_lt {is : List Instruction} {k : Nat} {i : Instruction} (hi : is[k]? = some i)
    (hk : k + 1 < is.length) :
    i ∈ is.dropLast := by
  refine List.mem_of_getElem? (i := k) ?_
  rw [List.getElem?_dropLast, if_pos (by omega)]
  exact hi

theorem insnAddrs_succ (pc : Addr) {is : List Instruction} {k : Nat} {i : Instruction} (hi : is[k]? = some i)
    (hk : k + 1 < is.length) : (insnAddrs pc is).getD (k + 1) 0 = (insnAddrs pc is).getD k 0 + i.size := by
  induction is generalizing pc k with
  | nil => cases hi
  | cons x is ih =>
    cases k with
    | zero =>
      cases hi
      cases is with
      | nil => exact absurd hk (Nat.lt_irrefl 1)
      | cons y is => rfl
    | succ k => exact ih _ hi (Nat.lt_of_succ_lt_succ hk)

def Op.isWrite : Op → Bool
  | .write _ _ => true
  | _ => false

section Storing

variable {α β : Type} {id : InstrDef} {i : Instruction}

/-- Code that stores nothing. -/
def StoresNothing (x : Cpu α) : Prop := Keeps (fun _ => True) (fun o _ => o.isWrite = false) x

theorem storesNothing_done {x : Cpu α} (h : ∀ r, ∃ v, x.run r = .done v) : StoresNothing x := by
  intro r _
  obtain ⟨v, hv⟩ := h r
  rw [hv]
  trivial

theorem storesNothing_read (hm : id.mode.reads = true) {k : Byte → Cpu α}
    (hk : ∀ v r, ∃ w, (k v).run r = .done w) :
    StoresNothing (instructionDataRead1 id i >>= k) :=
  keeps_bind (keeps_dataRead1 (fun _ _ _ => rfl) i hm) fun v => storesNothing_done (hk v)

theorem storesNothing_pop {k : Byte → Cpu α} (hk : ∀ v, StoresNothing (k v)) : StoresNothing (stackPop >>= k) :=
  keeps_bind (keeps_stackPop fun _ _ _ => rfl) hk

theorem storesNothing_bit (hm : id.mode.reads = true) : StoresNothing (emulBit id i) := by
  refine keeps_bind (keeps_dataRead1 (fun _ _ _ => rfl) i hm) fun v =>
    keeps_bind (keeps_modify fun _ _ => trivial) fun _ => ?_
  exact keeps_ite (storesNothing_read hm fun _ _ => ⟨_, rfl⟩) (keeps_pure _)

theorem storesNothing_jmp (hm : Emul.jmp.fits id.mode = true) : StoresNothing (emulJmp id i) := by
  have hread : ∀ a, StoresNothing (memRead1 a) := keeps_memRead1 fun _ _ _ => rfl
  unfold emulJmp
  generalize id.mode = mode at hm
  cases mode with
  | absolute => exact storesNothing_done fun _ => ⟨_, rfl⟩
  | iabsolute =>
    exact keeps_bind (hread _) fun _ => keeps_bind (hread _) fun _ => storesNothing_done fun _ => ⟨_, rfl⟩
  | iabsolutex =>
    exact keeps_bind keeps_get fun _ => keeps_bind (hread _) fun _ => keeps_bind (hread _) fun _ =>
      storesNothing_done fun _ => ⟨_, rfl⟩
  | _ => cases hm

/-- Only the stores, the pushes and interrupt entry store. -/
theorem Emul.storesNothing (m : Emul) (h : m.fits id.mode = true) (hs : m.stores = false) (hp : m.pushes = 0) :
    StoresNothing (m.exec id i) := by
  cases m with
  | adc => exact storesNothing_read h fun v r => (within_adcWith v r).elim fun _ h => ⟨_, h.1⟩
  | sbc => exact storesNothing_read h fun v r => (within_sbcWith v r).elim fun _ h => ⟨_, h.1⟩
  | and | eor | ora | cmp | cpx | cpy | lda | ldx | ldy => exact storesNothing_read h fun _ _ => ⟨_, rfl⟩
  | bbr n | bbs n => exact storesNothing_read h fun v r => (bitBranch_done _ r).elim fun _ h => ⟨_, h.1⟩
  | bit => exact storesNothing_bit h
  | bcc | bcs | beq | bmi | bne | bpl | bvc | bvs =>
    exact storesNothing_done fun r => (branchIf_done id i _ _ r).elim fun _ h => ⟨_, h.1⟩
  | bra | clc | cld | cli | clv | sec | sed | sei | invalid | nop => exact storesNothing_done fun _ => ⟨_, rfl⟩
  | dex | dey | inx | iny | tax | tay | tsx | txa | txs | tya => exact storesNothing_done fun _ => ⟨_, rfl⟩
  | jmp => exact storesNothing_jmp h
  | pla | plx | ply | plp => exact storesNothing_pop fun _ => storesNothing_done fun _ => ⟨_, rfl⟩
  | rti =>
    exact storesNothing_pop fun _ => keeps_bind (keeps_modifyP fun _ _ => trivial) fun _ =>
      storesNothing_pop fun _ =>
      storesNothing_pop fun _ => storesNothing_done fun _ => ⟨_, rfl⟩
  | rts => exact storesNothing_pop fun _ => storesNothing_pop fun _ => storesNothing_done fun _ => ⟨_, rfl⟩
  | stp | wai => exact keeps_request fun _ _ => rfl
  | sta | stx | sty | stz | asl | dec | inc | lsr | rmb _ | rol | ror | smb _ | trb | tsb => cases hs
  | pha | php | phx | phy | jsr | brk => cases hp

/-- On the accumulator no instruction stores. -/
theorem Emul.storesNothing_accumulator {m : Emul} (hm : m ∈ [Emul.asl, .lsr, .rol, .ror, .inc, .dec])
    (ha : id.mode = .accumulator) : StoresNothing (m.exec id i) := by
  have hr : instructionDataRead1 id i = do return (← get).A := if_pos ha
  have hw : ∀ v, instructionDataWrite1 id i v = modify fun r => { r with A := v } := fun v => if_pos ha
  refine storesNothing_done fun r => ?_
  simp only [List.mem_cons, List.not_mem_nil, or_false] at hm
  rcases hm with rfl | rfl | rfl | rfl | rfl | rfl <;>
    simp only [Emul.exec, emulAsl, emulLsr, emulRol, emulRor, emulInc, emulDec, modifyMem, hr, hw] <;>
      exact ⟨_, rfl⟩

/-- Native code that does not look at `use_jit` afterwards stores nothing. -/
theorem emitCase_storesNothing {c : EmitCase} (hc : emitCase i.opcode = some c) (hb : c.bails = false) :
    StoresNothing (withNext (instructionDecode i.opcode) (emulOnce (instructionDecode i.opcode) i)) := by
  have hall : emitCases.all (fun e => e.2.bails || e.1.all fun op =>
      (instructionDecode op).emul.stores = false ∧ (instructionDecode op).emul.pushes = 0 ∨
        (instructionDecode op).emul ∈ [Emul.asl, .lsr, .rol, .ror, .inc, .dec] ∧
          (instructionDecode op).mode = .accumulator) := by
    decide +kernel
  obtain ⟨ops, he, hop⟩ := emitCase_mem hc
  have htable := List.all_eq_true.1 hall _ he
  rw [hb, Bool.false_or] at htable
  have hfits := instructionDecode_fits i.opcode
  have hx : StoresNothing (emulOnce (instructionDecode i.opcode) i) := by
    unfold emulOnce
    by_cases hbit : (instructionDecode i.opcode).emul = .bit
    · rw [if_pos hbit]
      rw [hbit] at hfits
      refine keeps_bind (keeps_dataRead1 (fun _ _ _ => rfl) i hfits) fun v => storesNothing_done fun r => ?_
      by_cases hm : (instructionDecode i.opcode).mode = .immediate
      · simp only [hm, ne_eq, not_true_eq_false, if_false]
        exact ⟨_, rfl⟩
      · simp only [hm, ne_eq, not_false_eq_true, if_true]
        exact ⟨_, rfl⟩
    · rw [if_neg hbit]
      rcases of_decide_eq_true (List.all_eq_true.1 htable _ hop) with ⟨hs, hp⟩ | ⟨hm, ha⟩
      · exact Emul.storesNothing _ hfits hs hp
      · exact Emul.storesNothing_accumulator hm ha
  exact keeps_ite hx (keeps_bind hx fun _ => keeps_modify fun _ _ => trivial)

end Storing

namespace Bus

/-- Every mapped device is RAM and is mapped once. -/
structure RamOnce (b : Bus) : Prop where
  ram : ∀ m ∈ b.dm, (b.dev m.1).ram = true
  once : (b.dm.map Prod.fst).Nodup

/-- A store; to an address that no device holds it does nothing. -/
def poke (b : Bus) (a : Addr) (v : Byte) : Bus := (b.accessDevice a).elim b fun p => b.ramWrite1 p.1 p.2 v

variable {b : Bus} {a a' : Addr}

theorem poke_accessDevice (b : Bus) (a : Addr) (v : Byte) (a' : Addr) :
    (b.poke a v).accessDevice a' = b.accessDevice a' := by
  unfold poke
  cases b.accessDevice a <;> rfl

namespace RamOnce

theorem device (h : b.RamOnce) {d : DevId} {off : Addr} (ha : b.accessDevice a = some (d, off)) :
    (b.dev d).ram = true := by
  obtain ⟨addr, hm, -⟩ := accessDevice_some ha
  exact h.ram _ hm

/-- No two addresses share a cell. -/
theorem separate (h : b.RamOnce) {l : DevId × Addr} (ha : b.accessDevice a = some l)
    (ha' : b.accessDevice a' = some l) :
    a = a' := by
  obtain ⟨d, off⟩ := l
  obtain ⟨addr, hm, -, -, rfl⟩ := accessDevice_some ha
  obtain ⟨addr', hm', -, -, he⟩ := accessDevice_some ha'
  cases List.inj_on_of_nodup_map h.once hm hm' rfl
  bv_omega

theorem poke (h : b.RamOnce) (a : Addr) (v : Byte) : (b.poke a v).RamOnce := by
  unfold Bus.poke
  cases b.accessDevice a
  · exact h
  · exact ⟨h.ram, h.once⟩

theorem peek_poke (h : b.RamOnce) (v : Byte) (hne : a' ≠ a) : (b.poke a v).peek a' = b.peek a' := by
  unfold peek
  rw [poke_accessDevice]
  cases ha' : b.accessDevice a' with
  | none => rfl
  | some l =>
    unfold Bus.poke
    cases ha : b.accessDevice a with
    | none => rfl
    | some p => exact Emu.Shows.ramWrite1_other v fun he : l = p => hne (h.separate ha' (he ▸ ha))

end RamOnce

end Bus

/-- The machine that a program sees, its registers apart. -/
structure Machine where
  bus : Bus
  state : EmuState
  stopreason : StopReason

namespace Machine

/-- Nothing but the program acts; `line` is the interrupt line as the instruction finds it. -/
def answer (line : Bool) (m : Machine) : (o : Op) → Out Machine o.Ret
  | .fetch a => .ok (m.bus.peek a) m
  | .read a => .ok (m.bus.peek a) m
  | .write a v => .ok () { m with bus := m.bus.poke a v }
  | .irq => .ok line m
  | .ackIrq => .ok () m
  | .stop reason => .ok () { m with state := .stopped, stopreason := reason }
  | .panic => .stuck
  | .isBreakpoint _ => .ok false m
  | .disassemble _ => .ok () m
  | .reexec => .ok false m
  | .trace _ _ _ => .ok () m

def handle (line : Bool) : CpuHandler Machine := fun o _ m => m.answer line o

/-- One `rk65c02_exec`, with the registers. -/
def step (line : Bool) (s : Regs × Machine) : Regs × Machine :=
  match (exec.run s.1).run (handle line) s.2 with
  | .ok v m => (v.2, m)
  | _ => s

/-- One `rk65c02_exec`, if the machine runs. -/
def advance (line : Bool) (s : Regs × Machine) : Regs × Machine := if s.2.state = .running then step line s else s

variable {line : Bool} {m : Machine} {r : Regs}

theorem exec_run (line : Bool) (r : Regs) (m : Machine) :
    (exec.run r).run (handle line) m = .ok ((), (step line (r, m)).1) (step line (r, m)).2 := by
  have hh : ((exec.run r).run (handle line) m).Leads (fun _ => True) fun _ => False := by
    refine (exec_keeps r trivial).run_leads (fun o _ s ho _ => ?_) trivial
    cases o with
    | panic => exact absurd rfl ho
    | _ => trivial
  obtain ⟨v, m', hr, -⟩ := hh.answers
  rw [step, hr]

theorem fetchEmu_run (line : Bool) (a : Addr) (r : Regs) :
    ((instructionFetchEmu a).run r).run (handle line) m = .ok (Image.insnAt m.bus.peek a, r) m := by
  unfold instructionFetchEmu Image.insnAt
  simp only [StateT.run_bind, memFetch1_run, Tree.op_bind, Tree.done_bind, Tree.run_op,
    handle, answer, Out.ok_bind]
  generalize (instructionDecode (m.bus.peek a)).mode.operands = n
  rcases n with _ | _ | n <;> rfl

/-- Without an interrupt, `rk65c02_exec` is the instruction at `PC`. -/
theorem exec_insn (h : (line && !r.flag pIrqDisable) = false) : (exec.run r).run (handle line) m =
    ((execInsn r.PC (Image.insnAt m.bus.peek r.PC)).run r).run (handle line) m := by
  rw [exec_eq, StateT.run_bind, StateT.run_get, Tree.pure_eq, Tree.done_bind, StateT.run_bind,
    Tree.run_bind, execFetch_run,
    Tree.run_op]
  change ((if (line && !r.flag pIrqDisable) = true then _ else fetchHere.run r).run (handle line) m).bind _ = _
  rw [h, if_neg Bool.false_ne_true]
  have hf : (fetchHere.run r).run (handle line) m = .ok (some (Image.insnAt m.bus.peek r.PC), r) m := by
    change (((instructionFetchEmu r.PC).run r >>= fun v => .done (some v.1, v.2)).run (handle line) m) = _
    rw [Tree.run_bind, fetchEmu_run]
    rfl
  rw [hf]
  rfl

/-- On the machine an instruction ends with the step to the next. -/
theorem execInsn_run (tpc : Addr) (i : Instruction) (r : Regs) : ((execInsn tpc i).run r).run (handle line) m =
    ((withNext (instructionDecode i.opcode)
      ((instructionDecode i.opcode).emul.exec (instructionDecode i.opcode) i)).run r).run
      (handle line) m := by
  unfold execInsn withNext thenNext
  by_cases hm : (instructionDecode i.opcode).modifyPc = true
  · rw [if_pos hm, StateT.run_bind, Tree.run_bind]
    simp only [hm, if_true]
    cases (((instructionDecode i.opcode).emul.exec (instructionDecode i.opcode) i).run r).run
      (handle line) m <;> rfl
  · rw [if_neg hm, StateT.run_bind, Tree.run_bind, StateT.run_bind, Tree.run_bind]
    simp only [hm]
    cases (((instructionDecode i.opcode).emul.exec (instructionDecode i.opcode) i).run r).run
      (handle line) m <;> rfl

/-- A second read of the operand, as `BIT` makes it, sees the same byte. -/
theorem emulOnce_run (i : Instruction) (r : Regs) : ((emulOnce (instructionDecode i.opcode) i).run r).run
    (handle line) m =
    (((instructionDecode i.opcode).emul.exec (instructionDecode i.opcode) i).run r).run (handle line) m := by
  unfold emulOnce
  by_cases hb : (instructionDecode i.opcode).emul = .bit
  · rw [if_pos hb, hb]
    change ((bitOnce _ i).run r).run _ m = ((emulBit _ i).run r).run _ m
    unfold bitOnce emulBit
    by_cases hm : (instructionDecode i.opcode).mode = .immediate
    · simp [hm]
    · have hd := (bit_direct i.opcode hb hm).1
      simp [hm, hd, directAddr_flags, handle, answer]
  · rw [if_neg hb]

theorem withNext_congr {x y : Cpu Unit} (id : InstrDef)
    (h : (x.run r).run (handle line) m = (y.run r).run (handle line) m) :
    ((withNext id x).run r).run (handle line) m = ((withNext id y).run r).run (handle line) m := by
  unfold withNext thenNext
  split
  · exact h
  · rw [StateT.run_bind, Tree.run_bind, StateT.run_bind, Tree.run_bind, h]

/-- The instruction at `PC`, as native code runs it, is a step of the machine. -/
theorem insn_run (h : (line && !r.flag pIrqDisable) = false) {i : Instruction}
    (hi : Image.insnAt m.bus.peek r.PC = i) :
    ((withNext (instructionDecode i.opcode) (emulOnce (instructionDecode i.opcode) i)).run r).run
    (handle line) m =
      .ok ((), (step line (r, m)).1) (step line (r, m)).2 := by
  rw [withNext_congr _ (emulOnce_run i r), ← execInsn_run r.PC, ← exec_run, exec_insn h, hi]

variable {i : Instruction}

/-- Inside a block an instruction that does not branch goes on with the next. -/
theorem step_pc (h : (line && !r.flag pIrqDisable) = false) (hi : Image.insnAt m.bus.peek r.PC = i)
    (he : jitEndsBlock i = false) (hb : jitOpcodeIsCondBranch i.opcode = false) :
    (step line (r, m)).1.PC = r.PC + i.size := by
  obtain ⟨hd, hm, -⟩ := endsBlock_table he hb
  have hr := exec_run line r m
  rw [exec_insn h, hi, execInsn_run, withNext, if_neg (by rw [hm]; exact Bool.false_ne_true)] at hr
  refine Tree.Sat.run_ok (q := fun v => v.2.PC = r.PC + i.size) (p := fun _ _ => True) ?_ hr
  unfold thenNext
  rw [StateT.run_bind]
  refine (Emul.leavesPc hd (instructionDecode i.opcode) i r).bind fun v hv => ?_
  rw [programCounterIncrement_run]
  exact congrArg (· + i.size) hv

/-- A conditional branch changes `PC` only, and goes where its native code goes. -/
theorem step_branch (h : (line && !r.flag pIrqDisable) = false) (hi : Image.insnAt m.bus.peek r.PC = i)
    (hc : emitCase i.opcode = some .condBranch) {ctx : EmitCtx} {k : Nat} (hpc : r.PC = ctx.insnAddr.getD k 0) :
    (step line (r, m)).1.PC = if branchTaken i.opcode (r.P.setWidth 64)
      then branchTarget ctx k i (instructionDecode i.opcode).size else r.PC + i.size := by
  obtain ⟨he, -, hj, hs⟩ := emitCase_fits hc
  simp only [EmitCase.emulates, decide_eq_true_eq] at he
  obtain ⟨b, hmem, hop, hem⟩ := he
  have hr := insn_run h hi
  rw [withNext, if_pos (show (instructionDecode i.opcode).modifyPc = true from hj), emulOnce, ← hem,
    if_neg (branch_exec hmem (instructionDecode i.opcode) i).2,
      (branch_exec hmem (instructionDecode i.opcode) i).1] at hr
  have hd : ((branchIf b.flag b.value (instructionDecode i.opcode) i).run r).run (handle line) m =
      .ok ((), { r with PC := if r.flag b.flag = b.value then r.PC + (i.op1.signExtend 16 + 2)
        else r.PC + i.size }) m := by
    by_cases hf : r.flag b.flag = b.value
    · simp [branchIf, programCounterBranch, hf]
    · simp [branchIf, hf, Instruction.size]
  have hs₁ := congrArg Prod.snd (Out.ok.inj (hr.symm.trans hd)).1
  dsimp only at hs₁
  have ht : branchTaken i.opcode (r.P.setWidth 64) = decide (r.flag b.flag = b.value) :=
    hop ▸ branchTaken_flag b hmem r.P
  rw [hs₁, ht, branchTarget, hs 2 rfl, ← hpc]
  simp only [decide_eq_true_eq]
  split
  · rw [BitVec.add_assoc, BitVec.add_comm (BitVec.signExtend 16 i.op1)]
    rfl
  · rfl

end Machine

end Rk65c02
