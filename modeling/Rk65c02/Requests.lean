import Rk65c02.Emulation

/-! What the code of an instruction can ask of the emulator, and what it does to the status
register, whatever it is answered. -/

namespace Rk65c02

open Resumption Cpu

/-- The unused bit reads as one, and the break bit exists on the stack only. -/
def StatusOk (P : Byte) : Prop := P &&& (pUndefined ||| pBreak) = pUndefined

instance (P : Byte) : Decidable (StatusOk P) := inferInstanceAs (Decidable (_ = _))

theorem StatusOk.or {P m : Byte} (h : StatusOk P) (hm : m &&& (pUndefined ||| pBreak) = 0) :
    StatusOk (P ||| m) := by
  rw [StatusOk, BitVec.and_or_distrib_right, h, hm]
  rfl

theorem StatusOk.andNot {P m : Byte} (h : StatusOk P) (hm : m &&& (pUndefined ||| pBreak) = 0) :
    StatusOk (P &&& ~~~m) := by
  have hd : P &&& ~~~m &&& (pUndefined ||| pBreak) =
      P &&& (pUndefined ||| pBreak) &&& ~~~(m &&& (pUndefined ||| pBreak)) := by
    ext k hk
    simp
    cases P[k] <;> cases m[k] <;> cases pUndefined[k] <;> cases pBreak[k] <;> rfl
  rw [StatusOk, hd, h, hm]
  rfl

theorem StatusOk.clearBreak {P : Byte} (h : StatusOk P) : StatusOk (P &&& ~~~pBreak) := by
  rw [StatusOk, BitVec.and_assoc, BitVec.and_comm (~~~pBreak), ← BitVec.and_assoc, h]
  rfl

theorem StatusOk.raised {P : Byte} (h : StatusOk P) : StatusOk ((P ||| pBreak) &&& ~~~pBreak) := by
  have hd : (P ||| pBreak) &&& ~~~pBreak = P &&& ~~~pBreak := by
    ext k hk
    cases hb : pBreak[k] <;> simp [hb]
  rw [hd]
  exact h.clearBreak

theorem StatusOk.pulled (v : Byte) : StatusOk ((v ||| pUndefined) &&& ~~~pBreak) := by
  have hm : ~~~pBreak &&& (pUndefined ||| pBreak) = pUndefined := rfl
  rw [StatusOk, BitVec.and_assoc, hm]
  ext k hk
  cases hu : pUndefined[k] <;> simp [hu]

/-- A property of the status register that every instruction respects. -/
class Respected (G : Byte → Prop) : Prop where
  or : ∀ {P m}, G P → m &&& (pUndefined ||| pBreak) = 0 → G (P ||| m)
  andNot : ∀ {P m}, G P → m &&& (pUndefined ||| pBreak) = 0 → G (P &&& ~~~m)
  pulled : ∀ v, G ((v ||| pUndefined) &&& ~~~pBreak)
  clearBreak : ∀ {P}, G P → G (P &&& ~~~pBreak)
  raised : ∀ {P}, G P → G ((P ||| pBreak) &&& ~~~pBreak)

instance : Respected StatusOk where
  or := StatusOk.or
  andNot := StatusOk.andNot
  pulled := StatusOk.pulled
  clearBreak := StatusOk.clearBreak
  raised := StatusOk.raised

instance : Respected fun _ => True where
  or _ _ := trivial
  andNot _ _ := trivial
  pulled _ := trivial
  clearBreak _ := trivial
  raised _ := trivial

theorem Respected.setFlag {G : Byte → Prop} [Respected G] {P m : Byte} (h : G P)
    (hm : m &&& (pUndefined ||| pBreak) = 0) (c : Bool) :
    G (setFlag m c P) := by
  cases c with
  | true => exact Respected.or h hm
  | false => exact Respected.andNot h hm

/-- From a good status register every request satisfies `p`, and the status register is good
at the end. -/
def Keeps {α : Type} (G : Byte → Prop) (p : Op → Regs → Prop) (x : Cpu α) : Prop :=
  ∀ r, G r.P → (x.run r).Sat p fun v => G v.2.P

section Rules

variable {α β : Type} {G : Byte → Prop} {p : Op → Regs → Prop}

theorem keeps_pure (a : α) : Keeps G p (pure a) := fun _ h => h

theorem keeps_get : Keeps G p (get : Cpu Regs) := fun _ h => h

theorem keeps_bind {x : Cpu α} {f : α → Cpu β} (hx : Keeps G p x) (hf : ∀ a, Keeps G p (f a)) :
    Keeps G p (x >>= f) := by
  intro r hr
  rw [StateT.run_bind]
  exact (hx r hr).bind fun v hv => hf v.1 v.2 hv

theorem keeps_modify {f : Regs → Regs} (hf : ∀ r, G r.P → G (f r).P) : Keeps G p (modify f) := hf

theorem keeps_modifyP {f : Byte → Byte} (hf : ∀ P, G P → G (f P)) : Keeps G p (modifyP f) :=
  fun r hr => hf r.P hr

theorem keeps_request {o : Op} (ho : ∀ r, G r.P → p o r) : Keeps G p (request o) :=
  fun r hr => ⟨ho r hr, fun _ => hr⟩

theorem keeps_ite {c : Prop} [Decidable c] {x y : Cpu α} (hx : Keeps G p x) (hy : Keeps G p y) :
    Keeps G p (if c then x else y) := by
  split
  · exact hx
  · exact hy

variable [Respected G]

theorem keeps_setFlag {m : Byte} (hm : m &&& (pUndefined ||| pBreak) = 0) (c : Bool) :
    Keeps G p (modifyP (setFlag m c)) := keeps_modifyP fun _ h => Respected.setFlag h hm c

theorem keeps_adjustZN (v : Byte) : Keeps G p (adjustZN v) :=
  keeps_bind (keeps_setFlag rfl _) fun _ => keeps_setFlag rfl _

end Rules

/-- Modes whose operand has an address. -/
def Addressing.addresses : Addressing → Bool
  | .zp | .zpr | .zpx | .zpy | .izp | .izpx | .izpy | .absolute | .absolutex | .absolutey => true
  | _ => false

/-- Modes in which an operand can be read. -/
def Addressing.reads (m : Addressing) : Bool := m.addresses || m = .accumulator || m = .immediate

/-- Modes in which an operand can be written. -/
def Addressing.writes (m : Addressing) : Bool := m.addresses || m = .accumulator

section Operands

variable {G : Byte → Prop} {p : Op → Regs → Prop} {id : InstrDef} (hr : ∀ a r, G r.P → p (.read a) r)
  (hw : ∀ a v r, G r.P → p (.write a v) r) (i : Instruction)

include hr

theorem keeps_memRead1 (a : Addr) : Keeps G p (memRead1 a) := keeps_request (hr a)

theorem keeps_dataAddress (hm : id.mode.addresses = true) : Keeps G p (instructionDataAddress id i) := by
  refine keeps_bind keeps_get fun r => ?_
  cases h : id.mode with
  | zp | zpr | zpx | zpy | absolute | absolutex | absolutey => exact keeps_pure _
  | izp | izpx | izpy =>
    exact keeps_bind (keeps_memRead1 hr _) fun _ => keeps_bind (keeps_memRead1 hr _) fun _ => keeps_pure _
  | iabsolute | iabsolutex | relative | implied | immediate | accumulator =>
    rw [h] at hm
    cases hm

theorem keeps_dataRead1 (hm : id.mode.reads = true) : Keeps G p (instructionDataRead1 id i) := by
  unfold instructionDataRead1
  split
  · exact keeps_bind keeps_get fun _ => keeps_pure _
  · split
    · exact keeps_pure _
    · next ha hi =>
      have hm' : id.mode.addresses = true := by simpa [Addressing.reads, ha, hi] using hm
      exact keeps_bind (keeps_dataAddress hr i hm') fun _ => keeps_memRead1 hr _

include hw

theorem keeps_dataWrite1 (hm : id.mode.writes = true) (v : Byte) : Keeps G p (instructionDataWrite1 id i v) := by
  unfold instructionDataWrite1
  split
  · exact keeps_modify fun _ h => h
  · next ha =>
    have hm' : id.mode.addresses = true := by simpa [Addressing.writes, ha] using hm
    have hi : id.mode ≠ .immediate := by
      intro he
      rw [he] at hm'
      cases hm'
    rw [if_neg hi]
    exact keeps_bind (keeps_dataAddress hr i hm') fun _ => keeps_request (hw _ v)

end Operands

section Stack

variable {G : Byte → Prop} {p : Op → Regs → Prop}

theorem keeps_stackPush (hw : ∀ a v r, G r.P → p (.write a v) r) (v : Byte) : Keeps G p (stackPush v) :=
  keeps_bind keeps_get fun _ => keeps_bind (keeps_request (hw _ v)) fun _ => keeps_modify fun _ h => h

theorem keeps_stackPop (hr : ∀ a r, G r.P → p (.read a) r) : Keeps G p stackPop :=
  keeps_bind (keeps_modify fun _ h => h) fun _ => keeps_bind keeps_get fun _ => keeps_memRead1 hr _

end Stack

/-- The requests of the emulation functions. Only `BRK` acknowledges the line, and only its
pushes are made with the break bit in the status register. -/
def Emul.Asks (G : Byte → Prop) (m : Emul) (o : Op) (r : Regs) : Prop :=
  match o with
  | .read _ => G r.P
  | .write _ _ => m = .brk ∨ G r.P
  | .ackIrq => m = .brk ∧ G r.P
  | .stop s => (m = .wai ∧ s = .wai ∨ m = .stp ∧ s = .stp) ∧ G r.P
  | _ => False

/-- The mode is one in which the emulation function has a meaning. -/
def Emul.fits (m : Emul) (mode : Addressing) : Bool :=
  match m with
  | adc | and | bbr _ | bbs _ | bit | cmp | cpx | cpy | eor | lda | ldx | ldy | ora | sbc => mode.reads
  | asl | dec | inc | lsr | rmb _ | rol | ror | smb _ | sta | stx | sty | stz | trb | tsb => mode.writes
  | jmp => mode = .absolute || mode = .iabsolute || mode = .iabsolutex
  | _ => true

theorem instructionDecode_fits : ∀ op : Byte, (instructionDecode op).emul.fits
    (instructionDecode op).mode = true :=
  forall_opcode (p := fun _ id => id.emul.fits id.mode = true) (by decide +kernel)

theorem instructionDecode_size : ∀ op : Byte,
    (instructionDecode op).mode.operands < (instructionDecode op).size ∧ (instructionDecode op).size ≤ 3 :=
  forall_opcode (p := fun _ id => id.mode.operands < id.size ∧ id.size ≤ 3) (by decide +kernel)

theorem Addressing.reads_of_writes {m : Addressing} (h : m.writes = true) : m.reads = true := by
  rw [reads, show (m.addresses || decide (m = .accumulator)) = true from h]
  rfl

section Emul

variable {G : Byte → Prop} {m : Emul} {id : InstrDef} (i : Instruction)

theorem Emul.asks_read (m : Emul) (a : Addr) (r : Regs) (h : G r.P) : m.Asks G (.read a) r := h

theorem Emul.asks_write (m : Emul) (a : Addr) (v : Byte) (r : Regs) (h : G r.P) :
    m.Asks G (.write a v) r := .inr h

theorem keeps_read (hm : id.mode.reads = true) : Keeps G (m.Asks G) (instructionDataRead1 id i) :=
  keeps_dataRead1 m.asks_read i hm

theorem keeps_write (hm : id.mode.writes = true) (v : Byte) : Keeps G (m.Asks G) (instructionDataWrite1 id i v) :=
  keeps_dataWrite1 m.asks_read m.asks_write i hm v

theorem keeps_push (v : Byte) : Keeps G (m.Asks G) (stackPush v) := keeps_stackPush m.asks_write v

theorem keeps_pop : Keeps G (m.Asks G) stackPop := keeps_stackPop m.asks_read

theorem keeps_mem (a : Addr) : Keeps G (m.Asks G) (memRead1 a) := keeps_memRead1 m.asks_read a

theorem keeps_branchIf (b : Byte) (value : Bool) : Keeps G (m.Asks G) (branchIf b value id i) :=
  keeps_bind keeps_get fun _ => keeps_ite (keeps_modify fun _ h => h) (keeps_modify fun _ h => h)

theorem keeps_bitBranch (taken : Bool) : Keeps G (m.Asks G) (bitBranch id i taken) :=
  keeps_ite (keeps_modify fun _ h => h) (keeps_modify fun _ h => h)

theorem keeps_store (v : Regs → Byte) (hm : id.mode.writes = true) : Keeps G (m.Asks G) (store v id i) :=
  keeps_bind keeps_get fun _ => keeps_write i hm _

theorem keeps_maskMem (f : Byte → Byte) (hm : id.mode.writes = true) :
    Keeps G (m.Asks G) (do instructionDataWrite1 id i (f (← instructionDataRead1 id i))) :=
  keeps_bind (keeps_read i (Addressing.reads_of_writes hm)) fun _ => keeps_write i hm _

theorem keeps_jmp (hm : (id.mode = .absolute || id.mode = .iabsolute || id.mode = .iabsolutex) = true) :
    Keeps G (m.Asks G) (emulJmp id i) := by
  unfold emulJmp
  cases h : id.mode with
  | absolute => exact keeps_modify fun _ h => h
  | iabsolute =>
    exact keeps_bind (keeps_mem _) fun _ => keeps_bind (keeps_mem _) fun _ => keeps_modify fun _ h => h
  | iabsolutex =>
    exact keeps_bind keeps_get fun _ => keeps_bind (keeps_mem _) fun _ => keeps_bind (keeps_mem _) fun _ =>
      keeps_modify fun _ h => h
  | _ =>
    rw [h] at hm
    cases hm

theorem keeps_jsr : Keeps G (m.Asks G) (emulJsr i) :=
  keeps_bind keeps_get fun _ => keeps_bind (keeps_push _) fun _ => keeps_bind (keeps_push _) fun _ =>
    keeps_modify fun _ h => h

theorem keeps_rts : Keeps G (m.Asks G) emulRts :=
  keeps_bind keeps_pop fun _ => keeps_bind keeps_pop fun _ => keeps_modify fun _ h => h

variable [Respected G]

theorem keeps_clearFlag {b : Byte} (hb : b &&& (pUndefined ||| pBreak) = 0) : Keeps G (m.Asks G) (clearFlag b) :=
  keeps_modifyP fun _ h => Respected.andNot h hb

theorem keeps_raiseFlag {b : Byte} (hb : b &&& (pUndefined ||| pBreak) = 0) : Keeps G (m.Asks G) (raiseFlag b) :=
  keeps_modifyP fun _ h => Respected.or h hb

theorem keeps_compare (reg : Regs → Byte) (hm : id.mode.reads = true) : Keeps G (m.Asks G) (compare reg id i) :=
  keeps_bind (keeps_read i hm) fun _ => keeps_bind keeps_get fun _ => keeps_bind (keeps_adjustZN _) fun _ =>
    keeps_modify fun _ h => Respected.setFlag h rfl _

theorem keeps_modifyMem (f : Byte → Byte) (hm : id.mode.writes = true) : Keeps G (m.Asks G) (modifyMem f id i) :=
  keeps_bind (keeps_read i (Addressing.reads_of_writes hm)) fun _ => keeps_bind (keeps_write i hm _) fun _ =>
    keeps_adjustZN _

theorem keeps_setReg {f : Regs → Regs} (hf : ∀ r, (f r).P = r.P) (v : Regs → Byte) :
    Keeps G (m.Asks G) (setReg f v) :=
  keeps_bind (keeps_modify fun r h => (hf r).symm ▸ h) fun _ => keeps_bind keeps_get fun _ => keeps_adjustZN _

theorem keeps_load {put : Byte → Regs → Regs} (hp : ∀ v r, (put v r).P = r.P) (hm : id.mode.reads = true) :
    Keeps G (m.Asks G) (load put id i) :=
  keeps_bind (keeps_read i hm) fun v => keeps_bind (keeps_modify fun r h => (hp v r).symm ▸ h) fun _ =>
    keeps_adjustZN _

theorem keeps_pull {put : Byte → Regs → Regs} (hp : ∀ v r, (put v r).P = r.P) : Keeps G (m.Asks G) (pull put) :=
  keeps_bind keeps_pop fun v => keeps_bind (keeps_modify fun r h => (hp v r).symm ▸ h) fun _ => keeps_adjustZN _

theorem keeps_testBits (f : Byte → Byte → Byte) (hm : id.mode.writes = true) :
    Keeps G (m.Asks G) (testBits f id i) :=
  keeps_bind (keeps_read i (Addressing.reads_of_writes hm)) fun _ =>
    keeps_bind (keeps_modify fun _ h => Respected.setFlag h rfl _)
    fun _ => keeps_bind keeps_get fun _ => keeps_write i hm _

theorem keeps_shift {f : Byte → Byte} {c : Byte → Bool} (hm : id.mode.writes = true) :
    Keeps G (m.Asks G) (do
      let val ← instructionDataRead1 id i
      modifyP (setFlag pCarry (c val))
      adjustZN (f val)
      instructionDataWrite1 id i (f val)) :=
  keeps_bind (keeps_read i (Addressing.reads_of_writes hm)) fun _ => keeps_bind (keeps_setFlag rfl _) fun _ =>
    keeps_bind (keeps_adjustZN _) fun _ => keeps_write i hm _

theorem keeps_rotate {f : Byte → Regs → Byte} {c : Byte → Bool} (hm : id.mode.writes = true) :
    Keeps G (m.Asks G) (do
      let val ← instructionDataRead1 id i
      let r ← get
      modifyP (setFlag pCarry (c val))
      adjustZN (f val r)
      instructionDataWrite1 id i (f val r)) :=
  keeps_bind (keeps_read i (Addressing.reads_of_writes hm)) fun _ => keeps_bind keeps_get fun _ =>
    keeps_bind (keeps_setFlag rfl _) fun _ => keeps_bind (keeps_adjustZN _) fun _ => keeps_write i hm _

/-- The end of `ADC` and `SBC`: the carry by mode, then the result. -/
theorem keeps_arithEnd {c d : Bool} {a : Regs → Byte} (decimal : Bool) :
    Keeps G (m.Asks G) (do
      if decimal then modifyP (setFlag pCarry c) else modifyP (setFlag pCarry d)
      let r ← get
      modify fun s => { s with A := a r }
      adjustZN (a r)) := by
  have hend : Keeps G (m.Asks G) (do
      let r ← get
      modify fun s => { s with A := a r }
      adjustZN (a r)) :=
    keeps_bind keeps_get fun _ => keeps_bind (keeps_modify fun _ h => h) fun _ => keeps_adjustZN _
  exact keeps_ite (keeps_bind (keeps_setFlag rfl _) fun _ => hend)
    (keeps_bind (keeps_setFlag rfl _) fun _ => hend)

theorem keeps_adc (hm : id.mode.reads = true) : Keeps G (m.Asks G) (emulAdc id i) :=
  keeps_bind (keeps_read i hm) fun _ => keeps_bind keeps_get fun _ => keeps_bind (keeps_setFlag rfl _) fun _ =>
    keeps_bind keeps_get fun r' => keeps_arithEnd (r'.flag pDecimal)

theorem keeps_sbc (hm : id.mode.reads = true) : Keeps G (m.Asks G) (emulSbc id i) :=
  keeps_bind (keeps_read i hm) fun _ => keeps_bind keeps_get fun _ => keeps_bind (keeps_setFlag rfl _) fun _ =>
    keeps_bind keeps_get fun r' => keeps_arithEnd (r'.flag pDecimal)

theorem keeps_bit (hm : id.mode.reads = true) : Keeps G (m.Asks G) (emulBit id i) := by
  refine keeps_bind (keeps_read i hm) fun _ =>
    keeps_bind (keeps_modify fun _ h => Respected.setFlag h rfl _) fun _ => ?_
  exact keeps_ite (keeps_bind (keeps_read i hm) fun _ => keeps_bind (keeps_setFlag rfl _) fun _ =>
    keeps_setFlag rfl _)
    (keeps_pure _)

theorem keeps_logic {f : Byte → Byte → Byte} (hm : id.mode.reads = true) :
    Keeps G (m.Asks G) (do
      let v ← instructionDataRead1 id i
      modify fun r => { r with A := f r.A v }
      adjustZN (← get).A) :=
  keeps_bind (keeps_read i hm) fun _ => keeps_bind (keeps_modify fun _ h => h) fun _ =>
    keeps_bind keeps_get fun _ =>
    keeps_adjustZN _

theorem keeps_rti : Keeps G (m.Asks G) emulRti :=
  keeps_bind keeps_pop fun v => keeps_bind (keeps_modifyP fun _ _ => Respected.pulled v) fun _ => keeps_rts

theorem keeps_plp : Keeps G (m.Asks G) emulPlp :=
  keeps_bind keeps_pop fun v => keeps_modifyP fun _ _ => Respected.pulled v

end Emul

/-- The entry of a pending interrupt, at the beginning of `exec`. -/
def hardwareEntry : Cpu Unit := do
  if (← irqAsserted) && !(← get).flag pIrqDisable then irq

/-- The breakpoint test, the disassembly and the fetch; `none` is a breakpoint. -/
def fetchHere : Cpu (Option Instruction) := do
  if ← debugPCIsBreakpoint then return none
  else
    runtimeDisassemble
    let i ← instructionFetchEmu (← get).PC
    return some i

/-- What `exec` does before the instruction itself. -/
def execFetch : Cpu (Option Instruction) := do
  hardwareEntry
  fetchHere

/-- The rest of `exec`. -/
def execRest (tpc : Addr) : Option Instruction → Cpu Unit
  | none => request (.stop .breakpoint)
  | some i => execInsn tpc i

theorem exec_eq : exec = (do
    let tpc := (← get).PC
    let i ← execFetch
    execRest tpc i) := by
  have hrest : ∀ (tpc : Addr) (b : Bool), (if b = true then pure none
      else do
        runtimeDisassemble
        let r ← get
        let i ← instructionFetchEmu r.PC
        pure (some i) : Cpu (Option Instruction)) >>= execRest tpc =
      if b = true then request (.stop .breakpoint)
      else (do
        runtimeDisassemble
        let r ← get
        let i ← instructionFetchEmu r.PC
        execInsn tpc i) := by
    intro tpc b
    cases b <;> simp [execRest]
  simp only [exec, execFetch, fetchHere, hardwareEntry, bind_assoc, hrest]
  refine congrArg _ (funext fun r => congrArg _ (funext fun b => congrArg _ (funext fun r' => ?_)))
  split <;> simp

/-- The requests of a fetch and of what comes before it. -/
def FetchAsks (G : Byte → Prop) (o : Op) (r : Regs) : Prop :=
  match o with
  | .isBreakpoint _ | .disassemble _ | .fetch _ => G r.P
  | _ => False

theorem instructionFetchEmu_keeps {G : Byte → Prop} (a : Addr) :
    Keeps G (FetchAsks G) (instructionFetchEmu a) := by
  have hf : ∀ a, Keeps G (FetchAsks G) (memFetch1 a) := fun a => keeps_request fun _ h => h
  refine keeps_bind (hf a) fun op => ?_
  split
  · exact keeps_pure _
  · exact keeps_bind (hf _) fun _ => keeps_pure _
  · exact keeps_bind (hf _) fun _ => keeps_bind (hf _) fun _ => keeps_pure _

theorem fetchHere_keeps {G : Byte → Prop} : Keeps G (FetchAsks G) fetchHere := by
  have hb : Keeps G (FetchAsks G) debugPCIsBreakpoint := keeps_bind keeps_get fun r => keeps_request fun _ h => h
  have hd : Keeps G (FetchAsks G) runtimeDisassemble := keeps_bind keeps_get fun r => keeps_request fun _ h => h
  have hi : Keeps G (FetchAsks G) (do return some (← instructionFetchEmu (← get).PC)) :=
    keeps_bind keeps_get fun _ => keeps_bind (instructionFetchEmu_keeps _) fun _ => keeps_pure _
  exact keeps_bind hb fun _ => keeps_ite (keeps_pure none) (keeps_bind hd fun _ => hi)

variable {G : Byte → Prop} [Respected G]

/-- Interrupt entry pushes the status register it finds and clears the break bit before it
reads the vector. -/
theorem irq_sat {p : Op → Regs → Prop} {r : Regs} (hP : G (r.P &&& ~~~pBreak))
    (hw : ∀ a v r', r'.P = r.P → p (.write a v) r') (hr : ∀ a r', G r'.P → p (.read a) r')
    (hack : ∀ r', G r'.P → p .ackIrq r') : (irq.run r).Sat p fun v => G v.2.P := by
  have hs : G ((r.P ||| pIrqDisable) &&& ~~~pDecimal &&& ~~~pBreak) := by
    have hc : (r.P ||| pIrqDisable) &&& ~~~pDecimal &&& ~~~pBreak =
        (r.P &&& ~~~pBreak ||| pIrqDisable) &&& ~~~pDecimal := by
      have hi : pIrqDisable &&& ~~~pBreak = pIrqDisable := rfl
      rw [BitVec.and_assoc, BitVec.and_comm (~~~pDecimal), ← BitVec.and_assoc, BitVec.and_or_distrib_right, hi]
    rw [hc]
    exact Respected.andNot (Respected.or hP rfl) rfl
  simp [irq, stackPush, modifyP]
  exact ⟨hw _ _ _ rfl, hw _ _ _ rfl, hw _ _ _ rfl, hr _ _ hs, fun _ =>
    ⟨hr _ _ hs, fun _ => ⟨hack _ hs, fun _ => hs⟩⟩⟩

theorem keeps_brk : Keeps G (Emul.brk.Asks G) emulBrk := by
  intro r hr
  have hb : G ((r.P ||| pBreak) &&& ~~~pBreak) := Respected.raised hr
  simp only [emulBrk, modifyP, StateT.run_bind, StateT.run_modify, Tree.pure_eq, Tree.done_bind]
  exact irq_sat hb (fun _ _ _ _ => .inl rfl) (fun _ _ h => h) fun _ h => ⟨rfl, h⟩

theorem Emul.keeps (m : Emul) {id : InstrDef} (i : Instruction) (h : m.fits id.mode = true) :
    Keeps G (m.Asks G) (m.exec id i) := by
  cases m with
  | adc => exact keeps_adc i h
  | sbc => exact keeps_sbc i h
  | and | eor | ora => exact keeps_logic i h
  | asl | lsr => exact keeps_shift i h
  | rol | ror => exact keeps_rotate i h
  | bbr n | bbs n => exact keeps_bind (keeps_read i h) fun _ => keeps_bitBranch i _
  | bcc | bcs | beq | bmi | bne | bpl | bvc | bvs => exact keeps_branchIf i _ _
  | bit => exact keeps_bit i h
  | bra => exact keeps_modify fun _ h => h
  | brk => exact keeps_brk
  | clc | cld | cli | clv => exact keeps_clearFlag rfl
  | sec | sed | sei => exact keeps_raiseFlag rfl
  | cmp | cpx | cpy => exact keeps_compare i _ h
  | dec | inc => exact keeps_modifyMem i _ h
  | dex | dey | inx | iny | tax | tay | tsx | txa | tya =>
    refine keeps_setReg ?_ _
    exact fun _ => rfl
  | invalid | nop => exact keeps_pure _
  | jmp => exact keeps_jmp i h
  | jsr => exact keeps_jsr i
  | lda | ldx | ldy =>
    refine keeps_load i ?_ h
    exact fun _ _ => rfl
  | pha | php | phx | phy => exact keeps_bind keeps_get fun _ => keeps_push _
  | pla | plx | ply =>
    refine keeps_pull ?_
    exact fun _ _ => rfl
  | plp => exact keeps_plp
  | rmb n | smb n => exact keeps_maskMem i _ h
  | rti => exact keeps_rti
  | rts => exact keeps_rts
  | sta | stx | sty | stz => exact keeps_store i _ h
  | stp => exact keeps_request fun _ h => ⟨.inr ⟨rfl, rfl⟩, h⟩
  | trb => exact keeps_testBits i (fun val a => val &&& (a ^^^ 0xFF)) h
  | tsb => exact keeps_testBits i (fun val a => val ||| a) h
  | txs => exact keeps_modify fun _ h => h
  | wai => exact keeps_request fun _ h => ⟨.inl ⟨rfl, rfl⟩, h⟩

/-- The emulation function of a decoded instruction. -/
def Instruction.emul (i : Instruction) : Emul := (instructionDecode i.opcode).emul

/-- What an instruction asks once it is fetched. -/
def Instruction.Asks (G : Byte → Prop) (i : Instruction) (o : Op) (r : Regs) : Prop :=
  i.emul.Asks G o r ∨ (o = .reexec ∧ G r.P) ∨ (∃ tpc, o = .trace tpc i r ∧ G r.P)

theorem execInsn_keeps (tpc : Addr) (i : Instruction) : Keeps G (i.Asks G) (execInsn tpc i) := by
  have hm : Keeps G (i.Asks G) ((instructionDecode i.opcode).emul.exec (instructionDecode i.opcode) i) :=
    fun r hr =>
    ((Emul.keeps _ i (instructionDecode_fits i.opcode)) r hr).mono (fun _ _ h => .inl h) fun _ h => h
  have hend : Keeps G (i.Asks G) (do request (.trace tpc i (← get))) := fun r hr =>
    ⟨.inr (.inr ⟨tpc, rfl, hr⟩), fun _ => hr⟩
  refine keeps_bind hm fun _ => keeps_bind (keeps_request fun _ h => .inr (.inl ⟨rfl, h⟩)) fun stopped => ?_
  refine keeps_ite hend (keeps_ite hend (keeps_bind (keeps_modify fun _ h => h) fun _ => hend))

/-- The requests of interrupt entry. -/
def IrqAsks (G : Byte → Prop) (o : Op) (r : Regs) : Prop :=
  match o with
  | .read _ | .write _ _ | .ackIrq => G r.P
  | _ => False

/-- Interrupt entry up to the acknowledgement, with which it ends. -/
def irqVector : Cpu Unit := do
  stackPush ((← get).PC >>> 8 |>.setWidth 8)
  stackPush ((← get).PC &&& 0xFF |>.setWidth 8)
  stackPush (← get).P
  modifyP (· ||| pIrqDisable)
  modifyP (· &&& ~~~pDecimal)
  modifyP (· &&& ~~~pBreak)
  let lo ← memRead1 vectorIrq
  modify fun r => { r with PC := lo.setWidth 16 }
  let hi ← memRead1 (vectorIrq + 1)
  modify fun r => { r with PC := r.PC ||| (hi.setWidth 16 <<< 8) }

theorem irq_eq : irq = (do
    irqVector
    request .ackIrq) := by
  simp only [irq, irqVector, bind_assoc]

theorem irq_keeps : Keeps G (IrqAsks G) irq := fun _ hr =>
  irq_sat (Respected.clearBreak hr) (fun _ _ r' he => show G r'.P from he ▸ hr) (fun _ _ h => h) fun _ h => h

theorem execFetch_run (r : Regs) : execFetch.run r = .op .irq r fun b : Bool =>
    if b && !r.flag pIrqDisable then irq.run r >>= fun v => fetchHere.run v.2 else fetchHere.run r := by
  simp only [execFetch, hardwareEntry, irqAsserted, StateT.run_bind, StateT.run_get, Tree.pure_eq, Tree.done_bind]
  refine congrArg (Tree.op Op.irq r) (funext fun b : Bool => ?_)
  dsimp only [Tree.bind]
  by_cases hb : (b && !r.flag pIrqDisable) = true
  · rw [if_pos hb, if_pos hb]
    rfl
  · rw [if_neg hb, if_neg hb]
    rfl

/-- What `WAI` asks once it is fetched. -/
def WaiAsks : Op → Prop
  | .stop q => q = .wai
  | .reexec | .trace _ _ _ => True
  | _ => False

theorem execInsn_wai (tpc : Addr) {i : Instruction} (hi : i.emul = .wai) :
    Keeps (fun _ => True) (fun o _ => WaiAsks o) (execInsn tpc i) := by
  have hm : Keeps (fun _ => True) (fun o _ => WaiAsks o)
      ((instructionDecode i.opcode).emul.exec (instructionDecode i.opcode) i) := by
    rw [show (instructionDecode i.opcode).emul = .wai from hi]
    exact keeps_request fun _ _ => rfl
  have hend : Keeps (fun _ => True) (fun o _ => WaiAsks o) (do Cpu.request (.trace tpc i (← get))) := fun _ _ =>
    ⟨trivial, fun _ => trivial⟩
  refine keeps_bind hm fun _ => keeps_bind (keeps_request fun _ _ => trivial) fun stopped => ?_
  exact keeps_ite hend (keeps_ite hend (keeps_bind (keeps_modify fun _ h => h) fun _ => hend))

/-- `rk65c02_exec` looks at the interrupt line once, before anything else. -/
theorem exec_asks (r : Regs) : ∃ k : Bool → CpuTree (Unit × Regs), exec.run r = .op .irq r k ∧
    ∀ b, (k b).Sat (fun o _ => o ≠ .panic ∧ o ≠ .irq) fun _ => True := by
  have hfetch : ∀ r, (fetchHere.run r).Sat (fun o _ => o ≠ .panic ∧ o ≠ .irq) fun _ => True := fun r =>
    (fetchHere_keeps (G := fun _ => True) r trivial).mono
      (fun o _ ho => ⟨by rintro rfl; exact ho, by rintro rfl; exact ho⟩) fun _ _ => trivial
  have hirq : ∀ r, (irq.run r).Sat (fun o _ => o ≠ .panic ∧ o ≠ .irq) fun _ => True := fun r =>
    (irq_keeps (G := fun _ => True) r trivial).mono
      (fun o _ ho => ⟨by rintro rfl; exact ho, by rintro rfl; exact ho⟩) fun _ _ => trivial
  have hrest : ∀ tpc (v : Option Instruction × Regs),
      ((execRest tpc v.1).run v.2).Sat (fun o _ => o ≠ .panic ∧ o ≠ .irq) fun _ => True := by
    rintro tpc ⟨_ | i, r⟩
    · exact ⟨⟨nofun, nofun⟩, fun _ => trivial⟩
    · refine (execInsn_keeps (G := fun _ => True) tpc i r trivial).mono (fun o _ ho => ?_) fun _ _ => trivial
      constructor
      all_goals
        rintro rfl
        rcases ho with ho | ho | ⟨_, ho, _⟩
        · exact ho
        · cases ho.1
        · cases ho
  have hx : exec.run r = execFetch.run r >>= fun v => (execRest r.PC v.1).run v.2 := by
    rw [exec_eq, StateT.run_bind, StateT.run_get, Tree.pure_eq, Tree.done_bind, StateT.run_bind]
  rw [hx, execFetch_run, Tree.op_bind]
  refine ⟨_, rfl, fun b => Tree.Sat.bind (q := fun _ => True) ?_ fun v _ => hrest r.PC v⟩
  split
  · exact (hirq r).bind fun v _ => hfetch v.2
  · exact hfetch r

theorem exec_keeps : Keeps (fun _ => True) (fun o _ => o ≠ .panic) exec := by
  intro r _
  obtain ⟨k, hk, hs⟩ := exec_asks r
  rw [hk]
  exact ⟨nofun, fun b => (hs b).mono (fun _ _ h => h.1) fun _ _ => trivial⟩

end Rk65c02
