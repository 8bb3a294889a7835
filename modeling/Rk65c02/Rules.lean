import Rk65c02.HostCalls
import Rk65c02.Requests
import Rk65c02.Run

/-! The invariant rule of the emulator: a property kept by the few things that answering a
request can do is kept by every request, and so by all code. -/

namespace Rk65c02

open Resumption

variable {H : Type}

/-- The host callbacks, with the arguments they are called with. -/
inductive Callback
  | mmuFault (cb : Cb) (a : Addr) (x : Access) (code : BitVec 16)
  | devRead (d : DevId) (off : Addr)
  | devWrite (d : DevId) (off : Addr) (v : Byte)
  | tick (cb : Cb)
  | idleWait (cb : Cb)
  | onStop (cb : Cb) (reason : StopReason)
  deriving DecidableEq

/-- What a callback does to the host, and the library calls it makes. -/
def HostCode.invoke (hc : HostCode H) (h : H) : Callback → H × List HostCall
  | .mmuFault cb a x code => hc.mmuFault h cb a x code
  | .devRead d off => (hc.devRead h d off).2
  | .devWrite d off v => hc.devWrite h d off v
  | .tick cb => hc.tick h cb
  | .idleWait cb => hc.idleWait h cb
  | .onStop cb reason => hc.onStop h cb reason

def Op.isTrace : Op → Bool
  | .trace _ _ _ => true
  | _ => false

/-- The callback that announces a stop. -/
def Callback.notifies : Callback → Bool
  | .onStop _ _ => true
  | _ => false

namespace Emu

/-- Kept by accesses that succeed. -/
structure Accesses (hc : HostCode H) (I : Emu H → Prop) : Prop where
  callback : ∀ e c, c.notifies = false → I e → I (e.hostReturns (hc.invoke e.host c))
  mmu : ∀ e m, I e → I { e with mmu := m }
  ram : ∀ e d off v, I e → I { e with bus := e.bus.ramWrite1 d off v }
  note : ∀ e a, I e → I (e.jitNoteGuestWrite hc a)

/-- Kept by everything that code asks of the emulator, except for acknowledging the interrupt
line, stopping, and announcing a stop. -/
structure Quiet (hc : HostCode H) (I : Emu H → Prop) : Prop extends Accesses hc I where
  arrive : ∀ e, I e → I (e.arrive hc)
  fault : ∀ e a x c, I e →
    I { e with mmuLastFaultAddr := a, mmuLastFaultAccess := x, mmuLastFaultCode := c, useJit := false }
  error : ∀ e, I e → I { e with state := .stopped, stopreason := .emuerror, stopRequested := false }
  leave : ∀ e, I e → I { e with inJitRun := false }
  log : ∀ e l, I e → I { e with traceLog := l }

/-- Kept when a stop is announced, too. -/
structure Closed (hc : HostCode H) (I : Emu H → Prop) : Prop extends Quiet hc I where
  notify : ∀ e, I e → I (e.maybeCallOnStop hc)

/-- The memory access, or the panic, is one that stops the machine. -/
def Refuses (hc : HostCode H) (e : Emu H) : Op → Prop
  | .fetch a => e.mmu.accessors = true ∧ ∃ code, (e.mmuTranslateAddr hc a .fetch).1 = .error code
  | .read a => e.mmu.accessors = true ∧ ∃ code, (e.mmuTranslateAddr hc a .read).1 = .error code
  | .write a _ => e.mmu.accessors = true ∧ ∃ code, (e.mmuTranslateAddr hc a .write).1 = .error code
  | .panic => True
  | _ => False

theorem isError_iff (x : Except (BitVec 16) PAddr) : x.isOk = false ↔ ∃ code, x = .error code := by
  cases x <;> simp [Except.isOk, Except.toBool]

instance decidableRefuses (hc : HostCode H) (e : Emu H) (o : Op) : Decidable (e.Refuses hc o) :=
  match o with
  | .fetch a => decidable_of_iff (_ ∧ _) (and_congr_right fun _ => isError_iff (e.mmuTranslateAddr hc a .fetch).1)
  | .read a => decidable_of_iff (_ ∧ _) (and_congr_right fun _ => isError_iff (e.mmuTranslateAddr hc a .read).1)
  | .write a _ =>
    decidable_of_iff (_ ∧ _) (and_congr_right fun _ => isError_iff (e.mmuTranslateAddr hc a .write).1)
  | .panic => isTrue trivial
  | .irq | .ackIrq | .stop _ | .isBreakpoint _ | .disassemble _ | .reexec | .trace _ _ _ => isFalse id

/-- The state that a fault leaves for its callback. -/
def faulted (e : Emu H) (a : Addr) (x : Access) (code : BitVec 16) : Emu H :=
  { e with
    mmuLastFaultAddr := a
    mmuLastFaultAccess := x
    mmuLastFaultCode := code
    mmu := { e.mmu with faultReexec := true }
    useJit := false }

theorem mmuFault_eq (hc : HostCode H) (e : Emu H) (a : Addr) (x : Access) (code : BitVec 16) :
    e.mmuFault hc a x code = (e.mmu.fault.elim (e.faulted a x code) fun cb =>
      (e.faulted a x code).hostReturns (hc.mmuFault e.host cb a x code)).emuStopError hc := by
  unfold mmuFault faulted
  cases hf : e.mmu.fault <;> simp only [hf, Option.elim]

variable {hc : HostCode H} {I : Emu H → Prop}

/-- The disassembler only reads the bus. -/
theorem disassembled_keeps (hr : ∀ e a, I e → I (e.busRead1 hc a).2) {e : Emu H} (h : I e) (pc : Addr) :
    I (e.disassembled hc pc) := by
  unfold disassembled disassemble instructionFetch
  dsimp only
  split
  · split
    · exact hr _ _ h
    · exact hr _ _ (hr _ _ h)
    · exact hr _ _ (hr _ _ (hr _ _ h))
  · exact h

namespace Accesses

variable (hI : Accesses hc I) {e : Emu H} (h : I e)

include hI h

theorem deviceRead1 (d : Option (DevId × Addr)) : I (e.deviceRead1 hc d).2 := by
  match d with
  | none => exact h
  | some (d, off) =>
    unfold Emu.deviceRead1
    dsimp only
    by_cases hr : (e.bus.dev d).ram = true
    · rw [if_pos hr]
      exact h
    · rw [if_neg hr]
      exact hI.callback e (.devRead d off) rfl h

theorem deviceWrite1 (v : Byte) (d : Option (DevId × Addr)) : I (e.deviceWrite1 hc v d) := by
  match d with
  | none => exact h
  | some (d, off) =>
    unfold Emu.deviceWrite1
    dsimp only
    by_cases hr : (e.bus.dev d).ram = true
    · rw [if_pos hr]
      exact hI.ram e d off v h
    · rw [if_neg hr]
      exact hI.callback e (.devWrite d off v) rfl h

theorem physRead1 (p : PAddr) : I (e.physRead1 hc p).2 := by
  unfold Emu.physRead1 Emu.busRead1Phys
  by_cases hp : p.toNat < busSize
  · rw [if_pos hp]
    exact hI.deviceRead1 h _
  · rw [if_neg hp, if_neg hp]
    exact hI.deviceRead1 h _

theorem disassembled (pc : Addr) : I (e.disassembled hc pc) :=
  disassembled_keeps (I := I) (fun _ _ h => hI.deviceRead1 h _) h pc

theorem physWrite1 (p : PAddr) (v : Byte) : I (e.physWrite1 hc p v) := by
  unfold Emu.physWrite1 Emu.busWrite1Phys
  by_cases hp : p.toNat < busSize
  · rw [if_pos hp]
    exact hI.deviceWrite1 h v _
  · rw [if_neg hp, if_neg hp]
    exact hI.deviceWrite1 h v _

theorem mmuTranslateAddr (a : Addr) (x : Access) : I (e.mmuTranslateAddr hc a x).2 := hI.mmu e _ h

omit hI h

variable {A B : Emu H → Prop}

theorem and (hA : Accesses hc A) (hB : Accesses hc B) : Accesses hc fun e => A e ∧ B e where
  callback e c hn h := ⟨hA.callback e c hn h.1, hB.callback e c hn h.2⟩
  mmu e m h := ⟨hA.mmu e m h.1, hB.mmu e m h.2⟩
  ram e d off v h := ⟨hA.ram e d off v h.1, hB.ram e d off v h.2⟩
  note e a h := ⟨hA.note e a h.1, hB.note e a h.2⟩

theorem memRead1 (hI : Accesses hc A) (h : A e) (a : Addr) (x : Access)
    (hf : ∀ code, e.mmu.accessors = true → (e.mmuTranslateAddr hc a x).1 = .error code →
      ((e.mmuTranslateAddr hc a x).2.mmuFault hc a x code).Leads A B) : (e.memRead1 hc a x).Leads A B := by
  unfold Emu.memRead1
  by_cases hm : e.mmu.accessors = true
  · rw [if_pos hm]
    unfold Emu.memReadMmu
    have ht := hI.mmuTranslateAddr h a x
    generalize e.mmuTranslateAddr hc a x = t at ht hf ⊢
    obtain ⟨code | p, e'⟩ := t
    · exact (hf code hm rfl).bind fun _ _ hs => hs
    · exact hI.physRead1 ht p
  · rw [if_neg hm]
    exact hI.deviceRead1 h _

theorem memWrite1 (hI : Accesses hc A) (h : A e) (a : Addr) (v : Byte)
    (hf : ∀ code, e.mmu.accessors = true → (e.mmuTranslateAddr hc a .write).1 = .error code →
      ((e.mmuTranslateAddr hc a .write).2.mmuFault hc a .write code).Leads A B) :
      (e.memWrite1 hc a v).Leads A B := by
  unfold Emu.memWrite1
  refine Out.Leads.bind (A := A) ?_ fun _ s hs => hI.note s a hs
  by_cases hm : e.mmu.accessors = true
  · rw [if_pos hm]
    unfold Emu.memWriteMmu
    have ht := hI.mmuTranslateAddr h a .write
    generalize e.mmuTranslateAddr hc a .write = t at ht hf ⊢
    obtain ⟨code | p, e'⟩ := t
    · exact hf code hm rfl
    · exact hI.physWrite1 ht p v
  · rw [if_neg hm]
    exact hI.deviceWrite1 h v _

/-- The answer to a request, when it is known what a refused access leads to. -/
theorem answer (hI : Accesses hc A) (h : A e) (o : Op)
    (hlog : o.isTrace = true → ∀ e l, A e → A { e with traceLog := l })
    (hack : o = .ackIrq → A { e with irq := false })
    (hstop : ∀ s, o = .stop s → A { e with state := .stopped, stopreason := s })
    (hpanic : o = .panic → (e.emuStopError hc).Leads A B)
    (hfault : ∀ a x code, e.Refuses hc o → ((e.mmuTranslateAddr hc a x).2.mmuFault hc a x code).Leads A B) :
    (e.answer hc o).Leads A B := by
  cases o with
  | fetch a => exact hI.memRead1 h a .fetch fun code hm ht => hfault a _ code ⟨hm, code, ht⟩
  | read a => exact hI.memRead1 h a .read fun code hm ht => hfault a _ code ⟨hm, code, ht⟩
  | write a v => exact hI.memWrite1 h a v fun code hm ht => hfault a _ code ⟨hm, code, ht⟩
  | irq => exact h
  | ackIrq => exact hack rfl
  | stop s => exact hstop s rfl
  | panic => exact hpanic rfl
  | isBreakpoint pc => exact h
  | disassemble pc => exact hI.disassembled h pc
  | reexec =>
    unfold Emu.answer
    by_cases hr : e.state = .stopped ∧ e.mmu.faultReexec = true
    · rw [if_pos hr]
      exact hI.mmu e _ h
    · rw [if_neg hr]
      exact h
  | trace tpc i r =>
    change A (e.tracePush ⟨tpc, i, r⟩)
    unfold Emu.tracePush
    by_cases ht : e.trace = true
    · rw [if_pos ht]
      exact hlog rfl e _ h
    · rw [if_neg ht]
      exact h

end Accesses

namespace Quiet

variable (hI : Quiet hc I) {e : Emu H} (h : I e)

include hI h

/-- An error announces the stop if the machine has already stopped. -/
theorem emuStopError (hn : ¬e.Active → ∀ e', I e' → I (e'.maybeCallOnStop hc)) :
    (e.emuStopError hc).Leads I I := by
  have he := hI.error e h
  unfold Emu.emuStopError
  dsimp only
  split
  · exact hI.leave _ he
  · split
    · next ha => exact hn ha _ he
    · exact he

theorem mmuFault (hn : ¬e.Active → ∀ e', I e' → I (e'.maybeCallOnStop hc)) (a : Addr)
    (x : Access) (c : BitVec 16) :
    (e.mmuFault hc a x c).Leads I I := by
  have he := hI.mmu _ { e.mmu with faultReexec := true } (hI.fault e a x c h)
  unfold Emu.mmuFault
  refine hI.emuStopError ?_ fun ha => hn fun hb => ha ?_
  · split
    · exact he
    · exact hI.callback _ (.mmuFault _ a x c) rfl he
  · split
    · exact hb
    · refine Active.hostReturns ?_ _
      exact hb

theorem answer (o : Op) (hack : o = .ackIrq → I { e with irq := false })
    (hstop : ∀ s, o = .stop s → I { e with state := .stopped, stopreason := s })
    (hn : e.Refuses hc o → ¬e.Active → ∀ e', I e' → I (e'.maybeCallOnStop hc)) : (e.answer hc o).Ends I := by
  refine (hI.toAccesses.answer h o (fun _ => hI.log) hack hstop ?_ fun a x code hr => ?_).ends
  · rintro rfl
    exact hI.emuStopError h (hn trivial)
  · exact hI.mmuFault (hI.mmuTranslateAddr h a x) (hn hr) a x code

end Quiet

variable (hI : Closed hc I) {e : Emu H}

include hI in
theorem Closed.answer (h : I e) (o : Op) (hack : o = .ackIrq → I { e with irq := false })
    (hstop : ∀ s, o = .stop s → I { e with state := .stopped, stopreason := s }) : (e.answer hc o).Ends I :=
  hI.toQuiet.answer h o hack hstop fun _ _ => hI.notify

/-- The state in which a request is answered: the registers are stored, calls have arrived. -/
def asked (hc : HostCode H) (r : Regs) (e : Emu H) : Emu H := Emu.arrive hc { e with regs := r }

/-- The two requests on which the rule says nothing. -/
def Allows (I : Emu H → Prop) (o : Op) (e : Emu H) : Prop :=
  match o with
  | .ackIrq => I { e with irq := false }
  | .stop s => I { e with state := .stopped, stopreason := s }
  | _ => True

namespace Closed

variable (hregs : ∀ e r, I e → I { e with regs := r })

include hI hregs

theorem handle (h : I e) {o : Op} {r : Regs} (ha : I (e.asked hc r) → Allows I o (e.asked hc r)) :
    (Emu.handle hc o r e).Ends I := by
  have he : I (e.asked hc r) := hI.arrive _ (hregs e r h)
  have hh := ha he
  refine hI.answer he o ?_ ?_
  · rintro rfl
    exact hh
  · rintro s rfl
    exact hh

omit hI in
theorem putRegs {α : Type} {x : Out (Emu H) (α × Regs)} (hx : x.Ends I) : (Emu.putRegs x).Ends I :=
  hx.bind (fun _ hs => hs) fun v s hs => hregs s v.2 hs

theorem run {α : Type} {t : CpuTree α} (h : I e)
    (ha : ∀ o r s, Tree.Visit (Emu.handle hc) t e o r s → I (s.asked hc r) → Allows I o (s.asked hc r)) :
    (t.run (Emu.handle hc) e).Ends I :=
  Tree.run_visit (fun o r s hv hs => hI.handle hregs hs (ha o r s hv)) h

theorem runCpu {α : Type} {x : Cpu α} (h : I e)
    (ha : ∀ o r s, Tree.Visit (Emu.handle hc) (x.run e.regs) e o r s → I (s.asked hc r) →
      Allows I o (s.asked hc r)) :
    (e.runCpu hc x).Ends I :=
  Closed.putRegs hregs (hI.run hregs h ha)

end Closed

/-- `rk65c02_exec` up to the point where the registers are stored. -/
def execRun (hc : HostCode H) (e : Emu H) : Out (Emu H) (Unit × Regs) :=
  (Rk65c02.exec.run e.regs).run (Emu.handle hc) e

/-- Its part before the instruction. -/
def fetchRun (hc : HostCode H) (e : Emu H) : Out (Emu H) (Option Instruction × Regs) :=
  (execFetch.run e.regs).run (Emu.handle hc) e

/-- The instruction that `rk65c02_exec` executes, if it comes to that. -/
def fetched (hc : HostCode H) (e : Emu H) : Option Instruction :=
  match e.fetchRun hc with
  | .ok v _ => v.1
  | _ => none

/-- `rk65c02_exec` enters a pending interrupt. -/
def takesIrq (hc : HostCode H) (e : Emu H) : Bool := (e.asked hc e.regs).irq && !e.regs.flag pIrqDisable

/-- The interrupt line as an instruction of a block finds it. Native code does not look at it;
an instruction without native code is left to `rk65c02_exec`, which does. -/
def lineFor (hc : HostCode H) (e : Emu H) (i : Instruction) : Bool :=
  (emitCase i.opcode).isNone && (e.asked hc e.regs).irq

theorem execRun_eq (hc : HostCode H) (e : Emu H) : e.execRun hc =
    (e.fetchRun hc).bind fun v s => ((execRest e.regs.PC v.1).run v.2).run (Emu.handle hc) s := by
  rw [execRun, exec_eq]
  simp only [StateT.run_bind, StateT.run_get, Tree.pure_eq, Tree.done_bind, Tree.run_bind]
  rfl

theorem fetchRun_eq (hc : HostCode H) (e : Emu H) : e.fetchRun hc =
    if e.takesIrq hc then
      ((Rk65c02.irq.run e.regs).run (Emu.handle hc) (e.asked hc e.regs)).bind fun v s =>
      (fetchHere.run v.2).run (Emu.handle hc) s
    else (fetchHere.run e.regs).run (Emu.handle hc) (e.asked hc e.regs) := by
  rw [fetchRun, execFetch_run, Tree.run_op]
  change Tree.run _ (if e.takesIrq hc then _ else _) _ = _
  split
  · rw [Tree.run_bind]
    rfl
  · rfl

/-- Interrupt entry ends with the line low. -/
theorem irq_run_low {v : Unit × Regs} {r : Regs} {s : Emu H}
    (hr : (Rk65c02.irq.run r).run (Emu.handle hc) e = .ok v s) : s.irq = false := by
  rw [irq_eq, StateT.run_bind, Tree.run_bind] at hr
  cases hv : (irqVector.run r).run (Emu.handle hc) e with
  | ok w s₁ =>
    rw [hv] at hr
    change Out.ok _ { s₁.asked hc w.2 with irq := false } = Out.ok v s at hr
    cases hr
    rfl
  | exit s₁ =>
    rw [hv] at hr
    cases hr
  | stuck =>
    rw [hv] at hr
    cases hr

namespace Closed

variable (hregs : ∀ e r, I e → I { e with regs := r })

include hI hregs

theorem fetchHere (h : I e) (r : Regs) : ((fetchHere.run r).run (Emu.handle hc) e).Ends I := by
  refine hI.run hregs h fun o r' s hv _ => ?_
  have ho := (fetchHere_keeps (G := fun _ => True) r trivial).visit hv
  cases o <;> trivial

theorem irq (h : I e) (r : Regs) (hack : ∀ s, I s → I { s with irq := false }) :
    ((Rk65c02.irq.run r).run (Emu.handle hc) e).Ends I := by
  refine hI.run hregs h fun o r' s hv hs => ?_
  have ho := (irq_keeps (G := fun _ => True) r trivial).visit hv
  cases o <;> first | exact hack _ hs | trivial

theorem fetchRun (ha : I (e.asked hc e.regs))
    (hack : e.takesIrq hc = true → ∀ s, I s → I { s with irq := false }) : (e.fetchRun hc).Ends I := by
  rw [fetchRun_eq]
  split
  · next ht => exact (hI.irq hregs ha _ (hack ht)).bind (fun _ hs => hs) fun v s hs => hI.fetchHere hregs hs v.2
  · exact hI.fetchHere hregs ha _

/-- An instruction after its fetch: only `BRK`, `WAI` and `STP` need a look. -/
theorem execInsn (h : I e) (tpc : Addr) (i : Instruction) (r : Regs)
    (hack : i.emul = .brk → ∀ s, I s → I { s with irq := false })
    (hwai : i.emul = .wai → ∀ s, I s → I { s with state := .stopped, stopreason := .wai })
    (hstp : i.emul = .stp → ∀ s, I s → I { s with state := .stopped, stopreason := .stp }) :
    (((Rk65c02.execInsn tpc i).run r).run (Emu.handle hc) e).Ends I := by
  refine hI.run hregs h fun o r' s hv hs => ?_
  have ho := (execInsn_keeps (G := fun _ => True) tpc i r trivial).visit hv
  rcases ho with ho | ⟨rfl, -⟩ | ⟨t, rfl, -⟩
  · cases o with
    | ackIrq => exact hack ho.1 _ hs
    | stop q =>
      rcases ho.1 with ⟨hm, rfl⟩ | ⟨hm, rfl⟩
      · exact hwai hm _ hs
      · exact hstp hm _ hs
    | _ => trivial
  · trivial
  · trivial

theorem execRest (h : I e) (tpc : Addr) (v : Option Instruction × Regs)
    (hbreak : ∀ s, I s → I { s with state := .stopped, stopreason := .breakpoint })
    (hinsn : ∀ i, v.1 = some i → (((Rk65c02.execInsn tpc i).run v.2).run (Emu.handle hc) e).Ends I) :
    (((Rk65c02.execRest tpc v.1).run v.2).run (Emu.handle hc) e).Ends I := by
  obtain ⟨i, r⟩ := v
  cases i with
  | none =>
    refine hI.run hregs h fun o r' s' hv hs => ?_
    cases hv with
    | here => exact hbreak _ hs
    | later _ hk => cases hk
  | some i => exact hinsn i rfl

/-- The rule for `rk65c02_exec`, from the state in which it has looked at the line. -/
theorem execRun (ha : I (e.asked hc e.regs)) (hack : e.takesIrq hc = true → ∀ s, I s → I { s with irq := false })
    (hbreak : ∀ s, I s → I { s with state := .stopped, stopreason := .breakpoint })
    (hinsn : ∀ i r s, e.fetchRun hc = .ok (some i, r) s → I s →
      (((Rk65c02.execInsn e.regs.PC i).run r).run (Emu.handle hc) s).Ends I) : (e.execRun hc).Ends I := by
  have hf := hI.fetchRun hregs ha hack
  rw [execRun_eq]
  cases hr : e.fetchRun hc with
  | ok v s =>
    rw [hr] at hf
    refine hI.execRest hregs hf _ v hbreak fun i hi => hinsn i v.2 s ?_ hf
    rw [hr, ← hi]
  | exit s =>
    rw [hr] at hf
    exact hf
  | stuck => trivial

end Closed

end Emu

end Rk65c02
