import Rk65c02.Recording

/-! The status register: at every instruction boundary the unused bit is set and the break
bit is clear. -/

namespace Rk65c02

open Resumption

variable {H : Type} {hc : HostCode H}

namespace Emu

theorem arrive_regs (hc : HostCode H) (e : Emu H) : (e.arrive hc).regs = e.regs := by
  rw [arrive_eq, foldl_regs]

/-- Between pieces of code nothing changes the registers. -/
theorem steady_regs (hc : HostCode H) (p : Regs → Prop) : Steady hc fun e => p e.regs where
  arrive e h := by
    rw [arrive_regs]
    exact h
  callback e c _ h := by
    rw [hostReturns, foldl_regs]
    exact h
  notify e h := by
    unfold maybeCallOnStop
    split
    · exact h
    · rw [hostReturns, foldl_regs]
      exact h
  mmu _ _ h := h
  ram _ _ _ _ h := h
  fault _ _ _ _ h := h
  error _ h := h
  leave _ h := h
  note e a h := by
    obtain ⟨j, u, m, hn⟩ := e.noteGuestWrite_frame hc a
    rw [hn]
    exact h
  log _ _ h := h
  stopNow _ h _ := h
  countdown _ _ h := h
  engine _ _ _ _ _ _ h := h

/-- A request is answered, or the program left, with the registers of the request. -/
theorem handle_regs (hc : HostCode H) (o : Op) (r : Regs) (e : Emu H) : (handle hc o r e).Ends fun s =>
    s.regs = r := by
  have h : (e.asked hc r).regs = r := arrive_regs hc _
  exact (steady_regs hc (· = r)).answer h o (fun _ => h) fun _ _ => h

theorem handleNative_regs (hc : HostCode H) (o : NOp) (r : Regs) (e : Emu H) :
    (handleNative hc o r e).Ends fun s => s.regs = r := by
  cases o with
  | base o => exact handle_regs hc o r e
  | _ => exact arrive_regs hc _

section Regs

variable {α : Type} {p : Regs → Prop} {e : Emu H}

theorem putRegs_ends {x : Out (Emu H) (α × Regs)} (hok : ∀ v s, x = .ok v s → p v.2)
    (hexit : ∀ s, x = .exit s → p s.regs) :
    (putRegs x).Ends fun s => p s.regs := by
  cases x with
  | ok v s => exact hok v s rfl
  | exit s => exact hexit s rfl
  | stuck => trivial

theorem runCpu_regs {x : Cpu α} (hx : (x.run e.regs).Sat (fun _ r => p r) fun v => p v.2) :
    (e.runCpu hc x).Ends fun s => p s.regs := by
  refine putRegs_ends (fun v s hr => hx.run_ok hr) fun s hr => ?_
  obtain ⟨o, s'', -, hp, -⟩ := hx.exit_note (handle_regs hc) hr
  exact hp

theorem runNative_regs {x : NCpu α} (hx : (x.run e.regs).Sat (fun _ r => p r) fun v => p v.2) :
    (e.runNative hc x).Ends fun s => p s.regs := by
  refine putRegs_ends (fun v s hr => hx.run_ok hr) fun s hr => ?_
  obtain ⟨o, s'', -, hp, -⟩ := hx.exit_note (handleNative_regs hc) hr
  exact hp

end Regs

theorem instructionFetchEmu_regs (pc : Addr) (r : Regs) :
    ((instructionFetchEmu pc).run r).Sat (fun _ r' => r' = r) fun v => v.2 = r := by
  unfold instructionFetchEmu
  refine ⟨rfl, fun op => ?_⟩
  dsimp only [Tree.bind]
  generalize (instructionDecode op).mode.operands = n
  match n with
  | 0 => exact rfl
  | 1 => exact ⟨rfl, fun _ => rfl⟩
  | _ + 2 => exact ⟨rfl, fun _ => ⟨rfl, fun _ => rfl⟩⟩

/-- Compilation leaves the registers alone. -/
theorem compileBlock_regs {p : Regs → Prop} {e : Emu H} (h : p e.regs) (pc : Addr) :
    (e.jitCompileBlock hc pc).Ends fun s => p s.regs := by
  refine (steady_regs hc p).compileBlock (fun _ _ h => h) h fun pc' e' _ h => runCpu_regs ?_
  exact (instructionFetchEmu_regs pc' e'.regs).mono (fun _ r hr => hr ▸ h) fun v hv => hv ▸ h

end Emu

section Exec

variable {G : Byte → Prop} [Respected G]

/-- A whole `rk65c02_exec` ends with a good status register. -/
theorem exec_status (r : Regs) (hr : G r.P) : (Rk65c02.exec.run r).Sat (fun _ _ => True) fun v => G v.2.P := by
  have hany : ∀ {α : Type} {p : Op → Regs → Prop} {x : Cpu α}, Keeps G p x → Keeps G (fun _ _ => True) x :=
    fun h r hr => (h r hr).mono (fun _ _ _ => trivial) fun _ h => h
  have hentry : Keeps G (fun _ _ => True) hardwareEntry :=
    keeps_bind (keeps_request fun _ _ => trivial) fun _ => keeps_bind keeps_get fun _ =>
      keeps_ite (hany irq_keeps) (keeps_pure _)
  rw [exec_eq]
  refine keeps_bind keeps_get
    (fun r' => keeps_bind (keeps_bind hentry fun _ => hany fetchHere_keeps) fun i => ?_) r hr
  cases i with
  | none => exact keeps_request fun _ _ => trivial
  | some i => exact hany (execInsn_keeps _ i)

end Exec

/-- No push of a `BRK` is refused in a way that abandons it. -/
def Emu.BrkPushes (hc : HostCode H) (e : Emu H) : Prop :=
  ∀ i r s, e.fetchRun hc = .ok (some i, r) s → i.emul = .brk → ∀ a v r' s' s'',
    ((execInsn e.regs.PC i).run r).Visit (Emu.handle hc) s (.write a v) r' s' →
      Emu.handle hc (.write a v) r' s' ≠ .exit s''

theorem Emu.fetchRun_status (hc : HostCode H) {e : Emu H} (h : StatusOk e.regs.P) :
    (∀ v s, e.fetchRun hc = .ok v s → StatusOk v.2.P) ∧ ∀ s, e.fetchRun hc = .exit s → StatusOk s.regs.P := by
  have hentry : Keeps StatusOk (fun _ r => StatusOk r.P) hardwareEntry := by
    refine keeps_bind (keeps_request fun _ h => h) fun _ => keeps_bind keeps_get fun _ =>
      keeps_ite ?_ (keeps_pure _)
    exact fun r hr => (irq_keeps r hr).mono (fun o r ho => by cases o <;> first | exact ho | exact ho.elim)
      fun _ h => h
  have hx : (execFetch.run e.regs).Sat (fun _ r => StatusOk r.P) fun v => StatusOk v.2.P := by
    refine keeps_bind hentry (fun _ r hr => ?_) e.regs h
    exact (fetchHere_keeps r hr).mono (fun o r ho => by cases o <;> first | exact ho | exact ho.elim) fun _ h => h
  refine ⟨fun v s hr => hx.run_ok hr, fun s hr => ?_⟩
  obtain ⟨o, s'', -, hp, -⟩ := hx.exit_note (Emu.handle_regs hc) hr
  exact hp

theorem Emu.execRun_exit_status {e s : Emu H} (h : StatusOk e.regs.P) (hb : e.BrkPushes hc)
    (hr : e.execRun hc = .exit s) :
    StatusOk s.regs.P := by
  obtain ⟨hok, hexit⟩ := e.fetchRun_status hc h
  rw [execRun_eq] at hr
  rcases Out.of_bind_exit hr with hf | ⟨⟨i, r⟩, s₁, hf, hr⟩
  · exact hexit _ hf
  · cases i with
    | none => cases hr
    | some i =>
      have hx := execInsn_keeps (G := StatusOk) e.regs.PC i r (hok _ _ hf)
      obtain ⟨o, s'', hv, ho, he⟩ := hx.exit_note (Emu.handle_regs hc) hr
      rcases ho with ho | ho | ⟨t, -, ho⟩
      · cases o with
        | write a w => exact ho.resolve_left fun him => hb i r s₁ hf him a w _ _ _ hv he
        | read a => exact ho
        | ackIrq => exact ho.2
        | stop q => exact ho.2
        | _ => exact ho.elim
      · exact ho.2
      · exact ho

namespace Run

/-- `BRK` is not abandoned in the middle of its pushes by the code of a block. -/
def BrkPushes (hc : HostCode H) (c : Run H) : Prop :=
  ∀ b k i, c.Enters b k i → emitCase i.opcode = none → c.emu.BrkPushes hc

variable {c : Run H}

theorem native_status (h : StatusOk c.emu.regs.P) (hb : c.BrkPushes hc) {b : Block} {k : Nat} {i : Instruction}
    (he : c.Enters b k i) :
    (c.emu.runNative hc (nativeInsn ⟨insnAddrs b.startPc (b.fn.getD [])⟩ k i)).Ends fun s =>
    StatusOk s.regs.P := by
  cases hc' : emitCase i.opcode with
  | some ca =>
    exact Emu.runNative_regs (p := fun r => StatusOk r.P)
      ((nativeInsn_sat h hc' _ k).mono (fun _ _ hp => hp.2) fun _ hq => hq)
  | none =>
    rw [nativeInsn_fallback hc', Emu.runNative_ofCpu]
    have hx := exec_status c.emu.regs h
    cases hr : c.emu.execRun hc with
    | ok v s =>
      rw [show (Rk65c02.exec.run c.emu.regs).run (Emu.handle hc) c.emu = .ok v s from hr, Out.ok_bind]
      have hv : StatusOk v.2.P := hx.run_ok hr
      have hsat : ((fallbackControl (instructionDecode i.opcode)).run v.2).Sat (fun _ r => StatusOk r.P)
          fun w => StatusOk w.2.P := by
        unfold fallbackControl
        split
        · exact hv
        · exact ⟨hv, fun _ => ⟨hv, fun _ => hv⟩⟩
      refine Emu.putRegs_ends (p := fun r => StatusOk r.P) (fun w s' hr' => hsat.run_ok hr') fun s' hr' => ?_
      obtain ⟨o, s'', -, hp, -⟩ := hsat.exit_note (Emu.handleNative_regs hc) hr'
      exact hp
    | exit s =>
      rw [show (Rk65c02.exec.run c.emu.regs).run (Emu.handle hc) c.emu = .exit s from hr]
      exact Emu.execRun_exit_status h (hb b k i he hc') hr
    | stuck =>
      rw [show (Rk65c02.exec.run c.emu.regs).run (Emu.handle hc) c.emu = .stuck from hr]
      trivial

theorem exec_ok_status {e e' : Emu H} (h : StatusOk e.regs.P) (hr : e.exec hc = .ok () e') :
    StatusOk e'.regs.P := by
  obtain ⟨v, s, hx, hr⟩ := Out.of_bind_ok hr
  cases hr
  exact (exec_status e.regs h).run_ok hx

theorem step_status (h : StatusOk c.emu.regs.P) (hb : c.BrkPushes hc) : StatusOk (c.step hc).emu.regs.P := by
  have hS := Emu.steady_regs hc fun r => StatusOk r.P
  by_cases hd : c.phase = .done
  · unfold step
    rw [hd]
    exact h
  · have hx := ends_step (I := fun e => StatusOk e.regs.P) (J := fun e => StatusOk e.regs.P) (fun _ => hS.poll)
      (fun _ => hS.idle) hS.engine hS.mmu (fun _ h _ => hS.finish h)
      (fun e b e' _ hi hr => (Emu.compileBlock_regs (p := fun r => StatusOk r.P) hi _).ok hr) hd h
      (fun e e' _ hi hr => exec_ok_status hi hr) fun b k i he => native_status h hb he
    unfold Ends at hx
    split at hx <;> exact hx

end Run

theorem Emu.stepLoop_status {n : Nat} {e e' : Emu H} (h : StatusOk e.regs.P)
    (hr : Emu.stepLoop hc n e = .ok () e') :
    StatusOk e'.regs.P := by
  have hS := Emu.steady_regs hc fun r => StatusOk r.P
  induction n generalizing e with
  | zero =>
    cases hr
    exact h
  | succ n ih =>
    unfold Emu.stepLoop at hr
    split at hr
    · cases hr
      exact h
    · dsimp only at hr
      split at hr
      · cases hr
        exact hS.poll h
      · obtain ⟨v, s, hx, hr⟩ := Out.of_bind_ok hr
        exact ih (hS.poll (Run.exec_ok_status (hS.poll h) hx)) hr

theorem Emu.step_status {n : BitVec 16} {e e' : Emu H} (h : StatusOk e.regs.P) (hr : e.step hc n = .ok () e') :
    StatusOk e'.regs.P := by
  have hS := Emu.steady_regs hc fun r => StatusOk r.P
  obtain ⟨v, s, hx, hr⟩ := Out.of_bind_ok hr
  have hs : StatusOk s.regs.P := by
    refine Emu.stepLoop_status ?_ hx
    exact h
  have hp := hS.poll hs
  generalize s.pollHostControls hc = s' at hp hr
  have hfin : ∀ s : Emu H, StatusOk s.regs.P →
      StatusOk (if s.state = .stopped then s.maybeCallOnStop hc else s).regs.P := by
    intro s h
    split
    · exact hS.notify _ h
    · exact h
  cases hr
  refine hfin _ ?_
  split <;> exact hp

/-- Emulators a host can come to have: initialised, changed between calls, or run in a run
whose steps are all in `Q`. -/
inductive Emu.Session (hc : HostCode H) (edit : Emu H → Emu H → Prop) (Q : Run H → Prop) : Emu H → Prop
  | init (bus : Bus) (host : H) (regs : Regs) : Session hc edit Q (init bus host regs)
  | edit {e e' : Emu H} (h : Session hc edit Q e) (he : edit e e') : Session hc edit Q e'
  | run {e : Emu H} (h : Session hc edit Q e) (n : Nat) (hQ : ∀ m < n, Q (e.start.steps hc m)) :
      Session hc edit Q (e.start.steps hc n).emu
  | step {e e' : Emu H} (h : Session hc edit Q e) (n : BitVec 16) (hr : e.step hc n = .ok () e') :
      Session hc edit Q e'

/-- The host leaves the status register alone. -/
def SameStatus (e e' : Emu H) : Prop := e'.regs.P = e.regs.P

theorem Emu.start_regs (e : Emu H) : e.start.emu.regs = e.regs := by
  unfold start
  dsimp only
  split <;> rfl

theorem Emu.Session.status {e : Emu H} (h : e.Session hc SameStatus (Run.BrkPushes hc)) : StatusOk e.regs.P := by
  induction h with
  | init bus host regs => exact show StatusOk ((pUndefined ||| pIrqDisable) &&& ~~~pDecimal) by decide
  | edit _ he ih =>
    rw [show _ = _ from he]
    exact ih
  | @run e _ n hQ ih =>
    refine Run.steps_keeps (P := fun c => StatusOk c.emu.regs.P) (Q := Run.BrkPushes hc)
      (fun c h hq => Run.step_status h hq) ?_ n hQ
    rw [e.start_regs]
    exact ih
  | step _ n hr ih => exact Emu.step_status ih hr

/-- The byte of write number `n` of a program that begins with writes. -/
def pushed {α : Type} : Nat → CpuTree α → Option Byte
  | 0, .op (.write _ v) _ _ => some v
  | n + 1, .op (.write _ _) _ k => pushed n (k ())
  | _, _ => none

theorem pushed_irq (r : Regs) : pushed 2 (irq.run r) = some r.P := rfl

theorem pushed_brk (r : Regs) : pushed 2 (emulBrk.run r) = some (r.P ||| pBreak) := rfl

theorem pushed_php (r : Regs) : pushed 0 (emulPhp.run r) = some (r.P ||| pBreak ||| pUndefined) := rfl

theorem or_break : ∀ P : Byte, (P ||| pBreak) &&& pBreak = pBreak ∧
    (P ||| pBreak ||| pUndefined) &&& pBreak = pBreak := by
  decide +kernel

theorem StatusOk.break_clear {P : Byte} (h : StatusOk P) : P &&& pBreak = 0 := by
  revert P
  decide +kernel

/-- The byte that native code writes first, if it begins with a write. -/
def pushedNative {α : Type} : Tree NOp NOp.Ret Regs α → Option Byte
  | .op (.base (.write _ v)) _ _ => some v
  | _ => none

theorem pushed_nativePhp (ctx : EmitCtx) (k : Nat) {i : Instruction} (hi : i.opcode = 0x08) (r : Regs) :
    pushedNative ((nativeInsn ctx k i).run r) = some (r.P ||| pBreak ||| pUndefined) := by
  have hc : emitCase i.opcode = some (.push .P) := by
    rw [hi]
    decide +kernel
  rw [nativeInsn_eq_of_ne ctx k r hc (by decide)]
  unfold nativeProgram
  rw [hi]
  rfl

/-- As long as no push of a compiled `BRK` faults, the status register has `U` set and `B` clear after
any number of runs; an interrupt pushes it with `B` clear, `BRK` and `PHP` push it with `B` set. -/
theorem status_register (hc : HostCode H) {e : Emu H} (h : e.Session hc SameStatus (Run.BrkPushes hc)) :
    StatusOk e.regs.P ∧ (∃ v, pushed 2 (irq.run e.regs) = some v ∧ v &&& pBreak = 0) ∧
      (∀ r, ∃ v, pushed 2 (emulBrk.run r) = some v ∧ v &&& pBreak = pBreak) ∧
      (∀ r, ∃ v, pushed 0 (emulPhp.run r) = some v ∧ v &&& pBreak = pBreak) ∧
      ∀ ctx k i r, i.opcode = 0x08 →
        ∃ v, pushedNative ((nativeInsn ctx k i).run r) = some v ∧ v &&& pBreak = pBreak :=
  ⟨h.status, ⟨_, pushed_irq e.regs, h.status.break_clear⟩, fun r => ⟨_, pushed_brk r, (or_break r.P).1⟩,
    fun r => ⟨_, pushed_php r, (or_break r.P).2⟩, fun ctx k _ r hi =>
      ⟨_, pushed_nativePhp ctx k hi r, (or_break r.P).2⟩⟩

/-- An initialised emulator over RAM full of one byte. -/
def filledEmu (v : Byte) : Emu Unit := init (ramBus fun _ => v) () ⟨0, 0, 0, 0x0200, 0xFF, 0⟩

/-- No request of the next instruction leaves the block. -/
def Emu.staysInBlock (hc : HostCode H) (e : Emu H) : Bool :=
  match e.fetchRun hc with
  | .ok (some i, r) s => (((execInsn e.regs.PC i).run r).requests (Emu.handle hc) s).all fun x =>
    match Emu.handle hc x.1 x.2.1 x.2.2 with
    | .exit _ => false
    | _ => true
  | _ => true

theorem Emu.brkPushes_of_stays {e : Emu H} (h : e.staysInBlock hc = true) : e.BrkPushes hc := by
  intro i r s hf _ a v r' s' s'' hv hx
  rw [Emu.staysInBlock, hf] at h
  have hs := List.all_eq_true.1 h _ hv.mem_requests
  dsimp only at hs
  rw [hx] at hs
  cases hs

/-- `BRK` everywhere, with the JIT. -/
def breakingEmu : Emu Unit := (filledEmu 0x00).hostCall (.jitEnable true)

/-- Two compiled `BRK`s, one after the other. -/
theorem status_register_brk : (breakingEmu.start.steps (quietHost identity) 4).emu.regs.SP = 0xF9 ∧
    StatusOk (breakingEmu.start.steps (quietHost identity) 4).emu.regs.P := by
  have hstays : ∀ m < 4, (breakingEmu.start.steps (quietHost identity) m).emu.staysInBlock
    (quietHost identity) = true := by
    decide +kernel
  have hs : breakingEmu.Session (quietHost identity) SameStatus (Run.BrkPushes (quietHost identity)) :=
    .edit (.init _ _ _) (congrArg Regs.P (Emu.hostCall_frame (filledEmu 0x00) _).regs)
  refine ⟨by decide +kernel, (status_register (quietHost identity) (.run hs 4 fun m hm b k i _ _ => ?_)).1⟩
  exact Emu.brkPushes_of_stays (hstays m hm)

/-- An emulator with the JIT and this map switched on. -/
def stacklessEmu (v : Byte) : Emu Unit := ((filledEmu v).hostCall (.jitEnable true)).hostCall
    (.mmuSet (some 0) none true false)

/-- The first push of a compiled `BRK` faults, and the break bit stays in the status register. -/
theorem brk_fault_keeps_break :
    ((stacklessEmu 0x00).start.steps (quietHost withoutStack) 3).emu.Session (quietHost withoutStack) SameStatus
    (fun _ => True) ∧
      ((stacklessEmu 0x00).start.steps (quietHost withoutStack) 3).phase = .done ∧
      ((stacklessEmu 0x00).start.steps (quietHost withoutStack) 3).emu.state = .stopped ∧
      ¬StatusOk ((stacklessEmu 0x00).start.steps (quietHost withoutStack) 3).emu.regs.P := by
  have hj : ((filledEmu 0x00).hostCall (.jitEnable true)).Session (quietHost withoutStack) SameStatus
    (fun _ => True) :=
    .edit (.init _ _ _) (congrArg Regs.P (Emu.hostCall_frame (filledEmu 0x00) _).regs)
  have hm : (stacklessEmu 0x00).Session (quietHost withoutStack) SameStatus (fun _ => True) :=
    .edit hj (congrArg Regs.P (Emu.hostCall_frame _ _).regs)
  exact ⟨.run hm 3 fun _ _ => trivial, by decide +kernel⟩

end Rk65c02
