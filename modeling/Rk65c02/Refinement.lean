import Rk65c02.Coherence

/-! The JIT refines the interpreter: over RAM and without an MMU, every instruction of a block
is a step of the machine. -/

namespace Rk65c02

open Resumption Cpu

variable {H : Type} {hc : HostCode H}

/-- No call arrives from outside. -/
def HostCode.Undisturbed (hc : HostCode H) : Prop := ∀ t, hc.async t = []

theorem HostCode.Undisturbed.asked (hs : hc.Undisturbed) (r : Regs) (e : Emu H) :
    e.asked hc r = { e with regs := r, clock := e.clock + 1 } := by
  unfold Emu.asked Emu.arrive
  rw [hs]
  rfl

/-- What a request does to the stop, on the machine. -/
theorem Machine.answer_control {line : Bool} {m m' : Machine} {o : Op} {v : o.Ret}
    (ha : m.answer line o = .ok v m')
    (c : Emu.Control H) (hstate : c.state = m.state) (hreason : c.stopreason = m.stopreason) :
    (o.control c).state = m'.state ∧ (o.control c).stopreason = m'.stopreason := by
  cases o with
  | panic => cases ha
  | stop q =>
    cases ha
    exact ⟨rfl, rfl⟩
  | _ =>
    cases ha
    exact ⟨hstate, hreason⟩

theorem Op.control_quiet (o : Op) (c : Emu.Control H) (hirq : c.irq = false) : (o.control c).irq = false ∧
    (o.control c).stopRequested = c.stopRequested ∧ (o.control c).idleWait = c.idleWait ∧
    (o.control c).onStop = c.onStop := by
  cases o with
  | ackIrq => exact ⟨rfl, rfl, rfl, rfl⟩
  | _ => exact ⟨hirq, rfl, rfl, rfl⟩

namespace Emu

/-- Nothing is pending, and no callback would be called. -/
structure Still (e : Emu H) : Prop where
  irq : e.irq = false
  stopRequested : e.stopRequested = false
  tick : e.tick = none
  idleWait : e.idleWait = none
  onStop : e.onStop = none

/-- What a program sees of the emulator, the registers apart. -/
def machine (e : Emu H) : Machine := ⟨e.bus, e.state, e.stopreason⟩

/-- What the guest is: its registers and the machine. -/
def guest (e : Emu H) : Regs × Machine := (e.regs, e.machine)

/-- The emulator, reached from `e₀` by requests, has the memory of the machine. If nothing
disturbs it, as `q` says, it is the machine. -/
structure Tracks (q : Prop) (e₀ e : Emu H) (m : Machine) : Prop where
  bare : e.Bare
  bus : m.bus = e.bus
  same : e₀.SameRun e
  still : q → e.Still ∧ e.machine = m

variable {q : Prop} {e₀ e : Emu H} {m m' : Machine}

theorem Bare.congr {e' : Emu H} (h : e.Bare) (hbus : e'.bus = e.bus) (hmmu : e'.mmu = e.mmu)
    (hdebug : e'.debugging = e.debugging) (hcache : ∀ j, e'.jit = some j →
      j.Matches e'.bus.peek ∧ (j.Settled ∨ e'.inJitRun = true ∧ e'.useJit = false)) : e'.Bare := by
  obtain ⟨hb, ho, hr, hd, -⟩ := h
  unfold MmuOff at ho
  rw [← hmmu] at ho hr
  exact ⟨hbus ▸ hb, ho, hr, hdebug.trans hd, hcache⟩

namespace Tracks

/-- What the guest does not see may change. -/
theorem around (h : e₀.Tracks q e m) {j : Option Jit} (hsome : j.isSome = e.jit.isSome)
    (hblocks : e.inJitRun = true → j.map Jit.blocks = e.jit.map Jit.blocks)
    (hcache : ∀ k, j = some k → k.Matches e.bus.peek ∧ (k.Settled ∨ e.inJitRun = true ∧ e.useJit = false))
    (r : Regs) (t : Nat) (n : BitVec 32) :
    e₀.Tracks q { e with regs := r, clock := t, jit := j, jitLoopBudget := n } m := by
  obtain ⟨hb, hm, hsame, hs⟩ := h
  refine ⟨hb.congr rfl rfl rfl hcache, hm, hsame.trans ⟨rfl, rfl, rfl, hsome, hblocks⟩, fun hh => ⟨?_, (hs hh).2⟩⟩
  exact ⟨(hs hh).1.irq, (hs hh).1.stopRequested, (hs hh).1.tick, (hs hh).1.idleWait, (hs hh).1.onStop⟩

theorem withRegs (h : e₀.Tracks q e m) (r : Regs) (t : Nat) : e₀.Tracks q { e with regs := r, clock := t } m :=
  h.around rfl (fun _ => rfl) h.bare.cache r t e.jitLoopBudget

theorem arrive (hq : q → hc.Undisturbed) (h : e₀.Tracks q e m) (r : Regs) :
    e₀.Tracks q (e.asked hc r) m ∧ (e.asked hc r).jit = e.jit := by
  have hstill : q → (e.asked hc r).Still ∧ (e.asked hc r).machine = m := by
    intro hh
    rw [(hq hh).asked]
    exact (h.withRegs r _).still hh
  obtain ⟨i, s, t, hf⟩ := arrive_frame hc { e with regs := r }
  rw [show e.asked hc r = _ from hf] at hstill ⊢
  exact ⟨⟨h.bare.congr rfl rfl rfl h.bare.cache, h.bus,
    h.same.trans ⟨rfl, rfl, rfl, rfl, fun _ => rfl⟩, hstill⟩, rfl⟩

theorem answer (h : e₀.Tracks q e m) {line : Bool} {o : Op} {v : o.Ret} (ho : o = .irq → e.irq = line)
    (ha : m.answer line o = .ok v m') :
    ∃ e', e.answer hc o = .ok v e' ∧ e₀.Tracks q e' m' ∧ (o.isWrite = false → e'.jit = e.jit) := by
  obtain ⟨e', hr, hb, hbus, hsr, hcon, hjit⟩ := h.bare.answer h.bus ho ha
  refine ⟨e', hr, ⟨hb, hbus.symm, h.same.trans hsr, fun hh => ?_⟩, hjit⟩
  obtain ⟨hs, hm⟩ := h.still hh
  obtain ⟨hi, hq, hw, hn⟩ := o.control_quiet e.control hs.irq
  obtain ⟨hst, hre⟩ := Machine.answer_control ha e.control (congrArg Machine.state hm)
    (congrArg Machine.stopreason hm)
  rw [← hcon] at hi hq hw hn hst hre
  refine ⟨⟨hi, hq.trans hs.stopRequested, hsr.tick.trans hs.tick, hw.trans hs.idleWait, hn.trans hs.onStop⟩, ?_⟩
  change (⟨e'.bus, e'.state, e'.stopreason⟩ : Machine) = m'
  rw [hbus, show e'.state = m'.state from hst, show e'.stopreason = m'.stopreason from hre]

theorem handle (hq : q → hc.Undisturbed) (h : e₀.Tracks q e m) {line : Bool} {o : Op} {r : Regs} {v : o.Ret}
    (ho : o = .irq → (e.asked hc r).irq = line) (ha : Machine.handle line o r m = .ok v m') :
    ∃ e', Emu.handle hc o r e = .ok v e' ∧ e₀.Tracks q e' m' ∧ (o.isWrite = false → e'.jit = e.jit) := by
  obtain ⟨ht, hj⟩ := h.arrive hq r
  obtain ⟨e', hr, ht', hj'⟩ := ht.answer ho ha
  exact ⟨e', hr, ht', fun hw => (hj' hw).trans hj⟩

section Run

variable {α : Type} {t : CpuTree α} {a : α} {post : α → Prop} {line : Bool}

theorem run (hq : q → hc.Undisturbed) (h : e₀.Tracks q e m) (ht : t.Sat (fun o _ => o ≠ .irq) post)
    (hr : t.run (Machine.handle line) m = .ok a m') :
    ∃ e', t.run (Emu.handle hc) e = .ok a e' ∧ e₀.Tracks q e' m' :=
  ht.simulates (fun _ _ _ _ _ _ ho hh ha =>
    (hh.handle hq (fun hi => absurd hi ho) ha).imp fun _ h' => ⟨h'.1, h'.2.1⟩) h hr

/-- Code that stores nothing leaves the cache alone. -/
theorem run_jit (hq : q → hc.Undisturbed) (h : e₀.Tracks q e m)
    (ht : t.Sat (fun o _ => o ≠ .irq ∧ o.isWrite = false) post) (hr : t.run (Machine.handle line) m = .ok a m') :
    ∃ e', t.run (Emu.handle hc) e = .ok a e' ∧ e₀.Tracks q e' m' ∧ e'.jit = e.jit :=
  ht.simulates (L := fun s m => e₀.Tracks q s m ∧ s.jit = e.jit) (fun _ _ _ _ _ _ ho hh ha =>
    (hh.1.handle hq (fun hi => absurd hi ho.1) ha).imp fun _ h' =>
      ⟨h'.1, h'.2.1, (h'.2.2 ho.2).trans hh.2⟩) ⟨h, rfl⟩ hr

end Run

/-- `rk65c02_exec` is a step of the machine with the line as it finds it. -/
theorem execRun (hq : q → hc.Undisturbed) (h : e₀.Tracks q e m) (r : Regs) :
    ∃ e', (Rk65c02.exec.run r).run (Emu.handle hc) e = .ok ((), (Machine.step (e.asked hc r).irq (r, m)).1) e' ∧
      e₀.Tracks q e' (Machine.step (e.asked hc r).irq (r, m)).2 := by
  obtain ⟨k, hk, hs⟩ := exec_asks r
  have hr := Machine.exec_run (e.asked hc r).irq r m
  rw [hk] at hr ⊢
  change ∃ e', (k (e.asked hc r).irq).run (Emu.handle hc) (e.asked hc r) = _ ∧ _
  exact (h.arrive hq r).1.run hq ((hs _).mono (fun _ _ ho => ho.2) fun _ _ => trivial) hr

theorem exec (hq : q → hc.Undisturbed) (h : e₀.Tracks q e m) : ∃ e', e.exec hc = .ok () e' ∧
    e'.regs = (Machine.step (e.asked hc e.regs).irq (e.regs, m)).1 ∧
      e₀.Tracks q e' (Machine.step (e.asked hc e.regs).irq (e.regs, m)).2 := by
  obtain ⟨e', hr, ht⟩ := h.execRun hq e.regs
  refine ⟨{ e' with regs := (Machine.step (e.asked hc e.regs).irq (e.regs, m)).1 }, ?_, rfl, ?_⟩
  · unfold Emu.exec runCpu
    rw [hr]
    rfl
  · exact ht.withRegs _ e'.clock

end Tracks

/-- Every write that was noted has been processed. -/
def CacheSettled (e : Emu H) : Prop := ∀ j, e.jit = some j → j.Settled

theorem Bare.settled (h : e.Bare) (hu : e.useJit = true) : e.CacheSettled := fun j hj =>
  (h.cache j hj).2.resolve_right fun hh => Bool.false_ne_true (hh.2.symm.trans hu)

namespace Tracks

/-- Statistics do not matter. -/
theorem count (h : e₀.Tracks q e m) {f : Jit → Jit} (hf : ∀ j, f j = { j with stats := (f j).stats }) :
    e₀.Tracks q { e with jit := e.jit.map f } m ∧
      (e.CacheSettled → ({ e with jit := e.jit.map f } : Emu H).CacheSettled) := by
  have hsome : (e.jit.map f).isSome = e.jit.isSome := Option.isSome_map
  have hblocks : (e.jit.map f).map Jit.blocks = e.jit.map Jit.blocks := by
    rw [Option.map_map]
    refine Option.map_congr fun j _ => ?_
    exact (congrArg Jit.blocks (hf j)).trans rfl
  refine ⟨h.around hsome (fun _ => hblocks) (fun k hk => ?_) e.regs e.clock e.jitLoopBudget, fun hs k hk => ?_⟩
  all_goals obtain ⟨j, hj, rfl⟩ := Option.map_eq_some_iff.1 hk
  · obtain ⟨hm, hs⟩ := h.bare.cache j hj
    rw [hf j]
    exact ⟨hm.moves (.single (.note rfl)) fun _ _ _ _ _ _ hr => hr, hs⟩
  · rw [hf j]
    exact hs j hj

/-- Native code may look at the emulator, count, and set the budget. -/
theorem field (hq : q → hc.Undisturbed) (h : e₀.Tracks q e m) {o : NOp} (ho : o.isBase = false) (r : Regs) :
    (handleNative hc o r e).Leads (fun s => e₀.Tracks q s m ∧ (e.CacheSettled → s.CacheSettled))
    fun _ => False := by
  obtain ⟨ha, hj⟩ := h.arrive hq r
  have hset : e.CacheSettled → (e.asked hc r).CacheSettled := fun hs j hj' => hs j (hj ▸ hj')
  cases o with
  | base o => cases ho
  | setLoopBudget n => exact ⟨ha.around rfl (fun _ => rfl) ha.bare.cache _ _ n, hset⟩
  | countInsns n =>
    obtain ⟨ht, hs⟩ := ha.count
      (f := fun j => { j with stats := { j.stats with insnsExecuted := j.stats.insnsExecuted + n } })
      fun _ => rfl
    exact ⟨ht, fun hh => hs (hset hh)⟩
  | _ => exact ⟨ha, hset⟩

theorem fields (hq : q → hc.Undisturbed) (h : e₀.Tracks q e m) {α : Type} {t : Tree NOp NOp.Ret Regs α} {r : Regs}
    {post : α → Prop} (ht : t.Sat (fun o r' => o.isBase = false ∧ r' = r) post) :
    ∃ a e', t.run (handleNative hc) e = .ok a e' ∧ e₀.Tracks q e' m ∧
    (e.CacheSettled → e'.CacheSettled) ∧ post a := by
  have hl := ht.run_leads (h := handleNative hc) (s := e) (B := fun _ => False)
    (A := fun s => e₀.Tracks q s m ∧ (e.CacheSettled → s.CacheSettled)) (fun o r' s ho hs => ?_) ⟨h, id⟩
  · obtain ⟨a, e', hr, ht', hs⟩ := hl.answers
    exact ⟨a, e', hr, ht', hs, ht.run_ok hr⟩
  · exact (hs.1.field hq ho.1 r').mono (fun _ hh => ⟨hh.1, fun hh' => hh.2 (hs.2 hh')⟩) fun _ hh => hh

/-- The native code of an instruction, up to where control goes. -/
theorem body (hq : q → hc.Undisturbed) (h : e₀.Tracks q e m) {i : Instruction} {c : EmitCase} {r : Regs}
    (he : emitCase i.opcode = some c) (hi : Image.insnAt m.bus.peek r.PC = i) :
    ∃ e', ((withNext (instructionDecode i.opcode) (emulOnce (instructionDecode i.opcode) i)).run r).run
    (Emu.handle hc) e =
      .ok ((), (Machine.step false (r, m)).1) e' ∧ e₀.Tracks q e' (Machine.step false (r, m)).2 ∧
        (c.bails = false → e'.jit = e.jit) := by
  have hr := Machine.insn_run (show (false && !r.flag pIrqDisable) = false from Bool.false_and _) hi
  have hirq : ((withNext (instructionDecode i.opcode) (emulOnce (instructionDecode i.opcode) i)).run r).Sat
      (fun o _ => o ≠ .irq) fun _ => True := by
    have hx := emulOnce_keeps (G := fun _ => True) he
    refine ((keeps_ite hx (keeps_bind hx fun _ => keeps_modify fun _ h => h) :
      Keeps (fun _ => True) (fun o r => DataAsks o ∧ True) (withNext _ _)) r trivial).mono
        (fun o _ ho => ?_) fun _ _ => trivial
    rintro rfl
    exact ho.1
  by_cases hb : c.bails = true
  · obtain ⟨e', hx, ht⟩ := h.run hq hirq hr
    exact ⟨e', hx, ht, fun hf => Bool.noConfusion (hf.symm.trans hb)⟩
  · have hst := emitCase_storesNothing he (Bool.eq_false_iff.2 hb) r trivial
    obtain ⟨e', hx, ht, hj⟩ := h.run_jit hq (hirq.and hst) hr
    exact ⟨e', hx, ht, fun _ => hj⟩

end Tracks

theorem condBranch_case {op : Byte} (h : jitOpcodeIsCondBranch op = true) : emitCase op = some .condBranch := by
  simp only [jitOpcodeIsCondBranch, List.contains_iff_mem, List.mem_cons, List.not_mem_nil, or_false] at h
  rcases h with rfl | rfl | rfl | rfl | rfl | rfl | rfl | rfl <;> rfl

/-- Where control goes after an instruction of a block; `taken` says that it entered an interrupt. -/
structure Continues (ctx : EmitCtx) (i : Instruction) (taken : Bool) (e e' : Emu H) (next : Next) : Prop where
  settled : next ≠ .ret → e.CacheSettled → e'.CacheSettled
  falls : next = .fall → jitEndsBlock i = false → taken = false → e'.regs.PC = e.regs.PC + i.size
  jumps : ∀ t, next = .goto t → ctx.insnAddr[t]? = some e'.regs.PC ∧ emitCase i.opcode = some .condBranch

namespace Tracks

variable {ctx : EmitCtx} {k : Nat} {i : Instruction} {c : EmitCase}

/-- An instruction with native code is a step that does not look at the interrupt line. -/
theorem compiled (hq : q → hc.Undisturbed) (h : e₀.Tracks q e m) (he : emitCase i.opcode = some c)
    (hpc : e.regs.PC = ctx.insnAddr.getD k 0) (hi : Image.insnAt m.bus.peek e.regs.PC = i) :
    ∃ next e', e.runNative hc (nativeInsn ctx k i) = .ok next e' ∧ e'.regs = (Machine.step false (e.regs, m)).1 ∧
      e₀.Tracks q e' (Machine.step false (e.regs, m)).2 ∧ Continues ctx i false e e' next := by
  have hline : (false && !e.regs.flag pIrqDisable) = false := Bool.false_and _
  obtain ⟨s, hx, ht, hj⟩ := h.body hq he hi
  have hprog : e.runNative hc (nativeInsn ctx k i) = e.runNative hc
    (NCpu.ofCpu (withNext (instructionDecode i.opcode)
      (emulOnce (instructionDecode i.opcode) i)) >>= fun _ => if c = .condBranch then branchControl ctx k
        (branchTarget ctx k i (instructionDecode i.opcode).size) (branchTaken i.opcode (e.regs.P.setWidth 64))
      else if c.bails then bailOut else return .fall) := by
    unfold runNative
    rw [nativeInsn_eq he hpc]
    rfl
  rw [hprog, runNative_ofCpu, hx, Out.ok_bind]
  by_cases hb : c = .condBranch
  · subst hb
    obtain ⟨⟨next, r'⟩, e', hr, ht', hs, rfl, hfall, hgoto⟩ := ht.fields hq (branchControl_sat ctx k
      (branchTarget ctx k i (instructionDecode i.opcode).size) (branchTaken i.opcode (e.regs.P.setWidth 64)))
    have hpc' := Machine.step_branch hline hi he hpc
    rw [if_pos rfl, hr]
    refine ⟨next, _, rfl, rfl, ht'.withRegs _ _, fun _ hh => hs fun j hj' => hh j (hj rfl ▸ hj'), fun hn _ _ =>
      ?_, fun t hn => ?_⟩
    · rw [hfall hn, if_neg Bool.false_ne_true] at hpc'
      exact hpc'
    · rw [(hgoto t hn).1, if_pos rfl] at hpc'
      exact ⟨(hgoto t hn).2.trans (congrArg some hpc'.symm), he⟩
  · have hcb : jitOpcodeIsCondBranch i.opcode = false := by
      refine Bool.eq_false_iff.2 fun hh => hb ?_
      exact Option.some.inj (he.symm.trans (condBranch_case hh))
    have hpc' : jitEndsBlock i = false → (Machine.step false (e.regs, m)).1.PC = e.regs.PC + i.size := fun hend =>
      Machine.step_pc hline hi hend hcb
    rw [if_neg hb]
    by_cases hbail : c.bails = true
    · obtain ⟨ha, -⟩ := ht.arrive hq (Machine.step false (e.regs, m)).1
      obtain ⟨next, hr, hn⟩ := bailOut_run hc (Machine.step false (e.regs, m)).1 s
      rw [if_pos hbail, hr]
      refine ⟨next, _, rfl, rfl, ha.withRegs _ _, fun hne _ => ha.bare.settled (hn.resolve_left hne).2,
        fun _ hend _ => hpc' hend, fun t hgo => ?_⟩
      rcases hn with rfl | ⟨rfl, -⟩ <;> cases hgo
    · rw [if_neg hbail]
      exact ⟨_, _, rfl, rfl, ht.withRegs _ _, fun _ hs j hj' => hs j (hj (Bool.eq_false_iff.2 hbail) ▸ hj'),
        fun _ hend _ => hpc' hend, nofun⟩

/-- An instruction without native code is a step with the interrupt line as it finds it. -/
theorem fallback (hq : q → hc.Undisturbed) (h : e₀.Tracks q e m) (ctx : EmitCtx) (k : Nat)
    (he : emitCase i.opcode = none) (hi : Image.insnAt m.bus.peek e.regs.PC = i) :
    ∃ next e', e.runNative hc (nativeInsn ctx k i) = .ok next e' ∧
      e'.regs = (Machine.step (e.asked hc e.regs).irq (e.regs, m)).1 ∧
      e₀.Tracks q e' (Machine.step (e.asked hc e.regs).irq (e.regs, m)).2 ∧
      Continues ctx i (e.takesIrq hc) e e' next := by
  obtain ⟨s, hx, ht⟩ := h.execRun hq e.regs
  rw [nativeInsn_fallback he, runNative_ofCpu, hx, Out.ok_bind]
  dsimp only
  obtain ⟨⟨next, r'⟩, e', hr, ht', -, rfl, hgo⟩ := ht.fields hq
    ((fallbackControl_sat (instructionDecode i.opcode)).mono (fun _ _ ho => ho.1) fun _ hv => hv)
  obtain ⟨next', s', hr', hn⟩ := fallbackControl_run hc (instructionDecode i.opcode)
    (Machine.step (e.asked hc e.regs).irq (e.regs, m)).1 s
  cases hr.symm.trans hr'
  rw [hr]
  refine ⟨next, _, rfl, rfl, ht'.withRegs _ _, fun hne _ => ?_, fun _ hend htaken =>
    ?_, fun t ht => absurd ht (hgo t)⟩
  · exact ht'.bare.settled (hn.resolve_left hne).2.1
  · refine Machine.step_pc htaken hi hend (Bool.eq_false_iff.2 fun hh => ?_)
    cases he.symm.trans (condBranch_case hh)

/-- Every instruction of a block is a step, with the line as it finds it. -/
theorem native (hq : q → hc.Undisturbed) (h : e₀.Tracks q e m) (ctx : EmitCtx) (k : Nat)
    (hpc : e.regs.PC = ctx.insnAddr.getD k 0) (hi : Image.insnAt m.bus.peek e.regs.PC = i) :
    ∃ next e', e.runNative hc (nativeInsn ctx k i) = .ok next e' ∧
      e'.regs = (Machine.step (e.lineFor hc i) (e.regs, m)).1 ∧
      e₀.Tracks q e' (Machine.step (e.lineFor hc i) (e.regs, m)).2 ∧
      Continues ctx i (e.lineFor hc i && !e.regs.flag pIrqDisable) e e' next := by
  unfold lineFor
  cases he : emitCase i.opcode with
  | some c => exact h.compiled hq he hpc hi
  | none => exact h.fallback hq ctx k he hi

theorem lineFor (hq : q → hc.Undisturbed) (h : e₀.Tracks q e m) (hq' : q) (i : Instruction) :
    e.lineFor hc i = false := by
  have hlow : (e.asked hc e.regs).irq = false := ((h.arrive hq e.regs).1.still hq').1.irq
  rw [Emu.lineFor, hlow, Bool.and_false]

end Tracks

/-- The running block is before its instruction `k`: `PC` is at the label, and the block is what
memory holds. -/
structure At (e : Emu H) (b : Block) (k : Nat) : Prop where
  bare : e.Bare
  inJitRun : e.inJitRun = true
  settled : e.CacheSettled
  here : ∃ j, e.jit = some j ∧ b ∈ j.blocks
  active : b.active = true
  pc : e.regs.PC = (insnAddrs b.startPc (b.fn.getD [])).getD k 0
  lt : k < (b.fn.getD []).length

namespace At

variable {b : Block} {k k' : Nat} {i : Instruction}

theorem formed (h : e.At b k) : b.Formed (b.fn.getD []) ∧ Reads e.bus.peek b.startPc (b.fn.getD []) := by
  obtain ⟨j, hj, hb⟩ := h.here
  obtain ⟨insns, hfn⟩ := Option.isSome_iff_exists.1 h.active
  rw [hfn]
  exact ⟨((h.bare.cache j hj).1.code b hb insns hfn).1, (h.bare.cache j hj).1.settled (h.settled j hj) hb hfn⟩

theorem insn (h : e.At b k) (hi : (b.fn.getD [])[k]? = some i) : Image.insnAt e.bus.peek e.regs.PC = i := by
  rw [h.pc]
  exact h.formed.2.at hi

/-- Control stays on the labels as long as no interrupt is entered. -/
theorem next {e' : Emu H} {next : Next} (h : e.At b k) (hi : (b.fn.getD [])[k]? = some i)
    (hc : Continues ⟨insnAddrs b.startPc (b.fn.getD [])⟩ i false e e' next) (hb : e'.Bare) (hs : e.SameRun e')
    (hn : next = .goto k' ∨ next = .fall ∧ k' = k + 1 ∧ k' < (b.fn.getD []).length) : e'.At b k' := by
  have hret : next ≠ .ret := by
    rcases hn with rfl | ⟨rfl, -⟩ <;> exact Next.noConfusion
  have hpos : e'.regs.PC = (insnAddrs b.startPc (b.fn.getD [])).getD k' 0 ∧ k' < (b.fn.getD []).length := by
    rcases hn with rfl | ⟨rfl, rfl, hlt⟩
    · have hj : (insnAddrs b.startPc (b.fn.getD []))[k']? = some e'.regs.PC := (hc.jumps k' rfl).1
      rw [List.getD_eq_getElem?_getD, hj, ← Run.insnAddrs_length b.startPc]
      exact ⟨rfl, (List.getElem?_eq_some_iff.1 hj).1⟩
    · refine ⟨?_, hlt⟩
      rw [hc.falls rfl (h.formed.1.inner i (mem_dropLast_of_lt hi hlt)) rfl, h.pc, insnAddrs_succ _ hi hlt]
  refine ⟨hb, hs.inJitRun.trans h.inJitRun, hc.settled hret h.settled, ?_, h.active, hpos.1, hpos.2⟩
  obtain ⟨j, hj, hmem⟩ := h.here
  have hblocks := hs.blocks h.inJitRun
  rw [hj] at hblocks
  obtain ⟨j', hj', hjj⟩ := Option.map_eq_some_iff.1 hblocks
  exact ⟨j', hj', hjj ▸ hmem⟩

end At

/-- Entering a block puts `PC` at its first label. -/
theorem Bare.enter {b : Block} {c : Run H} (h : c.emu.Bare) (hout : c.emu.inJitRun = false) (ha : b.active = true)
    (hb : ∃ k, c.emu.jit = some k ∧ b ∈ k.blocks) (hpc : b.startPc = c.emu.regs.PC) :
    (c.enterBlock b).emu.At b 0 := by
  obtain ⟨k, hk, hmem⟩ := hb
  obtain ⟨insns, hfn⟩ := Option.isSome_iff_exists.1 ha
  have hpos := ((h.cache k hk).1.code b hmem insns hfn).1.count.1
  have hset : c.emu.CacheSettled := fun j hj =>
    (h.cache j hj).2.resolve_right fun hh => Bool.false_ne_true (hout.symm.trans hh.1)
  have htr : c.emu.Tracks False c.emu c.emu.machine := ⟨h, rfl, .refl _, False.elim⟩
  obtain ⟨ht, hset'⟩ := htr.count (f := fun j => { j with stats := { j.stats with
    blocksExecuted := j.stats.blocksExecuted + 1, insnsExecuted :=
      j.stats.insnsExecuted + b.numInsns } }) fun _ => rfl
  have hcache := hset' hset
  refine ⟨ht.bare.congr rfl rfl rfl fun j hj => ⟨(ht.bare.cache j hj).1, .inl (hcache j hj)⟩, rfl, hcache,
    ⟨_, congrArg (Option.map _) hk, hmem⟩, ha, ?_, ?_⟩
  · rw [hfn]
    cases insns with
    | nil => cases hpos
    | cons i is => exact hpc.symm
  · rwa [hfn]

end Emu

end Rk65c02
