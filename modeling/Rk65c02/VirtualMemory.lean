import Rk65c02.Conformance
import Rk65c02.Loader
import Rk65c02.Remaps

/-! Virtual memory is memory. Under a mapping that gives every address a place of its own, each
instruction does what it does without an MMU, in compiled code as in the interpreter. -/

namespace Rk65c02

open Resumption Cpu

variable {H : Type} {hc : HostCode H} {tr : Translate} {phys : Addr → PAddr}

/-- Every address may be fetched, read and written, at a place of its own. -/
structure Translate.Flat (tr : Translate) (phys : Addr → PAddr) : Prop where
  outcome : ∀ v c, tr.outcome v c = .ok (phys v)
  injective : Function.Injective phys

theorem Translate.Flat.tracked (h : tr.Flat phys) : tr.Tracked := by
  intro v w p hv hw
  rw [h.outcome] at hv hw
  exact .inl (h.injective (Except.ok.inj (hv.trans hw.symm)))

/-- The bus `vb` is what the guest sees of the bus. -/
structure Bus.Shows (phys : Addr → PAddr) (b vb : Bus) : Prop where
  once : vb.RamOnce
  byte : ∀ v, vb.peek v = b.physByte (phys v)
  room : ∀ v, vb.mapped v = (b.locate (phys v)).isSome

theorem Bus.Shows.stored {b vb : Bus} (h : b.Shows phys vb) (hinj : Function.Injective phys)
    (hs : AddressedStore.Separate b.locate) (a : Addr) (v : Byte) :
    (b.stored (phys a) v).Shows phys (vb.poke a v) := by
  refine ⟨h.once.poke a v, fun w => ?_, fun w => ?_⟩
  · rw [Bus.physByte_stored hs, h.once.peek_poke_eq, h.room]
    by_cases hw : w = a
    · subst hw
      by_cases hl : (b.locate (phys w)).isSome = true
      · rw [if_pos hl, if_pos ⟨rfl, hl⟩, Function.update_self]
      · rw [if_neg hl, if_neg (fun hh => hl hh.2), h.byte]
    · have hne : ¬(phys w = phys a ∧ (b.locate (phys a)).isSome = true) := fun hh => hw (hinj hh.1)
      rw [if_neg hne]
      split
      · rw [Function.update_of_ne hw, h.byte]
      · exact h.byte w
  · obtain ⟨ram, hr⟩ := Bus.stored_eq b (phys a) v
    rw [hr]
    exact (congrArg Option.isSome (Bus.poke_accessDevice vb a v w)).trans (h.room w)

namespace Emu

variable {wt : Watch tr}

/-- The emulator runs the machine in virtual memory, and nothing else acts on it. -/
structure Hosts (hc : HostCode H) (wt : Watch tr) (phys : Addr → PAddr) (e : Emu H) (m : Machine) : Prop where
  coherent : e.Coherent hc wt
  backed : ∀ v, e.bus.Backed (phys v)
  reexec : e.mmu.faultReexec = false
  debugging : e.debugging = false
  still : e.Still
  shows : e.bus.Shows phys m.bus
  state : e.state = m.state
  stopreason : e.stopreason = m.stopreason

/-- What neither a translation nor the JIT changes. -/
def surface (e : Emu H) :=
  (e.bus, e.state, e.stopreason, e.debugging, e.irq, e.stopRequested, e.tick, e.idleWait, e.onStop)

section Reexec

variable (hc : HostCode H) (e : Emu H)

theorem translatePaddr_reexec (a : Addr) (x : Access) :
    (e.jitTranslatePaddr hc a x).2.mmu.faultReexec = e.mmu.faultReexec := by
  unfold jitTranslatePaddr mmuTranslateCached
  dsimp only
  split
  · rfl
  · obtain ⟨t, ht⟩ := Mmu.translateAddr_tlb e.mmu (hc.callback e.mmu e.host) a x x.reqPerm
    exact (congrArg Mmu.faultReexec ht).trans rfl

theorem note_reexec (a : Addr) : (e.jitNoteGuestWrite hc a).mmu.faultReexec = e.mmu.faultReexec := by
  rcases note_mmu hc e a with h | ⟨j, h⟩
  · rw [h]
  · rw [h, jitPhysHit]
    split
    · rfl
    · exact translatePaddr_reexec hc e a .write

theorem physTags_reexec (b : Block) : (e.jitPhysTags hc b).2.mmu.faultReexec = e.mmu.faultReexec := by
  unfold jitPhysTags
  dsimp only
  split
  · have h₁ := translatePaddr_reexec hc e b.startPc .fetch
    generalize e.jitTranslatePaddr hc b.startPc .fetch = t at h₁ ⊢
    obtain ⟨_ | p, e₁⟩ := t
    · exact h₁
    · dsimp only
      split
      · have h₂ := translatePaddr_reexec hc e₁ (b.endPcExclusive - 1) .fetch
        generalize e₁.jitTranslatePaddr hc (b.endPcExclusive - 1) .fetch = t at h₂ ⊢
        obtain ⟨_ | q, e₂⟩ := t <;> exact h₂.trans h₁
      · exact h₁
  · rfl

end Reexec

section Answers

variable {e : Emu H} {m m' : Machine} (h : e.Hosts hc wt phys m)

include h

/-- What the guest does not see may change. -/
theorem Hosts.around {e' : Emu H} (hco : e'.Coherent hc wt) (hre : e'.mmu.faultReexec = e.mmu.faultReexec)
    (he : e'.surface = e.surface) : e'.Hosts hc wt phys m := by
  simp only [surface, Prod.mk.injEq] at he
  obtain ⟨hb, hstate, hreason, hd, hirq, hstop, htick, hidle, hon⟩ := he
  have hstill : e'.Still := ⟨hirq.trans h.still.irq, hstop.trans h.still.stopRequested, htick.trans h.still.tick,
    hidle.trans h.still.idleWait, hon.trans h.still.onStop⟩
  exact ⟨hco, hb ▸ h.backed, hre.trans h.reexec, hd.trans h.debugging, hstill, hb ▸ h.shows, hstate.trans h.state,
    hreason.trans h.stopreason⟩

theorem Hosts.withRegs (r : Regs) (t : Nat) : Hosts hc wt phys { e with regs := r, clock := t } m :=
  h.around (h.coherent.frame rfl rfl rfl rfl) rfl rfl

theorem Hosts.asked (hs : hc.Undisturbed) (r : Regs) : (e.asked hc r).Hosts hc wt phys m := by
  rw [hs.asked]
  exact h.withRegs r _

/-- A translation may fill the TLB. -/
theorem Hosts.translated {t : Byte → TlbEntry} (hco : Coherent hc wt { e with mmu := { e.mmu with tlb := t } }) :
    Hosts hc wt phys { e with mmu := { e.mmu with tlb := t } } m :=
  h.around hco rfl rfl

theorem Hosts.translateAddr (hf : tr.Flat phys) (a : Addr) (x : Access) :
    ∃ e', e.mmuTranslateAddr hc a x = (.ok (phys a), e') ∧ e'.Hosts hc wt phys m ∧ e'.jit = e.jit := by
  obtain ⟨t, ht⟩ := Mmu.translateAddr_tlb e.mmu (hc.callback e.mmu e.host) a x x.reqPerm
  have hco := h.coherent.translated a x
  have ho := h.coherent.maps.outcome a x
  have he : (e.mmuTranslateAddr hc a x).2 = { e with mmu := { e.mmu with tlb := t } } := by
    rw [← ht]
    rfl
  rw [he] at hco
  exact ⟨_, Prod.ext (ho.trans (hf.outcome a x)) he, h.translated hco, rfl⟩

theorem Hosts.read (hf : tr.Flat phys) (a : Addr) (x : Access) :
    ∃ e', e.memRead1 hc a x = .ok (m.bus.peek a) e' ∧ e'.Hosts hc wt phys m ∧ e'.jit = e.jit := by
  obtain ⟨e', ht, hh, hj⟩ := h.translateAddr hf a x
  refine ⟨e', ?_, hh, hj⟩
  have hr : e'.physRead1 hc (phys a) = (e'.bus.physByte (phys a), e') := by
    rw [physRead1_eq]
    unfold Emu.deviceRead1 Bus.physByte AddressedStore.load
    cases hl : e'.bus.locate (phys a) with
    | none => rfl
    | some l => exact if_pos (hh.backed a l hl)
  unfold Emu.memRead1 Emu.memReadMmu
  rw [if_pos h.coherent.accessors, ht]
  dsimp only
  rw [hr, hh.shows.byte]

/-- A store changes the byte of the guest, and what the JIT notes. -/
theorem Hosts.write (hf : tr.Flat phys) (hk : hc.KeepsMap) (a : Addr) (v : Byte) :
    ∃ e', e.memWrite1 hc a v = .ok () e' ∧ e'.Hosts hc wt phys { m with bus := m.bus.poke a v } := by
  have hends := h.coherent.write hk a v
  obtain ⟨e₁, ht, hh, -⟩ := h.translateAddr hf a .write
  obtain ⟨ram, hr⟩ := Bus.stored_eq e₁.bus (phys a) v
  have hst := hh.shows.stored hf.injective hh.coherent.separate a v
  have hw : e.memWrite1 hc a v = .ok () (jitNoteGuestWrite hc { e₁ with bus := e₁.bus.stored (phys a) v } a) := by
    unfold Emu.memWrite1 Emu.memWriteMmu
    rw [if_pos h.coherent.accessors, ht]
    dsimp only
    rw [physWrite1_eq, deviceWrite1_stored (hh.backed a)]
    rfl
  rw [hr] at hst hw
  have hreex := note_reexec hc { e₁ with bus := { e₁.bus with ram := ram } } a
  refine ⟨_, hw, ?_⟩
  rw [hw] at hends
  rcases report_cases hc { e₁ with bus := { e₁.bus with ram := ram } } a with
    ⟨t, hn⟩ | ⟨j, k, t, w, -, -, ⟨-, hn⟩ | ⟨-, hn⟩⟩
  all_goals
    rw [hn] at hends hreex ⊢
    exact ⟨hends, hh.backed, hreex.trans hh.reexec, hh.debugging,
      ⟨hh.still.irq, hh.still.stopRequested, hh.still.tick, hh.still.idleWait, hh.still.onStop⟩, hst, hh.state,
      hh.stopreason⟩

/-- A request is answered as the machine answers it. -/
theorem Hosts.answer (hf : tr.Flat phys) (hk : hc.KeepsMap) {o : Op} {v : o.Ret}
    (ha : m.answer false o = .ok v m') :
    ∃ e', e.answer hc o = .ok v e' ∧ e'.Hosts hc wt phys m' := by
  have hst := h.still
  obtain ⟨hbps, htrace, hdis⟩ := debugging_off h.debugging
  cases o with
  | fetch a | read a =>
    cases ha
    obtain ⟨e', hr, hh, -⟩ := h.read hf a _
    exact ⟨e', hr, hh⟩
  | write a w =>
    cases ha
    exact h.write hf hk a w
  | irq =>
    cases ha
    exact ⟨e, congrArg (Out.ok · e) hst.irq, h⟩
  | ackIrq =>
    cases ha
    exact ⟨_, rfl, h.coherent.frame rfl rfl rfl rfl, h.backed, h.reexec, h.debugging,
      ⟨rfl, hst.stopRequested, hst.tick, hst.idleWait, hst.onStop⟩, h.shows, h.state, h.stopreason⟩
  | stop q =>
    cases ha
    exact ⟨_, rfl, h.coherent.frame rfl rfl rfl rfl, h.backed, h.reexec, h.debugging,
      ⟨hst.irq, hst.stopRequested, hst.tick, hst.idleWait, hst.onStop⟩, h.shows, rfl, rfl⟩
  | panic => cases ha
  | isBreakpoint pc =>
    cases ha
    refine ⟨e, ?_, h⟩
    change Out.ok (e.bps.contains pc) e = _
    rw [hbps]
    rfl
  | disassemble pc =>
    cases ha
    refine ⟨e, ?_, h⟩
    change Out.ok () (e.disassembled hc pc) = _
    rw [disassembled, hdis, if_neg Bool.false_ne_true]
  | reexec =>
    cases ha
    refine ⟨e, ?_, h⟩
    change (if e.state = .stopped ∧ e.mmu.faultReexec = true then _ else Out.ok false e) = _
    rw [if_neg fun hh => Bool.false_ne_true (h.reexec.symm.trans hh.2)]
  | trace tpc i r =>
    cases ha
    refine ⟨e, ?_, h⟩
    change Out.ok () (e.tracePush _) = _
    rw [tracePush, htrace, if_neg Bool.false_ne_true]

theorem Hosts.run (hf : tr.Flat phys) (hk : hc.KeepsMap) (hs : hc.Undisturbed) {α : Type} {t : CpuTree α} {a : α}
    (hr : t.run (Machine.handle false) m = .ok a m') : ∃ e', t.run (Emu.handle hc) e = .ok a e' ∧
    e'.Hosts hc wt phys m' :=
  Tree.run_simulates (h := Emu.handle hc) (g := Machine.handle false) (L := Hosts hc wt phys)
    (fun _ r _ _ _ _ hh ha => (hh.asked hs r).answer hf hk ha) t h hr

/-- `rk65c02_exec` is a step of the machine. -/
theorem Hosts.exec (hf : tr.Flat phys) (hk : hc.KeepsMap) (hs : hc.Undisturbed) : ∃ e', e.exec hc = .ok () e' ∧
    e'.regs = (Machine.step false (e.regs, m)).1 ∧ e'.Hosts hc wt phys (Machine.step false (e.regs, m)).2 := by
  obtain ⟨e', hr, hh⟩ := h.run hf hk hs (Machine.exec_run false e.regs m)
  refine ⟨{ e' with regs := (Machine.step false (e.regs, m)).1 }, ?_, rfl, hh.withRegs _ e'.clock⟩
  unfold Emu.exec runCpu
  rw [hr]
  rfl

/-- Native code may look at the emulator, count, and set the budget. -/
theorem Hosts.field (hs : hc.Undisturbed) {o : NOp} (ho : o.isBase = false) (r : Regs) :
    (handleNative hc o r e).Leads (fun s => s.Hosts hc wt phys m) fun _ => False := by
  have ha := h.asked hs r
  cases o with
  | base o => cases ho
  | setLoopBudget n =>
    exact ha.around (ha.coherent.frame rfl rfl rfl rfl) rfl rfl
  | countInsns n =>
    refine ha.around (ha.coherent.recache rfl rfl rfl fun k hk => ?_) rfl rfl
    obtain ⟨j, hj, rfl⟩ := Option.map_eq_some_iff.1 hk
    exact ⟨j, hj, fun hco => hco.quiet (.single (.note rfl)) rfl rfl⟩
  | _ => exact ha

theorem Hosts.fields (hs : hc.Undisturbed) {α : Type} {t : Tree NOp NOp.Ret Regs α} {r : Regs} {post : α → Prop}
    (ht : t.Sat (fun o r' => o.isBase = false ∧ r' = r) post) :
    ∃ a e', t.run (handleNative hc) e = .ok a e' ∧ e'.Hosts hc wt phys m ∧ post a := by
  have hl := ht.run_leads (h := handleNative hc) (s := e) (A := fun s => s.Hosts hc wt phys m)
    (B := fun _ => False) (fun o r' s ho hh => hh.field hs ho.1 r') h
  obtain ⟨a, e', hr, hh⟩ := hl.answers
  exact ⟨a, e', hr, hh, ht.run_ok hr⟩

variable {ctx : EmitCtx} {k : Nat} {i : Instruction}

/-- An instruction with native code is a step of the machine. -/
theorem Hosts.compiled (hf : tr.Flat phys) (hk : hc.KeepsMap) (hs : hc.Undisturbed) {c : EmitCase}
    (he : emitCase i.opcode = some c) (hpc : e.regs.PC = ctx.insnAddr.getD k 0)
    (hi : Image.insnAt m.bus.peek e.regs.PC = i) : ∃ next e', e.runNative hc (nativeInsn ctx k i) = .ok next e' ∧
      e'.regs = (Machine.step false (e.regs, m)).1 ∧ e'.Hosts hc wt phys (Machine.step false (e.regs, m)).2 ∧
      (next = .fall → jitEndsBlock i = false → e'.regs.PC = e.regs.PC + i.size) ∧
      ∀ t, next = .goto t → ctx.insnAddr[t]? = some e'.regs.PC := by
  have hline : (false && !e.regs.flag pIrqDisable) = false := Bool.false_and _
  obtain ⟨s, hx, ht⟩ := h.run hf hk hs (Machine.insn_run hline hi)
  have hprog : e.runNative hc (nativeInsn ctx k i) = e.runNative hc
    (NCpu.ofCpu (withNext (instructionDecode i.opcode)
      (emulOnce (instructionDecode i.opcode) i)) >>= fun _ => if c = .condBranch then branchControl ctx k
        (branchTarget ctx k i (instructionDecode i.opcode).size) (branchTaken i.opcode (e.regs.P.setWidth 64))
      else if c.bails then bailOut else return .fall) := by
    unfold runNative
    rw [nativeInsn_eq he hpc]
    rfl
  rw [hprog, runNative_ofCpu, hx, Out.ok_bind]
  by_cases hb : c = .condBranch
  · subst hb
    obtain ⟨⟨next, r'⟩, e', hr, ht', rfl, hfall, hgoto⟩ := ht.fields hs (branchControl_sat ctx k
      (branchTarget ctx k i (instructionDecode i.opcode).size) (branchTaken i.opcode (e.regs.P.setWidth 64)))
    have hpc' := Machine.step_branch hline hi he hpc
    rw [if_pos rfl, hr]
    refine ⟨next, _, rfl, rfl, ht'.withRegs _ _, fun hn _ => ?_, fun t hn => ?_⟩
    · rw [hfall hn, if_neg Bool.false_ne_true] at hpc'
      exact hpc'
    · rw [(hgoto t hn).1, if_pos rfl] at hpc'
      exact (hgoto t hn).2.trans (congrArg some hpc'.symm)
  · have hcb : jitOpcodeIsCondBranch i.opcode = false :=
      Bool.eq_false_iff.2 fun hh => hb (Option.some.inj (he.symm.trans (condBranch_case hh)))
    have hpc' : jitEndsBlock i = false → (Machine.step false (e.regs, m)).1.PC = e.regs.PC + i.size := fun hend =>
      Machine.step_pc hline hi hend hcb
    rw [if_neg hb]
    by_cases hbail : c.bails = true
    · obtain ⟨next, hr, hn⟩ := bailOut_run hc (Machine.step false (e.regs, m)).1 s
      rw [if_pos hbail, hr]
      refine ⟨next, _, rfl, rfl, (ht.asked hs _).withRegs _ _, fun _ => hpc', fun t hgo => ?_⟩
      rcases hn with rfl | ⟨rfl, -⟩ <;> cases hgo
    · rw [if_neg hbail]
      exact ⟨_, _, rfl, rfl, ht.withRegs _ _, fun _ => hpc', nofun⟩

/-- So is one that is left to the interpreter. -/
theorem Hosts.native (hf : tr.Flat phys) (hk : hc.KeepsMap) (hs : hc.Undisturbed)
    (hpc : e.regs.PC = ctx.insnAddr.getD k 0) (hi : Image.insnAt m.bus.peek e.regs.PC = i) :
    ∃ next e', e.runNative hc (nativeInsn ctx k i) = .ok next e' ∧
      e'.regs = (Machine.step false (e.regs, m)).1 ∧ e'.Hosts hc wt phys (Machine.step false (e.regs, m)).2 ∧
      (next = .fall → jitEndsBlock i = false → e'.regs.PC = e.regs.PC + i.size) ∧
      ∀ t, next = .goto t → ctx.insnAddr[t]? = some e'.regs.PC := by
  cases he : emitCase i.opcode with
  | some c => exact h.compiled hf hk hs he hpc hi
  | none =>
    obtain ⟨s, hx, ht⟩ := h.run hf hk hs (Machine.exec_run false e.regs m)
    rw [nativeInsn_fallback he, runNative_ofCpu, hx, Out.ok_bind]
    obtain ⟨⟨next, r'⟩, e', hr, ht', rfl, hgo⟩ := ht.fields hs
      ((fallbackControl_sat (instructionDecode i.opcode)).mono (fun _ _ ho => ho.1) fun _ hv => hv)
    rw [hr]
    refine ⟨next, _, rfl, rfl, ht'.withRegs _ _, fun _ hend => ?_, fun t ht => absurd ht (hgo t)⟩
    refine Machine.step_pc (Bool.false_and _) hi hend (Bool.eq_false_iff.2 fun hh => ?_)
    cases he.symm.trans (condBranch_case hh)

end Answers

section Compiles

variable {e : Emu H} {m : Machine} (hf : tr.Flat phys) (hk : hc.KeepsMap) (hs : hc.Undisturbed)

include hf hk hs

theorem Hosts.build (h : e.Hosts hc wt phys m) (startPc : Addr) (n : Nat) (pc : Addr) :
    ∃ is e', e.jitBuildBlockInsns hc startPc n pc = .ok is e' ∧ e'.Hosts hc wt phys m ∧ e'.regs = e.regs := by
  induction n generalizing e pc with
  | zero => exact ⟨[], e, rfl, h, rfl⟩
  | succ n ih =>
    unfold jitBuildBlockInsns
    split
    · exact ⟨[], e, rfl, h, rfl⟩
    obtain ⟨s, hr, hh⟩ := h.run hf hk hs (Machine.fetchEmu_run false pc e.regs)
    have hrun : e.runCpu hc (instructionFetchEmu pc) = .ok (Image.insnAt m.bus.peek pc)
      { s with regs := e.regs } := by
      unfold Emu.runCpu
      rw [hr]
      rfl
    have hh' : Hosts hc wt phys { s with regs := e.regs } m := hh.withRegs e.regs s.clock
    rw [hrun, Out.ok_bind]
    split
    · exact ⟨[], _, rfl, hh', rfl⟩
    split
    · exact ⟨[], _, rfl, hh', rfl⟩
    split
    · exact ⟨[_], _, rfl, hh', rfl⟩
    · obtain ⟨is, s', hr', hs', hregs⟩ := ih hh' (pc + (Image.insnAt m.bus.peek pc).size)
      rw [hr', Out.ok_bind]
      exact ⟨_ :: is, s', rfl, hs', hregs⟩

/-- Compilation changes nothing the guest sees. -/
theorem Hosts.compile {j : Jit} (h : e.Hosts hc wt phys m) (ho : e.Outside) (hj : e.jit = some j)
    (hlt : j.activeBlocks < jitMaxActiveBlocks) (pc : Addr) :
    ∃ b e', e.jitCompileBlock hc pc = .ok b e' ∧ e'.Hosts hc wt phys m ∧ e'.regs = e.regs ∧
      ∀ x, b = some x → x.startPc = pc := by
  have hends := h.coherent.compile hk ho hj hlt pc
  have hrec : Hosts hc wt phys { e with jit := some (jitRecord j pc) } m :=
    h.around (h.coherent.record hj pc) rfl rfl
  obtain ⟨is, s, hb, hh, hregs⟩ := hrec.build hf hk hs pc jitBlockMaxInsns pc
  have hpc := recordAt_startPc j pc
  rw [compileBlock_some hj] at hends ⊢
  split
  · refine ⟨_, _, rfl, hrec, rfl, fun x hx => ?_⟩
    cases hx
    exact hpc
  · next ha =>
    rw [if_neg ha, hb, Out.ok_bind] at hends
    rw [hb, Out.ok_bind]
    unfold compileEnd at hends ⊢
    split
    · exact ⟨none, s, rfl, hh, hregs, nofun⟩
    · next hne =>
      rw [if_neg hne] at hends
      have hre := physTags_reexec hc s { recordAt j pc with endPcExclusive := blockEnd pc is }
      have hst' : (s.jitPhysTags hc { recordAt j pc with endPcExclusive := blockEnd pc is }).1.startPc = pc := by
        obtain ⟨_, _, _, _, hb⟩ := s.physTags_block hc { recordAt j pc with endPcExclusive := blockEnd pc is }
        rw [hb]
        exact hpc
      obtain ⟨t, ht⟩ := physTags_mmu hc s { recordAt j pc with endPcExclusive := blockEnd pc is }
      generalize s.jitPhysTags hc { recordAt j pc with endPcExclusive := blockEnd pc is } =
        u at hends hre hst' ht ⊢
      obtain ⟨b, s'⟩ := u
      dsimp only at hends hre hst' ht ⊢
      subst ht
      refine ⟨_, _, rfl, hh.around hends hre rfl, hregs, fun x hx => ?_⟩
      cases hx
      exact hst'

end Compiles

section Polls

variable {e : Emu H} {m : Machine} (hs : hc.Undisturbed) (h : e.Hosts hc wt phys m)

include hs h

theorem Hosts.poll : (e.pollHostControls hc).Hosts hc wt phys m ∧ (e.pollHostControls hc).regs = e.regs := by
  rw [h.still.poll hs]
  exact ⟨h.withRegs e.regs _, rfl⟩

theorem Hosts.finish : (e.finish hc).Hosts hc wt phys m ∧ (e.finish hc).regs = e.regs := by
  obtain ⟨hp, hr⟩ := h.poll hs
  unfold Emu.finish
  dsimp only
  split
  · unfold maybeCallOnStop
    rw [hp.still.onStop]
    exact ⟨hp, hr⟩
  · exact ⟨hp, hr⟩

end Polls

end Emu

end Rk65c02
