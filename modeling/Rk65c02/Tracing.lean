import Rk65c02.Image
import Rk65c02.Steps

/-! The trace of a run: what each entry says of the instruction it was written for. -/

namespace Rk65c02

open Resumption Cpu

variable {H : Type} {hc : HostCode H}

/-- No callback switches the trace off. -/
def HostCode.KeepsTrace (hc : HostCode H) : Prop := ∀ h c, .traceSet false ∉ (hc.invoke h c).2

namespace Emu

variable {e : Emu H} {l : List TraceEntry}

/-- The trace is on and reads `l`. -/
structure Traced (l : List TraceEntry) (e : Emu H) : Prop where
  log : e.traceLog = l
  on : e.trace = true

namespace Traced

theorem jitInvalidate (h : e.Traced l) (f : Jit → Jit) : (e.jitInvalidate f).Traced l := by
  obtain ⟨j, u, hj⟩ := jitInvalidate_frame e f
  rw [hj]
  exact ⟨h.log, h.on⟩

theorem hostCall (h : e.Traced l) {c : HostCall} (hne : c ≠ .traceSet false) : (e.hostCall c).Traced l := by
  cases c with
  | assertIrq =>
    change (e.assertIrq).Traced l
    unfold assertIrq
    dsimp only
    split <;> exact ⟨h.log, h.on⟩
  | mmuSet tr f en id =>
    change (e.mmuSet tr f en id).Traced l
    unfold mmuSet
    split
    · exact h
    · have hm : Traced l { e with mmu := (e.mmu.set tr f en id).refreshAccessors.tlbFlush } := ⟨h.log, h.on⟩
      exact hm.jitInvalidate jitBackendFlush
  | mmuEndUpdate =>
    change (e.mmuEndUpdate).Traced l
    unfold mmuEndUpdate
    split
    · exact h
    · obtain ⟨j, u, hj⟩ := jitApplyChanged_frame e
      rw [hj]
      exact ⟨h.log, h.on⟩
  | jitEnable en => cases en <;> exact ⟨h.log, h.on⟩
  | jitFlush => exact h.jitInvalidate _
  | traceSet on =>
    cases on with
    | true => exact ⟨h.log, rfl⟩
    | false => exact absurd rfl hne
  | _ => exact ⟨h.log, h.on⟩

theorem foldl (h : e.Traced l) {cs : List HostCall} (hcs : .traceSet false ∉ cs) :
    (cs.foldl Emu.hostCall e).Traced l :=
  List.foldlRecOn (motive := fun e' : Emu H => e'.Traced l) cs _ h fun _ he _ hm =>
    he.hostCall fun hh => hcs (hh ▸ hm)

theorem arrive (h : e.Traced l) : (e.arrive hc).Traced l := by
  rw [arrive_eq]
  refine foldl (e := { e with clock := e.clock + 1 }) ⟨h.log, h.on⟩ fun hm => ?_
  obtain ⟨c, -, hh⟩ := List.mem_map.mp hm
  cases c <;> cases hh

variable (hk : hc.KeepsTrace)

include hk

theorem callback (h : e.Traced l) (c : Callback) : (e.hostReturns (hc.invoke e.host c)).Traced l :=
  foldl (e := { e with host := (hc.invoke e.host c).1 }) ⟨h.log, h.on⟩ (hk e.host c)

omit hk in
theorem accesses (hk : hc.KeepsTrace) : Accesses hc (Traced l) where
  callback _ c _ h := h.callback hk c
  mmu _ _ h := ⟨h.log, h.on⟩
  ram _ _ _ _ h := ⟨h.log, h.on⟩
  note e a h := by
    obtain ⟨j, u, m, hn⟩ := e.noteGuestWrite_frame hc a
    rw [hn]
    exact ⟨h.log, h.on⟩

theorem callOnStop (h : e.Traced l) : (e.maybeCallOnStop hc).Traced l := by
  unfold maybeCallOnStop
  split
  · exact h
  · next cb _ => exact h.callback hk (.onStop cb e.stopreason)

theorem emuStopError (h : e.Traced l) : (e.emuStopError hc).Leads (Traced l) (Traced l) := by
  unfold Emu.emuStopError
  dsimp only
  split
  · exact ⟨h.log, h.on⟩
  · split
    · exact callOnStop (e := { e with state := .stopped, stopreason := .emuerror, stopRequested := false })
        hk ⟨h.log, h.on⟩
    · exact ⟨h.log, h.on⟩

theorem mmuFault (h : e.Traced l) (a : Addr) (x : Access) (code : BitVec 16) :
    (e.mmuFault hc a x code).Leads (Traced l) (Traced l) := by
  have hf : Traced l { e with mmuLastFaultAddr := a, mmuLastFaultAccess := x, mmuLastFaultCode := code
                              mmu := { e.mmu with faultReexec := true }, useJit := false } := ⟨h.log, h.on⟩
  unfold Emu.mmuFault
  refine emuStopError hk ?_
  split
  · exact hf
  · next cb _ => exact hf.callback hk (.mmuFault cb a x code)

/-- Only the request to write an entry changes the trace. -/
theorem handle (h : e.Traced l) {o : Op} (ho : o.isTrace = false) (r : Regs) :
    (Emu.handle hc o r e).Ends (Traced l) := by
  have ha : (e.asked hc r).Traced l := arrive (e := { e with regs := r }) ⟨h.log, h.on⟩
  refine ((accesses hk).answer ha o (fun ht => nomatch ho.symm.trans ht) (fun _ => ⟨ha.log, ha.on⟩)
    (fun _ _ => ⟨ha.log, ha.on⟩) (fun _ => ha.emuStopError hk) fun a x code _ => ?_).ends
  exact ((accesses hk).mmuTranslateAddr ha a x).mmuFault hk a x code

theorem run {α : Type} {t : CpuTree α} {q : α → Prop} (h : e.Traced l)
    (ht : t.Sat (fun o _ => o.isTrace = false) q) :
    (t.run (Emu.handle hc) e).Ends (Traced l) :=
  Tree.run_visit (fun _ r _ hv hs => hs.handle hk (ht.visit hv) r) h

end Traced

/-- What the trace should say of a call of `rk65c02_exec`: where it fetched which instruction,
and the registers after it; nothing if a breakpoint came first. -/
def executed (hc : HostCode H) (e : Emu H) : Option TraceEntry :=
  match e.fetchRun hc, e.exec hc with
  | .ok (some i, r) _, .ok _ e' => some ⟨r.PC, i, e'.regs⟩
  | _, _ => none

theorem executed_of_ne (hx : ∀ e', e.exec hc ≠ .ok () e') : e.executed hc = none := by
  unfold executed
  split
  · next he => exact absurd he (hx _)
  · rfl

theorem fetchHere_sat (r : Regs) : (fetchHere.run r).Sat (fun o _ => o.isTrace = false) fun v => v.2 = r := by
  have hf : ∀ a, ((instructionFetchEmu a).run r).Sat (fun o _ => o.isTrace = false) fun v => v.2 = r := by
    intro a
    unfold instructionFetchEmu
    rw [StateT.run_bind]
    refine ⟨rfl, fun op => ?_⟩
    dsimp only [Tree.bind]
    split
    · exact rfl
    · exact ⟨rfl, fun _ => rfl⟩
    · exact ⟨rfl, fun _ => ⟨rfl, fun _ => rfl⟩⟩
  refine ⟨rfl, fun b : Bool => ?_⟩
  cases b with
  | true => exact rfl
  | false => exact ⟨rfl, fun _ => (hf r.PC).bind fun v hv => hv⟩

/-- Without an interrupt the instruction is fetched from where `PC` was. -/
theorem fetchRun_regs (ht : e.takesIrq hc = false) {v : Option Instruction × Regs} {s : Emu H}
    (hr : e.fetchRun hc = .ok v s) : v.2 = e.regs := by
  rw [fetchRun_eq, ht] at hr
  exact (fetchHere_sat e.regs).run_ok hr

section Exec

variable (hk : hc.KeepsTrace)

include hk

theorem Traced.fetchRun (h : e.Traced l) : (e.fetchRun hc).Ends (Traced l) := by
  refine Traced.run hk h (q := fun _ => True) ?_
  rw [execFetch_run]
  refine ⟨rfl, fun b => ?_⟩
  dsimp only
  split
  · refine Tree.Sat.bind (q := fun _ => True) ?_ fun v _ =>
      (fetchHere_sat v.2).mono (fun _ _ h => h) fun _ _ => trivial
    exact (irq_keeps (G := fun _ => True) e.regs trivial).mono
      (fun o _ ho => by cases o <;> first | rfl | exact ho.elim)
      fun _ h => h
  · exact (fetchHere_sat e.regs).mono (fun _ _ h => h) fun _ _ => trivial

/-- An instruction ends by writing its entry, with the address it was given. -/
theorem Traced.execInsn (h : e.Traced l) {tpc : Addr} {i : Instruction} {r r' : Regs} {e' : Emu H}
    (hr : ((Rk65c02.execInsn tpc i).run r).run (Emu.handle hc) e = .ok ((), r') e') :
    e'.Traced (l ++ [⟨tpc, i, r'⟩]) := by
  have hend : ∀ {r : Regs} {s : Emu H}, s.Traced l →
      ((get >>= fun r => request (.trace tpc i r)).run r).run (Emu.handle hc) s = .ok ((), r') e' →
      e'.Traced (l ++ [⟨tpc, i, r'⟩]) := by
    intro r s hs hr
    have ha : (s.asked hc r).Traced l := Traced.arrive (e := { s with regs := r }) ⟨hs.log, hs.on⟩
    change Out.ok ((), r) ((s.asked hc r).tracePush ⟨tpc, i, r⟩) = _ at hr
    cases hr
    unfold tracePush
    rw [if_pos ha.on]
    exact ⟨congrArg (· ++ _) ha.log, ha.on⟩
  have hm := (Emul.keeps (G := fun _ => True) (instructionDecode i.opcode).emul i
    (instructionDecode_fits i.opcode)
    r trivial).mono (fun o _ ho => show o.isTrace = false by cases o <;> first | rfl | exact ho.elim) fun _ h => h
  unfold Rk65c02.execInsn at hr
  rw [StateT.run_bind, Tree.run_bind] at hr
  obtain ⟨⟨⟨⟩, r₁⟩, s₁, hx, hr⟩ := Out.of_bind_ok hr
  have h₁ : s₁.Traced l := (Traced.run hk h hm).ok hx
  rw [StateT.run_bind, Tree.run_bind] at hr
  obtain ⟨⟨b, r₂⟩, s₂, hx, hr⟩ := Out.of_bind_ok hr
  have h₂ : s₂.Traced l :=
    (Traced.run (t := faultReexec.run r₁) (q := fun _ => True) hk h₁ ⟨rfl, fun _ => trivial⟩).ok hx
  cases b with
  | true => exact hend h₂ hr
  | false =>
    cases hp : (instructionDecode i.opcode).modifyPc with
    | true =>
      simp only [hp] at hr
      exact hend h₂ hr
    | false =>
      simp only [hp] at hr
      exact hend h₂ hr

theorem Traced.exec (h : e.Traced l) (ht : e.takesIrq hc = false) {e' : Emu H} (hx : e.exec hc = .ok () e') :
    e'.Traced (l ++ (e.executed hc).toList) := by
  have hx' := hx
  unfold Emu.exec runCpu putRegs at hx'
  change (e.execRun hc).bind _ = _ at hx'
  obtain ⟨⟨⟨⟩, r'⟩, s', hr, hs⟩ := Out.of_bind_ok hx'
  cases hs
  rw [execRun_eq] at hr
  obtain ⟨⟨i, r⟩, s, hf, hr⟩ := Out.of_bind_ok hr
  have hs : s.Traced l := (h.fetchRun hk).ok hf
  have hpc : r = e.regs := fetchRun_regs ht hf
  cases i with
  | none =>
    have hn : e.executed hc = none := by simp only [executed, hf]
    have hlog : s'.Traced l :=
      (Traced.run (t := StateT.run (execRest e.regs.PC none) r) (q := fun _ => True) hk hs
      ⟨rfl, fun _ => trivial⟩).ok hr
    rw [hn]
    exact ⟨hlog.log.trans (List.append_nil l).symm, hlog.on⟩
  | some i =>
    have hn : e.executed hc = some ⟨e.regs.PC, i, r'⟩ := by simp only [executed, hf, hx, hpc]
    have hlog := hs.execInsn hk hr
    rw [hn]
    exact ⟨hlog.log, hlog.on⟩

theorem Traced.tick (h : e.Traced l) : (e.maybeTick hc).Traced l := by
  rcases maybeTick_cases hc e with ⟨n, ht⟩ | ⟨-, cb, n, n', ht⟩
  · rw [ht]
    exact ⟨h.log, h.on⟩
  · have hcb := Traced.callback (e := { e with tickCountdown := n }) hk ⟨h.log, h.on⟩ (.tick cb)
    rw [ht]
    exact ⟨hcb.log, hcb.on⟩

omit hk in
theorem Traced.apply (h : e.Traced l) : e.applyHostStopRequest.Traced l := by
  unfold applyHostStopRequest
  split
  · exact h
  · exact ⟨h.log, h.on⟩

theorem Traced.poll (h : e.Traced l) : (e.pollHostControls hc).Traced l := (h.arrive.apply.tick hk).apply

theorem Traced.idle (h : e.Traced l) : (e.maybeWaitOnIdle hc).2.Traced l := by
  unfold maybeWaitOnIdle
  split
  · exact h
  · next cb _ =>
    split
    · exact h
    · exact (h.callback hk (.idleWait cb)).apply

theorem Traced.finish (h : e.Traced l) : (e.finish hc).Traced l := by
  unfold Emu.finish
  dsimp only
  split
  · exact (h.poll hk).callOnStop hk
  · exact h.poll hk

end Exec

end Emu

namespace Run

variable {c : Run H} {l : List TraceEntry}

/-- What the trace should say of a round of the interpreter's loop. -/
def executed (hc : HostCode H) (c : Run H) : Option TraceEntry :=
  if c.phase = .interp then (c.polled hc).bind fun e => e.executed hc else none

/-- The run is one of the interpreter. -/
def Interpreted (c : Run H) : Prop := c.phase = .interp ∨ c.phase = .done ∨ c.phase = .stuck

theorem traced_afterPoll (hk : hc.KeepsTrace) (hp : c.Interpreted) (h : c.emu.Traced l) :
    (c.afterPoll hc).Interpreted ∧ (c.afterPoll hc).emu.Traced l := by
  unfold afterPoll
  split
  · exact ⟨hp, h⟩
  · dsimp only
    split
    · exact ⟨hp, h.idle hk⟩
    · exact ⟨.inr (.inl rfl), (h.idle hk).finish hk⟩

theorem traced_idle (hk : hc.KeepsTrace) (hp : c.Interpreted) (h : c.emu.Traced l) (hpo : c.polled hc = none) :
    (c.interpStep hc).Interpreted ∧ (c.interpStep hc).emu.Traced l := by
  unfold interpStep
  by_cases hs : c.emu.state = .running
  · have hs' : (c.emu.pollHostControls hc).state ≠ .running := fun hs' => by
      rw [polled, if_neg (not_not_intro hs), if_neg (not_not_intro hs')] at hpo
      cases hpo
    rw [if_neg (not_not_intro hs)]
    dsimp only
    rw [if_pos hs']
    split
    · exact ⟨hp, (h.poll hk).idle hk⟩
    · exact ⟨.inr (.inl rfl), ((h.poll hk).idle hk).finish hk⟩
  · rw [if_pos hs]
    exact ⟨.inr (.inl rfl), h.finish hk⟩

/-- A round adds the entry of the instruction it executes, if it enters no interrupt. -/
theorem traced_step (hk : hc.KeepsTrace) (hp : c.Interpreted) (h : c.emu.Traced l)
    (hirq : ∀ e, c.polled hc = some e → e.takesIrq hc = false) :
    (c.step hc).Interpreted ∧ (c.step hc).emu.Traced (l ++ (c.executed hc).toList) := by
  by_cases hi : c.phase = .interp
  · have hx : c.executed hc = (c.polled hc).bind fun e => e.executed hc := if_pos hi
    have hs : c.step hc = c.interpStep hc := by simp only [step, hi]
    rw [hs, hx]
    cases hpo : c.polled hc with
    | none =>
      rw [Option.bind_none, Option.toList_none, List.append_nil]
      exact traced_idle hk hp h hpo
    | some e =>
      obtain ⟨hr, hr', rfl⟩ := polled_eq hpo
      unfold interpStep
      dsimp only [Option.bind_some]
      rw [if_neg (not_not_intro hr), if_neg (not_not_intro hr')]
      cases he : (c.emu.pollHostControls hc).exec hc with
      | ok v e' =>
        have hx := (h.poll hk).exec hk (hirq _ hpo) he
        exact traced_afterPoll (c := { c with emu := e'.pollHostControls hc }) hk hp (hx.poll hk)
      | exit e' =>
        have hn : (c.emu.pollHostControls hc).executed hc = none := Emu.executed_of_ne (by simp [he])
        rw [hn, Option.toList_none, List.append_nil]
        exact ⟨.inr (.inr rfl), h⟩
      | stuck =>
        have hn : (c.emu.pollHostControls hc).executed hc = none := Emu.executed_of_ne (by simp [he])
        rw [hn, Option.toList_none, List.append_nil]
        exact ⟨.inr (.inr rfl), h⟩
  · have hx : c.executed hc = none := if_neg hi
    have hs : c.step hc = c := by
      rcases hp with hp | hp | hp
      · exact absurd hp hi
      · simp only [step, hp]
      · simp only [step, hp]
    rw [hs, hx]
    exact ⟨hp, by simpa using h⟩

theorem traced_steps (hk : hc.KeepsTrace) (hp : c.Interpreted) (h : c.emu.Traced l) (n : Nat)
    (hirq : ∀ k < n, ∀ e, (c.steps hc k).polled hc = some e → e.takesIrq hc = false) :
    (c.steps hc n).Interpreted ∧
      (c.steps hc n).emu.Traced (l ++ (List.range n).filterMap fun k => (c.steps hc k).executed hc) := by
  induction n with
  | zero => exact ⟨hp, h.log.trans (List.append_nil l).symm, h.on⟩
  | succ n ih =>
    obtain ⟨hp', h'⟩ := ih fun k hk => hirq k (Nat.lt_succ_of_lt hk)
    have hs := traced_step hk hp' h' (hirq n (Nat.lt_succ_self n))
    have hl : ([n].filterMap fun k => (c.steps hc k).executed hc) = ((c.steps hc n).executed hc).toList := by
      cases hx : (c.steps hc n).executed hc <;> simp [hx]
    rwa [steps_succ, List.range_succ, List.filterMap_append, hl, ← List.append_assoc]

end Run

/-- An image in which only the bytes at the given addresses are known. -/
def romAt (byte : Addr → Byte) (as : List Addr) (a : Addr) : Slot :=
  if as.contains a then .rom (byte a) else .unknown

theorem romAt_byte {byte : Addr → Byte} {as : List Addr} {a : Addr} (h : a ∈ as) :
    (romAt byte as a).byte = some (byte a) := by
  rw [romAt, if_pos (List.contains_iff_mem.2 h)]
  rfl

theorem Emu.MmuOff.shows_rom {e : Emu H} (hoff : e.MmuOff) {byte : Addr → Byte} {as : List Addr}
    (hb : ∀ a ∈ as, e.bus.Holds hc a (byte a)) : e.Shows hc e.bus (e.image (romAt byte as)) := by
  refine hoff.shows (fun a v hv => ?_) fun a ha => ?_
  · by_cases h : a ∈ as
    · rw [romAt_byte h] at hv
      cases hv
      exact hb a h
    · rw [romAt, if_neg (mt List.contains_iff_mem.1 h)] at hv
      cases hv
  · by_cases h : a ∈ as
    · rw [romAt, if_pos (List.contains_iff_mem.2 h)] at ha
      cases ha
    · rw [romAt, if_neg (mt List.contains_iff_mem.1 h)] at ha
      cases ha

/-- With the MMU off the instruction is the bytes that memory holds where it was fetched. -/
theorem Emu.executed_insn {e : Emu H} {t : TraceEntry} (ht : e.takesIrq hc = false) (hx : e.executed hc = some t)
    (hoff : e.MmuOff) {byte : Addr → Byte} (hb : ∀ k ≤ (instructionDecode (byte t.address)).mode.operands,
      e.bus.Holds hc (t.address + BitVec.ofNat 16 k) (byte (t.address + BitVec.ofNat 16 k))) :
    t.insn = Image.insnAt byte t.address := by
  unfold executed at hx
  split at hx
  · next i r s _ e' hf _ =>
    cases hx
    obtain rfl := fetchRun_regs ht hf
    rw [fetchRun_eq, ht] at hf
    let as := (List.range ((instructionDecode (byte e.regs.PC)).mode.operands + 1)).map fun k =>
      e.regs.PC + BitVec.ofNat 16 k
    have hs : e.Shows hc e.bus (e.image (romAt byte as)) := by
      refine hoff.shows_rom fun a ha => ?_
      obtain ⟨k, hk, rfl⟩ := List.mem_map.mp ha
      exact hb k (Nat.lt_succ_iff.mp (List.mem_range.mp hk))
    by_cases hbp : e.regs.PC ∈ e.bps
    · obtain ⟨s', hr, -⟩ := (hs.arrive e.regs).run
        (Image.fetchHere_breakpoint (r := e.regs) (by rw [Image.arrive_bps]; exact hbp))
      cases hr.symm.trans hf
    · have hk : ∀ k ≤ (instructionDecode (byte e.regs.PC)).mode.operands,
          (((e.image (romAt byte as)).arrive hc.async).mem (e.regs.PC + BitVec.ofNat 16 k)).byte =
            some (byte (e.regs.PC + BitVec.ofNat 16 k)) := by
        intro k hk
        rw [Image.arrive_mem]
        exact romAt_byte (List.mem_map_of_mem (List.mem_range.mpr (Nat.lt_succ_of_le hk)))
      obtain ⟨m', hm, -⟩ := Image.fetchHere_run _ _ (by rw [Image.arrive_bps]; exact hbp) hk
      obtain ⟨s', hr, -⟩ := (hs.arrive e.regs).run hm
      cases hr.symm.trans hf
      rfl
  · cases hx

/-- Without interrupts the trace tells of every executed instruction, in order, where it was
fetched, what it was and which registers it left. -/
theorem trace_truthful (hc : HostCode H) (hk : hc.KeepsTrace) (e : Emu H) (ht : e.trace = true) (n : Nat)
    (hirq : ∀ k < n, ∀ s, (e.start.steps hc k).polled hc = some s → s.takesIrq hc = false) :
    (e.start.steps hc n).emu.traceLog =
        e.traceLog ++ (List.range n).filterMap (fun k => (e.start.steps hc k).executed hc) ∧
      ∀ k < n, ∀ s t, (e.start.steps hc k).polled hc = some s → s.executed hc = some t → s.MmuOff →
        ∀ byte : Addr → Byte, (∀ j ≤ (instructionDecode (byte t.address)).mode.operands,
          s.bus.Holds hc (t.address + BitVec.ofNat 16 j) (byte (t.address + BitVec.ofNat 16 j))) →
        t.insn = Image.insnAt byte t.address := by
  have hs : e.start.Interpreted ∧ e.start.emu.Traced e.traceLog := by
    unfold Emu.start
    dsimp only
    rw [if_neg (by simp [Emu.canUseJit, ht])]
    exact ⟨.inl rfl, rfl, ht⟩
  refine ⟨(Run.traced_steps hk hs.1 hs.2 n hirq).2.log, fun k hkn s t hp hx hoff byte hb => ?_⟩
  exact Emu.executed_insn (hirq k hkn s hp) hx hoff hb

/-- `LDA #$E8`, `STA $0205`, `NOP`, traced: the store makes the next instruction `INX`. -/
def tracedStoreEmu : Emu Unit :=
  let code : List Byte := [0xA9, 0xE8, 0x8D, 0x05, 0x02, 0xEA]
  { init (ramBus fun a => code.getD (a.toNat - 0x0200) 0) () ⟨0, 0, 0, 0, 0, 0⟩ with
    regs := ⟨0, 0, 0, 0x0200, 0xFF, pUndefined⟩
    trace := true }

/-- The trace shows the instruction that the store made. -/
theorem trace_truthful_store :
    (tracedStoreEmu.start.steps (quietHost identity) 3).emu.traceLog =
      [⟨0x0200, ⟨0xA9, 0xE8, 0⟩, ⟨0xE8, 0, 0, 0x0202, 0xFF, pUndefined ||| pNegative⟩⟩,
        ⟨0x0202, ⟨0x8D, 0x05, 0x02⟩, ⟨0xE8, 0, 0, 0x0205, 0xFF, pUndefined ||| pNegative⟩⟩,
        ⟨0x0205, ⟨0xE8, 0, 0⟩, ⟨0xE8, 1, 0, 0x0206, 0xFF, pUndefined⟩⟩] := by
  have hf : ∀ k < 3, ((tracedStoreEmu.start.steps (quietHost identity) k).polled (quietHost identity)).all
      (fun e => e.takesIrq (quietHost identity) = false) = true := by decide +kernel
  have hh := (trace_truthful (quietHost identity) (fun _ c => by cases c <;> exact List.not_mem_nil)
    tracedStoreEmu rfl 3 ?_).1
  · rw [hh]
    decide +kernel
  · intro k hk s hp
    have hk := hf k hk
    rw [hp, Option.all_some] at hk
    exact of_decide_eq_true hk

/-- Memory full of `NOP`, the interrupt handler at `0x0300` and the line up, traced. -/
def tracedEmu : Emu Unit :=
  { init (ramBus fun a => if a = 0xFFFE then 0 else if a = 0xFFFF then 3 else 0xEA) () ⟨0, 0, 0, 0, 0, 0⟩ with
    regs := ⟨0, 0, 0, 0x0200, 0xFF, pUndefined⟩
    irq := true
    trace := true }

/-- With the line up the instruction comes from the handler, the address from before it. -/
theorem trace_misses_interrupt :
    (tracedEmu.start.steps (quietHost identity) 1).emu.traceLog.map TraceEntry.address = [0x0200] ∧
      (tracedEmu.start.executed (quietHost identity)).map TraceEntry.address = some 0x0300 := by
  decide +kernel

end Rk65c02
