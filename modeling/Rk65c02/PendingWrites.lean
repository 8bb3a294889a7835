import Rk65c02.FaultingStores
import Rk65c02.Progress
import Rk65c02.Refinement

/-! Writes recorded inside of a compiled block. While one is recorded the JIT is switched off, and an
instruction that finds it so does not go on in the block. -/

namespace Rk65c02

open Resumption

variable {H : Type} {hc : HostCode H}

/-- No callback switches the JIT on. -/
def HostCode.NeverEnables (hc : HostCode H) : Prop := ∀ h c, .jitEnable true ∉ (hc.invoke h c).2

namespace Emu

/-- Library calls touch the cache only by invalidating or creating it. -/
theorem hostCall_engine {P : Emu H → Prop} (c : HostCall)
    (hframe : ∀ e e' : Emu H, e'.jit = e.jit → e'.useJit = e.useJit → e'.inJitRun = e.inJitRun → P e → P e')
    (hflush : ∀ e, P e → P (e.jitInvalidate jitBackendFlush))
    (hpage : ∀ e p, P e → P (e.jitInvalidateCodeVpage p))
    (henable : ∀ e b, c = .jitEnable b → P e → P (e.jitEnable b)) {e : Emu H} (h : P e) : P (e.hostCall c) := by
  cases c with
  | assertIrq =>
    change P (if _ then _ else _ : Emu H)
    split <;> exact hframe e _ rfl rfl rfl h
  | mmuSet t f en id =>
    change P (mmuSet e t f en id)
    unfold mmuSet
    split
    · exact h
    · exact hflush _ (hframe e _ rfl rfl rfl h)
  | mmuEndUpdate =>
    change P (mmuEndUpdate e)
    unfold mmuEndUpdate
    split
    · exact h
    · refine hframe e.jitApplyChanged _ rfl rfl rfl ?_
      unfold jitApplyChanged
      split
      · exact hflush e h
      · exact List.foldlRecOn (motive := P) _ _ h fun s hs p _ => hpage s p hs
  | jitEnable b => exact henable e b rfl h
  | jitFlush => exact hflush e h
  | _ => exact hframe e _ rfl rfl rfl h

theorem jitInvalidate_some {e : Emu H} {j : Jit} (hj : e.jit = some j) (f : Jit → Jit) : e.jitInvalidate f =
    if e.inJitRun then { e with jit := some { j with needsFlush := true }, useJit := false }
    else { e with jit := some (f j) } := by
  unfold jitInvalidate jitInvalidateDeferred
  rw [hj]
  dsimp only
  split <;> rfl

theorem jitInvalidate_none {e : Emu H} (hj : e.jit = none) (f : Jit → Jit) : e.jitInvalidate f = e := by
  unfold jitInvalidate
  rw [hj]

section Settled

variable {e : Emu H} (h : e.CacheSettled)

include h

theorem CacheSettled.jitInvalidate {f : Jit → Jit} (hf : ∀ j, j.Settled → (f j).Settled) :
    (e.jitInvalidate f).CacheSettled := by
  cases hj : e.jit with
  | none => rwa [jitInvalidate_none hj]
  | some j =>
    rw [jitInvalidate_some hj]
    split <;> rintro k hk <;> cases hk
    · exact h j hj
    · exact hf j (h j hj)

theorem CacheSettled.codePage (p : Byte) : (e.jitInvalidateCodeVpage p).CacheSettled := by
  refine h.jitInvalidate fun j hs => ?_
  unfold jitInvalidateBlocksForCodePage
  split
  · exact hs
  · obtain ⟨h1, h2⟩ := Jit.pending_where j fun b => page b.startPc = p
    exact ⟨h1.trans hs.1, h2.trans hs.2⟩

theorem CacheSettled.hostCall (c : HostCall) : (e.hostCall c).CacheSettled := by
  refine hostCall_engine (P := CacheSettled) c (fun e e' hj _ _ h j hk => h j (hj ▸ hk))
    (fun e h => CacheSettled.jitInvalidate h fun _ _ => ⟨rfl, rfl⟩) (fun e p h => CacheSettled.codePage h p)
    (fun e b _ h => ?_) h
  cases b with
  | false => exact h
  | true =>
    intro j hj
    cases hj
    cases hk : e.jit with
    | none => exact ⟨rfl, rfl⟩
    | some k => exact h k hk

theorem CacheSettled.hostReturns (x : H × List HostCall) : (e.hostReturns x).CacheSettled :=
  List.foldlRecOn (motive := CacheSettled) x.2 _ h fun _ hs c _ => hs.hostCall c

theorem CacheSettled.asked (r : Regs) : (e.asked hc r).CacheSettled := by
  unfold Emu.asked
  rw [arrive_eq]
  exact List.foldlRecOn (motive := CacheSettled) _ _ h fun _ hs c _ => hs.hostCall c

end Settled

theorem jitInvalidate_useJit {e : Emu H} {f : Jit → Jit} (hu : (e.jitInvalidate f).useJit = true) :
    e.useJit = true := by
  cases hj : e.jit with
  | none => rwa [jitInvalidate_none hj] at hu
  | some j =>
    rw [jitInvalidate_some hj] at hu
    split at hu
    · cases hu
    · exact hu

/-- Calls other than `rk65c02_jit_enable` only switch the JIT off. -/
theorem hostCall_useJit (e : Emu H) {c : HostCall} (hc : c ≠ .jitEnable true)
    (hu : (e.hostCall c).useJit = true) :
    e.useJit = true := by
  refine hostCall_engine (P := fun s => s.useJit = true → e.useJit = true) c (fun s s' _ hs _ h hu => h (hs ▸ hu))
    (fun s h hu => h (jitInvalidate_useJit hu)) (fun s p h hu => h (jitInvalidate_useJit hu))
      (fun s b hb h hu => ?_) id hu
  cases b with
  | false => cases hu
  | true => exact absurd hb hc

/-- The JIT is off while a write is recorded. -/
def Alert (e : Emu H) : Prop := e.useJit = true → e.CacheSettled

theorem Alert.foldl {e : Emu H} (h : e.Alert) {cs : List HostCall} (hc : .jitEnable true ∉ cs) :
    (cs.foldl Emu.hostCall e).Alert :=
  List.foldlRecOn (motive := Alert) cs _ h fun s hs c hm hu =>
    (hs (hostCall_useJit s (fun hx => hc (hx ▸ hm)) hu)).hostCall c

/-- A store is reported to a cache that may hold code of the byte. -/
theorem report_cases (hc : HostCode H) (e : Emu H) (a : Addr) :
    (∃ m, e.jitNoteGuestWrite hc a = { e with mmu := m }) ∨
    ∃ j k m w, e.jit = some j ∧ k = { j with stats := { j.stats with writeEvents := j.stats.writeEvents + 1 } } ∧
      (e.inJitRun = true ∧ e.jitNoteGuestWrite hc a =
        { e with mmu := m, useJit := false, jit := some (jitPendWrite k w) } ∨
        e.inJitRun = false ∧ e.jitNoteGuestWrite hc a =
          { e with mmu := m, jit := some (jitWriteEvent k w) }) := by
  unfold jitNoteGuestWrite
  split
  · exact .inl ⟨e.mmu, rfl⟩
  next j hj =>
    obtain ⟨m, hm⟩ := physHit_state hc e j a
    dsimp only
    split
    · exact .inl ⟨e.mmu, rfl⟩
    rw [hm]
    split
    · exact .inl ⟨m, rfl⟩
    refine .inr ⟨j, _, m, ⟨a, (e.jitPhysHit hc j a).1⟩, hj, rfl, ?_⟩
    split
    · next hin => exact .inl ⟨hin, rfl⟩
    · next hin => exact .inr ⟨Bool.eq_false_iff.2 hin, rfl⟩

theorem settled_writeEvent {j k : Jit} (hs : j.Settled) (hk : k = { j with stats := k.stats })
    (w : PendingWrite) :
    (jitWriteEvent k w).Settled := by
  obtain ⟨h1, h2⟩ := Jit.pending_writeEvent k w
  rw [hk] at h1 h2 ⊢
  exact ⟨h1.trans hs.1, h2.trans hs.2⟩

theorem Alert.note {e : Emu H} (h : e.Alert) (hc : HostCode H) (a : Addr) : (e.jitNoteGuestWrite hc a).Alert := by
  obtain ⟨m, hm⟩ | ⟨j, k, m, w, hj, rfl, ⟨-, hm⟩ | ⟨-, hm⟩⟩ := report_cases hc e a
  · rw [hm]
    exact h
  · rw [hm]
    exact nofun
  · rw [hm]
    rintro hu k hk
    cases hk
    exact settled_writeEvent (h hu j hj) rfl w

theorem closed_alert (hn : hc.NeverEnables) : Closed hc Alert where
  callback e c _ h := Alert.foldl (e := { e with host := (hc.invoke e.host c).1 }) h (hn e.host c)
  mmu e m h := h
  ram e d off v h := h
  note e a h := h.note hc a
  arrive e h := by
    rw [arrive_eq]
    refine Alert.foldl (e := { e with clock := e.clock + 1 }) h fun hm => ?_
    obtain ⟨c, -, hc⟩ := List.mem_map.1 hm
    cases c <;> cases hc
  fault e a x c h := nofun
  error e h := h
  leave e h := h
  log e l h := h
  notify e h := by
    unfold maybeCallOnStop
    split
    · exact h
    · next cb _ =>
      exact Alert.foldl (e := { e with host := (hc.onStop e.host cb e.stopreason).1 }) h
        (hn e.host (.onStop cb e.stopreason))

section Unwritten

variable {e : Emu H} (h : e.CacheSettled)

include h

theorem CacheSettled.deviceRead1 (d : Option (DevId × Addr)) : (e.deviceRead1 hc d).2.CacheSettled := by
  match d with
  | none => exact h
  | some (d, off) =>
    unfold Emu.deviceRead1
    dsimp only
    split
    · exact h
    · exact CacheSettled.hostReturns h _

theorem CacheSettled.physRead1 (p : PAddr) : (e.physRead1 hc p).2.CacheSettled := by
  unfold Emu.physRead1 Emu.busRead1Phys
  by_cases hp : p.toNat < busSize
  · rw [if_pos hp]
    exact h.deviceRead1 _
  · rw [if_neg hp, if_neg hp]
    exact h.deviceRead1 _

theorem CacheSettled.stopError : (e.emuStopError hc).Ends CacheSettled := by
  unfold Emu.emuStopError
  dsimp only
  split
  · exact h
  split
  · unfold maybeCallOnStop
    split
    · exact h
    · exact CacheSettled.hostReturns
        (e := { e with state := .stopped, stopreason := .emuerror, stopRequested := false }) h _
  · exact h

theorem CacheSettled.fault (a : Addr) (x : Access) (c : BitVec 16) : (e.mmuFault hc a x c).Ends CacheSettled := by
  rw [mmuFault_eq]
  refine CacheSettled.stopError ?_
  cases e.mmu.fault with
  | none => exact h
  | some cb => exact CacheSettled.hostReturns (e := e.faulted a x c) h _

theorem CacheSettled.memRead1 (a : Addr) (x : Access) : (e.memRead1 hc a x).Ends CacheSettled := by
  unfold Emu.memRead1
  split
  · unfold Emu.memReadMmu
    have ht : (e.mmuTranslateAddr hc a x).2.CacheSettled := h
    generalize e.mmuTranslateAddr hc a x = t at ht ⊢
    obtain ⟨code | p, e'⟩ := t
    · exact (ht.fault a x code).bind (fun _ hs => hs) fun _ _ hs => hs
    · exact ht.physRead1 p
  · exact h.deviceRead1 _

/-- Only a store records a write. -/
theorem CacheSettled.handle {o : Op} (r : Regs) (ho : o.isWrite = false) :
    (Emu.handle hc o r e).Ends CacheSettled := by
  change ((e.asked hc r).answer hc o).Ends CacheSettled
  have h : (e.asked hc r).CacheSettled := h.asked r
  generalize e.asked hc r = s at h ⊢
  cases o with
  | fetch a => exact h.memRead1 a _
  | read a => exact h.memRead1 a _
  | write a v => cases ho
  | panic => exact h.stopError
  | disassemble pc => exact disassembled_keeps (I := CacheSettled) (fun _ _ h => h.deviceRead1 _) h pc
  | reexec =>
    unfold Emu.answer
    split <;> exact h
  | trace tpc i r =>
    change (s.tracePush ⟨tpc, i, r⟩).CacheSettled
    unfold Emu.tracePush
    split <;> exact h
  | _ => exact h

end Unwritten

theorem Alert.asked {e : Emu H} (hn : hc.NeverEnables) (h : e.Alert) (r : Regs) : (e.asked hc r).Alert :=
  (closed_alert hn).arrive { e with regs := r } h

theorem Alert.run {α : Type} {e : Emu H} (hn : hc.NeverEnables) (h : e.Alert) (t : CpuTree α) :
    (t.run (Emu.handle hc) e).Ends Alert := by
  refine (closed_alert hn).run (fun _ _ h => h) h fun o r s _ hs => ?_
  cases o with
  | ackIrq => exact hs
  | stop reason => exact hs
  | _ => trivial

theorem CacheSettled.run {α : Type} {e : Emu H} (h : e.CacheSettled) {t : CpuTree α} {p : α → Prop}
    (ht : t.Sat (fun o _ => o.isWrite = false) p) : (t.run (Emu.handle hc) e).Ends CacheSettled :=
  Tree.run_visit (fun _ r _ hv hs => hs.handle r (ht.visit hv)) h

theorem CacheSettled.fields {α : Type} {e : Emu H} (h : e.CacheSettled) {t : Tree NOp NOp.Ret Regs α}
    {p : α → Prop} {q : NOp → Regs → Prop} (ht : t.Sat q p) (hq : ∀ o r, q o r → o.isBase = false) :
    (t.run (handleNative hc) e).Ends CacheSettled := by
  refine Tree.run_visit (fun o r s hv hs => ?_) h
  have hs : (s.asked hc r).CacheSettled := hs.asked r
  change ((s.asked hc r).answerNative hc o).Ends CacheSettled
  have ho := hq o r (ht.visit hv)
  cases o with
  | base o => cases ho
  | countInsns n =>
    intro j hj
    obtain ⟨k, hk, rfl⟩ := Option.map_eq_some_iff.1 hj
    exact hs k hk
  | _ => exact hs

/-- An instruction after which the block goes on leaves no write recorded. -/
theorem CacheSettled.native {e s : Emu H} {ctx : EmitCtx} {k : Nat} {i : Instruction}
    {next : Next} (hn : hc.NeverEnables) (h : e.CacheSettled)
    (hx : e.runNative hc (nativeInsn ctx k i) = .ok next s) (hne : next ≠ .ret) :
    s.CacheSettled := by
  have hal : e.Alert := fun _ => h
  cases he : emitCase i.opcode with
  | none =>
    rw [nativeInsn_fallback he, runNative_ofCpu] at hx
    have hr := Alert.run hn hal (Rk65c02.exec.run e.regs)
    cases hex : (Rk65c02.exec.run e.regs).run (Emu.handle hc) e with
    | ok v s₁ =>
      rw [hex] at hr hx
      obtain ⟨next', s', hf, hc'⟩ := fallbackControl_run hc (instructionDecode i.opcode) v.2 s₁
      change putRegs (((fallbackControl (instructionDecode i.opcode)).run v.2).run (handleNative hc) s₁) = _ at hx
      rw [hf] at hx
      cases hx
      rcases hc' with hc' | ⟨-, hu, rfl⟩
      · exact absurd hc' hne
      · exact ((Alert.asked hn (Alert.asked hn hr v.2) v.2) hu)
    | exit s₁ =>
      rw [hex] at hx
      cases hx
    | stuck =>
      rw [hex] at hx
      cases hx
  | some c =>
    by_cases hb : c = .condBranch
    · subst hb
      have hsat := branchControl_sat (r := branchRegs ctx k i e.regs) ctx k
        (branchTarget ctx k i (instructionDecode i.opcode).size) (branchTaken i.opcode (e.regs.P.setWidth 64))
      have hr : (Tree.run (handleNative hc) _ e).Ends CacheSettled :=
        CacheSettled.fields h hsat fun o r ho => ho.1
      rw [← nativeInsn_branch ctx k e.regs he] at hr
      exact (Closed.putRegs (fun _ _ h => h) hr).ok hx
    · rw [runNative, nativeInsn_eq_of_ne ctx k e.regs he hb] at hx
      have hx : e.runNative hc
        (NCpu.ofCpu (withNext (instructionDecode i.opcode) (emulOnce (instructionDecode i.opcode) i)) >>=
          fun _ => if c.bails then bailOut else pure .fall) = .ok next s := by
        rw [← hx]
        unfold nativeProgram
        simp only [if_neg hb]
        rfl
      rw [runNative_ofCpu] at hx
      have hr := Alert.run hn hal
        ((withNext (instructionDecode i.opcode) (emulOnce (instructionDecode i.opcode) i)).run e.regs)
      have hkeep : c.bails = false → (((withNext (instructionDecode i.opcode)
          (emulOnce (instructionDecode i.opcode) i)).run e.regs).run (Emu.handle hc) e).Ends CacheSettled :=
        fun hbl => CacheSettled.run h (emitCase_storesNothing he hbl e.regs trivial)
      cases hex : ((withNext (instructionDecode i.opcode) (emulOnce (instructionDecode i.opcode) i)).run
        e.regs).run
          (Emu.handle hc) e with
      | ok v s₁ =>
        rw [hex] at hr hx hkeep
        cases hbl : c.bails with
        | true =>
          obtain ⟨next', hf, hc'⟩ := bailOut_run hc v.2 s₁
          rw [hbl] at hx
          change putRegs ((bailOut.run v.2).run (handleNative hc) s₁) = _ at hx
          rw [hf] at hx
          cases hx
          rcases hc' with hc' | ⟨-, hu⟩
          · exact absurd hc' hne
          · exact Alert.asked hn hr v.2 hu
        | false =>
          rw [hbl] at hx
          cases hx
          exact hkeep hbl
      | exit s₁ =>
        rw [hex] at hx
        cases hx
      | stuck =>
        rw [hex] at hx
        cases hx

/-- Outside of a block the cache is settled. -/
structure Outside (e : Emu H) : Prop where
  outside : e.inJitRun = false
  settled : e.CacheSettled

theorem Outside.note {e : Emu H} (h : e.Outside) (hc : HostCode H) (a : Addr) :
    (e.jitNoteGuestWrite hc a).Outside := by
  obtain ⟨m, hm⟩ | ⟨j, k, m, w, hj, rfl, ⟨hin, hm⟩ | ⟨-, hm⟩⟩ := report_cases hc e a
  · rw [hm]
    exact ⟨h.outside, h.settled⟩
  · cases h.outside.symm.trans hin
  · rw [hm]
    refine ⟨h.outside, ?_⟩
    rintro k hk
    cases hk
    exact settled_writeEvent (h.settled j hj) rfl w

theorem closed_outside (hc : HostCode H) : Closed hc Outside where
  callback e c _ h := ⟨(foldl_inJitRun _ _).trans h.outside, h.settled.hostReturns (hc.invoke e.host c)⟩
  mmu e m h := ⟨h.outside, h.settled⟩
  ram e d off v h := ⟨h.outside, h.settled⟩
  note e a h := h.note hc a
  arrive e h := ⟨(arrive_inJitRun hc e).trans h.outside, h.settled.asked e.regs⟩
  fault e a x c h := ⟨h.outside, h.settled⟩
  error e h := ⟨h.outside, h.settled⟩
  leave e h := ⟨rfl, h.settled⟩
  log e l h := ⟨h.outside, h.settled⟩
  notify e h := by
    refine ⟨(callOnStop_inJitRun hc e).trans h.outside, ?_⟩
    unfold maybeCallOnStop
    split
    · exact h.settled
    · exact h.settled.hostReturns _

theorem Outside.run {α : Type} {e : Emu H} (h : e.Outside) (t : CpuTree α) :
    (t.run (Emu.handle hc) e).Ends Outside := by
  refine (closed_outside hc).run (fun _ _ h => ⟨h.outside, h.settled⟩) h fun o r s _ hs => ?_
  cases o with
  | ackIrq => exact ⟨hs.outside, hs.settled⟩
  | stop reason => exact ⟨hs.outside, hs.settled⟩
  | _ => trivial

theorem Outside.runCpu {α : Type} {e : Emu H} (h : e.Outside) (x : Cpu α) : (e.runCpu hc x).Ends Outside :=
  Closed.putRegs (fun _ _ h => ⟨h.outside, h.settled⟩) (h.run (x.run e.regs))

section Polls

variable {e : Emu H} (h : e.CacheSettled)

include h

theorem CacheSettled.stopRequest : e.applyHostStopRequest.CacheSettled := by
  unfold applyHostStopRequest
  split <;> exact h

theorem CacheSettled.poll (hc : HostCode H) : (e.pollHostControls hc).CacheSettled := by
  have ha : (e.arrive hc).CacheSettled := h.asked e.regs
  have hs := ha.stopRequest
  have ht : ((e.arrive hc).applyHostStopRequest.maybeTick hc).CacheSettled := by
    generalize (e.arrive hc).applyHostStopRequest = s at hs ⊢
    obtain ⟨n, hn⟩ | ⟨-, cb, n, n', hn⟩ := maybeTick_cases hc s
    · rw [hn]
      exact hs
    · rw [hn]
      exact CacheSettled.hostReturns (e := { s with tickCountdown := n }) hs _
  exact ht.stopRequest

theorem CacheSettled.idle (hc : HostCode H) : (e.maybeWaitOnIdle hc).2.CacheSettled := by
  unfold maybeWaitOnIdle
  split
  · exact h
  · split
    · exact h
    · exact (CacheSettled.hostReturns h _).stopRequest

theorem CacheSettled.finish (hc : HostCode H) : (e.finish hc).CacheSettled := by
  unfold Emu.finish
  dsimp only
  split
  · unfold maybeCallOnStop
    split
    · exact h.poll hc
    · exact (h.poll hc).hostReturns _
  · exact h.poll hc

end Polls

theorem pageRefs_pending (j : Jit) (b : Block) (add : Bool) :
    (jitBlockPageRefsUpdate j b add).pendingWrites = j.pendingWrites ∧
      (jitBlockPageRefsUpdate j b add).pendingWriteOverflow = j.pendingWriteOverflow := ⟨rfl, rfl⟩

theorem settled_record {j : Jit} (h : j.Settled) (pc : Addr) : (jitRecord j pc).Settled := by
  unfold jitRecord
  split <;> exact h

theorem settled_install {j : Jit} (h : j.Settled) (b : Block) : (jitInstall j b).Settled := by
  obtain ⟨h1, h2⟩ := pageRefs_pending (j.setBlock b) b true
  exact ⟨h1.trans h.1, h2.trans h.2⟩

theorem Outside.compile {e : Emu H} (h : e.Outside) (hc : HostCode H) (pc : Addr) :
    (e.jitCompileBlock hc pc).Ends CacheSettled := by
  cases hj : e.jit with
  | none =>
    rw [compileBlock_none hj]
    exact h.settled
  | some j =>
    have hr : Outside { e with jit := some (jitRecord j pc) } := by
      refine ⟨h.outside, ?_⟩
      rintro k hk
      cases hk
      exact settled_record (h.settled j hj) pc
    rw [compileBlock_some hj]
    split
    · exact hr.settled
    refine (buildBlockInsns_ends hr fun pc' e' _ h => h.runCpu _).bind (fun _ hs => hs.settled)
      fun insns s hs => ?_
    unfold compileEnd
    split
    · exact hs.settled
    · have h1 := s.physTags_jit hc { recordAt j pc with endPcExclusive := blockEnd pc insns }
      dsimp only [Out.Ends]
      generalize s.jitPhysTags hc { recordAt j pc with endPcExclusive := blockEnd pc insns } = t at h1 ⊢
      rintro k hk
      obtain ⟨k', hk', rfl⟩ := Option.map_eq_some_iff.1 hk
      exact settled_install (hs.settled k' (h1 ▸ hk')) _

theorem setBlock_mem {j : Jit} {b : Block} (h : b.startPc ∈ j.blocks.map Block.startPc) :
    b ∈ (j.setBlock b).blocks := by
  obtain ⟨c, hc, hp⟩ := List.mem_map.1 h
  exact List.mem_map.2 ⟨c, hc, if_pos hp⟩

/-- The block that a compilation gives is in the cache. -/
theorem compile_registers {e e' : Emu H} {pc : Addr} {b : Block} (h : e.Cached Jit.Filled)
    (hx : e.jitCompileBlock hc pc = .ok (some b) e') : ∃ k, e'.jit = some k ∧ b ∈ k.blocks ∧ b.active = true := by
  have hQ : Jit.Stable fun k => k.Keyed ∧ pc ∈ k.blocks.map Block.startPc :=
    ⟨fun _ h => h.1, fun j k h hm => ⟨Jit.Moves.keyed (.single hm) h.1, hm.keys ▸ h.2⟩⟩
  cases hj : e.jit with
  | none =>
    rw [compileBlock_none hj] at hx
    cases hx
  | some j =>
    have hpc := recordAt_startPc j pc
    have hmem := recordAt_mem j pc
    rw [compileBlock_some hj] at hx
    split at hx
    · next ha =>
      cases hx
      exact ⟨_, rfl, hmem, ha⟩
    have hq : Cached (fun k => k.Keyed ∧ pc ∈ k.blocks.map Block.startPc)
      { e with jit := some (jitRecord j pc) } := by
      have hf : j.Filled := by rwa [Cached, hj] at h
      exact ⟨(hf.record pc).keyed, List.mem_map.2 ⟨_, hmem, hpc⟩⟩
    have hends := hq.buildBlockInsns hQ hc pc jitBlockMaxInsns pc
    cases hb : ({ e with jit := some (jitRecord j pc) } : Emu H).jitBuildBlockInsns hc pc jitBlockMaxInsns pc with
    | exit s =>
      rw [hb] at hx
      cases hx
    | stuck =>
      rw [hb] at hx
      cases hx
    | ok insns s =>
      have hs := hends.ok hb
      rw [hb, Out.ok_bind] at hx
      unfold compileEnd at hx
      split at hx
      · cases hx
      · have h1 := s.physTags_jit hc { recordAt j pc with endPcExclusive := blockEnd pc insns }
        obtain ⟨v, p, c, q, h2⟩ := s.physTags_block hc { recordAt j pc with endPcExclusive := blockEnd pc insns }
        dsimp only at hx
        generalize s.jitPhysTags hc { recordAt j pc with endPcExclusive := blockEnd pc insns } = t at h1 h2 hx
        cases hx
        rw [Cached] at hs
        cases hk : s.jit with
        | none =>
          rw [hk] at hs
          cases hs.2
        | some k =>
          rw [hk] at hs
          refine ⟨_, Option.map_eq_some_iff.2 ⟨k, h1.trans hk, rfl⟩, ?_, rfl⟩
          have hm : t.1.startPc ∈ k.blocks.map Block.startPc := by
            rw [h2]
            exact hpc.symm ▸ hs.2
          exact setBlock_mem (b := { t.1 with numInsns := insns.length, fn := some insns }) hm

/-- While a block runs, `b` is in the cache. -/
def Registers (b : Block) (e : Emu H) : Prop := e.inJitRun = true → ∃ j, e.jit = some j ∧ b ∈ j.blocks

theorem Registers.frame {b : Block} {e e' : Emu H} (h : e.Registers b) (hin : e'.inJitRun = e.inJitRun)
    (hj : ∀ j, e.inJitRun = true → e.jit = some j → ∃ k, e'.jit = some k ∧ k.blocks = j.blocks) :
    e'.Registers b := by
  intro hr
  obtain ⟨j, hj', hb⟩ := h (hin ▸ hr)
  obtain ⟨k, hk, hkb⟩ := hj j (hin ▸ hr) hj'
  exact ⟨k, hk, hkb ▸ hb⟩

theorem Registers.jitInvalidate {b : Block} {e : Emu H} (h : e.Registers b) (f : Jit → Jit) :
    (e.jitInvalidate f).Registers b := by
  cases hj : e.jit with
  | none => rwa [jitInvalidate_none hj]
  | some j =>
    rw [jitInvalidate_some hj]
    split
    · refine h.frame rfl fun j' _ hj' => ⟨_, rfl, ?_⟩
      rw [Option.some.inj (hj.symm.trans hj')]
    · next hin => exact fun hr => absurd hr hin

theorem Registers.hostCall {b : Block} {e : Emu H} (h : e.Registers b) (c : HostCall) :
    (e.hostCall c).Registers b := by
  refine hostCall_engine (P := Registers b) c
    (fun e e' hj _ hin h => h.frame hin fun j _ hk => ⟨j, hj.trans hk, rfl⟩)
    (fun e h => h.jitInvalidate _) (fun e p h => h.jitInvalidate _) (fun e a _ h => ?_) h
  cases a with
  | false => exact h
  | true =>
    refine h.frame rfl fun j _ hj => ⟨j, ?_, rfl⟩
    change some (e.jit.getD jitBackendCreate) = some j
    rw [hj]
    rfl

theorem Registers.foldl {b : Block} {e : Emu H} (h : e.Registers b) (cs : List HostCall) :
    (cs.foldl Emu.hostCall e).Registers b :=
  List.foldlRecOn (motive := Registers b) cs _ h fun _ hs c _ => hs.hostCall c

theorem Registers.note {b : Block} {e : Emu H} (h : e.Registers b) (hc : HostCode H) (a : Addr) :
    (e.jitNoteGuestWrite hc a).Registers b := by
  obtain ⟨m, hm⟩ | ⟨j, k, m, w, hj, rfl, ⟨-, hm⟩ | ⟨hin, hm⟩⟩ := report_cases hc e a
  · rw [hm]
    exact h
  · rw [hm]
    refine h.frame rfl fun j' _ hj' => ⟨_, rfl, ?_⟩
    rw [pend_blocks, Option.some.inj (hj.symm.trans hj')]
  · rw [hm]
    exact fun hr => absurd hr (Bool.eq_false_iff.1 hin)

theorem closed_registers (hc : HostCode H) (b : Block) : Closed hc (Registers b) where
  callback e c _ h := Registers.foldl (e := { e with host := (hc.invoke e.host c).1 }) h _
  mmu e m h := h
  ram e d off v h := h
  note e a h := h.note hc a
  arrive e h := by
    rw [arrive_eq]
    exact Registers.foldl (e := { e with clock := e.clock + 1 }) h _
  fault e a x c h := h
  error e h := h
  leave e h := nofun
  log e l h := h
  notify e h := by
    unfold maybeCallOnStop
    split
    · exact h
    · next cb _ => exact Registers.foldl (e := { e with host := (hc.onStop e.host cb e.stopreason).1 }) h _

theorem Registers.native {b : Block} {α : Type} {e : Emu H} (h : e.Registers b) (hc : HostCode H) (x : NCpu α) :
    (e.runNative hc x).Ends (Registers b) := by
  refine Closed.putRegs (fun _ _ h => h) (Tree.run_ends (fun o r s hs => ?_) (x.run e.regs) h)
  have ha : (s.asked hc r).Registers b := (closed_registers hc b).arrive { s with regs := r } hs
  cases o with
  | base o =>
    refine (closed_registers hc b).handle (fun _ _ h => h) hs fun ha => ?_
    cases o with
    | ackIrq => exact ha
    | stop reason => exact ha
    | _ => trivial
  | countInsns n => exact ha.frame rfl fun j _ hj => ⟨_, congrArg (Option.map _) hj, rfl⟩
  | _ => exact ha

end Emu

namespace Run

variable {c : Run H}

/-- No write waits in the cache, and the running block is in it. -/
structure Clean (c : Run H) : Prop where
  sound : c.Sound
  settled : c.emu.CacheSettled
  registered : ∀ b k, c.phase = .block b k → b.active = true ∧ ∃ j, c.emu.jit = some j ∧ b ∈ j.blocks

theorem polled_settled {e : Emu H} (h : c.emu.CacheSettled) (hpo : c.polled hc = some e) : e.CacheSettled :=
  (polled_eq hpo).2.2 ▸ h.poll hc

theorem Compiles.outside {e : Emu H} (hi : c.Compiles hc e) (h : c.emu.Outside) : e.Outside := by
  refine ⟨compiles_inJitRun hi h.outside, ?_⟩
  cases hi with
  | @mk e j hd hirq hmut hfind =>
    rintro k hk
    cases hk
    have hs := polled_settled h.settled hd.polled j hd.jit
    unfold jitMakeRoom
    split
    · exact ⟨rfl, rfl⟩
    · exact hs

theorem Interprets.outside {e : Emu H} (hi : c.Interprets hc e) (h : c.emu.Outside) : e.Outside := by
  cases hi with
  | irq hd hirq => exact ⟨polled_inJitRun hd.polled h.outside, polled_settled h.settled hd.polled⟩
  | mutable hd hirq hmut => exact ⟨polled_inJitRun hd.polled h.outside, polled_settled h.settled hd.polled⟩
  | uncompiled hd hb hs =>
    have ho := Compiles.outside hd h
    exact ⟨(Emu.compile_answers hc ho.outside _).ok hb, (ho.compile hc _).ok hb⟩

theorem Offers.outside {e : Emu H} {b : Block} (ho : c.Offers hc e b) (h : c.emu.Outside)
    (hf : c.emu.Cached Jit.Filled) :
    e.Outside ∧ b.active = true ∧ ∃ j, e.jit = some j ∧ b ∈ j.blocks := by
  cases ho with
  | @found e j b hd hirq hmut hb =>
    refine ⟨⟨polled_inJitRun hd.polled h.outside, polled_settled h.settled hd.polled⟩, ?_⟩
    obtain ⟨hb, ha⟩ := Option.filter_eq_some_iff.1 hb
    exact ⟨ha, j, hd.jit, List.mem_of_find?_eq_some hb⟩
  | compiled hd hb hs =>
    have ho := Compiles.outside hd h
    have hfilled := keeps_compiles (I := Emu.Cached Jit.Filled) (fun _ => (Emu.steady_filled hc).poll)
      (Emu.steady_filled hc).engine hf hd
    obtain ⟨k, hk, hm, ha⟩ := Emu.compile_registers hfilled hb
    exact ⟨⟨(Emu.compile_answers hc ho.outside _).ok hb, (ho.compile hc _).ok hb⟩, ha, k, hk, hm⟩

theorem processPendingWrites_settled (c : Run H) : c.processPendingWrites.emu.CacheSettled := by
  unfold processPendingWrites
  split
  · next hj =>
    rintro k hk
    cases hj.symm.trans hk
  · next j hj =>
    split
    · next he =>
      rintro k hk
      cases hj.symm.trans hk
      rw [Bool.and_eq_true, List.isEmpty_iff, Bool.not_eq_true'] at he
      exact he
    · have hs : (jitProcessPendingWrites j).1.Settled := ⟨rfl, rfl⟩
      generalize jitProcessPendingWrites j = t at hs ⊢
      rintro k hk
      cases hk
      split <;> exact hs

theorem processNeedsFlush_settled {c : Run H} (h : c.emu.CacheSettled) :
    c.processNeedsFlush.emu.CacheSettled := by
  unfold processNeedsFlush
  split
  · exact h
  · split
    · rintro k hk
      cases hk
      exact ⟨rfl, rfl⟩
    · exact h

theorem afterPoll_settled {c : Run H} (h : c.emu.CacheSettled) : (c.afterPoll hc).emu.CacheSettled := by
  unfold afterPoll
  split
  · exact h
  · dsimp only
    split
    · exact h.idle hc
    · exact (h.idle hc).finish hc

theorem blockReturn_settled (c : Run H) : (c.blockReturn hc).emu.CacheSettled :=
  afterPoll_settled ((processNeedsFlush_settled (processPendingWrites_settled _)).poll hc)

theorem enterBlock_clean {e : Emu H} {b : Block} (h : e.CacheSettled)
    (hb : ∃ j, e.jit = some j ∧ b ∈ j.blocks) : (enterBlock { c with emu := e } b).emu.CacheSettled ∧
      ∃ j, (enterBlock { c with emu := e } b).emu.jit = some j ∧ b ∈ j.blocks := by
  obtain ⟨j, hj, hb⟩ := hb
  unfold enterBlock
  dsimp only
  rw [hj]
  refine ⟨?_, _, rfl, hb⟩
  rintro k hk
  cases hk
  exact h j hj

/-- What a step that is not inside of a block leaves. -/
theorem settled_of_phase {c : Run H} (hs : c.Sound) (h : c.emu.CacheSettled)
    (hp : ∀ b k, c.phase ≠ .block b k) : c.Clean :=
  ⟨hs, h, fun b k hb => absurd hb (hp b k)⟩

theorem step_clean (hnever : hc.NeverEnables) (h : c.Clean) : (c.step hc).Clean := by
  have hsound := step_sound hc h.sound
  have hout : c.phase = .dispatch ∨ c.phase = .interp → c.emu.Outside := fun hp =>
    ⟨Fits.of_running hp h.sound.fits, h.settled⟩
  have ho := c.step_outcome hc
  have hne : ∀ {p : Phase}, p = .dispatch ∨ p = .interp → ∀ b k, p ≠ .block b k := by
    rintro p (rfl | rfl) b k <;> exact nofun
  have hpoll : ∀ c' : Run H, c'.phase = .dispatch ∨ c'.phase = .interp → ∀ b k,
    (c'.afterPoll hc).phase ≠ .block b k := by
    intro c' hp b k
    rcases afterPoll_phase hc c' with hq | hq
    · exact hq ▸ hne hp b k
    · exact hq ▸ nofun
  generalize c.step hc = c' at ho hsound ⊢
  cases ho with
  | finished hp => exact h
  | stopped hp hs => exact settled_of_phase hsound (h.settled.finish hc) nofun
  | waits hp hs hw => exact settled_of_phase hsound ((h.settled.poll hc).idle hc) (hne hp)
  | polled hp hs hs' hw => exact settled_of_phase hsound ((h.settled.poll hc).finish hc) nofun
  | debugs hp hpo hd => exact settled_of_phase hsound ((polled_settled h.settled hpo).finish hc) nofun
  | handsOver hp hpo hd hj => exact settled_of_phase hsound (polled_settled h.settled hpo) nofun
  | interprets hi hx =>
    have hset := (((Interprets.outside hi (hout (.inl hi.phase))).runCpu _).ok hx).settled
    exact settled_of_phase hsound hset (hne (.inl hi.phase))
  | interpretsLast hi hx hs =>
    have hset := (((Interprets.outside hi (hout (.inl hi.phase))).runCpu _).ok hx).settled
    exact settled_of_phase hsound (hset.finish hc) nofun
  | round hp hpo hx =>
    have he : Emu.Outside _ := ⟨polled_inJitRun hpo (hout (.inr hp)).outside, polled_settled h.settled hpo⟩
    exact settled_of_phase hsound (afterPoll_settled (((he.runCpu _).ok hx).settled.poll hc)) (hpoll _ (.inr hp))
  | compileStops hi hx hs =>
    exact settled_of_phase hsound
      ((((Compiles.outside hi (hout (.inl hi.phase))).compile hc _).ok hx).finish hc) nofun
  | enters hb ht =>
    obtain ⟨he, ha, hm⟩ := Offers.outside hb (hout (.inl hb.phase)) h.sound.cache
    obtain ⟨h1, h2⟩ := enterBlock_clean (c := c) he.settled hm
    exact ⟨hsound, h1, by rintro _ _ ⟨⟩; exact ⟨ha, h2⟩⟩
  | @entersTagged e b hb ht hm =>
    obtain ⟨he, ha, hj⟩ := Offers.outside hb (hout (.inl hb.phase)) h.sound.cache
    obtain ⟨m, hm'⟩ := Emu.translatePaddr_mmu hc e e.regs.PC .fetch
    obtain ⟨h1, h2⟩ := enterBlock_clean (c := c) (e := { e with mmu := m }) he.settled hj
    rw [hm'] at hsound ⊢
    exact ⟨hsound, h1, by rintro _ _ ⟨⟩; exact ⟨ha, h2⟩⟩
  | @drops e e' b hb ht hm he =>
    obtain ⟨hs, -, -⟩ := Offers.outside hb (hout (.inl hb.phase)) h.sound.cache
    obtain ⟨m, hm'⟩ := Emu.translatePaddr_mmu hc e e.regs.PC .fetch
    refine settled_of_phase hsound ?_ (hne (.inl hb.phase))
    rintro k hk
    obtain ⟨j, hj, rfl⟩ := Option.map_eq_some_iff.1 hk
    rw [he, hm'] at hj
    have hs := hs.settled j hj
    obtain ⟨h1, h2⟩ := Jit.pending_where j fun b => jitBlockOverlapsPage b (page e'.regs.PC)
    exact ⟨h1.trans hs.1, h2.trans hs.2⟩
  | @goesOn b k k' i next e he hx hn =>
    have hne : next ≠ .ret := by
      rintro rfl
      rcases hn with hn | ⟨hn, -⟩ <;> cases hn
    obtain ⟨ha, hm⟩ := h.registered b k he.1
    have hr := ((show c.emu.Registers b from fun _ => hm).native hc _).ok hx
    refine ⟨hsound, h.settled.native hnever hx hne, ?_⟩
    rintro _ _ ⟨⟩
    exact ⟨ha, hr hsound.fits.1⟩
  | @returns b k i next e he hx hn =>
    refine settled_of_phase hsound (blockReturn_settled _) fun b k hp => ?_
    rcases blockReturn_phase hc { c with emu := e } with hq | hq <;> cases hq.symm.trans hp
  | @exits b k i e he hx =>
    refine settled_of_phase hsound (processPendingWrites_settled _) fun b k hp => ?_
    cases (processPendingWrites_inJitRun { c with emu := e, phase := .dispatch }).2.symm.trans hp
  | roundFails hp hpo hx => exact absurd rfl hsound.ne_stuck
  | execFails hi hx => exact absurd rfl hsound.ne_stuck
  | compileFails hi hx hpo => exact absurd rfl hsound.ne_stuck
  | nativeFails he hx => exact absurd rfl hsound.ne_stuck
  | offBlock hp hk => exact absurd rfl hsound.ne_stuck

end Run

theorem Emu.Fit.clean {e : Emu H} (h : e.Fit) (hs : e.CacheSettled) : e.start.Clean := by
  have hk : e.start.emu.CacheSettled ∧ ∀ b k, e.start.phase ≠ .block b k := by
    unfold Emu.start
    dsimp only
    split
    · refine ⟨?_, nofun⟩
      rintro k hk
      obtain ⟨j, hj, rfl⟩ := Option.map_eq_some_iff.1 hk
      exact hs j hj
    · exact ⟨hs, nofun⟩
  exact Run.settled_of_phase h.start hk.1 hk.2

/-- Between two instructions of a run no write to compiled code waits to be processed, and a block
that runs has not been dropped from the cache. -/
theorem writes_processed_in_time (hc : HostCode H) (hn : hc.NeverEnables) (e : Emu H)
    (h : e.Fit) (hs : e.CacheSettled) (n : Nat) :
    (e.start.steps hc n).emu.CacheSettled ∧ ∀ b k, (e.start.steps hc n).phase = .block b k →
      b.active = true ∧ ∃ j, (e.start.steps hc n).emu.jit = some j ∧ b ∈ j.blocks := by
  have hc : (e.start.steps hc n).Clean := by
    induction n with
    | zero => exact h.clean hs
    | succ n ih =>
      rw [Run.steps_succ]
      exact Run.step_clean hn ih
  exact ⟨hc.settled, hc.registered⟩

/-- `LDA #$EA; STA $0207; NOP; STP`, which overwrites its own last instruction. -/
def selfWritingEmu : Emu Unit :=
  let code : List Byte := [0xA9, 0xEA, 0x8D, 0x07, 0x02, 0xEA, 0xEA, 0xDB]
  (init (ramBus fun a => code.getD (a.toNat - 0x0200) 0xDB) () ⟨0, 0, 0, 0x0200, 0xFF, 0x20⟩).jitEnable true

theorem writes_processed_after_store : (selfWritingEmu.start.steps (quietHost identity) 3).emu.CacheSettled ∧
    ((selfWritingEmu.start.steps (quietHost identity) 3).emu.jit.map fun j =>
      (j.stats.writeEvents, j.activeBlocks)) =
      some (1, 0) := by
  refine ⟨(writes_processed_in_time (quietHost identity) ?_ selfWritingEmu ?_ ?_ 3).1, by decide +kernel⟩
  · intro h c
    cases c <;> exact List.not_mem_nil
  · exact ⟨Jit.filled_create, rfl⟩
  · rintro j ⟨⟩
    exact ⟨rfl, rfl⟩

end Rk65c02
