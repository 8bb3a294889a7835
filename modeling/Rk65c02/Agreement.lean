import Rk65c02.Refinement

/-! Runs with the JIT and runs without: after every step of the dispatcher the guest is where
the interpreter comes to, and one run ends if the other does. -/

namespace Rk65c02

open Resumption Cpu

variable {H : Type} {hc : HostCode H} {q : Prop} {e₀ e : Emu H} {m : Machine}

namespace Emu

namespace Tracks

theorem runCpu (hq : q → hc.Undisturbed) (h : e₀.Tracks q e m) (pc : Addr) :
    ∃ e', e.runCpu hc (instructionFetchEmu pc) = .ok (Image.insnAt m.bus.peek pc) e' ∧ e₀.Tracks q e' m ∧
      e'.jit = e.jit ∧ e'.regs = e.regs := by
  have hsat : ((instructionFetchEmu pc).run e.regs).Sat
      (fun o _ => o ≠ .irq ∧ o.isWrite = false) fun _ => True := by
    refine (instructionFetchEmu_keeps (G := fun _ => True) pc e.regs trivial).mono (fun o _ ho => ?_)
      fun _ _ => trivial
    cases o with
    | isBreakpoint a | disassemble a | fetch a => exact ⟨nofun, rfl⟩
    | _ => exact ho.elim
  obtain ⟨e', hr, ht, hj⟩ := h.run_jit hq hsat (Machine.fetchEmu_run false pc e.regs)
  refine ⟨{ e' with regs := e.regs }, ?_, ht.withRegs _ e'.clock, hj, rfl⟩
  unfold Emu.runCpu
  rw [hr]
  rfl

theorem build (hq : q → hc.Undisturbed) (h : e₀.Tracks q e m) (startPc : Addr) (n : Nat) (pc : Addr) :
    ∃ is e', e.jitBuildBlockInsns hc startPc n pc = .ok is e' ∧ e₀.Tracks q e' m ∧ e'.jit = e.jit ∧
    e'.regs = e.regs ∧
      Reads m.bus.peek pc is := by
  induction n generalizing e pc with
  | zero => exact ⟨[], e, rfl, h, rfl, rfl, trivial⟩
  | succ n ih =>
    unfold jitBuildBlockInsns
    split
    · exact ⟨[], e, rfl, h, rfl, rfl, trivial⟩
    · obtain ⟨e₁, hr, ht, hj, hregs⟩ := h.runCpu hq pc
      rw [hr, Out.ok_bind]
      split
      · exact ⟨[], e₁, rfl, ht, hj, hregs, trivial⟩
      · split
        · exact ⟨[], e₁, rfl, ht, hj, hregs, trivial⟩
        · split
          · exact ⟨[Image.insnAt m.bus.peek pc], e₁, rfl, ht, hj, hregs, rfl, trivial⟩
          · obtain ⟨is, e₂, hr', ht', hj', hregs', hreads⟩ := ih ht (pc + (Image.insnAt m.bus.peek pc).size)
            rw [hr', Out.ok_bind]
            exact ⟨_ :: is, e₂, rfl, ht', hj'.trans hj, hregs'.trans hregs, rfl, hreads⟩

/-- Compilation changes nothing the guest sees, and the block it returns is what memory holds. -/
theorem compile {j : Jit} (hq : q → hc.Undisturbed) (h : e₀.Tracks q e m) (hin : e.inJitRun = false)
    (hj : e.jit = some j) (hlt : j.activeBlocks < jitMaxActiveBlocks) (pc : Addr) :
    ∃ b e', e.jitCompileBlock hc pc = .ok b e' ∧ e₀.Tracks q e' m ∧ e'.CacheSettled ∧ e'.regs = e.regs ∧
      ∀ x, b = some x → x.startPc = pc ∧ x.active = true ∧ ∃ k, e'.jit = some k ∧ x ∈ k.blocks := by
  obtain ⟨hm, hs⟩ := h.bare.cache j hj
  replace hs : j.Settled := hs.resolve_right fun hh => Bool.false_ne_true (hin.symm.trans hh.1)
  have hrec : (jitRecord j pc).Settled ∧ (jitRecord j pc).activeBlocks = j.activeBlocks := by
    unfold jitRecord
    split <;> exact ⟨hs, rfl⟩
  have hm' := hm.record pc
  have hpc := recordAt_startPc j pc
  have hmem := recordAt_mem j pc
  have htr : e₀.Tracks q { e with jit := some (jitRecord j pc) } m := by
    refine h.around (hj ▸ rfl) (fun hh => (Bool.false_ne_true (hin.symm.trans hh)).elim)
      (fun k hk => ?_) e.regs e.clock
      e.jitLoopBudget
    cases hk
    exact ⟨hm', .inl hrec.1⟩
  rw [compileBlock_some hj]
  by_cases ha : (recordAt j pc).active = true
  · rw [if_pos ha]
    refine ⟨_, _, rfl, htr, fun k hk => ?_, rfl, fun x hx => ?_⟩
    · cases hk
      exact hrec.1
    · cases hx
      exact ⟨hpc, ha, _, rfl, hmem⟩
  · rw [if_neg ha]
    obtain ⟨is, s, hr, hts, hjs, hregs, hreads⟩ := htr.build hq pc jitBlockMaxInsns pc
    rw [hr, Out.ok_bind]
    unfold compileEnd
    split
    · exact ⟨none, s, rfl, hts, fun k hk => Option.some.inj (hjs.symm.trans hk) ▸ hrec.1, hregs, nofun⟩
    · next hne =>
      have htags : s.jitPhysTags hc { recordAt j pc with endPcExclusive := blockEnd pc is } =
          ({ recordAt j pc with
            endPcExclusive := blockEnd pc is, mmuPhysPageValid := false, mmuPhysByteCov :=
              false, mmuPhysStart := 0 }, s) := by
        unfold jitPhysTags
        rw [hts.bare.off.1]
        rfl
      rw [htags]
      dsimp only
      generalize hb : ({ recordAt j pc with
        endPcExclusive := blockEnd pc is, mmuPhysPageValid := false, mmuPhysByteCov := false, mmuPhysStart := 0,
        numInsns := is.length, fn := some is } : Block) = b
      have hcomp : ({ e with jit := some (jitRecord j pc) } : Emu H).Compiled hc pc is b :=
        hb ▸ ⟨hpc, rfl, rfl, rfl, hne, s, hr⟩
      obtain ⟨hinst, hin'⟩ := hm'.install hmem (hb ▸ rfl) (Bool.eq_false_iff.2 ha)
        (hrec.2 ▸ hlt) hcomp.fn hcomp.formed (hb ▸ rfl)
        (by rw [hcomp.startPc]; exact h.bus ▸ hreads)
      have hjit : s.jit.map (fun k => jitInstall k b) = some (jitInstall (jitRecord j pc) b) := by rw [hjs]; rfl
      rw [hjit]
      have hset : (jitInstall (jitRecord j pc) b).Settled := hrec.1
      have hend : e₀.Tracks q { s with jit := some (jitInstall (jitRecord j pc) b) } m := by
        refine hts.around (hjs ▸ rfl) (fun hh => ?_) (fun k hk => ?_) s.regs s.clock s.jitLoopBudget
        · rw [hts.same.inJitRun, ← h.same.inJitRun, hin] at hh
          cases hh
        · cases hk
          exact ⟨hts.bus ▸ h.bus ▸ hinst, .inl hset⟩
      refine ⟨_, _, rfl, hend, fun k hk => Option.some.inj hk ▸ hset, hregs, fun x hx => ?_⟩
      cases hx
      exact ⟨hcomp.startPc, Option.isSome_iff_exists.2 ⟨is, hcomp.fn⟩, _, rfl, hin'⟩

end Tracks

/-- Between two instructions, outside of compiled code. -/
structure Rests (e : Emu H) : Prop where
  bare : e.Bare
  still : e.Still
  outside : e.inJitRun = false

end Emu

theorem Machine.iterate_stopped {s : Regs × Machine} {k l : Nat}
    (h : ((advance false)^[k] s).2.state ≠ .running) (hl : k ≤ l) :
    (advance false)^[l] s = (advance false)^[k] s := by
  obtain ⟨n, rfl⟩ := Nat.exists_eq_add_of_le hl
  rw [Nat.add_comm, Function.iterate_add_apply]
  exact Function.iterate_fixed
    (show advance false ((advance false)^[k] s) = (advance false)^[k] s from if_neg h) n

namespace Emu

theorem Still.tracks (hb : e.Bare) (hs : e.Still) : e.Tracks True e e.machine :=
  ⟨hb, rfl, .refl e, fun _ => ⟨hs, rfl⟩⟩

theorem Tracks.rests (h : e₀.Tracks True e m) (hin : e₀.inJitRun = false) : e.Rests :=
  ⟨h.bare, (h.still trivial).1, h.same.inJitRun.trans hin⟩

theorem Still.poll (hs : hc.Undisturbed) (h : e.Still) :
    e.pollHostControls hc = { e with clock := e.clock + 1 } := by
  have ha : e.arrive hc = { e with clock := e.clock + 1 } := hs.asked e.regs e
  unfold pollHostControls applyHostStopRequest maybeTick
  rw [ha]
  simp only [h.stopRequested, h.tick, Bool.not_false, if_true]

namespace Rests

theorem tracks (h : e.Rests) : e.Tracks True e e.machine := Still.tracks h.bare h.still

theorem settled (h : e.Rests) : e.CacheSettled := fun j hj =>
  (h.bare.cache j hj).2.resolve_right fun hh => Bool.false_ne_true (h.outside.symm.trans hh.1)

theorem poll (hs : hc.Undisturbed) (h : e.Rests) :
    (e.pollHostControls hc).Rests ∧ (e.pollHostControls hc).guest = e.guest := by
  rw [h.still.poll hs]
  exact ⟨(h.tracks.withRegs e.regs _).rests h.outside, rfl⟩

theorem exec (hs : hc.Undisturbed) (h : e.Rests) (hr : e.state = .running) :
    ∃ e', e.exec hc = .ok () e' ∧ e'.Rests ∧ e'.guest = Machine.advance false e.guest := by
  obtain ⟨e', hx, hregs, ht⟩ := h.tracks.exec fun _ => hs
  have hirq : (e.asked hc e.regs).irq = false := by
    rw [hs.asked]
    exact h.still.irq
  rw [hirq] at hregs ht
  refine ⟨e', hx, ht.rests h.outside, ?_⟩
  rw [Machine.advance, if_pos (show e.guest.2.state = .running from hr)]
  exact Prod.ext hregs (ht.still trivial).2

theorem finish (hs : hc.Undisturbed) (h : e.Rests) : (e.finish hc).Rests ∧ (e.finish hc).guest = e.guest := by
  obtain ⟨hr, hg⟩ := h.poll hs
  unfold Emu.finish
  dsimp only
  split
  · unfold maybeCallOnStop
    rw [hr.still.onStop]
    exact ⟨hr, hg⟩
  · exact ⟨hr, hg⟩

end Rests

end Emu

namespace Run

variable {c : Run H}

/-- Where a run stands: between two instructions, in a block that is what memory holds, or at the end. -/
def Stands (c : Run H) : Prop :=
  match c.phase with
  | .dispatch | .interp => c.emu.Rests
  | .block b k => c.emu.At b k ∧ c.emu.Still ∧ c.emu.state = .running
  | .done => c.emu.Rests ∧ c.emu.state ≠ .running
  | .stuck => False

/-- A run that is ended has stopped, with the guest as it was. -/
theorem finish_stands (hs : hc.Undisturbed) (h : c.emu.Rests) (hn : c.emu.state ≠ .running) :
    (c.finish hc).Stands ∧ (c.finish hc).emu.guest = c.emu.guest := by
  obtain ⟨hr, hg⟩ : (c.finish hc).emu.Rests ∧ (c.finish hc).emu.guest = c.emu.guest := h.finish hs
  refine ⟨⟨hr, fun hrun => hn ?_⟩, hg⟩
  exact (congrArg (fun s => s.2.state) hg).symm.trans hrun

theorem afterPoll_stands (hs : hc.Undisturbed) (h : c.emu.Rests) (hp : c.phase = .dispatch ∨ c.phase = .interp) :
    (afterPoll hc c).Stands ∧ (afterPoll hc c).emu.guest = c.emu.guest ∧
      ((afterPoll hc c).phase = .done ∨ (afterPoll hc c).phase = c.phase) := by
  unfold afterPoll
  split
  · refine ⟨?_, rfl, .inr rfl⟩
    rcases hp with hp | hp <;> rwa [Stands, hp]
  · next hn =>
    have hw : c.emu.maybeWaitOnIdle hc = (false, c.emu) := by
      unfold Emu.maybeWaitOnIdle
      rw [h.still.idleWait]
    rw [hw]
    dsimp only
    rw [if_neg fun hh => Bool.false_ne_true hh.1]
    obtain ⟨hst, hg⟩ := finish_stands hs h hn
    exact ⟨hst, hg, .inl rfl⟩

section Dispatch

variable {e : Emu H} {j : Jit} {b : Block} (hs : hc.Undisturbed) (h : c.emu.Rests)

include hs h

theorem polled_rests (hp : c.polled hc = some e) : e.Rests ∧ e.guest = c.emu.guest ∧ e.state = .running := by
  unfold Run.polled at hp
  split at hp
  · cases hp
  · split at hp
    · cases hp
    · next hr =>
      cases hp
      exact ⟨(h.poll hs).1, (h.poll hs).2, Decidable.not_not.1 hr⟩

theorem Compiles.rests (hco : c.Compiles hc e) : e.Rests ∧ e.guest = c.emu.guest ∧ e.state = .running ∧
    ∃ j, e.jit = some j ∧ j.activeBlocks < jitMaxActiveBlocks := by
  obtain @⟨e, j, hd, hirq, hmut, hfind⟩ := hco
  obtain ⟨hr, hg, hrun⟩ := polled_rests hs h hd.polled
  obtain ⟨hm, -⟩ := hr.bare.cache j hd.jit
  have hset := hr.settled j hd.jit
  have hroom : (jitMakeRoom j).Matches e.bus.peek ∧ (jitMakeRoom j).Settled := by
    unfold jitMakeRoom
    split
    · exact ⟨hm.flush _, rfl, rfl⟩
    · exact ⟨hm, hset⟩
  refine ⟨⟨hr.bare.congr rfl rfl rfl fun k hk => ?_, ?_, hr.outside⟩, hg, hrun, _, rfl, hm.exact.makeRoom.2⟩
  · cases hk
    exact ⟨hroom.1, .inl hroom.2⟩
  · exact ⟨hr.still.irq, hr.still.stopRequested, hr.still.tick, hr.still.idleWait, hr.still.onStop⟩

theorem compile_rests (hco : c.Compiles hc e) : ∃ b e', e.jitCompileBlock hc e.regs.PC = .ok b e' ∧ e'.Rests ∧
    e'.guest = c.emu.guest ∧ e'.state = .running ∧ ∀ x, b = some x →
      x.startPc = e'.regs.PC ∧ x.active = true ∧ ∃ k, e'.jit = some k ∧ x ∈ k.blocks := by
  obtain ⟨hr, hg, hrun, j, hj, hlt⟩ := hco.rests hs h
  obtain ⟨b, e', hx, ht, -, hregs, hb⟩ := hr.tracks.compile (fun _ => hs) hr.outside hj hlt e.regs.PC
  have hg' : e'.guest = e.guest := Prod.ext hregs (ht.still trivial).2
  refine ⟨b, e', hx, ht.rests hr.outside, hg'.trans hg, (congrArg (fun s => s.2.state) hg').trans hrun,
    fun x hx => ?_⟩
  rw [hregs]
  exact hb x hx

theorem Interprets.rests (hi : c.Interprets hc e) : e.Rests ∧ e.guest = c.emu.guest ∧ e.state = .running := by
  cases hi with
  | irq hd _ => exact polled_rests hs h hd.polled
  | mutable hd _ _ => exact polled_rests hs h hd.polled
  | uncompiled hco hb hs' =>
    obtain ⟨b, e', hx, hr, hg, hrun, -⟩ := compile_rests hs h hco
    cases hb.symm.trans hx
    exact ⟨hr, hg, hrun⟩

/-- A block that the dispatcher has for `PC` is what memory holds there. -/
theorem Offers.rests (ho : c.Offers hc e b) : e.Rests ∧ e.guest = c.emu.guest ∧ e.state = .running ∧
    b.startPc = e.regs.PC ∧ b.active = true ∧ ∃ k, e.jit = some k ∧ b ∈ k.blocks := by
  cases ho with
  | @found _ j _ hd hirq hmut hb =>
    obtain ⟨hr, hg, hrun⟩ := polled_rests hs h hd.polled
    obtain ⟨hf, ha⟩ := Option.filter_eq_some_iff.1 hb
    exact ⟨hr, hg, hrun, by simpa using List.find?_some hf, ha, _, hd.jit, List.mem_of_find?_eq_some hf⟩
  | compiled hco hb hs' =>
    obtain ⟨b', e', hx, hr, hg, hrun, hbk⟩ := compile_rests hs h hco
    cases hb.symm.trans hx
    exact ⟨hr, hg, hrun, hbk b rfl⟩

end Dispatch

/-- Entering a block puts `PC` at its first label. -/
theorem enter_stands {e : Emu H} {b : Block} (h : e.Rests) (hrun : e.state = .running)
    (hpc : b.startPc = e.regs.PC) (ha : b.active = true) (hb : ∃ k, e.jit = some k ∧ b ∈ k.blocks) :
    (enterBlock { c with emu := e } b).Stands ∧ (enterBlock { c with emu := e } b).emu.guest = e.guest := by
  have hst := h.still
  exact ⟨⟨h.bare.enter h.outside ha hb hpc,
    ⟨hst.irq, hst.stopRequested, hst.tick, hst.idleWait, hst.onStop⟩, hrun⟩, rfl⟩

theorem processed_rests (hb : c.emu.Bare) (hst : c.emu.Still) {e : Emu H}
    (he : e = { c.emu with inJitRun := false }) :
    (processPendingWrites { c with emu := e }).emu.Rests ∧
      (processPendingWrites { c with emu := e }).emu.guest = c.emu.guest ∧
      (processPendingWrites { c with emu := e }).phase = c.phase := by
  have hstill : e.Still := he ▸ ⟨hst.irq, hst.stopRequested, hst.tick, hst.idleWait, hst.onStop⟩
  have hrest : ∀ (j : Option Jit) (u : Bool), (∀ k, j = some k → k.Matches c.emu.bus.peek ∧ k.Settled) →
      ({ e with jit := j, useJit := u } : Emu H).Rests := by
    subst he
    refine fun j u hj => ⟨hb.congr rfl rfl rfl fun k hk => ⟨(hj k hk).1, .inl (hj k hk).2⟩, ?_, rfl⟩
    exact ⟨hstill.irq, hstill.stopRequested, hstill.tick, hstill.idleWait, hstill.onStop⟩
  have hjit : e.jit = c.emu.jit := he ▸ rfl
  have hguest : e.guest = c.emu.guest := he ▸ rfl
  unfold processPendingWrites
  dsimp only
  split
  · next hn => exact ⟨hrest e.jit e.useJit fun k hk => (nomatch hn.symm.trans hk), hguest, rfl⟩
  · next j hj =>
    have hm := (hb.cache j (hjit ▸ hj)).1
    split
    · next hp =>
      rw [Bool.and_eq_true, List.isEmpty_iff, Bool.not_eq_true'] at hp
      exact ⟨hrest e.jit e.useJit fun k hk => Option.some.inj (hj.symm.trans hk) ▸ ⟨hm, hp⟩, hguest, rfl⟩
    · refine ⟨hrest (some _) _ fun k hk => ?_, hguest, rfl⟩
      cases hk
      split
      · exact ⟨hm.process.1.moves (.single (.note rfl)) fun _ _ _ _ _ _ hr => hr, hm.process.2⟩
      · exact hm.process

theorem flushed_rests (h : c.emu.Rests) : (processNeedsFlush c).emu.Rests ∧
    (processNeedsFlush c).emu.guest = c.emu.guest ∧
    (processNeedsFlush c).phase = c.phase := by
  unfold processNeedsFlush
  split
  · exact ⟨h, rfl, rfl⟩
  · next j hj =>
    split
    · refine ⟨⟨h.bare.congr rfl rfl rfl fun k hk => ?_, ?_, h.outside⟩, rfl, rfl⟩
      · cases hk
        exact ⟨(h.bare.cache j hj).1.flush _, .inl ⟨rfl, rfl⟩⟩
      · exact ⟨h.still.irq, h.still.stopRequested, h.still.tick, h.still.idleWait, h.still.onStop⟩
    · exact ⟨h, rfl, rfl⟩

/-- When a block returns, the dispatcher processes what was noted, and goes on or stops. -/
theorem return_stands (hs : hc.Undisturbed) (hb : c.emu.Bare) (hst : c.emu.Still) :
    (blockReturn hc c).Stands ∧ (blockReturn hc c).emu.guest = c.emu.guest ∧
      ((blockReturn hc c).phase = .done ∨ (blockReturn hc c).phase = .dispatch) := by
  obtain ⟨hr, hg, hp⟩ := processed_rests (c := { c with phase := .dispatch }) hb hst rfl
  obtain ⟨hr', hg', hp'⟩ := flushed_rests hr
  obtain ⟨hr'', hg''⟩ := hr'.poll hs
  obtain ⟨hst', hga, hpa⟩ :=
    afterPoll_stands (c := { processNeedsFlush (processPendingWrites _) with emu := _ }) hs hr''
    (.inl (hp'.trans hp))
  refine ⟨hst', hga.trans (hg''.trans (hg'.trans hg)), hpa.imp_right fun hh => hh.trans (hp'.trans hp)⟩

/-- An instruction of a running block. -/
theorem native_stands (hs : hc.Undisturbed) {b : Block} {k : Nat} {i : Instruction} (he : c.Enters b k i)
    (h : c.Stands) :
    ∃ next e, c.emu.runNative hc (nativeInsn ⟨insnAddrs b.startPc (b.fn.getD [])⟩ k i) = .ok next e ∧
      e.Bare ∧ e.Still ∧ e.guest = Machine.advance false c.emu.guest ∧ ∀ k',
      (next = .goto k' ∨ next = .fall ∧ k' = k + 1 ∧ k' < (b.fn.getD []).length) →
        e.At b k' ∧ e.state = .running := by
  unfold Stands at h
  rw [he.1] at h
  obtain ⟨hat, hst, hrun⟩ := h
  have htr := Emu.Still.tracks hat.bare hst
  obtain ⟨next, e, hr, hregs, ht, hn⟩ :=
    htr.native (fun _ => hs) ⟨insnAddrs b.startPc (b.fn.getD [])⟩ k hat.pc (hat.insn he.2)
  rw [htr.lineFor (fun _ => hs) trivial i] at hregs ht hn
  refine ⟨next, e, hr, ht.bare, (ht.still trivial).1, ?_, fun k' hk' => ⟨?_, ?_⟩⟩
  · rw [Machine.advance, if_pos (show c.emu.guest.2.state = .running from hrun)]
    exact Prod.ext hregs (ht.still trivial).2
  · exact hat.next he.2 hn ht.bare ht.same hk'
  · refine Emu.native_running hat.inJitRun hrun hr ?_
    rintro rfl
    rcases hk' with hk' | hk'
    · cases hk'
    · cases hk'.1

/-- How far a run is on the way to its next instruction. -/
def weight (c : Run H) : Nat := if c.phase = .dispatch then 0 else 1

theorem weight_dispatch (h : c.phase = .dispatch) : c.weight = 0 := if_pos h

theorem weight_le (c : Run H) : c.weight ≤ 1 := by
  unfold weight
  split <;> omega

/-- The guest executes an instruction, or the run is about to execute one, or it is over. -/
def Advances (c c' : Run H) : Prop := c'.Stands ∧ ∃ n, c'.emu.guest = (Machine.advance false)^[n] c.emu.guest ∧
  (c'.phase = .done ∨ c.weight < 2 * n + c'.weight)

theorem Advances.once {c' : Run H} (hst : c'.Stands) (hg : c'.emu.guest = Machine.advance false c.emu.guest) :
    c.Advances c' :=
  ⟨hst, 1, hg, .inr (by have := c.weight_le; omega)⟩

theorem step_stands (hs : hc.Undisturbed) (h : c.Stands) : c.Advances (c.step hc) := by
  have hrests : c.phase = .dispatch ∨ c.phase = .interp → c.emu.Rests := by
    rintro (hp | hp) <;> rwa [Stands, hp] at h
  have hexec : ∀ e, c.Interprets hc e → ∃ e', e.exec hc = .ok () e' ∧ e'.Rests ∧
      e'.guest = Machine.advance false c.emu.guest := by
    intro e hi
    obtain ⟨hr, hg, hrun⟩ := hi.rests hs (hrests (.inl hi.phase))
    exact hg ▸ hr.exec hs hrun
  have ho := step_outcome hc c
  generalize c.step hc = c' at ho ⊢
  cases ho with
  | finished hp =>
    rcases hp with hp | hp
    · exact ⟨h, 0, rfl, .inl hp⟩
    · rw [Stands, hp] at h
      exact h.elim
  | stopped hp hn =>
    obtain ⟨hst, hg⟩ := finish_stands hs (hrests hp) hn
    exact ⟨hst, 0, hg, .inl rfl⟩
  | waits hp hr hw =>
    rw [(hrests hp).still.poll hs, Emu.maybeWaitOnIdle, (hrests hp).still.idleWait] at hw
    cases hw
  | polled hp hr hr' hw =>
    rw [(hrests hp).still.poll hs] at hr'
    exact absurd hr hr'
  | debugs hp hpo hd =>
    obtain ⟨hr, -⟩ := polled_rests hs (hrests (.inl hp)) hpo
    cases hr.bare.debugging.symm.trans hd
  | handsOver hp hpo hd hj =>
    obtain ⟨hr, hg, -⟩ := polled_rests hs (hrests (.inl hp)) hpo
    refine ⟨hr, 0, hg, .inr ?_⟩
    rw [weight_dispatch hp]
    exact Nat.one_pos
  | interprets hi hx =>
    obtain ⟨e', hx', hr, hg⟩ := hexec _ hi
    cases hx.symm.trans hx'
    refine .once ?_ hg
    rw [Stands, show ({ c with emu := _ } : Run H).phase = .dispatch from hi.phase]
    exact hr
  | interpretsLast hi hx hn =>
    obtain ⟨e', hx', hr, hg⟩ := hexec _ hi
    cases hx.symm.trans hx'
    obtain ⟨hst, hg'⟩ := finish_stands (c := { c with emu := _ }) hs hr hn
    exact .once hst (hg'.trans hg)
  | round hp hpo hx =>
    obtain ⟨hr, hg, hrun⟩ := polled_rests hs (hrests (.inr hp)) hpo
    obtain ⟨e', hx', hr', hg'⟩ := hr.exec hs hrun
    cases hx.symm.trans hx'
    obtain ⟨hst, hg'', -⟩ := afterPoll_stands (c := { c with emu := _ }) hs (hr'.poll hs).1 (.inr hp)
    exact .once hst (hg''.trans ((hr'.poll hs).2.trans (hg ▸ hg')))
  | compileStops hi hx hn =>
    obtain ⟨b, e', hx', -, -, hrun, -⟩ := compile_rests hs (hrests (.inl hi.phase)) hi
    cases hx.symm.trans hx'
    exact absurd hrun hn
  | enters hb ht =>
    obtain ⟨hr, hg, hrun, hpc, ha, hk⟩ := hb.rests hs (hrests (.inl hb.phase))
    obtain ⟨hst, hg'⟩ := enter_stands (c := c) hr hrun hpc ha hk
    refine ⟨hst, 0, hg'.trans hg, .inr ?_⟩
    rw [weight_dispatch hb.phase]
    exact Nat.one_pos
  | entersTagged hb ht hm | drops hb ht hm he =>
    obtain ⟨hr, -, -, -, ha, k, hk, hmem⟩ := hb.rests hs (hrests (.inl hb.phase))
    cases ((hr.bare.cache k hk).1.untagged _ hmem ha).symm.trans ht
  | goesOn he hx hn =>
    obtain ⟨next, e, hr, -, hst, hg, hk⟩ := native_stands hs he h
    cases hx.symm.trans hr
    obtain ⟨hat, hrun⟩ := hk _ hn
    exact .once ⟨hat, hst, hrun⟩ hg
  | returns he hx hn =>
    obtain ⟨next, e, hr, hb, hst, hg, -⟩ := native_stands hs he h
    cases hx.symm.trans hr
    obtain ⟨hst', hg', -⟩ := return_stands (c := { c with emu := _ }) hs hb hst
    exact .once hst' (hg'.trans hg)
  | exits he hx | nativeFails he hx =>
    obtain ⟨next, e, hr, -⟩ := native_stands hs he h
    cases hx.symm.trans hr
  | roundFails hp hpo hx =>
    obtain ⟨hr, hg, hrun⟩ := polled_rests hs (hrests (.inr hp)) hpo
    obtain ⟨e', hx', -⟩ := hr.exec hs hrun
    exact absurd hx' (hx e')
  | execFails hi hx =>
    obtain ⟨e', hx', -⟩ := hexec _ hi
    exact absurd hx' (hx e')
  | compileFails hi hx hpo =>
    obtain ⟨b, e', hx', -⟩ := compile_rests hs (hrests (.inl hi.phase)) hi
    exact absurd hx' (hx b e')
  | offBlock hp hk =>
    rw [Stands, hp] at h
    rw [List.getElem?_eq_none_iff] at hk
    exact absurd h.1.lt (Nat.not_lt.2 hk)

theorem done_step (hp : c.phase = .done) : c.step hc = c := by
  unfold step
  rw [hp]

/-- A whole run: the guest is where some number of instructions take it, and the number grows. -/
theorem steps_stand (hs : hc.Undisturbed) (h : c.Stands) (n : Nat) : (c.steps hc n).Stands ∧ ∃ k,
    (c.steps hc n).emu.guest = (Machine.advance false)^[k] c.emu.guest ∧
      ((c.steps hc n).phase = .done ∨ n ≤ 2 * k + (c.steps hc n).weight) := by
  induction n with
  | zero => exact ⟨h, 0, rfl, .inr (Nat.zero_le _)⟩
  | succ n ih =>
    obtain ⟨hst, k, hg, hk⟩ := ih
    rw [steps_succ]
    by_cases hp : (c.steps hc n).phase = .done
    · rw [done_step hp]
      exact ⟨hst, k, hg, .inl hp⟩
    · obtain ⟨hst', l, hg', hl⟩ := step_stands hs hst
      refine ⟨hst', l + k, ?_, hl.imp_right fun hl => ?_⟩
      · rw [hg', hg, ← Function.iterate_add_apply]
      · have hn := hk.resolve_left hp
        omega

theorem step_stopped (h : c.Stands) (hn : c.emu.state ≠ .running) : (c.step hc).phase = .done := by
  unfold Stands at h
  unfold step
  cases hp : c.phase with
  | dispatch => exact congrArg Run.phase (if_pos hn)
  | interp => exact congrArg Run.phase (if_pos hn)
  | block b k =>
    rw [hp] at h
    exact absurd h.2.2 hn
  | done => exact hp
  | stuck =>
    rw [hp] at h
    exact h.elim

/-- The run ends exactly if the guest stops. -/
theorem ends_iff (hs : hc.Undisturbed) (h : c.Stands) :
    (∃ n, (c.steps hc n).phase = .done) ↔ ∃ k, ((Machine.advance false)^[k] c.emu.guest).2.state ≠ .running := by
  constructor
  · rintro ⟨n, hn⟩
    obtain ⟨hst, k, hg, -⟩ := steps_stand hs h n
    rw [Stands, hn] at hst
    exact ⟨k, hg ▸ hst.2⟩
  · rintro ⟨k, hk⟩
    obtain ⟨hst, l, hg, hl⟩ := steps_stand hs h (2 * k + 2)
    rcases hl with hl | hl
    · exact ⟨_, hl⟩
    · have hw := (c.steps hc (2 * k + 2)).weight_le
      have hlk : (Machine.advance false)^[l] c.emu.guest = (Machine.advance false)^[k] c.emu.guest :=
        Machine.iterate_stopped hk (by omega)
      refine ⟨2 * k + 3, ?_⟩
      rw [steps_succ]
      exact step_stopped hst fun hr => hk ((congrArg (fun s => s.2.state) (hg.trans hlk)).symm.trans hr)

end Run

/-- `k` calls of `rk65c02_exec`, one after the other, on a running machine. -/
inductive Emu.Execs (hc : HostCode H) : Nat → Emu H → Emu H → Prop
  | zero (e : Emu H) : Execs hc 0 e e
  | succ {k : Nat} {e s s' : Emu H} (h : Execs hc k e s) (hr : s.state = .running) (hx : s.exec hc = .ok () s') :
      Execs hc (k + 1) e s'

/-- The interpreter goes wherever the machine goes. -/
theorem Emu.Rests.execs (hs : hc.Undisturbed) {e : Emu H} (h : e.Rests) (n : Nat) :
    ∃ k s, Emu.Execs hc k e s ∧ s.Rests ∧ s.guest = (Machine.advance false)^[n] e.guest := by
  induction n with
  | zero => exact ⟨0, e, .zero e, h, rfl⟩
  | succ n ih =>
    obtain ⟨k, s, hx, hr, hg⟩ := ih
    rw [Function.iterate_succ_apply', ← hg]
    by_cases hrun : s.state = .running
    · obtain ⟨s', hx', hr', hg'⟩ := hr.exec hs hrun
      exact ⟨k + 1, s', .succ hx hrun hx', hr', hg'⟩
    · exact ⟨k, s, hx, hr, (if_neg hrun).symm⟩

/-- The MMU is off, the bus is RAM, nothing is debugged, the interrupt line is low, the host has
no callbacks, and the cache, if there is one, is what memory holds. -/
structure Emu.Plain (e : Emu H) : Prop where
  bus : e.bus.RamOnce
  mmu : e.mmu.enabled = false
  debugging : e.debugging = false
  irq : e.irq = false
  tick : e.tick = none
  idleWait : e.idleWait = none
  onStop : e.onStop = none
  outside : e.inJitRun = false
  cache : ∀ j, e.jit = some j → j.Matches e.bus.peek ∧ j.Settled

theorem Emu.Plain.start {e : Emu H} (h : e.Plain) : e.start.Stands ∧ e.start.emu.Rests ∧
    e.start.emu.guest = (e.regs, ⟨e.bus, .running, e.stopreason⟩) := by
  have hrest : ∀ j : Option Jit, (∀ k, j = some k → k.Matches e.bus.peek ∧ k.Settled) → ({ e with
      useJit := e.jitRequested, stopRequested := false, tickCountdown := e.tickInterval, jit :=
        j, state := .running
      mmu := Mmu.refreshAccessors { e.mmu with faultReexec := false } } : Emu H).Rests := by
    intro j hj
    refine ⟨⟨h.bus, ⟨h.mmu, ?_⟩, rfl, h.debugging, fun k hk => ⟨(hj k hk).1, .inl (hj k hk).2⟩⟩,
      ⟨h.irq, rfl, h.tick, h.idleWait, h.onStop⟩, h.outside⟩
    change (e.mmu.enabled && !e.mmu.identityActive) = false
    rw [h.mmu]
    rfl
  have hreset : ∀ k, e.jit.map jitRunStateReset = some k → k.Matches e.bus.peek ∧ k.Settled := by
    intro k hk
    obtain ⟨j, hj, rfl⟩ := Option.map_eq_some_iff.1 hk
    obtain ⟨hm, hset⟩ := h.cache j hj
    exact ⟨hm.moves (.single (.note rfl)) fun _ _ _ _ _ _ hr => hr, hset⟩
  unfold Emu.start
  dsimp only
  split
  · exact ⟨hrest _ hreset, hrest _ hreset, rfl⟩
  · exact ⟨hrest _ h.cache, hrest _ h.cache, rfl⟩

/-- A new emulator over RAM, whatever its registers and its memory hold. -/
theorem Emu.plain_fresh {bus : Bus} (hb : bus.RamOnce) (host : H) (regs : Regs) :
    ({ (init bus host regs).jitEnable true with regs := regs } : Emu H).Plain := by
  refine ⟨hb, rfl, rfl, rfl, rfl, rfl, rfl, rfl, fun j hj => ?_⟩
  cases hj
  exact ⟨Jit.matches_create _, rfl, rfl⟩

/-- A run with the JIT and a run of the interpreter, from one state. After every step of the
first the guest is where consecutive executions of the second take it, and if one of the runs
ends, both do, with the same guest. -/
theorem jit_refines_interpreter (hc : HostCode H) (hs : hc.Undisturbed) (e : Emu H) (h : e.Plain) :
    (∀ n, (e.start.steps hc n).phase ≠ .stuck ∧ ∃ k s, Emu.Execs hc k
      ({ e with jitRequested := false } : Emu H).start.emu s ∧
        (e.start.steps hc n).emu.guest = s.guest) ∧
      ((∃ n, (e.start.steps hc n).phase = .done) ↔
        ∃ n, (({ e with jitRequested := false } : Emu H).start.steps hc n).phase = .done) ∧
      ∀ n k, (e.start.steps hc n).phase = .done →
        (({ e with jitRequested := false } : Emu H).start.steps hc k).phase = .done →
        (e.start.steps hc n).emu.guest =
          (({ e with jitRequested := false } : Emu H).start.steps hc k).emu.guest := by
  have hi : ({ e with jitRequested := false } : Emu H).Plain :=
    ⟨h.bus, h.mmu, h.debugging, h.irq, h.tick, h.idleWait, h.onStop, h.outside, h.cache⟩
  obtain ⟨hst, -, hg⟩ := h.start
  obtain ⟨hsti, hri, hgi⟩ := hi.start
  have hgg : e.start.emu.guest = ({ e with jitRequested := false } : Emu H).start.emu.guest := hg.trans hgi.symm
  generalize ({ e with jitRequested := false } : Emu H).start = i at *
  refine ⟨fun n => ?_, ?_, fun n k hn hk => ?_⟩
  · obtain ⟨hst', l, hg', -⟩ := Run.steps_stand hs hst n
    obtain ⟨k, s, hx, -, hgs⟩ := hri.execs hs l
    refine ⟨fun hp => ?_, k, s, hx, hg'.trans (hgg ▸ hgs.symm)⟩
    rw [Run.Stands, hp] at hst'
    exact hst'
  · rw [Run.ends_iff hs hst, Run.ends_iff hs hsti, hgg]
  · obtain ⟨hst', l, hg', -⟩ := Run.steps_stand hs hst n
    obtain ⟨hsti', l', hgi', -⟩ := Run.steps_stand hs hsti k
    rw [Run.Stands, hn] at hst'
    rw [Run.Stands, hk] at hsti'
    rw [hgg] at hg'
    have hl : ((Machine.advance false)^[l] i.emu.guest).2.state ≠ .running := hg' ▸ hst'.2
    have hl' : ((Machine.advance false)^[l'] i.emu.guest).2.state ≠ .running := hgi' ▸ hsti'.2
    rw [hg', hgi', ← Machine.iterate_stopped hl (Nat.le_max_left l l'), Machine.iterate_stopped hl'
      (Nat.le_max_right l l')]

theorem ramOnce_ramBus (mem : Addr → Byte) : (ramBus mem).RamOnce :=
  ⟨fun _ _ => rfl, show [0, 1].Nodup by decide⟩

/-- `LDA #$DB`, `STA $0205`, `NOP`: the store makes the next instruction `STP`. -/
def selfModifyingEmu : Emu Unit :=
  let code : List Byte := [0xA9, 0xDB, 0x8D, 0x05, 0x02, 0xEA]
  let regs : Regs := ⟨0, 0, 0, 0x0200, 0xFF, 0x20⟩
  { (init (ramBus fun a => code.getD (a.toNat - 0x0200) 0xEA) () regs).jitEnable true with regs := regs }

/-- The store is made by the block that holds the instruction it overwrites. -/
theorem jit_refines_interpreter_self_modifying :
    (selfModifyingEmu.start.steps (quietHost identity) 5).phase = .done ∧
      (selfModifyingEmu.start.steps (quietHost identity) 5).emu.regs.PC = 0x0206 ∧
      ∃ n, (({ selfModifyingEmu with jitRequested := false } : Emu Unit).start.steps
        (quietHost identity) n).phase = .done ∧
        (selfModifyingEmu.start.steps (quietHost identity) 5).emu.guest =
          (({ selfModifyingEmu with jitRequested := false } : Emu Unit).start.steps
            (quietHost identity) n).emu.guest := by
  have hd : (selfModifyingEmu.start.steps (quietHost identity) 5).phase = .done := by decide +kernel
  obtain ⟨-, hends, hguest⟩ := jit_refines_interpreter (quietHost identity) (fun _ => rfl) selfModifyingEmu
    (Emu.plain_fresh (ramOnce_ramBus _) () _)
  obtain ⟨n, hn⟩ := hends.1 ⟨5, hd⟩
  exact ⟨hd, by decide +kernel, n, hn, hguest 5 n hd hn⟩

end Rk65c02
