import Rk65c02.Stuttering
import Rk65c02.VirtualMemory

/-! Runs in virtual memory, with the JIT or without, are runs of the programmer's model. -/

namespace Rk65c02

open Resumption Cpu

variable {H : Type} {hc : HostCode H} {tr : Translate} {phys : Addr → PAddr}

namespace Run

variable {wt : Watch tr} {c : Run H} {s : Regs × Machine}

/-- The run carries the guest `s` in virtual memory. -/
structure Carries (hc : HostCode H) (wt : Watch tr) (phys : Addr → PAddr) (c : Run H)
    (s : Regs × Machine) : Prop where
  clean : c.Clean
  hosts : c.emu.Hosts hc wt phys s.2
  regs : c.emu.regs = s.1
  inBlock : ∀ b k, c.phase = .block b k →
    c.emu.regs.PC = (insnAddrs b.startPc (b.fn.getD [])).getD k 0 ∧ c.emu.state = .running
  ended : c.phase = .done → c.emu.state ≠ .running

section Steps

variable (hf : tr.Flat phys) (hk : hc.KeepsMap) (hs : hc.Undisturbed) {e : Emu H} {m : Machine}

include hs in
theorem polled_hosts (hp : c.polled hc = some e) (h : c.emu.Hosts hc wt phys m) :
    e.Hosts hc wt phys m ∧ e.regs = c.emu.regs ∧ e.state = .running := by
  obtain ⟨-, hr, rfl⟩ := polled_eq hp
  exact ⟨(h.poll hs).1, (h.poll hs).2, hr⟩

include hf hk hs

theorem Compiles.hosts (hi : c.Compiles hc e) (h : c.emu.Hosts hc wt phys m) (ho : c.emu.Outside) :
    ∃ b e', e.jitCompileBlock hc e.regs.PC = .ok b e' ∧ e'.Hosts hc wt phys m ∧ e'.regs = c.emu.regs ∧
      e'.state = .running ∧ ∀ x, b = some x → x.startPc = e'.regs.PC := by
  obtain ⟨hco, j, hj, hlt⟩ := Compiles.coherent hk hi h.coherent
  have hout := Compiles.outside hi ho
  have hhost : e.Hosts hc wt phys m ∧ e.regs = c.emu.regs ∧ e.state = .running := by
    cases hi with
    | mk hd hirq hmut hfind =>
      obtain ⟨hh, hr, hrun⟩ := polled_hosts hs hd.polled h
      exact ⟨hh.around hco rfl rfl, hr, hrun⟩
  obtain ⟨hh, hr, hrun⟩ := hhost
  obtain ⟨b, e', hx, hh', hr', hpc⟩ := hh.compile hf hk hs hout hj hlt e.regs.PC
  exact ⟨b, e', hx, hh', hr'.trans hr, (hh'.state.trans hh.state.symm).trans hrun, hr' ▸ hpc⟩

theorem Interprets.hosts (hi : c.Interprets hc e) (h : c.emu.Hosts hc wt phys m) (ho : c.emu.Outside) :
    e.Hosts hc wt phys m ∧ e.regs = c.emu.regs ∧ e.state = .running := by
  cases hi with
  | irq hd _ => exact polled_hosts hs hd.polled h
  | mutable hd _ _ => exact polled_hosts hs hd.polled h
  | uncompiled hi hb _ =>
    obtain ⟨b, e', hx, hh, hr, hrun, -⟩ := Compiles.hosts hf hk hs hi h ho
    cases hb.symm.trans hx
    exact ⟨hh, hr, hrun⟩

theorem Offers.hosts {b : Block} (hi : c.Offers hc e b) (h : c.emu.Hosts hc wt phys m) (ho : c.emu.Outside) :
    e.Hosts hc wt phys m ∧ e.regs = c.emu.regs ∧ e.state = .running ∧ b.startPc = e.regs.PC := by
  cases hi with
  | found hd _ _ hb =>
    obtain ⟨hh, hr, hrun⟩ := polled_hosts hs hd.polled h
    obtain ⟨hfind, -⟩ := Option.filter_eq_some_iff.1 hb
    exact ⟨hh, hr, hrun, by simpa using List.find?_some hfind⟩
  | compiled hi hb _ =>
    obtain ⟨b', e', hx, hh, hr, hrun, hpc⟩ := Compiles.hosts hf hk hs hi h ho
    cases hb.symm.trans hx
    exact ⟨hh, hr, hrun, hpc b rfl⟩

end Steps

section Blocks

variable {m : Machine}

theorem processPendingWrites_hosts (h : c.emu.Hosts hc wt phys m) :
    c.processPendingWrites.emu.Hosts hc wt phys m ∧ c.processPendingWrites.emu.regs = c.emu.regs ∧
      c.processPendingWrites.phase = c.phase := by
  have hco := processPendingWrites_coherent h.coherent
  unfold processPendingWrites at hco ⊢
  split
  · exact ⟨h, rfl, rfl⟩
  · next j hj =>
    rw [hj] at hco
    dsimp only at hco
    split
    · exact ⟨h, rfl, rfl⟩
    · next hp =>
      rw [if_neg hp] at hco
      exact ⟨h.around hco rfl rfl, rfl, rfl⟩

theorem processNeedsFlush_hosts (h : c.emu.Hosts hc wt phys m) :
    c.processNeedsFlush.emu.Hosts hc wt phys m ∧ c.processNeedsFlush.emu.regs = c.emu.regs ∧
      c.processNeedsFlush.phase = c.phase := by
  have hco := processNeedsFlush_coherent h.coherent
  unfold processNeedsFlush at hco ⊢
  split
  · exact ⟨h, rfl, rfl⟩
  · next j hj =>
    rw [hj] at hco
    dsimp only at hco
    split
    · next hp =>
      rw [if_pos hp] at hco
      exact ⟨h.around hco rfl rfl, rfl, rfl⟩
    · exact ⟨h, rfl, rfl⟩

/-- After a poll the run goes on as it was, or the guest has stopped and the run is over. -/
theorem afterPoll_hosts (hs : hc.Undisturbed) (h : c.emu.Hosts hc wt phys m) :
    (c.afterPoll hc).emu.Hosts hc wt phys m ∧ (c.afterPoll hc).emu.regs = c.emu.regs ∧
      ((c.afterPoll hc).phase = c.phase ∨ (c.afterPoll hc).phase = .done ∧ c.emu.state ≠ .running) := by
  unfold afterPoll
  split
  · exact ⟨h, rfl, .inl rfl⟩
  · next hn =>
    have hw : c.emu.maybeWaitOnIdle hc = (false, c.emu) := by
      unfold Emu.maybeWaitOnIdle
      rw [h.still.idleWait]
    rw [hw]
    dsimp only
    rw [if_neg fun hh => Bool.false_ne_true hh.1]
    exact ⟨(h.finish hs).1, (h.finish hs).2, .inr ⟨rfl, hn⟩⟩

theorem blockReturn_hosts (hs : hc.Undisturbed) (h : c.emu.Hosts hc wt phys m) :
    (c.blockReturn hc).emu.Hosts hc wt phys m ∧ (c.blockReturn hc).emu.regs = c.emu.regs ∧
      ((c.blockReturn hc).phase = .dispatch ∨ (c.blockReturn hc).phase = .done ∧ c.emu.state ≠ .running) := by
  have hout : Emu.Hosts hc wt phys { c.emu with inJitRun := false } m :=
    h.around (h.coherent.frame rfl rfl rfl rfl) rfl rfl
  obtain ⟨h₁, hr₁, hp₁⟩ :=
    processPendingWrites_hosts (c := { c with emu := { c.emu with inJitRun := false }, phase := .dispatch }) hout
  obtain ⟨h₂, hr₂, hp₂⟩ := processNeedsFlush_hosts h₁
  obtain ⟨h₃, hr₃⟩ := h₂.poll hs
  obtain ⟨h₄, hr₄, hp₄⟩ :=
    afterPoll_hosts (c := { processNeedsFlush (processPendingWrites _) with emu := _ }) hs h₃
  refine ⟨h₄, hr₄.trans (hr₃.trans (hr₂.trans hr₁)), hp₄.imp (fun hp => hp.trans (hp₂.trans hp₁))
    fun hp => ⟨hp.1, ?_⟩⟩
  rw [h.state, ← h₃.state]
  exact hp.2

variable (hf : tr.Flat phys) (hk : hc.KeepsMap) (hs : hc.Undisturbed) {b : Block} {k : Nat} {i : Instruction}

include hf in
/-- The running block is what the guest sees at its addresses. -/
theorem Carries.insn (h : c.Carries hc wt phys s) (hT : wt.code) (he : c.Enters b k i) :
    Image.insnAt s.2.bus.peek c.emu.regs.PC = i ∧ (k + 1 < (b.fn.getD []).length → jitEndsBlock i = false) := by
  obtain ⟨ha, j, hj, hb⟩ := h.clean.registered b k he.1
  obtain ⟨insns, hfn⟩ := Option.isSome_iff_exists.1 ha
  have hi := he.2
  rw [hfn, Option.getD_some] at hi
  have hco := h.hosts.coherent.cache j hj
  have hreads : Reads (tr.fetchByte c.emu.bus) b.startPc insns := by
    refine hco.current hT (h.clean.settled j hj) hb hfn fun y _ p hp => ?_
    rw [hf.outcome] at hp
    cases hp
    exact h.hosts.backed y
  have hpeek : tr.fetchByte c.emu.bus = s.2.bus.peek := by
    funext v
    rw [Translate.fetchByte, hf.outcome, h.hosts.shows.byte]
    rfl
  rw [hpeek] at hreads
  rw [(h.inBlock b k he.1).1, hfn, Option.getD_some]
  exact ⟨hreads.at hi, fun hlt => (hco.formed hb hfn).1.inner i (mem_dropLast_of_lt hi hlt)⟩

include hf hk hs in
/-- An instruction of a running block. -/
theorem Carries.native (h : c.Carries hc wt phys s) (hT : wt.code) (he : c.Enters b k i) :
    ∃ next e, c.emu.runNative hc (nativeInsn ⟨insnAddrs b.startPc (b.fn.getD [])⟩ k i) = .ok next e ∧
      e.Hosts hc wt phys (Machine.advance false s).2 ∧ e.regs = (Machine.advance false s).1 ∧
      ∀ k', (next = .goto k' ∨ next = .fall ∧ k' = k + 1 ∧ k' < (b.fn.getD []).length) →
        e.regs.PC = (insnAddrs b.startPc (b.fn.getD [])).getD k' 0 ∧ e.state = .running := by
  obtain ⟨hpc, hrun⟩ := h.inBlock b k he.1
  obtain ⟨hi, hinner⟩ := h.insn hf hT he
  have hlabel : c.emu.regs.PC = (EmitCtx.mk (insnAddrs b.startPc (b.fn.getD []))).insnAddr.getD k 0 := hpc
  obtain ⟨next, e, hx, hregs, hh, hfall, hgoto⟩ := h.hosts.native hf hk hs hlabel hi
  have hstep : Machine.advance false s = Machine.step false (c.emu.regs, s.2) := by
    rw [Machine.advance, if_pos (h.hosts.state ▸ hrun), h.regs]
  have hin : c.emu.inJitRun = true := by
    have hfits := h.clean.sound.fits
    rw [he.1] at hfits
    exact hfits.1
  rw [hstep]
  refine ⟨next, e, hx, hh, hregs, fun k' hk' => ⟨?_, ?_⟩⟩
  · rcases hk' with hgo | ⟨hn, rfl, hlt⟩
    · rw [List.getD_eq_getElem?_getD, hgoto k' hgo]
      rfl
    · rw [hfall hn (hinner hlt), hpc, insnAddrs_succ _ he.2 hlt]
  · refine Emu.native_running hin hrun hx ?_
    rintro rfl
    rcases hk' with hk' | hk'
    · cases hk'
    · cases hk'.1

end Blocks
section Step

variable (hf : tr.Flat phys) (hk : hc.KeepsMap) (hs : hc.Undisturbed) (hT : wt.code)

/-- A run outside of a block. -/
theorem carries_of {c' : Run H} (hcl : c'.Clean) (hh : c'.emu.Hosts hc wt phys s.2) (hr : c'.emu.regs = s.1)
    (hb : ∀ b k, c'.phase ≠ .block b k) (hd : c'.phase = .done → s.2.state ≠ .running) :
    c'.Carries hc wt phys s :=
  ⟨hcl, hh, hr, fun b k hp => absurd hp (hb b k), fun hp => hh.state ▸ hd hp⟩

theorem finish_carries (hs : hc.Undisturbed) (hcl : (c.finish hc).Clean) (hh : c.emu.Hosts hc wt phys s.2)
    (hr : c.emu.regs = s.1) (hn : c.emu.state ≠ .running) : (c.finish hc).Carries hc wt phys s := by
  obtain ⟨hf, hrf⟩ := hh.finish hs
  refine carries_of hcl hf (hrf.trans hr) (fun b k hb => ?_) fun _ => hh.state ▸ hn
  cases hb

/-- The guest executes an instruction, or the run is about to execute one, or it is over. -/
def Proceeds (hc : HostCode H) (wt : Watch tr) (phys : Addr → PAddr) (c c' : Run H) (s : Regs × Machine) : Prop :=
  ∃ n, c'.Carries hc wt phys ((Machine.advance false)^[n] s) ∧
    (c'.phase = .done ∨ c.weight < (1 + 1) * n + c'.weight)

theorem Carries.once {c' : Run H} (h : c'.Carries hc wt phys (Machine.advance false s)) :
    Proceeds hc wt phys c c' s :=
  ⟨1, h, .inr (by have := c.weight_le; omega)⟩

theorem Carries.ends {c' : Run H} (h : c'.Carries hc wt phys s) (hd : c'.phase = .done) :
    Proceeds hc wt phys c c' s :=
  ⟨0, h, .inl hd⟩

theorem Carries.begins {c' : Run H} (h : c'.Carries hc wt phys s) (hp : c.phase = .dispatch)
    (hw : 0 < c'.weight) :
    Proceeds hc wt phys c c' s :=
  ⟨0, h, .inr (by rw [weight_dispatch hp]; omega)⟩

/-- The look-up of the physical page may fill the TLB. -/
theorem tagged_hosts {e : Emu H} {m : Machine} {a : Addr} {x : Access} (hh : e.Hosts hc wt phys m) :
    (e.jitTranslatePaddr hc a x).2.Hosts hc wt phys m ∧ (e.jitTranslatePaddr hc a x).2.regs = e.regs ∧
      (e.jitTranslatePaddr hc a x).2.state = e.state := by
  have hco := translatePaddr_coherent hh.coherent a x
  have hre := Emu.translatePaddr_reexec hc e a x
  obtain ⟨t, ht⟩ := Emu.translatePaddr_mmu hc e a x
  rw [ht] at hco hre ⊢
  exact ⟨hh.around hco hre rfl, rfl, rfl⟩

theorem enter_carries {e : Emu H} {b : Block} (hcl : (enterBlock { c with emu := e } b).Clean)
    (hh : e.Hosts hc wt phys s.2) (hr : e.regs = s.1) (hrun : e.state = .running) (hpc : b.startPc = e.regs.PC) :
    (enterBlock { c with emu := e } b).Carries hc wt phys s := by
  have hco := enterBlock_coherent (c := { c with emu := e }) hh.coherent b
  refine ⟨hcl, hh.around hco rfl rfl, hr, fun b' k' hp => ?_, fun hd => ?_⟩
  · cases hp
    refine ⟨?_, hrun⟩
    have hpos := hcl.sound.fits.2.2
    cases hfn : b.fn.getD [] with
    | nil =>
      rw [hfn] at hpos
      cases hpos
    | cons i is => exact hpc.symm
  · cases hd

include hf hk hs

theorem exec_advances {e : Emu H} (hh : e.Hosts hc wt phys s.2) (hr : e.regs = s.1) (hrun : e.state = .running) :
    ∃ e', e.exec hc = .ok () e' ∧ e'.Hosts hc wt phys (Machine.advance false s).2 ∧
      e'.regs = (Machine.advance false s).1 := by
  obtain ⟨e', hx, hregs, hh'⟩ := hh.exec hf hk hs
  rw [hr] at hregs hh'
  rw [Machine.advance, if_pos (hh.state ▸ hrun)]
  exact ⟨e', hx, hh', hregs⟩

include hT

/-- One step of a run. -/
theorem Carries.step (h : c.Carries hc wt phys s) : Proceeds hc wt phys c (c.step hc) s := by
  have hout : c.phase = .dispatch ∨ c.phase = .interp → c.emu.Outside :=
    fun hp => ⟨Fits.of_running hp h.clean.sound.fits, h.clean.settled⟩
  have hcl := step_clean hk.neverEnables h.clean
  have ho := c.step_outcome hc
  generalize c.step hc = c' at ho hcl ⊢
  cases ho with
  | finished hp =>
    rcases hp with hp | hp
    · exact h.ends hp
    · exact absurd hp h.clean.sound.ne_stuck
  | stopped hp hn =>
    exact (finish_carries hs hcl h.hosts h.regs hn).ends rfl
  | waits hp hr hw =>
    rw [h.hosts.still.poll hs, Emu.maybeWaitOnIdle, h.hosts.still.idleWait] at hw
    cases hw
  | polled hp hr hr' hw =>
    rw [h.hosts.still.poll hs] at hr'
    exact absurd hr hr'
  | debugs hp hpo hd =>
    obtain ⟨hh, -⟩ := polled_hosts hs hpo h.hosts
    cases hh.debugging.symm.trans hd
  | handsOver hp hpo hd hj =>
    obtain ⟨hh, hr, -⟩ := polled_hosts hs hpo h.hosts
    refine (carries_of hcl hh (hr.trans h.regs) (fun b k hb => ?_) fun hd => ?_).begins hp Nat.one_pos
    · cases hb
    · cases hd
  | interprets hi hx =>
    obtain ⟨hh, hr, hrun⟩ := Interprets.hosts hf hk hs hi h.hosts (hout (.inl hi.phase))
    obtain ⟨e', hx', hh', hr'⟩ := exec_advances hf hk hs hh (hr.trans h.regs) hrun
    cases hx.symm.trans hx'
    refine (carries_of hcl hh' hr' (fun b k hp => ?_) fun hp => ?_).once
    · cases hi.phase.symm.trans hp
    · cases hi.phase.symm.trans hp
  | interpretsLast hi hx hn =>
    obtain ⟨hh, hr, hrun⟩ := Interprets.hosts hf hk hs hi h.hosts (hout (.inl hi.phase))
    obtain ⟨e', hx', hh', hr'⟩ := exec_advances hf hk hs hh (hr.trans h.regs) hrun
    cases hx.symm.trans hx'
    exact (finish_carries (c := { c with emu := _ }) hs hcl hh' hr' hn).once
  | round hp hpo hx =>
    obtain ⟨hh, hr, hrun⟩ := polled_hosts hs hpo h.hosts
    obtain ⟨e', hx', hh', hr'⟩ := exec_advances hf hk hs hh (hr.trans h.regs) hrun
    cases hx.symm.trans hx'
    obtain ⟨hp₁, hr₁⟩ := hh'.poll hs
    obtain ⟨hp₂, hr₂, hph⟩ := afterPoll_hosts (c := { c with emu := _ }) hs hp₁
    refine (carries_of hcl hp₂ (hr₂.trans (hr₁.trans hr')) (fun b k hb => ?_) fun hd => ?_).once
    · rcases hph with hph | hph
      · cases hb.symm.trans (hph.trans hp)
      · cases hb.symm.trans hph.1
    · rcases hph with hph | hph
      · cases hd.symm.trans (hph.trans hp)
      · exact hp₁.state ▸ hph.2
  | compileStops hi hx hn =>
    obtain ⟨b, e', hx', -, -, hrun, -⟩ := Compiles.hosts hf hk hs hi h.hosts (hout (.inl hi.phase))
    cases hx.symm.trans hx'
    exact absurd hrun hn
  | enters hb ht =>
    obtain ⟨hh, hr, hrun, hpc⟩ := Offers.hosts hf hk hs hb h.hosts (hout (.inl hb.phase))
    exact (enter_carries hcl hh (hr.trans h.regs) hrun hpc).begins hb.phase Nat.one_pos
  | entersTagged hb ht hm =>
    obtain ⟨hh, hr, hrun, hpc⟩ := Offers.hosts hf hk hs hb h.hosts (hout (.inl hb.phase))
    obtain ⟨hh', hr', hrun'⟩ := tagged_hosts hh
    exact (enter_carries hcl hh' (hr'.trans (hr.trans h.regs)) (hrun'.trans hrun)
      (hpc.trans (congrArg Regs.PC hr'.symm))).begins hb.phase Nat.one_pos
  | @drops e e' b hb ht hm he =>
    obtain ⟨hh, hr, hrun, hpc⟩ := Offers.hosts hf hk hs hb h.hosts (hout (.inl hb.phase))
    obtain ⟨-, ha, j, hj, hbj⟩ := Offers.outside hb (hout (.inl hb.phase)) h.clean.sound.cache
    obtain ⟨insns, hfn⟩ := Option.isSome_iff_exists.1 ha
    have htag := ((hh.coherent.cache j hj).formed hbj hfn).2
    rw [hh.coherent.maps.paddr, ← hpc] at hm
    cases hq : tr.paddr b.startPc .fetch with
    | none => cases (htag.none hq).symm.trans ht
    | some p =>
      rw [hq] at hm
      exact absurd (congrArg some (htag.some p hq).2.2.2.symm) hm
  | goesOn he hx hn =>
    obtain ⟨next, e, hx', hh, hr, hnext⟩ := h.native hf hk hs hT he
    cases hx.symm.trans hx'
    refine Carries.once ⟨hcl, hh, hr, fun b' k' hp => ?_, fun hd => ?_⟩
    · cases hp
      exact hnext _ hn
    · cases hd
  | returns he hx hn =>
    obtain ⟨next, e, hx', hh, hr, -⟩ := h.native hf hk hs hT he
    cases hx.symm.trans hx'
    obtain ⟨hh', hr', hph⟩ := blockReturn_hosts (c := { c with emu := _ }) hs hh
    refine (carries_of hcl hh' (hr'.trans hr) (fun b k hp => ?_) fun hd => ?_).once
    · rcases hph with hph | hph
      · cases hp.symm.trans hph
      · cases hp.symm.trans hph.1
    · rcases hph with hph | hph
      · cases hd.symm.trans hph
      · exact hh.state ▸ hph.2
  | exits he hx =>
    obtain ⟨next, e, hx', -⟩ := h.native hf hk hs hT he
    cases hx.symm.trans hx'
  | roundFails hp hpo hx => exact absurd rfl hcl.sound.ne_stuck
  | execFails hi hx => exact absurd rfl hcl.sound.ne_stuck
  | compileFails hi hx hpo => exact absurd rfl hcl.sound.ne_stuck
  | nativeFails he hx => exact absurd rfl hcl.sound.ne_stuck
  | offBlock hp hk => exact absurd rfl hcl.sound.ne_stuck

omit hf hk hs hT in
theorem Carries.stopped (h : c.Carries hc wt phys s) (hn : s.2.state ≠ .running) : (c.step hc).phase = .done := by
  rw [← h.hosts.state] at hn
  unfold Run.step
  cases hp : c.phase with
  | dispatch => exact congrArg Run.phase (if_pos hn)
  | interp => exact congrArg Run.phase (if_pos hn)
  | block b k => exact absurd (h.inBlock b k hp).2 hn
  | done => exact hp
  | stuck => exact absurd hp h.clean.sound.ne_stuck

/-- Runs in virtual memory simulate the machine. -/
theorem stutters : Iteration.Stutters (Run.step hc) (Machine.advance false) (Carries hc wt phys)
    (fun c => c.phase = .done)
    (fun s => s.2.state ≠ .running) weight 1 where
  rank_le := weight_le
  stays _ hd := done_step hd
  final_stays _ hn := if_neg hn
  stop_final _ _ h hd := h.hosts.state ▸ h.ended hd
  final_stop _ _ h hn := h.stopped hn
  step _ _ h _ := h.step hf hk hs hT

end Step

end Run

/-- Every address of the guest has RAM behind it. -/
def Bus.HasRam (phys : Addr → PAddr) (b : Bus) : Prop :=
  ∀ v, ∃ l, b.locate (phys v) = some l ∧ (b.dev l.1).ram = true

theorem Bus.HasRam.backed {b : Bus} (h : b.HasRam phys) (v : Addr) : b.Backed (phys v) := by
  intro l hl
  obtain ⟨l', hl', hr⟩ := h v
  cases hl.symm.trans hl'
  exact hr

/-- A bus of the guest's own with what it sees. -/
theorem Bus.HasRam.shows {b : Bus} (h : b.HasRam phys) : b.Shows phys (ramBus fun v => b.physByte (phys v)) := by
  refine ⟨ramOnce_ramBus _, fun v => ramBus_peek _ v, fun v => ?_⟩
  obtain ⟨l, hl, -⟩ := h v
  rw [hl, Bus.mapped, ramBus_accessDevice]
  rfl

/-- No other byte of a bus changes under a flat mapping. -/
theorem Translate.Flat.keeps_byte (hf : tr.Flat phys) {p : PAddr} (hp : ∀ v, phys v ≠ p) (x : Byte) :
    tr.Keeps fun b => AddressedStore.Separate b.locate ∧ b.physByte p = x := by
  rintro b a q l v hw hl ⟨hs, hv⟩
  refine ⟨hs, (Bus.physByte_ramWrite1 hs hl (fun hpq => hp a ?_) v).trans hv⟩
  rw [hf.outcome] at hw
  exact (Except.ok.inj hw).trans hpq.symm

namespace Emu

variable {e : Emu H}

/-- Nothing but the program acts on the guest. -/
structure Unaided (e : Emu H) : Prop where
  debugging : e.debugging = false
  irq : e.irq = false
  tick : e.tick = none
  idleWait : e.idleWait = none
  onStop : e.onStop = none

/-- What a run under the mapping starts from, in the terms of the model. -/
def virtualModel (phys : Addr → PAddr) (e : Emu H) : Model :=
  ⟨e.regs.A, e.regs.X, e.regs.Y, e.regs.SP, e.regs.PC, .ofByte e.regs.P, fun v => (e.bus.locate (phys v)).isSome,
    fun v => e.bus.physByte (phys v), none⟩

/-- What the model tells is what the guest sees through the mapping. -/
structure Sees (phys : Addr → PAddr) (e : Emu H) (s : Model) : Prop where
  regs : e.regs = s.regs
  mem : ∀ v, e.bus.physByte (phys v) = s.mem v
  halt : s.halt.elim (e.state = .running) fun q => e.state = .stopped ∧ e.stopreason = q

theorem Hosts.sees {wt : Watch tr} {m : Machine} {s : Model} (h : e.Hosts hc wt phys m)
    (ht : s.Tells (e.regs, m)) :
    e.Sees phys s := by
  refine ⟨ht.regs, fun v => ?_, ?_⟩
  · rw [← h.shows.byte, ht.holds.mem]
    rfl
  · have hh := ht.holds.halt
    rwa [← h.state, ← h.stopreason] at hh

/-- The start of a run. -/
theorem Ready.carries {wt : Watch tr} (h : e.Ready hc wt) (ha : e.Unaided) (hram : e.bus.HasRam phys) :
    e.start.Carries hc wt phys (e.regs, ⟨ramBus fun v => e.bus.physByte (phys v), .running, e.stopreason⟩) := by
  obtain ⟨hcl, hco⟩ := h.start
  unfold Emu.start at hcl hco ⊢
  dsimp only at hcl hco ⊢
  split
  · next hj =>
    rw [if_pos hj] at hcl hco
    exact Run.carries_of hcl ⟨hco, hram.backed, rfl, ha.debugging, ⟨ha.irq, rfl, ha.tick, ha.idleWait, ha.onStop⟩,
      hram.shows, rfl, rfl⟩ rfl (fun _ _ hb => by cases hb) fun hd => by cases hd
  · next hj =>
    rw [if_neg hj] at hcl hco
    exact Run.carries_of hcl ⟨hco, hram.backed, rfl, ha.debugging, ⟨ha.irq, rfl, ha.tick, ha.idleWait, ha.onStop⟩,
      hram.shows, rfl, rfl⟩ rfl (fun _ _ hb => by cases hb) fun hd => by cases hd

/-- Another property of memory may be watched along a run. -/
theorem Ready.watch {wt : Watch tr} (h : e.Ready hc wt) {Q : Bus → Prop} (hQ : tr.Keeps Q) (hb : Q e.bus) :
    e.Ready hc ⟨False, Q, wt.paged, False.elim, hQ⟩ := by
  have hco := h.coherent
  refine ⟨h.fit, h.settled, hco.maps, hco.accessors, hco.separate, hb, fun j hj => ?_⟩
  exact ⟨(hco.cache j hj).exact, (hco.cache j hj).tagged, False.elim⟩

end Emu

theorem Session.readyRam (hk : hc.KeepsMap) {bus : Bus} {e : Emu H}
    (h : Session hc (fun tr => tr.Paged ∧ tr.Tracked) bus tr e) (hram : bus.HasRam phys) :
    ∃ wt : Watch tr, wt.code ∧ e.Ready hc wt ∧ e.bus.HasRam phys := by
  obtain ⟨_, hr⟩ := h.ready (T := True) (Q := Bus.HasRam phys) (fun _ h => h.1) (fun _ h _ => h.2)
    (fun _ _ _ _ _ _ _ _ _ hb => hb) hk hram
  exact ⟨_, trivial, hr, hr.coherent.memory⟩

/-- Virtual memory is memory. After a session of runs, remaps and other calls, under a mapping that
gives every address a place of its own in RAM, a run that nothing outside disturbs, with the JIT or
without, is a run of the model in the guest's virtual memory, and it ends if and only if the model
halts, in the state in which the model halts. No other byte of physical memory changes. -/
theorem virtual_runs_conform (hk : hc.KeepsMap) (hs : hc.Undisturbed) {bus : Bus} {e : Emu H}
    (h : Session hc (fun tr => tr.Paged ∧ tr.Tracked) bus tr e) (hf : tr.Flat phys) (hram : bus.HasRam phys)
    (ha : e.Unaided) (hp : (e.regs.P ||| pUndefined) &&& ~~~pBreak = e.regs.P) :
    (∀ n, ∃ k, (e.start.steps hc n).emu.Sees phys ((Model.step false)^[k] (e.virtualModel phys)) ∧
        ((e.start.steps hc n).phase = .done → ((Model.step false)^[k] (e.virtualModel phys)).halt ≠ none)) ∧
      (∀ k, ((Model.step false)^[k] (e.virtualModel phys)).halt ≠ none → ∃ n, (e.start.steps hc n).phase = .done ∧
        (e.start.steps hc n).emu.Sees phys ((Model.step false)^[k] (e.virtualModel phys))) ∧
      ∀ n p, (∀ v, phys v ≠ p) → (e.start.steps hc n).emu.bus.physByte p = e.bus.physByte p := by
  obtain ⟨wt, hT, hr, hb⟩ := h.readyRam hk hram
  have hc₀ := hr.carries ha hb
  have hst := Run.stutters hf hk hs hT
  have ht : (e.virtualModel phys).Tells
      (e.regs, ⟨ramBus fun v => e.bus.physByte (phys v), .running, e.stopreason⟩) := by
    refine ⟨?_, hb.shows.once, funext fun v => hb.shows.room v, funext fun v => hb.shows.byte v, rfl⟩
    change e.regs = (e.virtualModel phys).regs
    rw [Model.regs, Emu.virtualModel, ← Model.byte_ofByte, hp]
  refine ⟨fun n => ?_, fun k hk' => ?_, fun n p hout => ?_⟩
  · obtain ⟨k, hk', -⟩ := hst.iterate hc₀ n
    have htk := ht.iterate false k
    refine ⟨k, hk'.hosts.sees ?_, fun hd hq => hst.stop_final _ _ hk' hd (htk.running_iff.2 hq)⟩
    rw [hk'.regs]
    exact htk
  · have htk := ht.iterate false k
    obtain ⟨n, hn, hc'⟩ := hst.ends hc₀ (k := k) fun hrun => hk' (htk.running_iff.1 hrun)
    refine ⟨n, hn, hc'.hosts.sees ?_⟩
    rw [hc'.regs]
    exact htk
  · have hw := hr.watch (hf.keeps_byte hout (e.bus.physByte p)) ⟨hr.coherent.separate, rfl⟩
    exact (hw.steps hk n).2.memory.2

/-- The place of an address in the frame of its page. -/
def framePlace (frame : Byte → Byte) (v : Addr) : PAddr := (frame (page v)).setWidth 32 <<< 8 ||| offset v

/-- A page table that gives every page a frame of its own is flat. -/
theorem pageTable_flat {frame : Byte → Byte} (h : Function.Injective frame) :
    (pageTable frame fun _ => permRWX).Flat (framePlace frame) := by
  refine ⟨fun v c => pageTable_ok.2 ⟨?_, rfl⟩, fun v w hvw => ?_⟩
  · cases c <;> decide
  · have hn := congrArg BitVec.toNat hvw
    rw [framePlace, framePlace, toNat_frame_or, toNat_frame_or] at hn
    have hpage : page v = page w := h (BitVec.eq_of_toNat_eq (by omega))
    rw [page_eq_iff] at hpage
    exact BitVec.eq_of_toNat_eq (by omega)

theorem hasRam_ramBus (frame : Byte → Byte) (f : Addr → Byte) : (ramBus f).HasRam (framePlace frame) := by
  intro v
  have hlt := (frame (page v)).isLt
  have hn : (framePlace frame v).toNat = _ := toNat_frame_or (frame (page v)) v
  have hp : framePlace frame v = (BitVec.ofNat 16 (framePlace frame v).toNat).setWidth 32 := by
    apply BitVec.eq_of_toNat_eq
    rw [BitVec.toNat_setWidth, BitVec.toNat_ofNat]
    omega
  rw [hp, Bus.locate_byte, ramBus_accessDevice]
  exact ⟨_, rfl, rfl⟩

/-- Pages 2 and 3 change places. -/
def swapFrame (p : Byte) : Byte := if p = 2 then 3 else if p = 3 then 2 else p

theorem swapFrame_injective : Function.Injective swapFrame := by
  have hinv : ∀ p, swapFrame (swapFrame p) = p := by decide +kernel
  exact Function.LeftInverse.injective hinv

def swapTable (_ : Unit) : Translate := pageTable swapFrame fun _ => permRWX

/-- `LDA #$55; STA $0310; STP` in the frame of page 2. -/
def swapCode (a : Addr) : Byte := [0xA9, 0x55, 0x8D, 0x10, 0x03, 0xDB].getD (a.toNat - 0x0300) 0

def unswappedEmu : Emu Unit := (init (ramBus swapCode) () ⟨0, 0, 0, 0x0200, 0xFF, 0x20⟩).jitEnable true

def swappedEmu : Emu Unit := unswappedEmu.mmuSet (some 0) none true false

/-- The store goes to the frame of page 3. -/
theorem virtual_store_conforms : ∃ n, (swappedEmu.start.steps (mapHost swapTable) n).phase = .done ∧
    (swappedEmu.start.steps (mapHost swapTable) n).emu.bus.physByte 0x0210 = 0x55 := by
  have hf := pageTable_flat swapFrame_injective
  have hM : (swapTable ()).Paged ∧ (swapTable ()).Tracked := ⟨pageTable_paged _ _, hf.tracked⟩
  have hs : Session (mapHost swapTable) (fun tr => tr.Paged ∧ tr.Tracked) (ramBus swapCode)
    (swapTable ()) swappedEmu :=
    .set (e := unswappedEmu) ⟨Jit.filled_create, rfl⟩ Jit.exact_create (separate_ramBus swapCode) rfl hM
  have hk : ((Model.step false)^[3] (swappedEmu.virtualModel (framePlace swapFrame))).halt ≠ none ∧
      ((Model.step false)^[3] (swappedEmu.virtualModel (framePlace swapFrame))).mem 0x0310 = 0x55 := by
        decide +kernel
  obtain ⟨n, hn, hsee⟩ := (virtual_runs_conform (keepsMap_mapHost _) (fun _ => rfl) hs hf (hasRam_ramBus _ _)
    ⟨rfl, rfl, rfl, rfl, rfl⟩ (by decide)).2.1 3 hk.1
  have hplace : framePlace swapFrame 0x0310 = 0x0210 := by decide
  exact ⟨n, hn, hplace ▸ (hsee.mem 0x0310).trans hk.2⟩

end Rk65c02
