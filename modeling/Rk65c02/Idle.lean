import Rk65c02.Steps

/-! The idle wait: `WAI` puts the machine to sleep, and the loops hand over to the
`idle_wait` callback. -/

namespace Rk65c02

open Resumption

variable {H : Type} {hc : HostCode H}

namespace Emu

/-- Stopped by `WAI`. -/
def Asleep (e : Emu H) : Prop := e.state = .stopped ∧ e.stopreason = .wai

instance (e : Emu H) : Decidable e.Asleep := inferInstanceAs (Decidable (_ ∧ _))

variable {e : Emu H} {cb : Cb}

theorem not_asleep (h : e.state = .running) : ¬e.Asleep := fun hh => EmuState.noConfusion (h.symm.trans hh.1)

theorem awake_calls (h : ¬e.Asleep) (cs : List HostCall) : ¬(cs.foldl hostCall e).Asleep := by
  rintro ⟨hs, hr⟩
  rw [foldl_stopreason] at hr
  rcases foldl_state e cs with hh | hh
  · exact h ⟨hh.symm.trans hs, hr⟩
  · exact not_asleep hh.1 ⟨hs, (foldl_stopreason e cs).trans hr⟩

/-- A request wakes the machine up. -/
theorem foldl_wakes (h : e.Asleep) {cs : List HostCall} (ha : .assertIrq ∈ cs) :
    (cs.foldl hostCall e).state = .running := by
  induction cs generalizing e with
  | nil => cases ha
  | cons c cs ih =>
    have hf := hostCall_frame e c
    rw [List.foldl_cons]
    by_cases hc : c = .assertIrq
    · have hs : (e.hostCall c).state = .running := hf.state.trans (if_pos ⟨hc, h⟩)
      rcases foldl_state (e.hostCall c) cs with hh | hh
      · exact hh.trans hs
      · exact hh.1
    · refine ih ⟨?_, hf.stopreason.trans h.2⟩ ((List.mem_cons.1 ha).resolve_left fun hh => hc hh.symm)
      exact (hf.state.trans (if_neg fun hh => hc hh.1)).trans h.1

/-- Awake, with the callback `cb` to go to sleep with. -/
def Awake (cb : Cb) (e : Emu H) : Prop := ¬e.Asleep ∧ e.idleWait = some cb

theorem steady_idleWait (hc : HostCode H) (cb : Cb) : Steady hc fun e => e.idleWait = some cb := by
  refine steady_of_control (fun e e' hc' h => ?_) (fun e h => ?_) (fun e c h => ?_) (fun _ h => h) fun _ h _ => h
  · exact (congrArg Control.idleWait hc').trans h
  · rw [arrive_eq, foldl_idleWait]
    exact h
  · exact (foldl_idleWait _ _).trans h

theorem steady_wakeful (hc : HostCode H) (cb : Cb) : Steady hc (Awake cb) := by
  have hS := steady_idleWait hc cb
  refine steady_of_control (fun e e' hc' h => ⟨?_, ?_⟩) (fun e h => ⟨?_, hS.arrive e h.2⟩) (fun e c h => ⟨?_, ?_⟩)
    (fun e h => ⟨fun hh => StopReason.noConfusion hh.2, h.2⟩) fun e h _ =>
      ⟨fun hh => StopReason.noConfusion hh.2, h.2⟩
  · rintro ⟨hs, hr⟩
    exact h.1 ⟨(congrArg Control.state hc').symm.trans hs, (congrArg Control.stopreason hc').symm.trans hr⟩
  · exact (congrArg Control.idleWait hc').trans h.2
  · rw [arrive_eq]
    exact awake_calls (e := { e with clock := e.clock + 1 }) h.1 _
  · exact awake_calls (e := { e with host := (hc.invoke e.host c).1 }) h.1 _
  · exact (foldl_idleWait _ _).trans h.2

theorem idleWait_execRun (h : e.idleWait = some cb) : (e.execRun hc).Ends fun s => s.idleWait = some cb := by
  have hS := steady_idleWait hc cb
  refine hS.execRun (fun _ _ h => h) (hS.arrive _ h) (fun _ _ h => h) (fun _ h => h) fun i r s _ hs => ?_
  exact hS.execInsn (fun _ _ h => h) hs _ i r (fun _ _ h => h) (fun _ _ h => h) fun _ _ h => h

/-- Only `WAI` puts the machine to sleep. -/
theorem Awake.execRun (h : e.Awake cb) (hwai : ∀ i, e.fetched hc = some i → i.emul ≠ .wai) :
    (e.execRun hc).Ends (Awake cb) := by
  have hS := steady_wakeful hc cb
  have hregs : ∀ (s : Emu H) r, s.Awake cb → ({ s with regs := r } : Emu H).Awake cb := fun _ _ h => h
  have hstop : ∀ (s : Emu H) q, q ≠ .wai → s.Awake cb →
      ({ s with state := .stopped, stopreason := q } : Emu H).Awake cb :=
    fun _ _ hq h => ⟨fun hh => hq hh.2, h.2⟩
  refine hS.execRun hregs (hS.arrive _ (hregs e _ h)) (fun _ _ h => h)
    (fun s => hstop s _ StopReason.noConfusion) fun i r s hf hs => ?_
  have hi : e.fetched hc = some i := by rw [fetched, hf]
  exact hS.execInsn hregs hs _ i r (fun _ _ h => h) (fun him => absurd him (hwai i hi))
    fun _ s => hstop s _ StopReason.noConfusion

/-- `WAI` itself is never left through an error. -/
theorem handle_wai {o : Op} (ho : WaiAsks o) (r : Regs) (e s : Emu H) : handle hc o r e ≠ .exit s := by
  change (e.asked hc r).answer hc o ≠ _
  generalize e.asked hc r = e'
  cases o with
  | stop q => exact fun h => nomatch h
  | trace tpc i r' => exact fun h => nomatch h
  | reexec =>
    change (if _ then Out.ok true _ else Out.ok false _) ≠ _
    split <;> exact fun h => nomatch h
  | _ => exact ho.elim

theorem Awake.execRun_exit {s : Emu H} (h : e.Awake cb) (hx : e.execRun hc = .exit s) : s.Awake cb := by
  by_cases hw : ∃ i, e.fetched hc = some i ∧ i.emul = .wai
  · obtain ⟨i, hi, him⟩ := hw
    rw [execRun_eq] at hx
    rw [fetched] at hi
    cases hf : e.fetchRun hc with
    | ok v s₁ =>
      rw [hf] at hi hx
      change (((execRest e.regs.PC v.1).run v.2).run (handle hc) s₁) = .exit s at hx
      rw [show v.1 = some i from hi] at hx
      obtain ⟨o, r, s₂, hv, ho⟩ := Tree.run_exit hx
      exact absurd ho (handle_wai ((execInsn_wai _ him v.2 trivial).visit hv) r s₂ s)
    | exit s₁ =>
      rw [hf] at hi
      cases hi
    | stuck =>
      rw [hf] at hi
      cases hi
  · have hh : (e.execRun hc).Ends (Awake cb) := h.execRun fun i hi him => hw ⟨i, hi, him⟩
    rw [hx] at hh
    exact hh

/-- The callback asserts the line and asks for no stop. -/
def Rouses (hc : HostCode H) (cb : Cb) : Prop :=
  ∀ h, .assertIrq ∈ (hc.idleWait h cb).2 ∧ .requestStop ∉ (hc.idleWait h cb).2

theorem waits (hcb : Rouses hc cb) (h : e.Asleep) (hi : e.idleWait = some cb) (hs : e.stopRequested = false) :
    e.maybeWaitOnIdle hc = (true, e.hostReturns (hc.idleWait e.host cb)) ∧
      (e.hostReturns (hc.idleWait e.host cb)).state = .running := by
  have hr : (e.hostReturns (hc.idleWait e.host cb)).stopRequested = false :=
    (foldl_stopRequested _ (hcb e.host).2).trans hs
  refine ⟨?_, foldl_wakes (e := { e with host := (hc.idleWait e.host cb).1 }) h (hcb e.host).1⟩
  have hn : ¬(e.state ≠ .stopped ∨ e.stopreason ≠ .wai) := fun hh => hh.elim (fun hh => hh h.1) fun hh => hh h.2
  unfold maybeWaitOnIdle
  rw [hi]
  dsimp only
  rw [if_neg hn, applyHostStopRequest, hr]
  rfl

/-- A poll that finds no request leaves the machine asleep. -/
theorem poll_asleep (hc : HostCode H) (h : e.Asleep) (hs : e.stopRequested = false)
    (ha : ∀ a ∈ hc.async e.clock, a = .deassertIrq) :
    ∃ b, e.pollHostControls hc = { e with clock := e.clock + 1, irq := b } := by
  have hk : ∃ b, e.arrive hc = { e with clock := e.clock + 1, irq := b } := by
    unfold arrive
    refine List.foldlRecOn (motive := fun e' : Emu H => ∃ b, e' = { e with clock := e.clock + 1, irq := b }) _ _
      ⟨e.irq, rfl⟩ ?_
    rintro e' ⟨b, rfl⟩ a hm
    rw [ha a hm]
    exact ⟨false, rfl⟩
  obtain ⟨b, hb⟩ := hk
  have hn : ∀ e' : Emu H, e'.stopRequested = false → e'.applyHostStopRequest = e' := fun e' h => by
    rw [applyHostStopRequest, h]
    rfl
  have ht : ∀ e' : Emu H, e'.state = .stopped → e'.maybeTick hc = e' := fun e' h => by
    unfold maybeTick
    split
    · rfl
    · rw [if_pos ⟨by rw [h]; exact EmuState.noConfusion, by rw [h]; exact EmuState.noConfusion⟩]
  refine ⟨b, ?_⟩
  have hs' : (e.arrive hc).stopRequested = false := by rw [hb]; exact hs
  have hst : (e.arrive hc).state = .stopped := by rw [hb]; exact h.1
  rw [pollHostControls, hn _ hs', ht _ hst, hn _ hs', hb]

end Emu

namespace Run

variable {c : Run H} {cb : Cb} {b : Block} {k : Nat} {i : Instruction}

/-- A block goes on only if the machine is awake. -/
theorem native_wakeful {next : Next} {e : Emu H} (h : c.emu.Awake cb)
    (hr : c.emu.runNative hc (nativeInsn ⟨insnAddrs b.startPc (b.fn.getD [])⟩ k i) = .ok next e) :
    e.idleWait = some cb ∧ (next ≠ .ret → e.Awake cb) := by
  have hS := Emu.steady_wakeful hc cb
  have hregs : ∀ (s : Emu H) r, s.Awake cb → ({ s with regs := r } : Emu H).Awake cb := fun _ _ h => h
  cases hc' : emitCase i.opcode with
  | some ca =>
    have he := (keeps_compiled hS hregs h hc' _ k).ok hr
    exact ⟨he.2, fun _ => he⟩
  | none =>
    rw [nativeInsn_fallback hc', Emu.runNative_ofCpu] at hr
    obtain ⟨v, s, hx, hr⟩ := Out.of_bind_ok hr
    obtain ⟨w, s', hf, hcase⟩ := Emu.fallbackControl_run hc (instructionDecode i.opcode) v.2 s
    rw [hf] at hr
    cases hr
    have hi := (Emu.idleWait_execRun h.2).ok hx
    have hi' : s'.idleWait = some cb :=
      (keeps_fallbackControl (Emu.steady_idleWait hc cb) (fun _ _ h => h) hi _ _).ok hf
    refine ⟨hi', fun hn => ?_⟩
    obtain ⟨hs, -, rfl⟩ := hcase.resolve_left hn
    have ha : (s.asked hc v.2).Awake cb := ⟨Emu.not_asleep hs, (Emu.steady_idleWait hc cb).arrive _ hi⟩
    exact hregs _ _ (hS.arrive _ (hregs _ v.2 ha))

theorem native_wakeful_exit {e : Emu H} (h : c.emu.Awake cb)
    (hr : c.emu.runNative hc (nativeInsn ⟨insnAddrs b.startPc (b.fn.getD [])⟩ k i) = .exit e) : e.Awake cb := by
  have hS := Emu.steady_wakeful hc cb
  have hregs : ∀ (s : Emu H) r, s.Awake cb → ({ s with regs := r } : Emu H).Awake cb := fun _ _ h => h
  cases hc' : emitCase i.opcode with
  | some ca =>
    have he := keeps_compiled hS hregs h hc' ⟨insnAddrs b.startPc (b.fn.getD [])⟩ k
    rw [hr] at he
    exact he
  | none =>
    rw [nativeInsn_fallback hc', Emu.runNative_ofCpu] at hr
    rcases Out.of_bind_exit hr with hx | ⟨v, s, hx, hr⟩
    · exact h.execRun_exit hx
    · obtain ⟨w, s', hf, -⟩ := Emu.fallbackControl_run hc (instructionDecode i.opcode) v.2 s
      rw [hf] at hr
      cases hr

theorem afterPoll_waits (hcb : Emu.Rouses hc cb) (h : c.emu.Asleep) (hi : c.emu.idleWait = some cb)
    (hs : c.emu.stopRequested = false) :
    afterPoll hc c = { c with emu := c.emu.hostReturns (hc.idleWait c.emu.host cb) } ∧
    (afterPoll hc c).emu.state = .running := by
  obtain ⟨hw, hr⟩ := Emu.waits hcb h hi hs
  have hn : c.emu.state ≠ .running := by
    rw [h.1]
    exact EmuState.noConfusion
  have he : afterPoll hc c = { c with emu := c.emu.hostReturns (hc.idleWait c.emu.host cb) } := by
    unfold afterPoll
    rw [if_neg hn, hw]
    exact if_pos ⟨rfl, hr⟩
  exact ⟨he, he ▸ hr⟩

/-- Whatever put the machine to sleep, a loop that looks wakes it up. -/
theorem looks_wakeful (hcb : Emu.Rouses hc cb) (c' : Run H) (hne : c'.phase ≠ .done)
    (hi : c'.emu.idleWait = some cb) :
    Ends (Emu.Awake cb) (Emu.Awake cb) (afterPoll hc { c' with emu := c'.emu.pollHostControls hc }) := by
  have hS := Emu.steady_wakeful hc cb
  have hip : (c'.emu.pollHostControls hc).idleWait = some cb := (Emu.steady_idleWait hc cb).poll hi
  by_cases ha : (c'.emu.pollHostControls hc).Asleep
  · obtain ⟨he, hr⟩ := afterPoll_waits (c := { c' with emu := c'.emu.pollHostControls hc }) hcb ha hip
      (Emu.applyHostStopRequest_done _)
    rw [he] at hr ⊢
    exact ends_of_ne hne ⟨Emu.not_asleep hr, (Emu.foldl_idleWait _ _).trans hip⟩
  · exact ends_afterPoll (c := c') (fun _ => hS.idle) (fun _ h _ => hS.finish h) hne ⟨ha, hip⟩

/-- `WAI` is not interpreted by the dispatcher itself. -/
def NoStrayWai (hc : HostCode H) (c : Run H) : Prop := ∀ e i, c.Interprets hc e →
    e.fetched hc = some i → i.emul ≠ .wai

/-- Code that the step runs leaves the emulator as `e`. -/
inductive RunsTo (hc : HostCode H) (c : Run H) : Emu H → Prop
  | exec {e e' : Emu H} (he : c.Execs hc e) (hx : e.exec hc = .ok () e') : RunsTo hc c e'
  | native {b : Block} {k : Nat} {i : Instruction} {next : Next} {e' : Emu H} (he : c.Enters b k i)
      (hx : c.emu.runNative hc (nativeInsn ⟨insnAddrs b.startPc (b.fn.getD [])⟩ k i) = .ok next e') :
      RunsTo hc c e'

theorem Interprets.wakeful {e e' : Emu H} (he : c.Interprets hc e) (hw : c.NoStrayWai hc) (h : e.Awake cb)
    (hx : e.exec hc = .ok () e') : e'.Awake cb :=
  (Emu.Closed.putRegs (fun _ _ h => h) (h.execRun fun i => hw e i he)).ok hx

theorem step_wakeful (hcb : Emu.Rouses hc cb) (h : c.emu.Awake cb) (hw : c.NoStrayWai hc) :
    (c.step hc).emu.Awake cb := by
  by_cases hd : c.phase = .done
  · unfold step
    rw [hd]
    exact h
  · have hS := Emu.steady_wakeful hc cb
    have hregs : ∀ (s : Emu H) r, s.Awake cb → ({ s with regs := r } : Emu H).Awake cb := fun _ _ h => h
    have hx := ends_step_looking (I := Emu.Awake cb) (J := Emu.Awake cb) (K := fun e => e.idleWait = some cb)
      (fun _ => hS.poll) (fun _ => hS.idle) hS.engine hS.mmu (fun _ h _ => hS.finish h) (fun _ h => h.2)
      (fun _ _ _ _ _ _ h => h) (looks_wakeful hcb)
      (fun e b e' _ hi hr => (hS.compileBlock (fun _ _ h => h) hi fun pc' e' _ h =>
        hS.fetchEmu hregs e' pc' h).ok hr) hd h
      (fun e e' _ _ hi hr => (Emu.Closed.putRegs (fun _ _ h => h) (Emu.idleWait_execRun hi.2)).ok hr)
      (fun e e' he hi hr => he.wakeful hw hi hr)
      (fun b k i e _ hr => (native_wakeful h hr).1) (fun b k i next e _ hn hr => (native_wakeful h hr).2 hn)
      fun b k i e _ hr => native_wakeful_exit h hr
    unfold Ends at hx
    split at hx <;> exact hx

/-- The loop has waited on the machine that `e` left asleep, and goes on. -/
structure Waited (hc : HostCode H) (cb : Cb) (e : Emu H) (c : Run H) : Prop where
  host : c.emu.host = (hc.idleWait e.host cb).1
  running : c.emu.state = .running
  phase : c.phase = .interp ∨ c.phase = .dispatch

theorem looks_waits (hcb : Emu.Rouses hc cb) {d : Run H} {e : Emu H}
    (hp : d.phase = .interp ∨ d.phase = .dispatch)
    (hk : e.idleWait = some cb) (h : e.Asleep) (hs : e.stopRequested = false)
    (ha : ∀ a ∈ hc.async e.clock, a = .deassertIrq)
    (he : ∃ j u b n, d.emu = { e with jit := j, useJit := u, inJitRun := b, jitLoopBudget := n }) :
    Waited hc cb e (afterPoll hc { d with emu := d.emu.pollHostControls hc }) := by
  obtain ⟨j, u, b, n, he⟩ := he
  obtain ⟨l, hl⟩ := Emu.poll_asleep hc (e := d.emu) (by rw [he]; exact h) (by rw [he]; exact hs)
    (by rw [he]; exact ha)
  have hpoll : (d.emu.pollHostControls hc).Asleep ∧ (d.emu.pollHostControls hc).idleWait = some cb ∧
      (d.emu.pollHostControls hc).stopRequested = false ∧ (d.emu.pollHostControls hc).host = e.host := by
    rw [hl, he]
    exact ⟨h, hk, hs, rfl⟩
  generalize d.emu.pollHostControls hc = s at hpoll ⊢
  obtain ⟨hsleep, hi, hreq, hh⟩ := hpoll
  obtain ⟨hw, hr⟩ := afterPoll_waits (c := { d with emu := s }) hcb hsleep hi hreq
  refine ⟨?_, hr, ?_⟩
  · rw [hw, ← hh]
    exact Emu.foldl_host _ _
  · rw [hw]
    exact hp

theorem step_waits (hcb : Emu.Rouses hc cb) (h : c.emu.Awake cb) (hw : c.NoStrayWai hc)
    {e : Emu H} (he : c.RunsTo hc e)
    (hsleep : e.Asleep) (hs : e.stopRequested = false) (ha : ∀ a ∈ hc.async e.clock, a = .deassertIrq) :
    Waited hc cb e (c.step hc) := by
  have hS := Emu.steady_wakeful hc cb
  cases he with
  | @exec e₁ _ he hx =>
    have h₁ := he.keeps hS (fun _ _ h => h) (fun _ _ h => h) h
    have hk := (Emu.Closed.putRegs (fun _ _ h => h) (Emu.idleWait_execRun h₁.2)).ok hx
    rcases he with ⟨hp, hpo⟩ | he
    · rw [step_round hp hpo hx]
      exact looks_waits hcb (d := { c with emu := e }) (.inl hp) hk hsleep hs ha
        ⟨e.jit, e.useJit, e.inJitRun, e.jitLoopBudget, rfl⟩
    · exact absurd hsleep (he.wakeful hw h₁ hx).1
  | @native b k i next _ he hx =>
    obtain ⟨hk, hgo⟩ := native_wakeful h hx
    have hret : next = .ret := by_contra fun hn => (hgo hn).1 hsleep
    subst hret
    rw [step_ret he hx]
    have hI : ∀ (s : Emu H) j u b n, Jit.Drifts s.jit j →
        (∃ j u b n, s = { e with jit := j, useJit := u, inJitRun := b, jitLoopBudget := n }) →
        ∃ j' u' b' n', ({ s with jit := j, useJit := u, inJitRun := b, jitLoopBudget := n } : Emu H) =
          { e with jit := j', useJit := u', inJitRun := b', jitLoopBudget := n' } := by
      rintro s j u b n - ⟨_, _, _, _, rfl⟩
      exact ⟨j, u, b, n, rfl⟩
    obtain ⟨h1, hp1⟩ := keeps_processPendingWrites hI (d := ⟨{ e with inJitRun := false }, .dispatch, c.disabled⟩)
      ⟨e.jit, e.useJit, false, e.jitLoopBudget, rfl⟩
    obtain ⟨h2, hp2⟩ := keeps_processNeedsFlush hI h1
    exact looks_waits hcb (.inr (hp2.trans hp1)) hk hsleep hs ha h2

end Run

/-- As long as the dispatcher interprets no `WAI` itself, a machine that goes to sleep is
handed to the callback and goes on, so that `rk65c02_start` never returns asleep. -/
theorem idle_wait_resumes (hc : HostCode H) (cb : Cb) (hcb : Emu.Rouses hc cb) (e : Emu H)
    (he : e.idleWait = some cb) (n : Nat) (hw : ∀ m ≤ n, (e.start.steps hc m).NoStrayWai hc) :
    ¬(e.start.steps hc n).emu.Asleep ∧
      ∀ s, (e.start.steps hc n).RunsTo hc s → s.Asleep → s.stopRequested = false →
        (∀ a ∈ hc.async s.clock, a = .deassertIrq) → ((e.start.steps hc n).step hc).Waited hc cb s := by
  have h : (e.start.steps hc n).emu.Awake cb := by
    refine Run.steps_keeps (P := fun c => c.emu.Awake cb) (Q := fun c => c.NoStrayWai hc)
      (fun c h hq => Run.step_wakeful hcb h hq) ?_ n fun m hm => hw m (Nat.le_of_lt hm)
    refine ⟨Emu.not_asleep e.start_running, ?_⟩
    unfold Emu.start
    dsimp only
    split <;> exact he
  exact ⟨h.1, fun s hs hsleep hreq ha => Run.step_waits hcb h (hw n (Nat.le_refl n)) hs hsleep hreq ha⟩

/-- A host that counts its idle waits and ends each with an interrupt. -/
def rousingHost : HostCode Nat where
  translate := fun _ _ => identity
  mmuFault := fun h _ _ _ _ => (h, [])
  devRead := fun h _ _ => (0xFF, h, [])
  devWrite := fun h _ _ _ => (h, [])
  tick := fun h _ => (h, [])
  idleWait := fun h _ => (h + 1, [.assertIrq])
  onStop := fun h _ _ => (h, [])
  async := fun _ => []

/-- An emulator over RAM full of `WAI`. -/
def sleepyEmu (irq : Bool) : Emu Nat :=
  { (init (ramBus fun _ => 0xCB) 0 ⟨0, 0, 0, 0x0200, 0xFF, 0⟩ : Emu Nat) with
    regs := ⟨0, 0, 0, 0x0200, 0xFF, 0x20⟩, irq := irq, idleWait := some 0 }

theorem rousingHost_rouses : Emu.Rouses rousingHost 0 := fun _ =>
  ⟨List.mem_singleton.2 rfl, fun hm => HostCall.noConfusion (List.mem_singleton.1 hm)⟩

/-- In the interpreter. -/
theorem idle_wait_resumes_interp : ¬((sleepyEmu false).start.steps rousingHost 1).emu.Asleep := by
  refine (idle_wait_resumes rousingHost 0 rousingHost_rouses (sleepyEmu false) rfl 1 fun m hm e i he _ => ?_).1
  have hp : ((sleepyEmu false).start.steps rousingHost m).phase = .interp := by
    obtain rfl | rfl : m = 0 ∨ m = 1 := by omega
    · decide +kernel
    · decide +kernel
  exact absurd (hp.symm.trans he.phase) Phase.noConfusion

/-- In the JIT, with an interrupt to enter: the dispatcher interprets the first instruction of
the handler, and nobody waits. -/
theorem handler_wai_not_waited :
    (((sleepyEmu true).hostCall (.jitEnable true)).start.steps rousingHost 2).phase = .done ∧
      (((sleepyEmu true).hostCall (.jitEnable true)).start.steps rousingHost 2).emu.Asleep ∧
      (((sleepyEmu true).hostCall (.jitEnable true)).start.steps rousingHost 2).emu.host = 0 := by
  decide +kernel

end Rk65c02
