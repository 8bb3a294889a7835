import Rk65c02.Recording

/-! The announcement of a stop: when `on_stop` is called, and how often. -/

namespace Rk65c02

open Resumption

variable {H : Type} {hc : HostCode H}

namespace Emu

/-- No access of the code is refused while the machine is stopped. -/
def Calm (hc : HostCode H) {α : Type} (t : CpuTree α) (e : Emu H) : Prop :=
  ∀ o r s, t.Visit (handle hc) e o r s → (s.asked hc r).Refuses hc o → (s.asked hc r).Active

def CalmNative (hc : HostCode H) {α : Type} (t : Tree NOp NOp.Ret Regs α) (e : Emu H) : Prop :=
  ∀ o r s, t.Visit (handleNative hc) e (.base o) r s → (s.asked hc r).Refuses hc o → (s.asked hc r).Active

theorem calm_of_requests {α : Type} {t : CpuTree α} {e : Emu H}
    (h : ∀ x ∈ t.requests (handle hc) e, (x.2.2.asked hc x.2.1).Refuses hc x.1 → (x.2.2.asked hc x.2.1).Active) :
    e.Calm hc t := fun o r s hv => h (o, r, s) hv.mem_requests

section Rule

variable {I : Emu H → Prop} {e : Emu H} (hI : Loops hc I) (hregs : ∀ e r, I e → I { e with regs := r })
  (hack : ∀ e, I e → I { e with irq := false })
  (hstop : ∀ e q, I e → I { e with state := .stopped, stopreason := q })

include hI hregs hack hstop

/-- Calm code announces nothing. -/
theorem Loops.run_calm {α : Type} {t : CpuTree α} (h : I e) (hcalm : e.Calm hc t) :
    (t.run (handle hc) e).Ends I := by
  refine Tree.run_visit (fun o r s hv hs => ?_) h
  have ha := hI.arrive _ (hregs s r hs)
  exact hI.answer ha o (fun _ => hack _ ha) (fun q _ => hstop _ q ha) fun hr hn => absurd (hcalm o r s hv hr) hn

theorem Loops.runNative_calm {α : Type} {t : Tree NOp NOp.Ret Regs α} (h : I e) (hcalm : e.CalmNative hc t) :
    (t.run (handleNative hc) e).Ends I := by
  refine Tree.run_visit (fun o r s hv hs => ?_) h
  have ha : I (s.asked hc r) := hI.arrive _ (hregs s r hs)
  cases o with
  | base o =>
    exact hI.answer ha o (fun _ => hack _ ha) (fun q _ => hstop _ q ha) fun hr hn => absurd (hcalm o r s hv hr) hn
  | setLoopBudget n => exact hI.setLoopBudget ha n
  | countInsns n => exact hI.countInsns ha n
  | _ => exact ha

end Rule

/-- Since `e₀` no stop has been announced, in a call that runs the machine in state `m`. -/
structure Unannounced (cb : Cb) (m : EmuState) (e₀ e : Emu (H × List Event)) : Prop where
  log : ∃ evs : List Event, (∀ ev ∈ evs, ev.callback.notifies = false) ∧ e.host.2 = e₀.host.2 ++ evs
  onStop : e.onStop = some cb
  state : e.state = .running ∨ e.state = .stopped ∨ e.state = m

/-- The stop was announced once, by the last callback, with the reason that still holds. -/
def Announced (cb : Cb) (e₀ e : Emu (H × List Event)) : Prop :=
  e.state = .stopped ∧ ∃ evs : List Event, (∀ ev ∈ evs, ev.callback.notifies = false) ∧
    e.host.2 = e₀.host.2 ++ evs ++ [⟨.onStop cb e.stopreason, []⟩]

section Unannounced

variable {cb : Cb} {m : EmuState} {e₀ e e' : Emu (H × List Event)}

theorem Unannounced.congr (hc' : e'.control = e.control) (h : Unannounced cb m e₀ e) :
    Unannounced cb m e₀ e' := by
  have hh : e'.host = e.host := congrArg Control.host hc'
  have ho : e'.onStop = e.onStop := congrArg Control.onStop hc'
  have hs : e'.state = e.state := congrArg Control.state hc'
  exact ⟨hh ▸ h.log, ho ▸ h.onStop, hs ▸ h.state⟩

theorem Unannounced.stopped (h : Unannounced cb m e₀ e) (q : StopReason) (b : Bool) :
    Unannounced cb m e₀ { e with state := .stopped, stopreason := q, stopRequested := b } :=
  ⟨h.log, h.onStop, .inr (.inl rfl)⟩

theorem Unannounced.foldl (h : Unannounced cb m e₀ e) (cs : List HostCall) :
    Unannounced cb m e₀ (cs.foldl hostCall e) := by
  refine ⟨?_, (foldl_onStop e cs).trans h.onStop, ?_⟩
  · rw [foldl_host]
    exact h.log
  · rcases foldl_state e cs with hs | hs
    · rw [hs]
      exact h.state
    · exact .inl hs.1

theorem Unannounced.regs (e : Emu (H × List Event)) (r : Regs) (h : Unannounced cb m e₀ e) :
    Unannounced cb m e₀ { e with regs := r } := ⟨h.log, h.onStop, h.state⟩

theorem Unannounced.ack (e : Emu (H × List Event)) (h : Unannounced cb m e₀ e) :
    Unannounced cb m e₀ { e with irq := false } :=
  ⟨h.log, h.onStop, h.state⟩

theorem Unannounced.stop (e : Emu (H × List Event)) (q : StopReason) (h : Unannounced cb m e₀ e) :
    Unannounced cb m e₀ { e with state := .stopped, stopreason := q } := ⟨h.log, h.onStop, .inr (.inl rfl)⟩

theorem loops_unannounced (hc : HostCode H) (cb : Cb) (m : EmuState) (e₀ : Emu (H × List Event)) :
    Loops hc.recording (Unannounced cb m e₀) := by
  refine loops_of_control (fun _ _ => Unannounced.congr) (fun e h => ?_) (fun e c hq h => ?_)
    (fun e h => h.stopped _ _)
    fun e h _ => h.stopped _ _
  · rw [arrive_eq]
    exact Unannounced.foldl (e := { e with clock := e.clock + 1 }) ⟨h.log, h.onStop, h.state⟩ _
  · rw [hc.recording_invoke]
    refine Unannounced.foldl (e := { e with host := (hc.record e.host c).1 }) ⟨?_, h.onStop, h.state⟩ _
    obtain ⟨evs, hev, hl⟩ := h.log
    refine ⟨evs ++ [⟨c, (hc.invoke e.host.1 c).2⟩], ?_, ?_⟩
    · intro ev hm
      rcases List.mem_append.1 hm with hm | hm
      · exact hev ev hm
      · rw [List.mem_singleton.1 hm]
        exact hq
    · change e.host.2 ++ _ = _
      rw [hl, List.append_assoc]

theorem Unannounced.runCpu {α : Type} {x : Cpu α} (h : Unannounced cb m e₀ e)
    (hcalm : e.Calm hc.recording (x.run e.regs)) :
    (e.runCpu hc.recording x).Ends (Unannounced cb m e₀) :=
  Closed.putRegs Unannounced.regs
    ((loops_unannounced hc cb m e₀).run_calm Unannounced.regs Unannounced.ack Unannounced.stop h hcalm)

theorem Unannounced.runNative {α : Type} {x : NCpu α} (h : Unannounced cb m e₀ e)
    (hcalm : e.CalmNative hc.recording (x.run e.regs)) : (e.runNative hc.recording x).Ends
    (Unannounced cb m e₀) :=
  Closed.putRegs Unannounced.regs
    ((loops_unannounced hc cb m e₀).runNative_calm Unannounced.regs Unannounced.ack Unannounced.stop h hcalm)

end Unannounced

section Woken

variable {n : Nat} {e : Emu H}

/-- If the machine runs, an interrupt request has woken it up since point `n`. -/
def Woken (hc : HostCode H) (n : Nat) (e : Emu H) : Prop :=
  e.state = .running → e.stopreason = .wai ∧ ∃ k, n ≤ k ∧ k < e.clock ∧
    .assertIrq ∈ (hc.async k).map AsyncCall.call

theorem Woken.arrive (hn : n ≤ e.clock) (h : e.Woken hc n) : (e.arrive hc).Woken hc n := by
  rw [arrive_eq]
  intro hr
  rw [foldl_stopreason, foldl_clock]
  rcases foldl_state ({ e with clock := e.clock + 1 } : Emu H)
    ((hc.async e.clock).map AsyncCall.call) with hs | hs
  · obtain ⟨hw, k, hl, hk, hm⟩ := h (hs.symm.trans hr)
    exact ⟨hw, k, hl, Nat.lt_succ_of_lt hk, hm⟩
  · exact ⟨hs.2.2.1, e.clock, hn, Nat.lt_succ_self _, hs.2.2.2⟩

theorem Woken.apply (h : e.Woken hc n) : e.applyHostStopRequest.Woken hc n := by
  unfold applyHostStopRequest
  split
  · exact h
  · exact fun hr => nomatch hr

theorem Woken.callback (h : e.Woken hc n) (ha : e.Active) (r : H × List HostCall) :
    (e.hostReturns r).Woken hc n := by
  intro hr
  rw [hostReturns, foldl_stopreason, foldl_clock]
  rcases foldl_state ({ e with host := r.1 } : Emu H) r.2 with hs | hs
  · exact h (hs.symm.trans hr)
  · have hst : e.state = .stopped := hs.2.1
    rw [Active, hst] at ha
    rcases ha with ha | ha <;> cases ha

theorem Woken.tick (h : e.Woken hc n) : (e.maybeTick hc).Woken hc n := by
  rcases maybeTick_cases hc e with ⟨k, ht⟩ | ⟨ha, cb, k, k', ht⟩
  · rw [ht]
    exact h
  · rw [ht]
    exact Woken.callback (e := { e with tickCountdown := k }) h ha _

theorem Woken.poll (hn : n ≤ e.clock) (h : e.Woken hc n) : (e.pollHostControls hc).Woken hc n :=
  (((h.arrive hn).apply).tick).apply

theorem poll_clock (hc : HostCode H) (e : Emu H) : (e.pollHostControls hc).clock = e.clock + 1 := by
  have happly : ∀ e : Emu H, e.applyHostStopRequest.clock = e.clock := by
    intro e
    unfold applyHostStopRequest
    split <;> rfl
  have htick : ∀ e : Emu H, (e.maybeTick hc).clock = e.clock := by
    intro e
    rcases maybeTick_cases hc e with ⟨k, ht⟩ | ⟨-, cb, k, k', ht⟩
    · rw [ht]
    · rw [ht]
      exact foldl_clock _ _
  rw [pollHostControls, happly, htick, happly, arrive_eq, foldl_clock]

end Woken

section Finish

variable {cb : Cb} {m : EmuState} {e₀ e : Emu (H × List Event)} (hquiet : ∀ h q, (hc.onStop h cb q).2 = [])

include hquiet

/-- A callback that does nothing announces the stop. -/
theorem Unannounced.announce (h : Unannounced cb m e₀ e) (hs : e.state = .stopped) :
    Announced cb e₀ (e.maybeCallOnStop hc.recording) := by
  have hcall : e.maybeCallOnStop hc.recording =
      { e with
        host := ((hc.onStop e.host.1 cb e.stopreason).1, e.host.2 ++ [⟨.onStop cb e.stopreason, []⟩]) } := by
    unfold maybeCallOnStop
    split
    · next hn =>
      rw [h.onStop] at hn
      cases hn
    · next cb' hn =>
      obtain rfl : cb = cb' := Option.some.inj (h.onStop.symm.trans hn)
      change hostReturns e (hc.record e.host (.onStop cb e.stopreason)) = _
      unfold hostReturns HostCode.record
      rw [show (hc.invoke e.host.1 (.onStop cb e.stopreason)).2 = [] from hquiet _ _]
      rfl
  obtain ⟨evs, hev, hl⟩ := h.log
  rw [hcall]
  refine ⟨hs, evs, hev, ?_⟩
  rw [← hl]

theorem Unannounced.finish (h : Unannounced cb .running e₀ e) (hs : e.state ≠ .running)
    (hlast : (e.finish hc.recording).stopreason = .wai →
      .assertIrq ∉ (hc.async ((e.finish hc.recording).clock - 1)).map AsyncCall.call) :
    Announced cb e₀ (e.finish hc.recording) := by
  have hp := (loops_unannounced hc cb .running e₀).poll h
  have hw : (e.pollHostControls hc.recording).Woken hc.recording e.clock :=
    Woken.poll (Nat.le_refl _) fun hr => absurd hr hs
  have hcl := poll_clock hc.recording e
  unfold Emu.finish at hlast ⊢
  dsimp only at hlast ⊢
  generalize e.pollHostControls hc.recording = e' at hp hw hcl hlast ⊢
  by_cases hst : e'.state = .stopped
  · rw [if_pos hst]
    exact hp.announce hquiet hst
  · rw [if_neg hst] at hlast
    have hr : e'.state = .running := hp.state.elim id fun hs => hs.elim (fun hs => absurd hs hst) id
    obtain ⟨hwai, k, hl, hk, hm⟩ := hw hr
    obtain rfl : k = e'.clock - 1 := by omega
    exact absurd hm (hlast hwai)

end Finish

end Emu

namespace Run

/-- In the step no access is refused while the machine is stopped, and the dispatcher does not
find a debugging facility switched on. -/
structure Calm (hc : HostCode H) (c : Run H) : Prop where
  exec : ∀ e, c.Execs hc e → e.Calm hc (Rk65c02.exec.run e.regs)
  compile : ∀ e pc e', c.Compiles hc e → Emu.CompileFetches hc e.regs.PC e pc e' →
    e'.Calm hc ((instructionFetchEmu pc).run e'.regs)
  native : ∀ b k i, c.Enters b k i →
    c.emu.CalmNative hc ((nativeInsn ⟨insnAddrs b.startPc (b.fn.getD [])⟩ k i).run c.emu.regs)
  debugging : ∀ e, c.phase = .dispatch → c.polled hc = some e → e.debugging = false

variable {cb : Cb} {e₀ : Emu (H × List Event)} {c : Run (H × List Event)}

/-- Announced when the run is over, unless a request arrived at the very last point and woke
the machine up. -/
def Announces (hc : HostCode H) (cb : Cb) (e₀ : Emu (H × List Event)) : Run (H × List Event) → Prop :=
  Ends (Emu.Unannounced cb .running e₀) fun f =>
    (f.stopreason = .wai → .assertIrq ∉ (hc.async (f.clock - 1)).map AsyncCall.call) → Emu.Announced cb e₀ f

theorem step_announces (hquiet : ∀ h q, (hc.onStop h cb q).2 = []) (h : c.Announces hc cb e₀)
    (hcalm : c.Calm hc.recording) : (c.step hc.recording).Announces hc cb e₀ := by
  by_cases hd : c.phase = .done
  · unfold step
    rw [hd]
    exact h
  · have hI := Emu.loops_unannounced hc cb .running e₀
    have hu : Emu.Unannounced cb .running e₀ c.emu := (if_neg hd).mp h
    refine ends_step (fun _ => hI.poll) (fun _ => hI.idle) hI.engine hI.mmu (fun e h hl => ?_)
      (fun e b e' he hi hr => ?_) hd hu (fun e e' he hi hr => ?_) fun b k i he => ?_
    · rcases hl with hs | ⟨hp, hpo, hdb⟩
      · exact h.finish hquiet hs
      · rw [hcalm.debugging e hp hpo] at hdb
        cases hdb
    · exact (hI.compileBlock (fun e _ h => .congr (e := e) rfl h) hi fun pc e' hf hi =>
        hi.runCpu (hcalm.compile e pc e' he hf)).ok hr
    · exact (hi.runCpu (hcalm.exec e he)).ok hr
    · exact hu.runNative (hcalm.native b k i he)

theorem start_announces (e : Emu (H × List Event)) (hcb : e.onStop = some cb) : e.start.Announces hc cb e := by
  unfold Emu.start
  dsimp only
  split
  · exact ends_of_ne Phase.noConfusion
      ⟨⟨[], fun _ h => absurd h List.not_mem_nil, (List.append_nil _).symm⟩, hcb, .inl rfl⟩
  · exact ends_of_ne Phase.noConfusion
      ⟨⟨[], fun _ h => absurd h List.not_mem_nil, (List.append_nil _).symm⟩, hcb, .inl rfl⟩

end Run

namespace Emu

section Stepping

variable {n : Nat} {e : Emu H}

/-- Not running and not asleep, at a point no earlier than `n`. -/
structure Upright (n : Nat) (e : Emu H) : Prop where
  clock : n ≤ e.clock
  running : e.state ≠ .running
  asleep : ¬(e.state = .stopped ∧ e.stopreason = .wai)

theorem Upright.foldl (h : e.Upright n) (cs : List HostCall) : (cs.foldl hostCall e).Upright n := by
  rcases foldl_state e cs with hs | hs
  · refine ⟨(foldl_clock e cs).symm ▸ h.clock, hs.symm ▸ h.running, ?_⟩
    rw [hs, foldl_stopreason]
    exact h.asleep
  · exact absurd ⟨hs.2.1, hs.2.2.1⟩ h.asleep

theorem Upright.stopped (h : e.Upright n) {q : StopReason} (hq : q ≠ .wai) (b : Bool) :
    ({ e with state := .stopped, stopreason := q, stopRequested := b } : Emu H).Upright n :=
  ⟨h.clock, EmuState.noConfusion, fun ha => hq ha.2⟩

theorem Upright.congr {e' : Emu H} (hc' : e'.control = e.control) (h : e.Upright n) : e'.Upright n := by
  have hcl : e'.clock = e.clock := congrArg Control.clock hc'
  have hs : e'.state = e.state := congrArg Control.state hc'
  have hr : e'.stopreason = e.stopreason := congrArg Control.stopreason hc'
  exact ⟨hcl ▸ h.clock, hs ▸ h.running, hs ▸ hr ▸ h.asleep⟩

theorem steady_upright (hc : HostCode H) (n : Nat) : Steady hc (Upright n) := by
  refine steady_of_control (fun _ _ => Upright.congr) (fun e h => ?_) (fun e c h => ?_)
    (fun e h => h.stopped StopReason.noConfusion _) fun e h _ => h.stopped StopReason.noConfusion _
  · rw [arrive_eq]
    exact Upright.foldl (e := { e with clock := e.clock + 1 }) ⟨Nat.le_succ_of_le h.clock, h.running, h.asleep⟩ _
  · exact Upright.foldl (e := { e with host := (hc.invoke e.host c).1 }) ⟨h.clock, h.running, h.asleep⟩ _

/-- The machine is running only if it was woken up, at a point no earlier than `n`. -/
structure Roused (hc : HostCode H) (n : Nat) (e : Emu H) : Prop where
  clock : n ≤ e.clock
  woken : e.Woken hc n

theorem Roused.wai (h : e.Roused hc n) {o : Op} (ho : WaiAsks o) (r : Regs) :
    (handle hc o r e).Ends (Roused hc n) := by
  have ha : (e.asked hc r).Roused hc n := by
    refine ⟨?_, Woken.arrive (e := { e with regs := r }) h.clock h.woken⟩
    rw [asked, arrive_eq, foldl_clock]
    exact Nat.le_succ_of_le h.clock
  change ((e.asked hc r).answer hc o).Ends _
  generalize e.asked hc r = e' at ha ⊢
  cases o with
  | stop q => exact ⟨ha.clock, fun hr => nomatch hr⟩
  | reexec =>
    unfold answer
    by_cases hr : e'.state = .stopped ∧ e'.mmu.faultReexec = true
    · rw [if_pos hr]
      exact ⟨ha.clock, ha.woken⟩
    · rw [if_neg hr]
      exact ha
  | trace tpc i r' =>
    change (e'.tracePush ⟨tpc, i, r'⟩).Roused hc n
    unfold tracePush
    by_cases ht : e'.trace = true
    · rw [if_pos ht]
      exact ⟨ha.clock, ha.woken⟩
    · rw [if_neg ht]
      exact ha
  | _ => exact ho.elim

/-- One instruction of a stepping machine: it runs afterwards only if it was woken up. -/
theorem Upright.exec (h : e.Upright n) : (e.exec hc).Ends (Roused hc n) := by
  have hS := steady_upright hc n
  have hregs : ∀ (s : Emu H) r, s.Upright n → ({ s with regs := r } : Emu H).Upright n :=
    fun s _ h => Upright.congr (e := s) rfl h
  have hup : ∀ s : Emu H, s.Upright n → s.Roused hc n := fun s h => ⟨h.clock, fun hr => absurd hr h.running⟩
  refine Closed.putRegs (fun s r h => ⟨h.clock, h.woken⟩) ?_
  change (e.execRun hc).Ends _
  have hf := hS.fetchRun hregs (hS.arrive _ (hregs e e.regs h)) fun _ s h => ⟨h.clock, h.running, h.asleep⟩
  rw [execRun_eq]
  refine hf.bind hup fun v s hs => ?_
  obtain ⟨i, r⟩ := v
  by_cases hw : ∃ j, i = some j ∧ j.emul = .wai
  · obtain ⟨j, rfl, hj⟩ := hw
    refine Tree.run_visit (fun o r' s' hv hs' => ?_) (hup s hs)
    exact hs'.wai ((execInsn_wai _ hj r trivial).visit hv) r'
  · refine (hS.execRest hregs hs _ (i, r) (fun _ h => h.stopped StopReason.noConfusion _) fun j hj => ?_).mono hup
    exact hS.execInsn hregs hs _ j r (fun _ _ h => ⟨h.clock, h.running, h.asleep⟩)
      (fun hm => absurd ⟨j, hj, hm⟩ hw)
      fun _ _ h => h.stopped StopReason.noConfusion _

/-- Along the loop of `rk65c02_step` no access is refused while the machine is stopped. -/
def StepCalm (hc : HostCode H) : Nat → Emu H → Prop
  | 0, _ => True
  | n + 1, e => e.state = .stepping → (e.pollHostControls hc).state = .stepping →
    (e.pollHostControls hc).Calm hc (Rk65c02.exec.run (e.pollHostControls hc).regs) ∧
      ∀ e', (e.pollHostControls hc).exec hc = .ok () e' → StepCalm hc n (e'.pollHostControls hc)

end Stepping

theorem stepLoop_unannounced {cb : Cb} {e₀ : Emu (H × List Event)} {k n : Nat} {e e' : Emu (H × List Event)}
    (hu : Unannounced cb .stepping e₀ e) (hw : e.Roused hc.recording n) (hcalm : StepCalm hc.recording k e)
    (hr : stepLoop hc.recording k e = .ok () e') : Unannounced cb .stepping e₀ e' ∧ e'.Roused hc.recording n := by
  have hI := loops_unannounced hc cb .stepping e₀
  have hpoll : ∀ e : Emu (H × List Event), e.Roused hc.recording n →
    (e.pollHostControls hc.recording).Roused hc.recording n :=
    fun e h => ⟨(poll_clock hc.recording e).symm ▸ Nat.le_succ_of_le h.clock, h.woken.poll h.clock⟩
  induction k generalizing e with
  | zero =>
    cases hr
    exact ⟨hu, hw⟩
  | succ k ih =>
    unfold stepLoop at hr
    split at hr
    · cases hr
      exact ⟨hu, hw⟩
    · next hs =>
      dsimp only at hr
      split at hr
      · cases hr
        exact ⟨hI.poll hu, hpoll e hw⟩
      · next hs' =>
        obtain ⟨hc', hnext⟩ := hcalm (Decidable.not_not.1 hs) (Decidable.not_not.1 hs')
        obtain ⟨_, s, hx, hr⟩ := Out.of_bind_ok hr
        have hup : (e.pollHostControls hc.recording).Upright n := by
          refine ⟨(hpoll e hw).clock, ?_, ?_⟩
          · rw [Decidable.not_not.1 hs']
            exact EmuState.noConfusion
          · rw [Decidable.not_not.1 hs']
            exact fun h => EmuState.noConfusion h.1
        exact ih (hI.poll (((hI.poll hu).runCpu hc').ok hx)) (hpoll s (hup.exec.ok hx)) (hnext s hx) hr

end Emu

/-- The beginning of `rk65c02_step`, up to its loop. -/
def Emu.stepEntry (e : Emu H) : Emu H :=
  { e with
    stopRequested := false
    tickCountdown := e.tickInterval
    mmu := e.mmu.refreshAccessors
    state := .stepping }

theorem Emu.step_announces {cb : Cb} (hquiet : ∀ h q, (hc.onStop h cb q).2 = []) {e e' : Emu (H × List Event)}
    (hcb : e.onStop = some cb) {k : BitVec 16} (hcalm : Emu.StepCalm hc.recording k.toNat e.stepEntry)
    (hr : e.step hc.recording k = .ok () e')
    (hlast : e'.stopreason = .wai → ∀ n, e.clock ≤ n → n < e'.clock →
      .assertIrq ∉ (hc.async n).map AsyncCall.call) :
    Announced cb e e' := by
  have hu : Unannounced cb .stepping e e.stepEntry :=
    ⟨⟨[], fun _ h => absurd h List.not_mem_nil, (List.append_nil _).symm⟩, hcb, .inr (.inr rfl)⟩
  obtain ⟨_, s, hx, hr⟩ := Out.of_bind_ok hr
  obtain ⟨hs, hw⟩ := stepLoop_unannounced hu ⟨Nat.le_refl e.clock, fun hr => nomatch hr⟩ hcalm hx
  have hp := (loops_unannounced hc cb .stepping e).poll hs
  have hpw := hw.woken.poll hw.clock
  cases hr
  generalize s.pollHostControls hc.recording = s' at hp hpw hlast ⊢
  by_cases hst : s'.state = .stepping
  · simp only [if_pos hst, if_true]
    exact (hp.stop s' .stepped).announce hquiet rfl
  · simp only [if_neg hst] at hlast ⊢
    by_cases hst' : s'.state = .stopped
    · rw [if_pos hst']
      exact hp.announce hquiet hst'
    · rw [if_neg hst'] at hlast
      have hrun : s'.state = .running := hp.state.resolve_right fun h => h.elim hst' hst
      obtain ⟨hwai, n, hl, hn, hm⟩ := hpw hrun
      exact absurd hm (hlast hwai n hl hn)

/-- One announcement in every call of `rk65c02_start` and `rk65c02_step`. -/
theorem one_stop_notification (hc : HostCode H) (cb : Cb) (hquiet : ∀ h q, (hc.onStop h cb q).2 = [])
    (e : Emu (H × List Event)) (hcb : e.onStop = some cb) :
    (∀ n f, e.start.steps hc.recording n = f → f.phase = .done →
      (∀ m < n, (e.start.steps hc.recording m).Calm hc.recording) →
      (f.emu.stopreason = .wai → .assertIrq ∉ (hc.async (f.emu.clock - 1)).map AsyncCall.call) →
      Emu.Announced cb e f.emu) ∧
    ∀ k e', e.step hc.recording k = .ok () e' → Emu.StepCalm hc.recording k.toNat e.stepEntry →
      (e'.stopreason = .wai → ∀ n, e.clock ≤ n → n < e'.clock → .assertIrq ∉ (hc.async n).map AsyncCall.call) →
      Emu.Announced cb e e' := by
  refine ⟨?_, fun k e' hr hcalm hlast => Emu.step_announces hquiet hcb hcalm hr hlast⟩
  rintro n f rfl hd hcalm hlast
  have h := Run.steps_keeps (P := fun c => c.Announces hc cb e) (fun c h hq => Run.step_announces hquiet h hq)
    (Run.start_announces e hcb) n hcalm
  exact (if_pos hd).mp h hlast

/-- An emulator over RAM with an `on_stop` callback. -/
def watchedEmu (mem : Addr → Byte) : Emu (Unit × List Event) :=
  { (init (ramBus mem) ((), []) ⟨0, 0, 0, 0x0200, 0xFF, 0⟩ : Emu (Unit × List Event)) with onStop := some 0 }

/-- A round of the interpreter that executes calm code is calm. -/
theorem Run.calm_of_polled {c : Run H} (hp : c.phase = .interp)
    (h : ∀ e, c.polled hc = some e → e.Calm hc (Rk65c02.exec.run e.regs)) : c.Calm hc where
  exec e he := h e ((callsExec_interp hp).1 (.inl he))
  compile e _ _ he _ := by
    cases he with
    | mk hd => cases hp.symm.trans hd.phase
  native _ _ _ he := by cases hp.symm.trans he.1
  debugging _ hd _ := by cases hp.symm.trans hd

/-- The identity map without page `0x10`. -/
def withoutPage : Translate := fun a x => { identity a x with ok := page a != 0x10 }

/-- `LDX #$01`, `LDA $1000`, under that mapping. -/
def loadingEmu : Emu (Unit × List Event) :=
  let code : List Byte := [0xA2, 0x01, 0xAD, 0x00, 0x10]
  (watchedEmu fun a => code.getD (a.toNat - 0x0200) 0).hostCall (.mmuSet (some 0) none true false)

/-- The read of `LDA $1000` is refused. -/
theorem one_stop_notification_refused :
    (loadingEmu.start.steps (quietHost withoutPage).recording 2).emu.stopreason = .emuerror ∧
      Emu.Announced 0 loadingEmu (loadingEmu.start.steps (quietHost withoutPage).recording 2).emu := by
  have hp : ∀ m < 2, (loadingEmu.start.steps (quietHost withoutPage).recording m).phase = .interp := by
    decide +kernel
  have hcalm : ∀ m < 2, ((loadingEmu.start.steps (quietHost withoutPage).recording m).polled
      (quietHost withoutPage).recording).all (fun e : Emu (Unit × List Event) =>
        decide (∀ x ∈ (Rk65c02.exec.run e.regs).requests
        (Emu.handle (quietHost withoutPage).recording) e,
          (x.2.2.asked (quietHost withoutPage).recording x.2.1).Refuses (quietHost withoutPage).recording x.1 →
            (x.2.2.asked (quietHost withoutPage).recording x.2.1).Active)) = true := by
    decide +kernel
  refine ⟨by decide +kernel, ?_⟩
  refine (one_stop_notification (quietHost withoutPage) 0 (fun _ _ => rfl) loadingEmu rfl).1 2 _ rfl
    (by decide +kernel) (fun m hm => Run.calm_of_polled (hp m hm) fun e he => ?_) (by decide +kernel)
  have h := hcalm m hm
  rw [he, Option.all_some] at h
  exact Emu.calm_of_requests (of_decide_eq_true h)

/-- `INC $1000`. -/
def incProgram (a : Addr) : Byte := if a = 0x0200 then 0xEE else if a = 0x0202 then 0x10 else 0x00

def incEmu : Emu (Unit × List Event) := (watchedEmu incProgram).hostCall (.mmuSet (some 0) none true false)

/-- The read and the write of `INC` are refused. The second refusal announces the stop, and so
does the end of the run. -/
theorem refused_twice_announced_twice :
    (incEmu.start.steps (quietHost withoutPage).recording 1).phase = .done ∧
      (incEmu.start.steps (quietHost withoutPage).recording 1).emu.host.2 =
        [⟨.onStop 0 .emuerror, []⟩, ⟨.onStop 0 .emuerror, []⟩] := by
  decide +kernel

end Rk65c02
