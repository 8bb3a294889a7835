import Rk65c02.JitRequest
import Rk65c02.Notifications
import Rk65c02.Progress

/-! Debugging facilities switched on in the middle of a run: the interpreter honours them, the
dispatcher leaves its loop. -/

namespace Rk65c02

open Resumption

variable {H : Type} {hc : HostCode H}

namespace Emu

variable {e : Emu H}

/-- Running or stopped. -/
def Sober (e : Emu H) : Prop := e.state = .running ∨ e.state = .stopped

theorem Sober.foldl (h : e.Sober) (cs : List HostCall) : (cs.foldl hostCall e).Sober := by
  rcases foldl_state e cs with hs | hs
  · rwa [Sober, hs]
  · exact .inl hs.1

theorem steady_sober (hc : HostCode H) : Steady hc Sober := by
  refine steady_of_control (fun e e' hc' h => ?_) (fun e h => ?_) (fun e c h => ?_) (fun _ _ => .inr rfl)
    fun _ _ _ => .inr rfl
  · have hs : e'.state = e.state := congrArg Control.state hc'
    rwa [Sober, hs]
  · rw [arrive_eq]
    exact Sober.foldl (e := { e with clock := e.clock + 1 }) h _
  · exact Sober.foldl (e := { e with host := (hc.invoke e.host c).1 }) h _

theorem Sober.execRun (h : e.Sober) : (e.execRun hc).Ends Sober := by
  have hS := steady_sober hc
  refine hS.execRun (fun _ _ h => h) (hS.arrive _ h) (fun _ _ h => h) (fun _ _ => .inr rfl) fun i r s _ hs => ?_
  exact hS.execInsn (fun _ _ h => h) hs _ i r (fun _ _ h => h) (fun _ _ _ => .inr rfl) fun _ _ _ => .inr rfl

/-- No request arrived at the last point at which it could wake the machine up from `WAI`. -/
def LeftAsleep (hc : HostCode H) (e : Emu H) : Prop :=
  e.stopreason = .wai → .assertIrq ∉ (hc.async (e.clock - 1)).map AsyncCall.call

/-- A stopped machine is returned stopped, unless a request wakes it up after the loop. -/
theorem finish_stopped (hquiet : ∀ h cb q, .assertIrq ∉ (hc.onStop h cb q).2) (hs : e.state = .stopped)
    (hlast : (e.finish hc).LeftAsleep hc) : (e.finish hc).state = .stopped := by
  have hp : (e.pollHostControls hc).Sober := (steady_sober hc).poll (.inr hs)
  have hw : (e.pollHostControls hc).Woken hc e.clock := Woken.poll (Nat.le_refl _) fun hr =>
    nomatch hs.symm.trans hr
  have hcl := poll_clock hc e
  unfold Emu.finish at hlast ⊢
  dsimp only at hlast ⊢
  generalize e.pollHostControls hc = e' at hp hw hcl hlast ⊢
  by_cases hst : e'.state = .stopped
  · rw [if_pos hst]
    unfold maybeCallOnStop
    split
    · exact hst
    · rcases foldl_state ({ e' with host := _ } : Emu H) _ with hh | hh
      · exact hh.trans hst
      · exact absurd hh.2.2.2 (hquiet _ _ _)
  · rw [if_neg hst] at hlast
    obtain ⟨hwai, k, hl, hk, hm⟩ := hw (hp.resolve_right hst)
    obtain rfl : k = e'.clock - 1 := by omega
    exact absurd hm (hlast hwai)

/-- Stopped at a breakpoint, or by the host at the same place. -/
structure Halted (r : Regs) (bus : Bus) (e : Emu H) : Prop where
  state : e.state = .stopped
  reason : e.stopreason = .breakpoint ∨ e.stopreason = .host
  regs : e.regs = r
  bus : e.bus = bus

section Halted

variable {r : Regs} {bus : Bus}

theorem Halted.not_asleep (h : e.Halted r bus) : e.stopreason ≠ .wai := fun hw => by
  rcases h.reason with hr | hr <;> cases hr.symm.trans hw

theorem Halted.foldl (h : e.Halted r bus) (cs : List HostCall) : (cs.foldl hostCall e).Halted r bus := by
  refine ⟨?_, (foldl_stopreason e cs).symm ▸ h.reason, (foldl_regs e cs).trans h.regs,
    (foldl_bus e cs).trans h.bus⟩
  rcases foldl_state e cs with hs | hs
  · exact hs.trans h.state
  · exact absurd hs.2.2.1 h.not_asleep

theorem Halted.hostReturns (h : e.Halted r bus) (x : H × List HostCall) : (e.hostReturns x).Halted r bus :=
  Halted.foldl (e := { e with host := x.1 }) ⟨h.state, h.reason, h.regs, h.bus⟩ x.2

theorem Halted.apply (h : e.Halted r bus) : e.applyHostStopRequest.Halted r bus := by
  unfold applyHostStopRequest
  split
  · exact h
  · exact ⟨rfl, .inr rfl, h.regs, h.bus⟩

theorem Halted.tick (h : e.Halted r bus) : (e.maybeTick hc).Halted r bus := by
  rcases maybeTick_cases hc e with ⟨k, ht⟩ | ⟨ha, -⟩
  · rw [ht]
    exact ⟨h.state, h.reason, h.regs, h.bus⟩
  · rw [Active, h.state] at ha
    rcases ha with ha | ha <;> cases ha

theorem Halted.poll (h : e.Halted r bus) : (e.pollHostControls hc).Halted r bus := by
  refine (Halted.tick (Halted.apply ?_)).apply
  rw [arrive_eq]
  exact Halted.foldl (e := { e with clock := e.clock + 1 }) ⟨h.state, h.reason, h.regs, h.bus⟩ _

theorem Halted.finish (h : e.Halted r bus) : (e.finish hc).Halted r bus := by
  have hp : (e.pollHostControls hc).Halted r bus := h.poll
  unfold Emu.finish
  dsimp only
  split
  · unfold maybeCallOnStop
    split
    · exact hp
    · exact hp.hostReturns _
  · exact hp

end Halted

theorem arrive_bps (hc : HostCode H) (e : Emu H) : (e.arrive hc).bps = e.bps := by
  obtain ⟨i, s, q, h⟩ := arrive_frame hc e
  rw [h]

theorem fetchHere_run (r : Regs) : fetchHere.run r = .op (.isBreakpoint r.PC) r fun b : Bool =>
    if b = true then .done (none, r)
    else .op (.disassemble r.PC) r fun _ => (some <$> instructionFetchEmu r.PC).run r := by
  refine congrArg (Tree.op _ r) (funext fun b : Bool => ?_)
  cases b <;> rfl

/-- An instruction at a breakpoint is not executed. -/
theorem exec_breakpoint {s : Emu H} {r : Regs} (hh : (hardwareEntry.run e.regs).run (handle hc) e = .ok ((), r) s)
    (hb : s.bps.contains r.PC = true) : ∃ e', e.exec hc = .ok () e' ∧ e'.Halted r s.bus := by
  have hask : ((s.asked hc r).bps.contains r.PC) = true := by
    rw [asked, arrive_bps]
    exact hb
  have hbus : ∀ s : Emu H, (s.asked hc r).bus = s.bus := fun s => by
    rw [asked, arrive_eq, foldl_bus]
  refine ⟨{ (s.asked hc r).asked hc r with state := .stopped, stopreason := .breakpoint, regs := r }, ?_,
    rfl, .inl rfl, rfl, (hbus _).trans (hbus s)⟩
  have hf : e.fetchRun hc = .ok (none, r) (s.asked hc r) := by
    rw [fetchRun, execFetch, StateT.run_bind, Tree.run_bind, hh]
    change (fetchHere.run r).run (handle hc) s = _
    rw [fetchHere_run, Tree.run_op]
    change Tree.run _ (if (s.asked hc r).bps.contains r.PC = true then _ else _) _ = _
    rw [if_pos hask]
    rfl
  change putRegs (e.execRun hc) = _
  rw [execRun_eq, hf]
  rfl

end Emu

namespace Run

variable {c : Run H}

theorem step_interp (hc : HostCode H) (hs : c.Sound) (h : c.Interp) : (c.step hc).Interp := by
  have hns := (step_sound hc hs).ne_stuck
  have hnd : c.phase ≠ .dispatch := by
    rcases h with h | h <;> rw [h] <;> exact Phase.noConfusion
  have hnb : ∀ {b k i}, ¬c.Enters b k i := fun he => by
    rcases h with h | h <;> cases h.symm.trans he.1
  have ho := c.step_outcome hc
  generalize c.step hc = c' at ho hns ⊢
  cases ho with
  | finished | waits => exact h
  | stopped | polled | debugs | interpretsLast | compileStops => exact .inr rfl
  | handsOver => exact .inl rfl
  | interprets hi => exact absurd hi.phase hnd
  | round hp =>
    unfold afterPoll
    split
    · exact .inl hp
    · dsimp only
      split
      · exact .inl hp
      · exact .inr rfl
  | enters hb | entersTagged hb | drops hb => exact absurd hb.phase hnd
  | goesOn he | returns he | exits he => exact absurd he hnb
  | roundFails | execFails | compileFails | nativeFails | offBlock => exact absurd rfl hns

theorem steps_interp (hc : HostCode H) (hs : c.Sound) (h : c.Interp) (m : Nat) :
    (c.steps hc m).Sound ∧ (c.steps hc m).Interp :=
  steps_keeps (P := fun c => c.Sound ∧ c.Interp) (Q := fun _ => True)
    (fun _ h _ => ⟨step_sound hc h.1, step_interp hc h.1 h.2⟩) ⟨hs, h⟩ m fun _ _ => trivial

/-- Two runs of the interpreter that differ in the request for the JIT go side by side. -/
theorem Alike.steps {c' : Run H} (hs : c.Sound) (hi : c.Interp) (h : c.Alike c') (m : Nat) :
    (c.steps hc m).Alike (c'.steps hc m) := by
  induction m with
  | zero => exact h
  | succ m ih =>
    rw [steps_succ, steps_succ]
    exact ih.step (steps_interp hc hs hi m).2

/-- Returned stopped, unless a request arrived at the very last point and woke the machine up. -/
theorem step_stops (hquiet : ∀ h cb q, .assertIrq ∉ (hc.onStop h cb q).2) (hp : c.phase = .interp)
    (h : c.emu.Sober) :
    (c.step hc).Ends Emu.Sober fun f => f.LeftAsleep hc → f.state = .stopped := by
  have hS := Emu.steady_sober hc
  refine ends_step (fun _ => hS.poll) (fun _ => hS.idle) hS.engine hS.mmu (fun e he hl hlast => ?_)
    (fun e b e' hi _ _ => absurd hi.phase (by rw [hp]; exact Phase.noConfusion))
    (by rw [hp]; exact Phase.noConfusion) h
    (fun e e' _ hi hr => (Emu.Closed.putRegs (fun _ _ h => h) hi.execRun).ok hr)
    fun b k i he => nomatch hp.symm.trans he.1
  have hs : e.state = .stopped := by
    rcases hl with hl | ⟨hd, -⟩
    · exact he.resolve_left hl
    · cases hp.symm.trans hd
  exact Emu.finish_stopped hquiet hs hlast

/-- The interpreter's loop at the same point of a `rk65c02_start` that did not request the JIT. -/
def unrequested (c : Run H) : Run H := ⟨c.emu.unrequested, .interp, false⟩

/-- The interpreter's loop returns stopped. -/
theorem steps_stopped (hquiet : ∀ h cb q, .assertIrq ∉ (hc.onStop h cb q).2) (hs : c.Sound) (h : c.emu.Sober)
    (hp : c.phase = .interp) (m : Nat) : (c.steps hc m).Ends Emu.Sober fun f => f.LeftAsleep hc →
    f.state = .stopped := by
  suffices hx : (c.steps hc m).Sound ∧ (c.steps hc m).Interp ∧
      (c.steps hc m).Ends Emu.Sober fun f => f.LeftAsleep hc → f.state = .stopped from hx.2.2
  refine steps_keeps
    (P := fun c => c.Sound ∧ c.Interp ∧ c.Ends Emu.Sober fun f => f.LeftAsleep hc → f.state = .stopped)
    (Q := fun _ => True) (fun c hc' _ => ?_)
    ⟨hs, .inl hp, ends_of_ne (by rw [hp]; exact Phase.noConfusion) h⟩ m fun _ _ => trivial
  obtain ⟨hs, hi, he⟩ := hc'
  refine ⟨step_sound hc hs, step_interp hc hs hi, ?_⟩
  rcases hi with hi | hi
  · exact step_stops hquiet hi ((if_neg (by rw [hi]; exact Phase.noConfusion)).mp he)
  · unfold step
    rw [hi]
    exact he

end Run

end Rk65c02
