import Rk65c02.Mmu

/-! Library calls: what each leaves alone, and what some of them together do to the line and
to the state. -/

namespace Rk65c02

variable {H : Type}

/-- The library call behind an asynchronous one. -/
def AsyncCall.call : AsyncCall → HostCall
  | .assertIrq => .assertIrq
  | .deassertIrq => .deassertIrq
  | .requestStop => .requestStop

theorem Emu.asyncCall_eq (e : Emu H) (c : AsyncCall) : e.asyncCall c = e.hostCall c.call := by
  cases c <;> rfl

theorem Emu.arrive_eq (hc : HostCode H) (e : Emu H) :
    e.arrive hc = ((hc.async e.clock).map AsyncCall.call).foldl hostCall { e with clock := e.clock + 1 } := by
  rw [List.foldl_map, arrive, funext fun e => funext fun c => asyncCall_eq e c]

namespace Emu

theorem jitInvalidate_frame (e : Emu H) (f : Jit → Jit) :
    ∃ j u, e.jitInvalidate f = { e with jit := j, useJit := u } := by
  unfold jitInvalidate
  split
  · exact ⟨e.jit, e.useJit, rfl⟩
  · unfold jitInvalidateDeferred
    split
    · exact ⟨_, _, rfl⟩
    · exact ⟨_, e.useJit, rfl⟩

theorem jitApplyChanged_frame (e : Emu H) : ∃ j u, e.jitApplyChanged = { e with jit := j, useJit := u } := by
  unfold jitApplyChanged
  split
  · exact jitInvalidate_frame _ _
  · refine List.foldlRecOn (motive := fun e' : Emu H => ∃ j u, e' = { e with jit := j, useJit := u }) _ _
      ⟨e.jit, e.useJit, rfl⟩ ?_
    rintro _ ⟨j, u, rfl⟩ p -
    exact jitInvalidate_frame _ _

/-- What a library call leaves alone, and what it does to the line. -/
structure CallFrame (e : Emu H) (c : HostCall) : Prop where
  host : (e.hostCall c).host = e.host
  clock : (e.hostCall c).clock = e.clock
  regs : (e.hostCall c).regs = e.regs
  onStop : (e.hostCall c).onStop = e.onStop
  idleWait : (e.hostCall c).idleWait = e.idleWait
  bus : (e.hostCall c).bus = e.bus
  inJitRun : (e.hostCall c).inJitRun = e.inJitRun
  jitLoopBudget : (e.hostCall c).jitLoopBudget = e.jitLoopBudget
  stopreason : (e.hostCall c).stopreason = e.stopreason
  irq : (e.hostCall c).irq = if c = .assertIrq then true else if c = .deassertIrq then false else e.irq
  state : (e.hostCall c).state =
    if c = .assertIrq ∧ e.state = .stopped ∧ e.stopreason = .wai then .running else e.state
  stopRequested : (e.hostCall c).stopRequested = if c = .requestStop then true else e.stopRequested

/-- The calls that are about neither the line nor a stop change the configuration only. -/
theorem hostCall_config (e : Emu H) {c : HostCall} (ha : c ≠ .assertIrq) (hd : c ≠ .deassertIrq)
    (hs : c ≠ .requestStop) : ∃ j u q m b t d, e.hostCall c =
      { e with
        jit := j, useJit := u, jitRequested := q, mmu := m, bps := b, trace := t, runtimeDisassembly := d } := by
  cases c with
  | assertIrq => exact absurd rfl ha
  | deassertIrq => exact absurd rfl hd
  | requestStop => exact absurd rfl hs
  | mmuSet tr f en id =>
    change ∃ j u q m b t d, e.mmuSet tr f en id = _
    unfold mmuSet
    split
    · exact ⟨e.jit, e.useJit, e.jitRequested, e.mmu, e.bps, e.trace, e.runtimeDisassembly, rfl⟩
    · obtain ⟨j, u, h⟩ := jitInvalidate_frame ({ e with mmu := _ } : Emu H) jitBackendFlush
      exact ⟨j, u, e.jitRequested, _, e.bps, e.trace, e.runtimeDisassembly, h⟩
  | mmuEndUpdate =>
    change ∃ j u q m b t d, e.mmuEndUpdate = _
    unfold mmuEndUpdate
    split
    · exact ⟨e.jit, e.useJit, e.jitRequested, e.mmu, e.bps, e.trace, e.runtimeDisassembly, rfl⟩
    · obtain ⟨j, u, h⟩ := jitApplyChanged_frame e
      rw [h]
      exact ⟨j, u, e.jitRequested, _, e.bps, e.trace, e.runtimeDisassembly, rfl⟩
  | jitEnable en =>
    cases en with
    | true => exact ⟨_, true, true, e.mmu, e.bps, e.trace, e.runtimeDisassembly, rfl⟩
    | false => exact ⟨e.jit, false, false, e.mmu, e.bps, e.trace, e.runtimeDisassembly, rfl⟩
  | jitFlush =>
    obtain ⟨j, u, h⟩ := jitInvalidate_frame e jitBackendFlush
    exact ⟨j, u, e.jitRequested, e.mmu, e.bps, e.trace, e.runtimeDisassembly, h⟩
  | _ => exact ⟨e.jit, e.useJit, e.jitRequested, _, _, _, _, rfl⟩

theorem hostCall_frame (e : Emu H) (c : HostCall) : CallFrame e c := by
  by_cases ha : c = .assertIrq
  · subst ha
    by_cases hw : e.state = .stopped ∧ e.stopreason = .wai
    · have h : e.hostCall .assertIrq = { e with irq := true, state := .running } := if_pos hw
      constructor <;> simp [h, hw]
    · have h : e.hostCall .assertIrq = { e with irq := true } := if_neg hw
      constructor <;> simp [h, hw]
  by_cases hd : c = .deassertIrq
  · subst hd
    constructor <;> simp [hostCall, deassertIrq]
  by_cases hs : c = .requestStop
  · subst hs
    constructor <;> simp [hostCall, requestStop]
  obtain ⟨j, u, q, m, b, t, d, h⟩ := e.hostCall_config ha hd hs
  constructor <;> simp [h, ha, hd, hs]

/-- Calls that arrive touch the line, the request to stop and, for a waiting machine, its state. -/
theorem arrive_frame (hc : HostCode H) (e : Emu H) : ∃ i s q,
    e.arrive hc = { e with irq := i, state := s, stopRequested := q, clock := e.clock + 1 } := by
  unfold arrive
  refine List.foldlRecOn (motive := fun e' : Emu H => ∃ i s q,
    e' = { e with irq := i, state := s, stopRequested := q, clock := e.clock + 1 }) _ _ ⟨_, _, _, rfl⟩ ?_
  rintro e' ⟨i, s, q, rfl⟩ c -
  cases c with
  | assertIrq =>
    change ∃ i s q, assertIrq _ = _
    unfold assertIrq
    dsimp only
    split <;> exact ⟨_, _, _, rfl⟩
  | deassertIrq => exact ⟨_, _, _, rfl⟩
  | requestStop => exact ⟨_, _, _, rfl⟩

/-- What a library call leaves alone, some of them do. -/
theorem foldl_kept {α : Type} {f : Emu H → α} (hf : ∀ e c, f (e.hostCall c) = f e) (e : Emu H)
    (cs : List HostCall) :
    f (cs.foldl hostCall e) = f e :=
  List.foldlRecOn (motive := fun e' => f e' = f e) cs _ rfl fun e' h c _ => (hf e' c).trans h

theorem foldl_host (e : Emu H) (cs : List HostCall) : (cs.foldl hostCall e).host = e.host :=
  foldl_kept (f := Emu.host) (fun e c => (hostCall_frame e c).host) e cs

theorem foldl_clock (e : Emu H) (cs : List HostCall) : (cs.foldl hostCall e).clock = e.clock :=
  foldl_kept (f := Emu.clock) (fun e c => (hostCall_frame e c).clock) e cs

theorem foldl_regs (e : Emu H) (cs : List HostCall) : (cs.foldl hostCall e).regs = e.regs :=
  foldl_kept (f := Emu.regs) (fun e c => (hostCall_frame e c).regs) e cs

theorem foldl_onStop (e : Emu H) (cs : List HostCall) : (cs.foldl hostCall e).onStop = e.onStop :=
  foldl_kept (f := Emu.onStop) (fun e c => (hostCall_frame e c).onStop) e cs

theorem foldl_stopreason (e : Emu H) (cs : List HostCall) : (cs.foldl hostCall e).stopreason = e.stopreason :=
  foldl_kept (f := Emu.stopreason) (fun e c => (hostCall_frame e c).stopreason) e cs

theorem foldl_idleWait (e : Emu H) (cs : List HostCall) : (cs.foldl hostCall e).idleWait = e.idleWait :=
  foldl_kept (f := Emu.idleWait) (fun e c => (hostCall_frame e c).idleWait) e cs

theorem foldl_bus (e : Emu H) (cs : List HostCall) : (cs.foldl hostCall e).bus = e.bus :=
  foldl_kept (f := Emu.bus) (fun e c => (hostCall_frame e c).bus) e cs

theorem foldl_inJitRun (e : Emu H) (cs : List HostCall) : (cs.foldl hostCall e).inJitRun = e.inJitRun :=
  foldl_kept (f := Emu.inJitRun) (fun e c => (hostCall_frame e c).inJitRun) e cs

theorem foldl_stopRequested (e : Emu H) {cs : List HostCall} (hs : .requestStop ∉ cs) :
    (cs.foldl hostCall e).stopRequested = e.stopRequested := by
  refine List.foldlRecOn (motive := fun e' : Emu H => e'.stopRequested = e.stopRequested) cs _ rfl
    fun e' h c hm => ?_
  have hne : c ≠ .requestStop := fun hh => hs (hh ▸ hm)
  rw [(hostCall_frame e' c).stopRequested, if_neg hne, h]

/-- Calls leave the state alone, or wake the machine up from `WAI`. -/
theorem foldl_state (e : Emu H) (cs : List HostCall) : (cs.foldl hostCall e).state = e.state ∨
    (cs.foldl hostCall e).state = .running ∧ e.state = .stopped ∧ e.stopreason = .wai ∧ .assertIrq ∈ cs := by
  induction cs generalizing e with
  | nil => exact .inl rfl
  | cons c cs ih =>
    have hf := hostCall_frame e c
    have hr := hf.stopreason
    rw [List.foldl_cons]
    by_cases hw : c = .assertIrq ∧ e.state = .stopped ∧ e.stopreason = .wai
    · have hs := hf.state
      rw [if_pos hw] at hs
      refine .inr ⟨?_, hw.2.1, hw.2.2, hw.1 ▸ List.mem_cons_self⟩
      rcases ih (e.hostCall c) with h | h
      · exact h.trans hs
      · exact h.1
    · have hs := hf.state
      rw [if_neg hw] at hs
      rcases ih (e.hostCall c) with h | ⟨h, hst, hre, hm⟩
      · exact .inl (h.trans hs)
      · exact .inr ⟨h, hs.symm.trans hst, hr.symm.trans hre, List.mem_cons_of_mem _ hm⟩

theorem foldl_running {e : Emu H} (h : e.state = .running) (cs : List HostCall) :
    (cs.foldl hostCall e).state = .running := by
  rcases foldl_state e cs with hs | hs
  · exact hs.trans h
  · exact hs.1

/-- Executing instructions. -/
def Active (e : Emu H) : Prop := e.state = .running ∨ e.state = .stepping

instance (e : Emu H) : Decidable e.Active := inferInstanceAs (Decidable (_ ∨ _))

theorem Active.foldl {e : Emu H} (h : e.Active) (cs : List HostCall) : (cs.foldl hostCall e).Active := by
  rcases foldl_state e cs with hs | hs
  · rwa [Active, hs]
  · exact .inl hs.1

theorem Active.hostReturns {e : Emu H} (h : e.Active) (r : H × List HostCall) : (e.hostReturns r).Active :=
  Active.foldl (e := { e with host := r.1 }) h r.2

/-- The line after some calls: a request among them stays unless it is taken back. -/
theorem foldl_irq (e : Emu H) (cs : List HostCall) (h : e.irq = true ∨ .assertIrq ∈ cs) :
    (cs.foldl hostCall e).irq = true ∨ .deassertIrq ∈ cs := by
  induction cs generalizing e with
  | nil => exact h.elim .inl fun h => absurd h List.not_mem_nil
  | cons c cs ih =>
    have hf := (hostCall_frame e c).irq
    by_cases hd : c = .deassertIrq
    · exact .inr (hd ▸ List.mem_cons_self)
    · have hh : (e.hostCall c).irq = true ∨ .assertIrq ∈ cs := by
        rw [hf, if_neg hd]
        rcases h with h | h
        · by_cases ha : c = .assertIrq
          · exact .inl (if_pos ha)
          · exact .inl ((if_neg ha).trans h)
        · rcases List.mem_cons.1 h with rfl | h
          · exact .inl (if_pos rfl)
          · exact .inr h
      exact (ih _ hh).imp id (List.mem_cons_of_mem _)

/-- Without a request the line stays low. -/
theorem foldl_irq_low (e : Emu H) (cs : List HostCall) (h : e.irq = false) (ha : .assertIrq ∉ cs) :
    (cs.foldl hostCall e).irq = false := by
  refine List.foldlRecOn (motive := fun e' : Emu H => e'.irq = false) cs _ h fun e' he c hc => ?_
  have hne : c ≠ .assertIrq := fun hh => ha (hh ▸ hc)
  rw [(hostCall_frame e' c).irq, if_neg hne, he, ite_self]

end Emu

end Rk65c02
