import Rk65c02.Progress
import Rk65c02.Tlb
import Mathlib.Algebra.BigOperators.Group.List.Basic
import Mathlib.Algebra.Order.Ring.Nat

/-! Stepping and running: the part of an emulator that the guest does not see, and that all
the rest goes the same way whatever that part holds. -/

namespace Rk65c02

open Resumption

variable {H : Type}

/-- No callback makes a library call, and none arrives. -/
structure HostCode.Silent (hc : HostCode H) : Prop where
  calls : ∀ h c, (hc.invoke h c).2 = []
  async : ∀ n, hc.async n = []

/-- What a guest does not see of the emulator that executes it. -/
structure Hidden where
  state : EmuState
  stopreason : StopReason
  useJit : Bool
  clock : Nat

namespace Hidden

/-- Two hidden parts in step: in the states `x` and `y`, or stopped for the same reason. If the
states are the same, the parts differ in the clock only and in the reason of a stop that is over. -/
structure Alike (x y : EmuState) (j k : Hidden) : Prop where
  active : x ≠ .stopped ∧ y ≠ .stopped
  state : j.state = x ∧ k.state = y ∨ j.state = .stopped ∧ k.state = .stopped ∧ j.stopreason = k.stopreason
  same : x = y → j.useJit = k.useJit

variable {x y : EmuState} {j k : Hidden}

def fail (k : Hidden) : Hidden := { k with state := .stopped, stopreason := .emuerror, useJit := false }

def stop (k : Hidden) (q : StopReason) : Hidden := { k with state := .stopped, stopreason := q }

def later (k : Hidden) : Hidden := { k with clock := k.clock + 1 }

theorem Alike.stopped (h : Alike x y j k) : j.state = .stopped ↔ k.state = .stopped := by
  rcases h.state with ⟨hj, hk⟩ | ⟨hj, hk, -⟩
  · rw [hj, hk]
    exact ⟨fun hh => absurd hh h.active.1, fun hh => absurd hh h.active.2⟩
  · exact ⟨fun _ => hk, fun _ => hj⟩

theorem Alike.fail (h : Alike x y j k) : Alike x y j.fail k.fail :=
  ⟨h.active, .inr ⟨rfl, rfl, rfl⟩, fun _ => rfl⟩

theorem Alike.stop (h : Alike x y j k) (q : StopReason) : Alike x y (j.stop q) (k.stop q) :=
  ⟨h.active, .inr ⟨rfl, rfl, rfl⟩, h.same⟩

theorem Alike.later (h : Alike x y j k) : Alike x y j.later k.later := ⟨h.active, h.state, h.same⟩

end Hidden

namespace Emu

/-- The emulator with another hidden part. -/
def hide (e : Emu H) (k : Hidden) : Emu H :=
  { e with
    state := k.state
    stopreason := k.stopreason
    useJit := k.useJit
    clock := k.clock }

def hidden (e : Emu H) : Hidden := ⟨e.state, e.stopreason, e.useJit, e.clock⟩

/-- Outside of compiled code, without the callbacks of a run, with the accessors that belong to
the mapping. -/
structure Settled (e : Emu H) : Prop where
  outside : e.inJitRun = false
  onStop : e.onStop = none
  tick : e.tick = none
  idleWait : e.idleWait = none
  countdown : e.tickCountdown = e.tickInterval
  unasked : e.stopRequested = false
  accessors : e.mmu.refreshAccessors = e.mmu

variable {hc : HostCode H} {e : Emu H}

theorem callOnStop_none (h : e.onStop = none) : e.maybeCallOnStop hc = e := by
  unfold maybeCallOnStop
  rw [h]

section Silent

variable (hs : hc.Silent)

include hs

theorem hostReturns_silent (e : Emu H) (c : Callback) :
    e.hostReturns (hc.invoke e.host c) = { e with host := (hc.invoke e.host c).1 } := by
  unfold hostReturns
  rw [hs.calls]
  rfl

theorem deviceRead1_hide (he : e.Settled) (d : Option (DevId × Addr)) :
    ∃ (v : Byte) (e' : Emu H), e'.Settled ∧ ∀ k, (e.hide k).deviceRead1 hc d = (v, e'.hide k) := by
  match d with
  | none => exact ⟨0xFF, e, he, fun _ => rfl⟩
  | some (d, off) =>
    by_cases hr : (e.bus.dev d).ram = true
    · exact ⟨e.bus.ram d off, e, he, fun k => if_pos hr⟩
    · refine ⟨(hc.devRead e.host d off).1, { e with host := (hc.devRead e.host d off).2.1 },
        { he with }, fun k => ?_⟩
      have hh := hostReturns_silent hs (e.hide k) (.devRead d off)
      exact (if_neg hr).trans (congrArg (Prod.mk (hc.devRead e.host d off).1) hh)

theorem busRead1_hide (he : e.Settled) (a : Addr) :
    ∃ (v : Byte) (e' : Emu H), e'.Settled ∧ ∀ k, (e.hide k).busRead1 hc a = (v, e'.hide k) :=
  deviceRead1_hide hs he (e.bus.accessDevice a)

theorem disassembled_hide (he : e.Settled) (pc : Addr) :
    ∃ e' : Emu H, e'.Settled ∧ ∀ k, (e.hide k).disassembled hc pc = e'.hide k := by
  by_cases hd : e.runtimeDisassembly = true
  · suffices hx : ∃ e' : Emu H, e'.Settled ∧ ∀ k, (e.hide k).disassemble hc pc = e'.hide k by
      obtain ⟨e', he', hx⟩ := hx
      exact ⟨e', he', fun k => (if_pos hd).trans (hx k)⟩
    unfold disassemble instructionFetch
    obtain ⟨op, e₁, he₁, h₁⟩ := busRead1_hide hs he pc
    obtain ⟨op1, e₂, he₂, h₂⟩ := busRead1_hide hs he₁ (pc + 1)
    obtain ⟨op2, e₃, he₃, h₃⟩ := busRead1_hide hs he₂ (pc + 2)
    simp only [h₁]
    split
    · exact ⟨e₁, he₁, fun _ => rfl⟩
    · exact ⟨e₂, he₂, fun k => by rw [h₂]⟩
    · exact ⟨e₃, he₃, fun k => by simp only [h₂, h₃]⟩
  · exact ⟨e, he, fun k => if_neg hd⟩

theorem deviceWrite1_hide (he : e.Settled) (v : Byte) (d : Option (DevId × Addr)) :
    ∃ e' : Emu H, e'.Settled ∧ ∀ k, (e.hide k).deviceWrite1 hc v d = e'.hide k := by
  match d with
  | none => exact ⟨e, he, fun _ => rfl⟩
  | some (d, off) =>
    by_cases hr : (e.bus.dev d).ram = true
    · exact ⟨{ e with bus := e.bus.ramWrite1 d off v }, { he with }, fun k => if_pos hr⟩
    · refine ⟨{ e with host := (hc.devWrite e.host d off v).1 }, { he with }, fun k => ?_⟩
      have hh := hostReturns_silent hs (e.hide k) (.devWrite d off v)
      exact (if_neg hr).trans hh

theorem physRead1_hide (he : e.Settled) (p : PAddr) :
    ∃ (v : Byte) (e' : Emu H), e'.Settled ∧ ∀ k, (e.hide k).physRead1 hc p = (v, e'.hide k) := by
  by_cases hp : p.toNat < busSize
  · obtain ⟨v, e', he', hd⟩ := deviceRead1_hide hs he (e.bus.accessDevice (p.setWidth 16))
    exact ⟨v, e', he', fun k => (if_pos hp).trans (hd k)⟩
  · obtain ⟨v, e', he', hd⟩ := deviceRead1_hide hs he (e.bus.accessDevicePhys p)
    exact ⟨v, e', he', fun k => (if_neg hp).trans ((if_neg hp).trans (hd k))⟩

theorem physWrite1_hide (he : e.Settled) (p : PAddr) (v : Byte) :
    ∃ e' : Emu H, e'.Settled ∧ ∀ k, (e.hide k).physWrite1 hc p v = e'.hide k := by
  by_cases hp : p.toNat < busSize
  · obtain ⟨e', he', hd⟩ := deviceWrite1_hide hs he v (e.bus.accessDevice (p.setWidth 16))
    exact ⟨e', he', fun k => (if_pos hp).trans (hd k)⟩
  · obtain ⟨e', he', hd⟩ := deviceWrite1_hide hs he v (e.bus.accessDevicePhys p)
    exact ⟨e', he', fun k => (if_neg hp).trans ((if_neg hp).trans (hd k))⟩

omit hs in
theorem translate_hide (hc : HostCode H) (he : e.Settled) (a : Addr) (x : Access) :
    ∃ (r : Except (BitVec 16) PAddr) (e' : Emu H), e'.Settled ∧
    ∀ k, (e.hide k).mmuTranslateAddr hc a x = (r, e'.hide k) := by
  refine ⟨(e.mmuTranslateAddr hc a x).1, (e.mmuTranslateAddr hc a x).2, { he with accessors := ?_ }, fun k => rfl⟩
  obtain ⟨t, ht⟩ := e.mmu.translateAddr_tlb (hc.callback e.mmu e.host) a x x.reqPerm
  change (e.mmu.translateAddr (hc.callback e.mmu e.host) a x x.reqPerm).2.refreshAccessors =
    (e.mmu.translateAddr _ a x _).2
  rw [ht]
  exact congrArg (fun m => { m with tlb := t }) he.accessors

omit hs in
theorem physHit_hide (hc : HostCode H) (he : e.Settled) (j : Jit) (a : Addr) :
    ∃ (p : Option Addr) (e' : Emu H), e'.Settled ∧ ∀ k, (e.hide k).jitPhysHit hc j a = (p, e'.hide k) := by
  by_cases hz : j.compiledPhysRefsTotal = 0
  · exact ⟨none, e, he, fun k => if_pos hz⟩
  · have hp : ∃ (p : Option PAddr) (e' : Emu H), e'.Settled ∧
        ∀ k, (e.hide k).mmuTranslateCached hc a .write = (p, e'.hide k) := by
      by_cases hm : (!e.mmu.enabled || e.mmu.identityActive) = true
      · exact ⟨some (a.setWidth 32), e, he, fun k => if_pos hm⟩
      · obtain ⟨r, e', he', hr⟩ := translate_hide hc he a .write
        refine ⟨r.toOption, e', he', fun k => (if_neg hm).trans ?_⟩
        rw [hr k]
    obtain ⟨p, e', he', hp⟩ := hp
    refine ⟨(p.bind fun p => if busSize ≤ p.toNat then none else some (p.setWidth 16)).filter fun p =>
      j.coveredPhysAddrRefcnt p != 0 || j.compiledPhysPageRefcnt (page p) != 0, e', he', fun k =>
        (if_neg hz).trans ?_⟩
    unfold jitTranslatePaddr
    rw [hp k]

omit hs in
theorem note_hide (hc : HostCode H) (he : e.Settled) (a : Addr) :
    ∃ e' : Emu H, e'.Settled ∧ ∀ k, (e.hide k).jitNoteGuestWrite hc a = e'.hide k := by
  cases hj : e.jit with
  | none =>
    refine ⟨e, he, fun k => ?_⟩
    have hj' : (e.hide k).jit = none := hj
    unfold jitNoteGuestWrite
    rw [hj']
  | some j =>
    have hj' : ∀ k, (e.hide k).jit = some j := fun _ => hj
    by_cases hz : j.activeBlocks = 0
    · refine ⟨e, he, fun k => ?_⟩
      unfold jitNoteGuestWrite
      rw [hj' k]
      exact if_pos hz
    · obtain ⟨p, e', he', hp⟩ := physHit_hide hc he j a
      by_cases hv : (!(j.compiledPageRefcnt (page a) != 0 && j.coveredAddrRefcnt a != 0) && p.isNone) = true
      · refine ⟨e', he', fun k => ?_⟩
        unfold jitNoteGuestWrite
        rw [hj' k]
        dsimp only
        rw [if_neg hz, hp k]
        exact if_pos hv
      · refine ⟨{ e' with jit := some (jitWriteEvent
          { j with stats := { j.stats with writeEvents := j.stats.writeEvents + 1 } }
          { addr := a, phys := p }) }, { he' with }, fun k => ?_⟩
        unfold jitNoteGuestWrite
        rw [hj' k]
        dsimp only
        rw [if_neg hz, hp k]
        exact (if_neg hv).trans (if_neg (Bool.eq_false_iff.mp he'.outside))

omit hs in
theorem stopError_hide (hc : HostCode H) (he : e.Settled) (k : Hidden) :
    (e.hide k).emuStopError hc = .ok ()
      (({ e with stopRequested := false } : Emu H).hide (k.stop .emuerror)) := by
  have hon : Emu.onStop
      { e.hide k with state := .stopped, stopreason := .emuerror, stopRequested := false } = none :=
    he.onStop
  refine (if_neg (Bool.eq_false_iff.mp he.outside)).trans ?_
  split
  · exact congrArg (Out.ok ()) (callOnStop_none hon)
  · rfl

theorem mmuFault_hide (he : e.Settled) (a : Addr) (x : Access) (code : BitVec 16) :
    ∃ e' : Emu H, e'.Settled ∧ ∀ k, (e.hide k).mmuFault hc a x code = .ok () (e'.hide k.fail) := by
  let s : Emu H := { e with
    mmuLastFaultAddr := a
    mmuLastFaultAccess := x
    mmuLastFaultCode := code
    mmu := { e.mmu with faultReexec := true } }
  have hm : s.mmu.refreshAccessors = s.mmu := congrArg (fun m => { m with faultReexec := true }) he.accessors
  have hf : ∀ k, (e.hide k).mmuFault hc a x code = Emu.emuStopError hc
    (s.mmu.fault.elim (s.hide { k with useJit := false })
      fun cb => (s.hide { k with useJit := false }).hostReturns (hc.mmuFault s.host cb a x code)) :=
    fun k => mmuFault_eq hc (e.hide k) a x code
  cases hfault : s.mmu.fault with
  | none =>
    have hs' : s.Settled := { he with accessors := hm }
    refine ⟨{ s with stopRequested := false }, { hs' with unasked := rfl }, fun k => ?_⟩
    rw [hf k, hfault]
    exact stopError_hide hc hs' _
  | some cb =>
    let s' : Emu H := { s with host := (hc.mmuFault s.host cb a x code).1 }
    have hs' : s'.Settled := { he with accessors := hm }
    refine ⟨{ s' with stopRequested := false }, { hs' with unasked := rfl }, fun k => ?_⟩
    rw [hf k, hfault]
    have hh := hostReturns_silent hs (s.hide { k with useJit := false }) (.mmuFault cb a x code)
    exact (congrArg (Emu.emuStopError hc) hh).trans (stopError_hide hc hs' { k with useJit := false })

theorem memRead1_hide (he : e.Settled) (a : Addr) (x : Access) : ∃ (v : Byte) (e' : Emu H), e'.Settled ∧
    ((∀ k, (e.hide k).memRead1 hc a x = .ok v (e'.hide k)) ∨ ∀ k, (e.hide k).memRead1 hc a x = .ok v
      (e'.hide k.fail)) := by
  by_cases hm : e.mmu.accessors = true
  · obtain ⟨r, e₁, he₁, ht⟩ := translate_hide hc he a x
    cases r with
    | error code =>
      obtain ⟨e', he', hf⟩ := mmuFault_hide hs he₁ a x code
      refine ⟨0xFF, e', he', .inr fun k => (if_pos hm).trans ?_⟩
      unfold memReadMmu
      rw [ht k]
      exact congrArg (fun o : Out (Emu H) Unit => o.bind fun _ e => .ok 0xFF e) (hf k)
    | ok p =>
      obtain ⟨v, e', he', hp⟩ := physRead1_hide hs he₁ p
      refine ⟨v, e', he', .inl fun k => (if_pos hm).trans ?_⟩
      unfold memReadMmu
      rw [ht k]
      exact congrArg (fun x : Byte × Emu H => Out.ok x.1 x.2) (hp k)
  · obtain ⟨v, e', he', hp⟩ := deviceRead1_hide hs he (e.bus.accessDevice a)
    exact ⟨v, e', he', .inl fun k => (if_neg hm).trans (congrArg (fun x : Byte × Emu H => Out.ok x.1 x.2) (hp k))⟩

theorem memWrite1_hide (he : e.Settled) (a : Addr) (v : Byte) : ∃ e' : Emu H, e'.Settled ∧
    ((∀ k, (e.hide k).memWrite1 hc a v = .ok () (e'.hide k)) ∨ ∀ k, (e.hide k).memWrite1 hc a v = .ok
      () (e'.hide k.fail)) := by
  have hw : ∃ e' : Emu H, e'.Settled ∧
      ((∀ k, (if (e.hide k).mmu.accessors then (e.hide k).memWriteMmu hc a v
        else (e.hide k).memWriteDirect hc a v) =
        .ok () (e'.hide k)) ∨
      ∀ k, (if (e.hide k).mmu.accessors then (e.hide k).memWriteMmu hc a v
        else (e.hide k).memWriteDirect hc a v) =
        .ok () (e'.hide k.fail)) := by
    by_cases hm : e.mmu.accessors = true
    · obtain ⟨r, e₁, he₁, ht⟩ := translate_hide hc he a .write
      cases r with
      | error code =>
        obtain ⟨e', he', hf⟩ := mmuFault_hide hs he₁ a .write code
        refine ⟨e', he', .inr fun k => (if_pos hm).trans ?_⟩
        unfold memWriteMmu
        rw [ht k]
        exact hf k
      | ok p =>
        obtain ⟨e', he', hp⟩ := physWrite1_hide hs he₁ p v
        refine ⟨e', he', .inl fun k => (if_pos hm).trans ?_⟩
        unfold memWriteMmu
        rw [ht k]
        exact congrArg (Out.ok ()) (hp k)
    · obtain ⟨e', he', hp⟩ := deviceWrite1_hide hs he v (e.bus.accessDevice a)
      exact ⟨e', he', .inl fun k => (if_neg hm).trans (congrArg (Out.ok ()) (hp k))⟩
  obtain ⟨e₁, he₁, hw⟩ := hw
  obtain ⟨e', he', hn⟩ := note_hide hc he₁ a
  refine ⟨e', he', hw.imp (fun hw k => ?_) fun hw k => ?_⟩
  · unfold memWrite1
    rw [hw k, Out.ok_bind, hn k]
  · unfold memWrite1
    rw [hw k, Out.ok_bind, hn k.fail]

end Silent

/-- The same emulator but for hidden parts that are alike. -/
def Twin (x y : EmuState) (e s : Emu H) : Prop :=
  ∃ (t : Emu H) (j k : Hidden), t.Settled ∧ Hidden.Alike x y j k ∧ e = t.hide j ∧ s = t.hide k

section Twin

variable {x y : EmuState} {s : Emu H} (hs : hc.Silent)

include hs

omit hs in
theorem Settled.arrive_hide (hs : hc.Silent) (t : Emu H) (r : Regs) (k : Hidden) :
    (t.hide k).asked hc r = ({ t with regs := r } : Emu H).hide k.later := by
  unfold asked arrive
  rw [hs.async]
  rfl

theorem Twin.handle (h : e.Twin x y s) (o : Op) (r : Regs) {v : o.Ret} {s' : Emu H}
    (ha : Emu.handle hc o r s = .ok v s') :
    ∃ e', Emu.handle hc o r e = .ok v e' ∧ e'.Twin x y s' := by
  obtain ⟨t, j, k, ht, hjk, rfl, rfl⟩ := h
  replace ht : ({ t with regs := r } : Emu H).Settled := { ht with }
  replace hjk := hjk.later
  change ((t.hide k).asked hc r).answer hc o = _ at ha
  change ∃ e', ((t.hide j).asked hc r).answer hc o = _ ∧ _
  rw [Settled.arrive_hide hs] at ha ⊢
  generalize ({ t with regs := r } : Emu H) = t at ha ht ⊢
  generalize j.later = j at hjk ⊢
  generalize k.later = k at ha hjk
  cases o with
  | fetch a | read a =>
    obtain ⟨w, t', ht', hr⟩ := memRead1_hide hs ht a _
    rcases hr with hr | hr
    · cases (hr k).symm.trans ha
      exact ⟨_, hr j, t', j, k, ht', hjk, rfl, rfl⟩
    · cases (hr k).symm.trans ha
      exact ⟨_, hr j, t', _, _, ht', hjk.fail, rfl, rfl⟩
  | write a w =>
    obtain ⟨t', ht', hr⟩ := memWrite1_hide hs ht a w
    rcases hr with hr | hr
    · cases (hr k).symm.trans ha
      exact ⟨_, hr j, t', j, k, ht', hjk, rfl, rfl⟩
    · cases (hr k).symm.trans ha
      exact ⟨_, hr j, t', _, _, ht', hjk.fail, rfl, rfl⟩
  | irq =>
    cases ha
    exact ⟨_, rfl, t, j, k, ht, hjk, rfl, rfl⟩
  | ackIrq =>
    cases ha
    exact ⟨_, rfl, { t with irq := false }, j, k, { ht with }, hjk, rfl, rfl⟩
  | stop q =>
    cases ha
    exact ⟨_, rfl, t, j.stop q, k.stop q, ht, hjk.stop q, rfl, rfl⟩
  | panic =>
    cases (stopError_hide hc ht k).symm.trans ha
    exact ⟨_, stopError_hide hc ht j, { t with stopRequested := false }, j.stop .emuerror, k.stop .emuerror,
      { ht with unasked := rfl }, hjk.stop _, rfl, rfl⟩
  | isBreakpoint pc =>
    cases ha
    exact ⟨_, rfl, t, j, k, ht, hjk, rfl, rfl⟩
  | disassemble pc =>
    obtain ⟨t', ht', hd⟩ := disassembled_hide hs ht pc
    cases (congrArg (Out.ok ()) (hd k)).symm.trans ha
    exact ⟨_, congrArg (Out.ok ()) (hd j), t', j, k, ht', hjk, rfl, rfl⟩
  | reexec =>
    by_cases hr : k.state = .stopped ∧ t.mmu.faultReexec = true
    · cases (if_pos hr).symm.trans ha
      refine ⟨_, if_pos ⟨hjk.stopped.mpr hr.1, hr.2⟩, { t with mmu := { t.mmu with faultReexec := false } }, j, k,
        { ht with accessors := ?_ }, hjk, rfl, rfl⟩
      exact congrArg (fun m => { m with faultReexec := false }) ht.accessors
    · cases (if_neg hr).symm.trans ha
      exact ⟨_, if_neg fun hh => hr ⟨hjk.stopped.mp hh.1, hh.2⟩, t, j, k, ht, hjk, rfl, rfl⟩
  | trace tpc i r =>
    cases ha
    refine ⟨_, rfl, t.tracePush ⟨tpc, i, r⟩, j, k, ?_, hjk, ?_, ?_⟩
    · unfold tracePush
      split
      · exact { ht with }
      · exact ht
    · by_cases htr : t.trace = true
      · simp [tracePush, hide, htr]
      · simp [tracePush, hide, htr]
    · by_cases htr : t.trace = true
      · simp [tracePush, hide, htr]
      · simp [tracePush, hide, htr]

theorem Twin.exec (h : e.Twin x y s) {s' : Emu H} (hx : s.exec hc = .ok () s') :
    ∃ e', e.exec hc = .ok () e' ∧ e'.Twin x y s' := by
  obtain ⟨⟨⟨⟩, r⟩, s₁, hr, hs₁⟩ := Out.of_bind_ok hx
  cases hs₁
  have hregs : e.regs = s.regs := by
    obtain ⟨t, j, k, -, -, rfl, rfl⟩ := h
    rfl
  obtain ⟨e₁, hr₁, t, j, k, ht, hjk, rfl, rfl⟩ :=
    Tree.run_simulates (L := Twin x y) (fun o n _ _ _ _ hh ha => hh.handle hs o n ha) _ h hr
  refine ⟨({ t with regs := r } : Emu H).hide j, ?_, { t with regs := r }, j, k, { ht with }, hjk, rfl, rfl⟩
  unfold Emu.exec runCpu putRegs
  rw [hregs, hr₁]
  rfl

omit hs in
theorem poll_hide (hs : hc.Silent) {t : Emu H} (ht : t.Settled) (k : Hidden) :
    (t.hide k).pollHostControls hc = t.hide k.later := by
  have ha : (t.hide k).arrive hc = t.hide k.later := Settled.arrive_hide hs t t.regs k
  have hr : (t.hide k.later).stopRequested = false := ht.unasked
  have happly : (t.hide k.later).applyHostStopRequest = t.hide k.later := if_pos (by rw [hr]; rfl)
  have htick : (t.hide k.later).maybeTick hc = t.hide k.later := by
    have hn : (t.hide k.later).tick = none := ht.tick
    unfold maybeTick
    rw [hn]
  unfold pollHostControls
  rw [ha, happly, htick, happly]

theorem Twin.poll (h : e.Twin x y s) : (e.pollHostControls hc).Twin x y (s.pollHostControls hc) := by
  obtain ⟨t, j, k, ht, hjk, rfl, rfl⟩ := h
  exact ⟨t, j.later, k.later, ht, hjk.later, poll_hide hs ht j, poll_hide hs ht k⟩

omit hs in
theorem Twin.settled (h : e.Twin x y s) : s.Settled := by
  obtain ⟨t, j, k, ht, hjk, rfl, rfl⟩ := h
  exact { ht with }

theorem Twin.stepLoop (n : Nat) {e s : Emu H} (h : e.Twin .stepping .stepping s) {s' : Emu H}
    (hl : s.stepLoop hc n = .ok () s') : ∃ e', e.stepLoop hc n = .ok () e' ∧ e'.Twin .stepping .stepping s' := by
  induction n generalizing e s with
  | zero =>
    cases hl
    exact ⟨e, rfl, h⟩
  | succ n ih =>
    have hstate : ∀ {e s : Emu H}, e.Twin .stepping .stepping s → e.state = s.state := by
      rintro _ _ ⟨t, j, k, -, hjk, rfl, rfl⟩
      rcases hjk.state with ⟨hj, hk⟩ | ⟨hj, hk, -⟩ <;> exact hj.trans hk.symm
    unfold Emu.stepLoop at hl ⊢
    rw [hstate h]
    split at hl
    · next hst =>
      cases hl
      rw [if_pos hst]
      exact ⟨e, rfl, h⟩
    · next hst =>
      rw [if_neg hst]
      dsimp only at hl ⊢
      rw [hstate (h.poll hs)]
      split at hl
      · next hst =>
        cases hl
        rw [if_pos hst]
        exact ⟨_, rfl, h.poll hs⟩
      · next hst =>
        rw [if_neg hst]
        obtain ⟨⟨⟩, s₁, hx, hl⟩ := Out.of_bind_ok hl
        obtain ⟨e₁, hx₁, h₁⟩ := (h.poll hs).exec hs hx
        rw [hx₁]
        exact ih (h₁.poll hs) hl

end Twin

/-- Not stopped at the end of a step. -/
def Unstepped (e : Emu H) : Prop := e.state = .stopped → e.stopreason ≠ .stepped

theorem Unstepped.foldl (h : e.Unstepped) (cs : List HostCall) : (cs.foldl hostCall e).Unstepped := by
  intro hst
  rw [foldl_stopreason]
  rcases foldl_state e cs with hs | hs
  · exact h (hs.symm.trans hst)
  · exact nomatch hs.1.symm.trans hst

theorem steady_unstepped (hc : HostCode H) : Steady hc Unstepped := by
  refine steady_of_control (fun e e' hc' h => ?_) (fun e h => ?_) (fun e c h => ?_) (fun _ _ _ => nofun)
    fun _ _ _ _ => nofun
  · have hs : e'.state = e.state := congrArg Control.state hc'
    have hr : e'.stopreason = e.stopreason := congrArg Control.stopreason hc'
    rwa [Unstepped, hs, hr]
  · rw [arrive_eq]
    exact Unstepped.foldl (e := { e with clock := e.clock + 1 }) h _
  · exact Unstepped.foldl (e := { e with host := (hc.invoke e.host c).1 }) h _

theorem Unstepped.exec (h : e.Unstepped) {e' : Emu H} (hx : e.exec hc = .ok () e') : e'.Unstepped := by
  have hS := steady_unstepped hc
  have hr : (e.execRun hc).Ends Unstepped := by
    refine hS.execRun (fun _ _ h => h) (hS.arrive _ h) (fun _ _ h => h) (fun _ _ _ => nofun) fun i r s _ hs => ?_
    exact hS.execInsn (fun _ _ h => h) hs _ i r (fun _ _ h => h) (fun _ _ _ _ => nofun) fun _ _ _ _ => nofun
  exact (Closed.putRegs (fun _ _ h => h) hr).ok hx

/-- The emulator as `rk65c02_step` finds it when it begins to execute. -/
def ready (e : Emu H) : Emu H :=
  { e with
    stopRequested := false, tickCountdown := e.tickInterval, mmu := e.mmu.refreshAccessors, state := .stepping }

/-- How `rk65c02_step` returns. -/
def stepEnd (hc : HostCode H) (e : Emu H) : Emu H :=
  let e := e.pollHostControls hc
  let e := if e.state = .stepping then { e with state := .stopped, stopreason := .stepped } else e
  if e.state = .stopped then e.maybeCallOnStop hc else e

theorem step_eq (hc : HostCode H) (e : Emu H) (n : BitVec 16) :
    e.step hc n = (e.ready.stepLoop hc n.toNat).bind fun _ e => .ok () (e.stepEnd hc) := rfl

theorem Settled.poll (hs : hc.Silent) (h : e.Settled) : e.pollHostControls hc = { e with clock := e.clock + 1 } :=
  poll_hide hs h e.hidden

theorem Settled.stepEnd (hs : hc.Silent) (h : e.Settled) : e.stepEnd hc =
    if e.state = .stepping then { e with clock := e.clock + 1, state := .stopped, stopreason := .stepped }
    else { e with clock := e.clock + 1 } := by
  unfold Emu.stepEnd
  rw [h.poll hs]
  dsimp only
  by_cases hst : e.state = .stepping
  · rw [if_pos hst, if_pos rfl]
    exact callOnStop_none h.onStop
  · rw [if_neg hst]
    split
    · exact callOnStop_none h.onStop
    · rfl

theorem Settled.ready (h : e.Settled) : e.ready = { e with state := .stepping } := by
  unfold Emu.ready
  rw [h.accessors, ← h.countdown, ← h.unasked]

theorem stepLoop_stopped (hc : HostCode H) (n : Nat) (hst : e.state ≠ .stepping) :
    e.stepLoop hc n = .ok () e := by
  cases n with
  | zero => rfl
  | succ n => exact if_pos hst

theorem stepLoop_succ (hst : e.state = .stepping) (hst' : (e.pollHostControls hc).state = .stepping) (n : Nat) :
    e.stepLoop hc (n + 1) =
      ((e.pollHostControls hc).exec hc).bind fun _ e => Emu.stepLoop hc n (e.pollHostControls hc) :=
  (if_neg (not_not_intro hst)).trans (if_neg (not_not_intro hst'))

theorem stepLoop_keeps {I : Emu H → Prop} (hpoll : ∀ e, I e → I (e.pollHostControls hc))
    (hexec : ∀ e e', I e → e.state = .stepping → e.exec hc = .ok () e' → I e') (n : Nat) (h : I e) {e' : Emu H}
    (hl : e.stepLoop hc n = .ok () e') : I e' := by
  induction n generalizing e with
  | zero =>
    cases hl
    exact h
  | succ n ih =>
    by_cases hst : e.state = .stepping
    · by_cases hst' : (e.pollHostControls hc).state = .stepping
      · rw [stepLoop_succ hst hst'] at hl
        obtain ⟨⟨⟩, e₁, hx, hl⟩ := Out.of_bind_ok hl
        exact ih (hpoll _ (hexec _ _ (hpoll _ h) hst' hx)) hl
      · rw [show e.stepLoop hc (n + 1) = .ok () (e.pollHostControls hc) from
          (if_neg (not_not_intro hst)).trans (if_pos hst')] at hl
        cases hl
        exact hpoll _ h
    · rw [stepLoop_stopped hc _ hst] at hl
      cases hl
      exact h

theorem stepLoop_unstepped (n : Nat) (h : e.Unstepped) {e' : Emu H} (hl : e.stepLoop hc n = .ok () e') :
    e'.Unstepped :=
  stepLoop_keeps (I := Unstepped) (fun _ => (steady_unstepped hc).poll) (fun _ _ h _ hx => h.exec hx) n h hl

theorem Settled.twin (h : e.Settled) (hst : e.state = .stepping) : e.Twin .stepping .stepping e :=
  ⟨e, e.hidden, e.hidden, h, ⟨⟨nofun, nofun⟩, .inl ⟨hst, hst⟩, fun _ => rfl⟩, rfl, rfl⟩

theorem Settled.stepLoop_answers (hs : hc.Silent) (n : Nat) (h : e.Settled) :
    ∃ e', e.stepLoop hc n = .ok () e' := by
  induction n generalizing e with
  | zero => exact ⟨e, rfl⟩
  | succ n ih =>
    by_cases hst : e.state = .stepping
    · have hp := h.poll hs
      have hst' : (e.pollHostControls hc).state = .stepping := by rw [hp]; exact hst
      have hset : (e.pollHostControls hc).Settled := by rw [hp]; exact { h with }
      obtain ⟨e₁, hx, -⟩ := exec_answers hc hset.outside
      obtain ⟨e₂, -, htw⟩ := (hset.twin hst').exec hs hx
      rw [stepLoop_succ hst hst', hx]
      exact ih (htw.poll hs).settled
    · exact ⟨e, stepLoop_stopped hc _ hst⟩

theorem stepLoop_add (hc : HostCode H) (n k : Nat) (e : Emu H) :
    e.stepLoop hc (n + k) = (e.stepLoop hc n).bind fun _ e => e.stepLoop hc k := by
  induction n generalizing e with
  | zero =>
    rw [Nat.zero_add]
    rfl
  | succ n ih =>
    rw [Nat.succ_add]
    by_cases hst : e.state = .stepping
    · by_cases hst' : (e.pollHostControls hc).state = .stepping
      · rw [stepLoop_succ hst hst', stepLoop_succ hst hst', Out.bind_assoc]
        exact congrArg _ (funext fun _ => funext fun e => ih _)
      · have hl : ∀ n, e.stepLoop hc (n + 1) = .ok () (e.pollHostControls hc) := fun n =>
          (if_neg (not_not_intro hst)).trans (if_pos hst')
        rw [hl, hl, Out.ok_bind, stepLoop_stopped hc k hst']
    · rw [stepLoop_stopped hc _ hst, stepLoop_stopped hc _ hst, Out.ok_bind, stepLoop_stopped hc k hst]

/-- Emulators in step return from `rk65c02_step` the same but for the clock. -/
theorem Twin.stepEnd (hs : hc.Silent) {s : Emu H} (h : e.Twin .stepping .stepping s) :
    e.stepEnd hc = { s.stepEnd hc with clock := (e.stepEnd hc).clock } := by
  obtain ⟨t, j, k, ht, hjk, rfl, rfl⟩ := h
  have hu := hjk.same rfl
  rw [Settled.stepEnd hs (e := t.hide j) { ht with }, Settled.stepEnd hs (e := t.hide k) { ht with }]
  rcases hjk.state with ⟨hj, hk⟩ | ⟨hj, hk, hq⟩
  · rw [if_pos (show (t.hide j).state = .stepping from hj), if_pos (show (t.hide k).state = .stepping from hk)]
    simp only [hide, hu]
  · rw [if_neg (show ¬(t.hide j).state = .stepping from fun hh => nomatch hj.symm.trans hh),
      if_neg (show ¬(t.hide k).state = .stepping from fun hh => nomatch hk.symm.trans hh)]
    simp only [hide, hu, hj, hk, hq]

/-- Steps add up. -/
theorem step_add (hs : hc.Silent) (he : e.ready.Settled) {n m : BitVec 16}
    (hnm : n.toNat + m.toNat ≤ 65535) {s : Emu H} (hx : e.step hc n = .ok () s) (hq : s.stopreason = .stepped) :
    ∃ s₁ s₂, e.step hc (n + m) = .ok () s₁ ∧ s.step hc m = .ok () s₂ ∧ s₁ = { s₂ with clock := s₁.clock } := by
  have hsum : (n + m).toNat = n.toNat + m.toNat := by
    rw [BitVec.toNat_add]
    omega
  rw [step_eq] at hx
  obtain ⟨⟨⟩, e₁, hl, hend⟩ := Out.of_bind_ok hx
  obtain ⟨_, -, htw⟩ := (he.twin rfl).stepLoop hs _ hl
  have hset := htw.settled
  have hu : e₁.Unstepped := stepLoop_unstepped n.toNat (nofun : e.ready.Unstepped) hl
  have hend' := hset.stepEnd hs
  have hst : e₁.state = .stepping := by
    by_contra hst
    rw [if_neg hst] at hend'
    cases hend
    rw [hend'] at hq
    obtain ⟨t, j, k, -, hjk, -, rfl⟩ := htw
    exact hjk.state.elim (fun hh => hst hh.2) fun hh => hu hh.2.1 hq
  rw [if_pos hst] at hend'
  obtain rfl : _ = s := hend'.symm.trans (Out.ok.inj hend).2
  have hready := Settled.ready (e := { e₁ with clock := e₁.clock + 1, state := .stopped, stopreason := .stepped })
    { hset with }
  obtain ⟨s₂, hl₂⟩ := Settled.stepLoop_answers hs m.toNat
    (e := { e₁ with clock := e₁.clock + 1, state := .stepping, stopreason := .stepped }) { hset with }
  obtain ⟨s₁, hl₁, htw'⟩ := Twin.stepLoop (e := e₁) hs m.toNat
    ⟨e₁, e₁.hidden, ⟨.stepping, .stepped, e₁.useJit, e₁.clock + 1⟩, hset,
      ⟨⟨nofun, nofun⟩, .inl ⟨hst, rfl⟩, fun _ => rfl⟩, rfl, rfl⟩ hl₂
  refine ⟨s₁.stepEnd hc, s₂.stepEnd hc, ?_, ?_, htw'.stepEnd hs⟩
  · rw [step_eq, hsum, stepLoop_add, hl, Out.ok_bind, hl₁, Out.ok_bind]
  · rw [step_eq, hready, hl₂, Out.ok_bind]

end Emu

namespace Run

variable {hc : HostCode H} {c : Run H} {s : Emu H}

/-- The run is in the interpreter's loop, in step with the stepped emulator `s`. -/
def Follows (c : Run H) (s : Emu H) : Prop := c.phase = .interp ∧ c.emu.Twin .running .stepping s

/-- The run has ended as the stepped emulator `s` has. -/
def EndsAs (c : Run H) (s : Emu H) : Prop := c.phase = .done ∧ c.emu.Twin .running .stepping s ∧
    s.state = .stopped

/-- A round of the interpreter's loop goes as one of `rk65c02_step`'s. -/
theorem Follows.round (hs : hc.Silent) (h : c.Follows s) (hst : s.state = .stepping) {s' : Emu H}
    (hx : (s.pollHostControls hc).exec hc = .ok () s') :
    (s'.pollHostControls hc).state = .stepping ∧ (c.step hc).Follows (s'.pollHostControls hc) ∨
      (c.step hc).EndsAs (s'.pollHostControls hc) := by
  obtain ⟨hp, htw⟩ := h
  obtain ⟨e', hx', htw'⟩ := (htw.poll hs).exec hs hx
  have hpo : c.polled hc = some (c.emu.pollHostControls hc) := by
    obtain ⟨t, j, k, ht, hjk, he, rfl⟩ := htw
    have hj : j.state = .running := hjk.state.elim (·.1) fun hh => nomatch hh.2.1.symm.trans hst
    unfold polled
    rw [he, Emu.poll_hide hs ht]
    exact (if_neg (not_not_intro hj)).trans (if_neg (not_not_intro hj))
  have hstep := step_round hp hpo hx'
  obtain ⟨t, j, k, ht, hjk, rfl, rfl⟩ := htw'
  rw [Emu.poll_hide hs ht] at hstep
  rw [Emu.poll_hide hs ht]
  rcases hjk.state with ⟨hj, hk⟩ | ⟨hj, hk, hq⟩
  · refine .inl ⟨hk, ?_⟩
    have ha : c.step hc = { c with emu := t.hide j.later } := hstep.trans (if_pos hj)
    rw [ha]
    exact ⟨hp, t, j.later, k.later, ht, hjk.later, rfl, rfl⟩
  · have ha : c.step hc = { c with emu := t.hide j.later.later, phase := .done } := by
      have hidle : (t.hide j.later).maybeWaitOnIdle hc = (false, t.hide j.later) := by
        have hn : (t.hide j.later).idleWait = none := ht.idleWait
        unfold Emu.maybeWaitOnIdle
        rw [hn]
      have hfin : (t.hide j.later).finish hc = t.hide j.later.later := by
        unfold Emu.finish
        rw [Emu.poll_hide hs ht]
        exact (if_pos hj).trans (Emu.callOnStop_none ht.onStop)
      refine hstep.trans ?_
      unfold afterPoll
      dsimp only
      rw [if_neg (show ¬(t.hide j.later).state = .running from fun hr => nomatch hj.symm.trans hr), hidle]
      exact (if_neg fun hh => nomatch hh.1).trans
        (congrArg (fun e => ({ c with emu := e, phase := .done } : Run H)) hfin)
    rw [ha]
    exact .inr ⟨rfl, ⟨t, j.later.later, k.later, ht, ⟨hjk.active, .inr ⟨hj, hk, hq⟩, hjk.same⟩, rfl, rfl⟩, hk⟩

/-- The loop of `rk65c02_step` and the run. -/
theorem Follows.stepLoop (hs : hc.Silent) (n : Nat) (h : c.Follows s) (hst : s.state = .stepping) :
    ∃ s', s.stepLoop hc n = .ok () s' ∧ (s'.state = .stepping ∧ (c.steps hc n).Follows s' ∨
      ∃ m, (c.steps hc m).EndsAs s') := by
  induction n generalizing c s with
  | zero => exact ⟨s, rfl, .inl ⟨hst, h⟩⟩
  | succ n ih =>
    have hst' : (s.pollHostControls hc).state = .stepping := by
      rw [h.2.settled.poll hs]
      exact hst
    obtain ⟨s₁, hx, -⟩ := Emu.exec_answers hc (e := s.pollHostControls hc)
      (by rw [h.2.settled.poll hs]; exact h.2.settled.outside)
    rw [Emu.stepLoop_succ hst hst', hx, Out.ok_bind]
    rcases h.round hs hst hx with ⟨hst₁, h₁⟩ | h₁
    · obtain ⟨s', hl, hr⟩ := ih h₁ hst₁
      exact ⟨s', hl, hr.imp (fun hh => hh) fun ⟨m, hm⟩ => ⟨m + 1, hm⟩⟩
    · have hn : (s₁.pollHostControls hc).state ≠ .stepping := fun hh => nomatch h₁.2.2.symm.trans hh
      exact ⟨_, Emu.stepLoop_stopped hc n hn, .inr ⟨1, h₁⟩⟩

/-- A call of `rk65c02_step` and the run. -/
theorem Follows.step (hs : hc.Silent) (n : BitVec 16) (h : c.Follows s.ready) : ∃ s', s.step hc n = .ok () s' ∧
    (s'.stopreason = .stepped ∧ (c.steps hc n.toNat).Follows s'.ready ∨
      s'.stopreason ≠ .stepped ∧ ∃ m, (c.steps hc m).EndsAs s') := by
  obtain ⟨s₁, hl, hr⟩ := h.stepLoop hs n.toNat rfl
  refine ⟨s₁.stepEnd hc, by rw [Emu.step_eq, hl]; rfl, ?_⟩
  rcases hr with ⟨hst, hp, htw⟩ | ⟨m, hp, htw, hst⟩
  · have hset := htw.settled
    rw [hset.stepEnd hs, if_pos hst]
    refine .inl ⟨rfl, hp, ?_⟩
    have hready := Emu.Settled.ready
      (e := { s₁ with clock := s₁.clock + 1, state := .stopped, stopreason := .stepped })
      { hset with }
    rw [hready]
    obtain ⟨t, j, k, ht, hjk, he, rfl⟩ := htw
    exact ⟨t, j, ⟨.stepping, .stepped, k.useJit, k.clock + 1⟩, ht,
      ⟨hjk.active, hjk.state.imp (fun hh => ⟨hh.1, rfl⟩)
      (fun hh => nomatch hh.2.1.symm.trans hst), nofun⟩, he, rfl⟩
  · have hset := htw.settled
    have hn : s₁.state ≠ .stepping := fun hh => nomatch hst.symm.trans hh
    rw [hset.stepEnd hs, if_neg hn]
    have hu : s₁.Unstepped := Emu.stepLoop_unstepped n.toNat (nofun : s.ready.Unstepped) hl
    refine .inr ⟨hu hst, m, hp, ?_, hst⟩
    obtain ⟨t, j, k, ht, hjk, he, rfl⟩ := htw
    exact ⟨t, j, k.later, ht, ⟨hjk.active, hjk.state, hjk.same⟩, he, rfl⟩

end Run

/-- Calls of `rk65c02_step` with the given counts, until one stops for another reason. -/
def Emu.stepAll (hc : HostCode H) : List (BitVec 16) → Emu H → Out (Emu H) Unit
  | [], e => .ok () e
  | n :: ns, e => (e.step hc n).bind fun _ e => if e.stopreason = .stepped then stepAll hc ns e else .ok () e

namespace Run

variable {hc : HostCode H} {c : Run H} {s : Emu H}

theorem Follows.stepAll (hs : hc.Silent) (ns : List (BitVec 16)) (h : c.Follows s.ready) : ∃ s', s.stepAll
    hc ns = .ok () s' ∧
    ((ns ≠ [] → s'.stopreason = .stepped) ∧ (c.steps hc (ns.map BitVec.toNat).sum).phase = .interp ∨
      s'.stopreason ≠ .stepped ∧ ∃ m, (c.steps hc m).EndsAs s') := by
  induction ns generalizing c s with
  | nil => exact ⟨s, rfl, .inl ⟨fun hh => absurd rfl hh, h.1⟩⟩
  | cons n ns ih =>
    obtain ⟨s₁, hx, hr⟩ := h.step hs n
    unfold Emu.stepAll
    rw [hx, Out.ok_bind]
    rcases hr with ⟨hq, h₁⟩ | ⟨hq, hm⟩
    · obtain ⟨s', hl, hr⟩ := ih h₁
      rw [if_pos hq]
      have hadd : ∀ m, (c.steps hc n.toNat).steps hc m = c.steps hc (m + n.toNat) := fun m =>
        (Function.iterate_add_apply _ m n.toNat c).symm
      refine ⟨s', hl, hr.imp (fun hh => ⟨fun _ => ?_, ?_⟩) fun hh => ⟨hh.1, hh.2.imp' _ fun m hm => hadd m ▸ hm⟩⟩
      · cases ns with
        | nil =>
          cases hl
          exact hq
        | cons k ks => exact hh.1 (List.cons_ne_nil k ks)
      · rw [List.map_cons, List.sum_cons, Nat.add_comm, ← hadd]
        exact hh.2
    · rw [if_neg hq]
      exact ⟨s₁, rfl, .inr ⟨hq, hm⟩⟩

theorem EndsAs.same (h : c.EndsAs s) :
    c.emu.regs = s.regs ∧ c.emu.bus = s.bus ∧ c.emu.host = s.host ∧ c.emu.stopreason = s.stopreason := by
  obtain ⟨-, ⟨t, j, k, -, hjk, he, rfl⟩, hst⟩ := h
  rw [he]
  refine ⟨rfl, rfl, rfl, ?_⟩
  rcases hjk.state with hh | hh
  · exact absurd (hh.2.symm.trans hst) hjk.active.2
  · exact hh.2.2

end Run

/-- No callback of the run loops is installed. -/
structure Emu.Alone (e : Emu H) : Prop where
  onStop : e.onStop = none
  tick : e.tick = none
  idleWait : e.idleWait = none

theorem Emu.Alone.ready {e : Emu H} (h : e.Alone) (hin : e.inJitRun = false) : e.ready.Settled :=
  ⟨hin, h.onStop, h.tick, h.idleWait, rfl, rfl, rfl⟩

/-- The interpreter's run follows the steps, if no fault has left its mark. -/
theorem Emu.Alone.follows {e : Emu H} (h : e.Alone) (hin : e.inJitRun = false) (hp : e.start.phase = .interp)
    (hre : e.mmu.faultReexec = false) : e.start.Follows e.ready := by
  have hm : ({ e.mmu with faultReexec := false } : Mmu) = e.mmu := by rw [← hre]
  refine ⟨hp, e.ready,
    ⟨.running, e.stopreason, e.jitRequested, e.clock⟩, ⟨.stepping, e.stopreason, e.useJit, e.clock⟩,
    h.ready hin, ⟨⟨nofun, nofun⟩, .inl ⟨rfl, rfl⟩, nofun⟩, ?_, rfl⟩
  unfold start at hp ⊢
  dsimp only at hp ⊢
  split at hp
  · cases hp
  · next hu =>
    rw [if_neg hu, hm]
    rfl

/-- Stepping goes as running does. -/
theorem stepping_agrees (hc : HostCode H) (hs : hc.Silent) (e : Emu H) (he : e.Alone) (hin : e.inJitRun = false)
    (hp : e.start.phase = .interp) :
    (e.mmu.faultReexec = false →
      (∀ ns ≠ [], ∀ s, e.stepAll hc ns = .ok () s → s.stopreason ≠ .stepped →
        ∃ m, (e.start.steps hc m).phase = .done ∧
        (e.start.steps hc m).emu.regs = s.regs ∧ (e.start.steps hc m).emu.bus = s.bus ∧
        (e.start.steps hc m).emu.host = s.host ∧ (e.start.steps hc m).emu.stopreason = s.stopreason) ∧
      ∀ m, (e.start.steps hc m).phase = .done → ∀ ns : List (BitVec 16), (∀ n ∈ ns, 0 < n) → m ≤ ns.length →
        ∃ s, e.stepAll hc ns = .ok () s ∧ s.stopreason ≠ .stepped) ∧
    ∀ n m : BitVec 16, n.toNat + m.toNat ≤ 65535 → ∀ s, e.step hc n = .ok () s → s.stopreason = .stepped →
      ∃ s₁ s₂, e.step hc (n + m) = .ok () s₁ ∧ s.step hc m = .ok () s₂ ∧ s₁ = { s₂ with clock := s₁.clock } := by
  refine ⟨fun hre => ⟨fun ns hne s hx hq => ?_, fun m hm ns hpos hle => ?_⟩, fun n m hnm s hx hq => ?_⟩
  · obtain ⟨s', hx', hr⟩ := (he.follows hin hp hre).stepAll hs ns
    cases hx'.symm.trans hx
    rcases hr with hr | ⟨-, m, hm⟩
    · exact absurd (hr.1 hne) hq
    · exact ⟨m, hm.1, hm.same⟩
  · obtain ⟨s', hx', hr⟩ := (he.follows hin hp hre).stepAll hs ns
    refine ⟨s', hx', ?_⟩
    rcases hr with hr | hr
    · have hlen : ns.length ≤ (ns.map BitVec.toNat).sum := by
        rw [← List.length_map BitVec.toNat]
        refine List.length_le_sum_of_one_le _ fun k hk => ?_
        obtain ⟨n, hn, rfl⟩ := List.mem_map.mp hk
        exact BitVec.lt_def.mp (hpos n hn)
      cases hr.2.symm.trans (Run.steps_done hm (hle.trans hlen))
    · exact hr.1
  · exact Emu.step_add hs (he.ready hin) hnm hx hq

/-- A host whose first mapping refuses every access and whose second is the identity. -/
def repairingHost : HostCode Unit :=
  { quietHost identity with translate := fun _ cb a x => { identity a x with ok := cb != 0 } }

theorem repairingHost_silent : repairingHost.Silent where
  calls _ c := by cases c <;> rfl
  async _ := rfl

/-- Memory full of `STP`, under the given mapping. -/
def mappedEmu (cb : Cb) : Emu Unit :=
  (init (ramBus fun _ => 0xDB) () ⟨0, 0, 0, 0x0200, 0xFF, 0⟩).mmuSet (some cb) none true false

/-- `LDX #$03`, `DEX`, `BNE` back to it, `STX $10`, `STP`, under the second mapping. -/
def loopingEmu : Emu Unit :=
  let code : List Byte := [0xA2, 0x03, 0xCA, 0xD0, 0xFD, 0x86, 0x10]
  (init (ramBus fun a => code.getD (a.toNat - 0x0200) 0xDB) () ⟨0, 0, 0, 0x0200, 0xFF, 0⟩).mmuSet
    (some 1) none true false

/-- Nine instructions, in steps of two and of one. -/
theorem stepping_agrees_loop : ∃ s, loopingEmu.stepAll repairingHost [2, 1, 1, 1, 1, 1, 1, 1, 1] = .ok () s ∧
    ∃ m, (loopingEmu.start.steps repairingHost m).phase = .done ∧
      (loopingEmu.start.steps repairingHost m).emu.regs = s.regs ∧
      (loopingEmu.start.steps repairingHost m).emu.bus = s.bus ∧
      (loopingEmu.start.steps repairingHost m).emu.host = s.host ∧
      (loopingEmu.start.steps repairingHost m).emu.stopreason = s.stopreason := by
  have hp : loopingEmu.start.phase = .interp := by decide +kernel
  have hre : loopingEmu.mmu.faultReexec = false := by decide +kernel
  have hd : (loopingEmu.start.steps repairingHost 9).phase = .done := by decide +kernel
  have ha : loopingEmu.Alone := ⟨rfl, rfl, rfl⟩
  have hin : loopingEmu.inJitRun = false := rfl
  have hpos : ∀ n ∈ [(2 : BitVec 16), 1, 1, 1, 1, 1, 1, 1, 1], 0 < n := by simp
  generalize loopingEmu = e at *
  obtain ⟨hagree, hends⟩ := (stepping_agrees repairingHost repairingHost_silent e ha hin hp).1 hre
  obtain ⟨s, hs, hq⟩ := hends 9 hd _ hpos (Nat.le_refl 9)
  exact ⟨s, hs, hagree _ (List.cons_ne_nil _ _) s hs hq⟩

/-- The first run compiles, and the fetch is refused; then the mapping is repaired. -/
def repairedEmu : Emu Unit :=
  ((((mappedEmu 0).jitEnable true).start.steps repairingHost 1).emu.jitEnable false).mmuSet
    (some 1) none true false

theorem stepping_stays_on_stp :
    (((mappedEmu 0).jitEnable true).start.steps repairingHost 1).phase = .done ∧
    repairedEmu.start.phase = .interp ∧
      (repairedEmu.start.steps repairingHost 1).phase = .done ∧
      (repairedEmu.start.steps repairingHost 1).emu.stopreason = .stp ∧
      (repairedEmu.start.steps repairingHost 1).emu.regs.PC = 0x0201 ∧
      (repairedEmu.stepAll repairingHost [1]).state?.map (fun s => (s.stopreason, s.regs.PC)) =
      some (.stp, 0x0200) := by
  decide +kernel

end Rk65c02
