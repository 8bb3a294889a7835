import Rk65c02.Steps

/-! The request for the JIT. Outside of the dispatcher nothing looks at it, so the interpreter's
loop takes the same course whether the JIT is requested or not. -/

namespace Rk65c02

open Resumption

variable {H : Type} {hc : HostCode H}

namespace Emu

/-- The same emulator with the JIT neither requested nor in use. -/
def unrequested (e : Emu H) : Emu H := { e with useJit := false, jitRequested := false }

/-- The same but for the request for the JIT. -/
def Alike (e s : Emu H) : Prop := e.unrequested = s.unrequested

variable {e s : Emu H}

theorem Alike.eq (h : e.Alike s) : ∃ u q, s = { e with useJit := u, jitRequested := q } := by
  refine ⟨s.useJit, s.jitRequested, ?_⟩
  cases e
  cases s
  simp only [Alike, unrequested, mk.injEq] at h
  simp only [mk.injEq]
  simp only [h, and_self]

section Calls

variable (h : e.Alike s)

include h

theorem Alike.invalidate (f : Jit → Jit) : (e.jitInvalidate f).Alike (s.jitInvalidate f) := by
  obtain ⟨u, q, rfl⟩ := h.eq
  unfold jitInvalidate jitInvalidateDeferred
  dsimp only
  split
  · exact h
  · split <;> rfl

theorem Alike.applyChanged : e.jitApplyChanged.Alike s.jitApplyChanged := by
  have hpages : ∀ l : List Byte, (l.foldl jitInvalidateCodeVpage e).Alike (l.foldl jitInvalidateCodeVpage s) := by
    intro l
    induction l generalizing e s with
    | nil => exact h
    | cons p l ih => exact ih (h.invalidate _)
  have hm : s.mmu = e.mmu := (congrArg Emu.mmu h).symm
  unfold jitApplyChanged
  rw [hm]
  split
  · exact h.invalidate _
  · exact hpages _

theorem Alike.hostCall (c : HostCall) : (e.hostCall c).Alike (s.hostCall c) := by
  have hm : ∀ m, Alike { e with mmu := m } { s with mmu := m } := fun m => by
    obtain ⟨u, q, rfl⟩ := h.eq
    rfl
  have hmmu : s.mmu = e.mmu := (congrArg Emu.mmu h).symm
  cases c with
  | mmuSet tr f en id =>
    change (e.mmuSet tr f en id).Alike (s.mmuSet tr f en id)
    unfold mmuSet
    rw [hmmu]
    split
    · exact h
    · exact (hm _).invalidate _
  | mmuEndUpdate =>
    change e.mmuEndUpdate.Alike s.mmuEndUpdate
    unfold mmuEndUpdate
    rw [hmmu]
    split
    · exact h
    · obtain ⟨u, q, hs⟩ := h.applyChanged.eq
      rw [hs]
      rfl
  | jitFlush => exact h.invalidate _
  | assertIrq =>
    obtain ⟨u, q, rfl⟩ := h.eq
    change (assertIrq _).Alike (assertIrq _)
    unfold assertIrq
    dsimp only
    split <;> rfl
  | jitEnable en =>
    obtain ⟨u, q, rfl⟩ := h.eq
    cases en <;> rfl
  | _ =>
    obtain ⟨u, q, rfl⟩ := h.eq
    rfl

theorem Alike.foldl (cs : List HostCall) : (cs.foldl Emu.hostCall e).Alike (cs.foldl Emu.hostCall s) := by
  induction cs generalizing e s with
  | nil => exact h
  | cons c cs ih => exact ih (h.hostCall c)

theorem Alike.hostReturns (r : H × List HostCall) : (e.hostReturns r).Alike (s.hostReturns r) := by
  refine Alike.foldl ?_ r.2
  obtain ⟨u, q, rfl⟩ := h.eq
  rfl

theorem Alike.arrive : (e.arrive hc).Alike (s.arrive hc) := by
  obtain ⟨u, q, rfl⟩ := h.eq
  rw [arrive_eq, arrive_eq]
  refine Alike.foldl ?_ _
  rfl

end Calls

section Accesses

variable (h : e.Alike s)

include h

theorem Alike.withRegs (r : Regs) : Alike { e with regs := r } { s with regs := r } := by
  obtain ⟨u, q, rfl⟩ := h.eq
  rfl

theorem Alike.deviceRead1 (d : Option (DevId × Addr)) :
    (e.deviceRead1 hc d).1 = (s.deviceRead1 hc d).1 ∧ (e.deviceRead1 hc d).2.Alike (s.deviceRead1 hc d).2 := by
  obtain ⟨u, q, rfl⟩ := h.eq
  match d with
  | none => exact ⟨rfl, rfl⟩
  | some (d, off) =>
    unfold Emu.deviceRead1
    dsimp only
    split
    · exact ⟨rfl, rfl⟩
    · exact ⟨rfl, h.hostReturns _⟩

variable (hc) in
theorem Alike.busRead1 (a : Addr) :
    (e.busRead1 hc a).1 = (s.busRead1 hc a).1 ∧ (e.busRead1 hc a).2.Alike (s.busRead1 hc a).2 := by
  have hb : s.bus = e.bus := (congrArg Emu.bus h).symm
  unfold Emu.busRead1
  rw [hb]
  exact h.deviceRead1 _

theorem Alike.disassembled (pc : Addr) : (e.disassembled hc pc).Alike (s.disassembled hc pc) := by
  have hd : s.runtimeDisassembly = e.runtimeDisassembly := (congrArg Emu.runtimeDisassembly h).symm
  unfold Emu.disassembled
  rw [hd]
  split
  · obtain ⟨hv, h₁⟩ := h.busRead1 hc pc
    unfold disassemble instructionFetch
    dsimp only
    rw [← hv]
    split
    · exact h₁
    · exact (h₁.busRead1 hc _).2
    · exact ((h₁.busRead1 hc _).2.busRead1 hc _).2
  · exact h

theorem Alike.deviceWrite1 (v : Byte) (d : Option (DevId × Addr)) :
    (e.deviceWrite1 hc v d).Alike (s.deviceWrite1 hc v d) := by
  obtain ⟨u, q, rfl⟩ := h.eq
  match d with
  | none => rfl
  | some (d, off) =>
    unfold Emu.deviceWrite1
    dsimp only
    split
    · rfl
    · exact h.hostReturns _

variable (hc) in
theorem Alike.physRead1 (p : PAddr) :
    (e.physRead1 hc p).1 = (s.physRead1 hc p).1 ∧ (e.physRead1 hc p).2.Alike (s.physRead1 hc p).2 := by
  have hb : s.bus = e.bus := (congrArg Emu.bus h).symm
  unfold Emu.physRead1 Emu.busRead1Phys Emu.busRead1
  rw [hb]
  split <;> exact h.deviceRead1 _

theorem Alike.physWrite1 (p : PAddr) (v : Byte) : (e.physWrite1 hc p v).Alike (s.physWrite1 hc p v) := by
  have hb : s.bus = e.bus := (congrArg Emu.bus h).symm
  unfold Emu.physWrite1 Emu.busWrite1Phys Emu.busWrite1
  rw [hb]
  split <;> exact h.deviceWrite1 _ _

variable (hc) in
theorem Alike.translate (a : Addr) (x : Access) :
    (e.mmuTranslateAddr hc a x).1 = (s.mmuTranslateAddr hc a x).1 ∧
      (e.mmuTranslateAddr hc a x).2.Alike (s.mmuTranslateAddr hc a x).2 := by
  obtain ⟨u, q, rfl⟩ := h.eq
  exact ⟨rfl, rfl⟩

variable (hc) in
theorem Alike.physHit (j : Jit) (a : Addr) : (e.jitPhysHit hc j a).1 = (s.jitPhysHit hc j a).1 ∧
    (e.jitPhysHit hc j a).2.Alike (s.jitPhysHit hc j a).2 := by
  obtain ⟨u, q, rfl⟩ := h.eq
  unfold jitPhysHit
  split
  · exact ⟨rfl, h⟩
  · unfold jitTranslatePaddr mmuTranslateCached
    dsimp only
    split
    · exact ⟨rfl, h⟩
    · exact ⟨rfl, (h.translate hc a .write).2⟩

theorem Alike.noted (a : Addr) : (e.jitNoteGuestWrite hc a).Alike (s.jitNoteGuestWrite hc a) := by
  have hjit : s.jit = e.jit := (congrArg Emu.jit h).symm
  unfold jitNoteGuestWrite
  rw [hjit]
  split
  · exact h
  · next j _ =>
    split
    · exact h
    · obtain ⟨hp, h'⟩ := h.physHit hc j a
      dsimp only
      rw [← hp]
      obtain ⟨u, q, hs⟩ := h'.eq
      rw [hs]
      split
      · rfl
      · dsimp only
        split <;> rfl

theorem Alike.callOnStop : (e.maybeCallOnStop hc).Alike (s.maybeCallOnStop hc) := by
  obtain ⟨u, q, rfl⟩ := h.eq
  unfold maybeCallOnStop
  dsimp only
  split
  · rfl
  · exact h.hostReturns _

omit h in
theorem Alike.ok {α : Type} (h : e.Alike s) (a : α) :
    (Out.ok a e).mapState unrequested = (Out.ok a s).mapState unrequested := congrArg (Out.ok a) h

theorem Alike.stopError : (e.emuStopError hc).mapState unrequested = (s.emuStopError hc).mapState
    unrequested := by
  obtain ⟨u, q, rfl⟩ := h.eq
  unfold emuStopError
  dsimp only
  split
  · rfl
  · split
    · refine Alike.ok (Alike.callOnStop ?_) ()
      rfl
    · rfl

theorem Alike.fault (a : Addr) (x : Access) (code : BitVec 16) :
    (e.mmuFault hc a x code).mapState unrequested = (s.mmuFault hc a x code).mapState unrequested := by
  obtain ⟨u, q, rfl⟩ := h.eq
  have hf : (e.faulted a x code).Alike (faulted { e with useJit := u, jitRequested := q } a x code) := rfl
  rw [mmuFault_eq, mmuFault_eq]
  refine Alike.stopError ?_
  dsimp only
  cases e.mmu.fault with
  | none => exact hf
  | some cb => exact hf.hostReturns _

theorem Alike.memRead1 (a : Addr) (x : Access) :
    (e.memRead1 hc a x).mapState unrequested = (s.memRead1 hc a x).mapState unrequested := by
  have hacc : s.mmu = e.mmu := (congrArg Emu.mmu h).symm
  unfold Emu.memRead1
  rw [hacc]
  split
  · obtain ⟨hr, ht⟩ := h.translate hc a x
    unfold Emu.memReadMmu
    generalize e.mmuTranslateAddr hc a x = t at hr ht ⊢
    generalize s.mmuTranslateAddr hc a x = t' at hr ht ⊢
    obtain ⟨r, e₁⟩ := t
    obtain ⟨r', s₁⟩ := t'
    obtain rfl : r = r' := hr
    cases r with
    | error code => exact Out.bind_view (ht.fault a x code) fun _ _ _ hs => Alike.ok hs _
    | ok p =>
      obtain ⟨hv, hp⟩ := Alike.physRead1 hc ht p
      dsimp only
      rw [hv]
      exact hp.ok _
  · obtain ⟨hv, hp⟩ := h.busRead1 hc a
    unfold memReadDirect
    dsimp only
    rw [hv]
    exact hp.ok _

theorem Alike.memWrite1 (a : Addr) (v : Byte) :
    (e.memWrite1 hc a v).mapState unrequested = (s.memWrite1 hc a v).mapState unrequested := by
  have hacc : s.mmu = e.mmu := (congrArg Emu.mmu h).symm
  have hb : s.bus = e.bus := (congrArg Emu.bus h).symm
  unfold Emu.memWrite1
  refine Out.bind_view ?_ fun _ _ _ hs => Alike.ok (Alike.noted hs a) _
  rw [hacc]
  split
  · obtain ⟨hr, ht⟩ := h.translate hc a .write
    unfold Emu.memWriteMmu
    generalize e.mmuTranslateAddr hc a .write = t at hr ht ⊢
    generalize s.mmuTranslateAddr hc a .write = t' at hr ht ⊢
    obtain ⟨r, e₁⟩ := t
    obtain ⟨r', s₁⟩ := t'
    obtain rfl : r = r' := hr
    cases r with
    | error code => exact ht.fault a .write code
    | ok p => exact (Alike.physWrite1 ht p v).ok _
  · unfold memWriteDirect Emu.busWrite1
    rw [hb]
    exact (h.deviceWrite1 v _).ok _

/-- Whatever code asks of the emulator. -/
theorem Alike.handle (o : Op) (r : Regs) :
    (Emu.handle hc o r e).mapState unrequested = (Emu.handle hc o r s).mapState unrequested := by
  change ((e.asked hc r).answer hc o).mapState _ = ((s.asked hc r).answer hc o).mapState _
  have h : (e.asked hc r).Alike (s.asked hc r) := Alike.arrive (h.withRegs r)
  generalize e.asked hc r = e at h ⊢
  generalize s.asked hc r = s at h ⊢
  cases o with
  | fetch a => exact h.memRead1 a .fetch
  | read a => exact h.memRead1 a .read
  | write a v => exact h.memWrite1 a v
  | panic => exact h.stopError
  | disassemble pc => exact (h.disassembled pc).ok ()
  | reexec =>
    obtain ⟨u, q, rfl⟩ := h.eq
    unfold Emu.answer
    dsimp only
    split <;> rfl
  | trace tpc i r =>
    obtain ⟨u, q, rfl⟩ := h.eq
    unfold Emu.answer tracePush
    dsimp only
    split <;> rfl
  | _ =>
    obtain ⟨u, q, rfl⟩ := h.eq
    rfl

variable (hc) in
theorem Alike.exec : (e.exec hc).mapState unrequested = (s.exec hc).mapState unrequested := by
  have hregs : s.regs = e.regs := (congrArg Emu.regs h).symm
  unfold Emu.exec runCpu putRegs
  rw [hregs]
  exact Out.bind_view (Tree.run_view (fun o r _ _ hs => Alike.handle hs o r) _ h) fun v _ _ hs =>
    Alike.ok (Alike.withRegs hs v.2) _

end Accesses

section Loop

variable (h : e.Alike s)

include h

theorem Alike.apply : e.applyHostStopRequest.Alike s.applyHostStopRequest := by
  obtain ⟨u, q, rfl⟩ := h.eq
  unfold applyHostStopRequest
  dsimp only
  split <;> rfl

theorem Alike.tick : (e.maybeTick hc).Alike (s.maybeTick hc) := by
  obtain ⟨u, q, rfl⟩ := h.eq
  unfold maybeTick
  dsimp only
  split
  · rfl
  · next cb _ =>
    split
    · rfl
    · split
      · exact h.hostReturns _
      · generalize (if 0 < e.tickCountdown then e.tickCountdown - 1 else e.tickCountdown) = n
        split
        · obtain ⟨u', q', hs⟩ := (Alike.hostReturns (e := { e with tickCountdown := n })
            (s := { e with tickCountdown := n, useJit := u, jitRequested := q }) rfl (hc.tick e.host cb)).eq
          rw [hs]
          rfl
        · rfl

theorem Alike.poll : (e.pollHostControls hc).Alike (s.pollHostControls hc) := h.arrive.apply.tick.apply

variable (hc) in
theorem Alike.idle : (e.maybeWaitOnIdle hc).1 = (s.maybeWaitOnIdle hc).1 ∧
    (e.maybeWaitOnIdle hc).2.Alike (s.maybeWaitOnIdle hc).2 := by
  obtain ⟨u, q, rfl⟩ := h.eq
  unfold maybeWaitOnIdle
  dsimp only
  split
  · exact ⟨rfl, h⟩
  · split
    · exact ⟨rfl, h⟩
    · exact ⟨rfl, (h.hostReturns _).apply⟩

theorem Alike.state : s.state = e.state := (congrArg Emu.state h).symm

theorem Alike.finish : (e.finish hc).Alike (s.finish hc) := by
  have hp : (e.pollHostControls hc).Alike (s.pollHostControls hc) := h.poll
  unfold Emu.finish
  dsimp only
  rw [hp.state]
  split
  · exact hp.callOnStop
  · exact hp

end Loop

end Emu

namespace Run

/-- Two runs at the same point, but for the request for the JIT. -/
structure Alike (c c' : Run H) : Prop where
  phase : c'.phase = c.phase
  emu : c.emu.Alike c'.emu

variable {c c' : Run H}

theorem Alike.finish (h : c.Alike c') : (c.finish hc).Alike (c'.finish hc) := ⟨rfl, h.emu.finish⟩

theorem Alike.afterPoll (h : c.Alike c') : (c.afterPoll hc).Alike (c'.afterPoll hc) := by
  obtain ⟨hw, hi⟩ := h.emu.idle hc
  unfold Run.afterPoll
  rw [h.emu.state]
  split
  · exact h
  · dsimp only
    rw [hi.state, ← hw]
    split
    · exact ⟨h.phase, hi⟩
    · exact Alike.finish ⟨h.phase, hi⟩

theorem Alike.interpStep (h : c.Alike c') : (c.interpStep hc).Alike (c'.interpStep hc) := by
  have hp : (c.emu.pollHostControls hc).Alike (c'.emu.pollHostControls hc) := h.emu.poll
  obtain ⟨hw, hi⟩ := hp.idle hc
  unfold Run.interpStep
  rw [h.emu.state]
  split
  · exact h.finish
  · dsimp only
    rw [hp.state]
    split
    · rw [← hw]
      split
      · exact ⟨h.phase, hi⟩
      · exact Alike.finish ⟨h.phase, hi⟩
    · have hx := hp.exec hc
      cases he : (c.emu.pollHostControls hc).exec hc with
      | ok v e =>
        obtain ⟨s, hs, ha⟩ := Out.ok_of_view hx he
        rw [hs]
        exact Alike.afterPoll ⟨h.phase, Emu.Alike.poll ha⟩
      | exit e | stuck =>
        rw [he] at hx
        cases hs : (c'.emu.pollHostControls hc).exec hc with
        | ok v s =>
          rw [hs] at hx
          cases hx
        | exit s | stuck => exact ⟨rfl, h.emu⟩

/-- In the interpreter's loop, or over. -/
def Interp (c : Run H) : Prop := c.phase = .interp ∨ c.phase = .done

theorem Alike.step (h : c.Alike c') (hi : c.Interp) : (c.step hc).Alike (c'.step hc) := by
  unfold Run.step
  rw [h.phase]
  rcases hi with hi | hi <;> rw [hi]
  · exact h.interpStep
  · exact h

end Run

end Rk65c02
