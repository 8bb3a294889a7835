import Rk65c02.Progress
import Rk65c02.Recording

/-! Stop requests: a request leaves a mark that nothing but the stop itself takes away, and a
loop that sees the mark ends the run. -/

namespace Rk65c02

open Resumption

variable {H : Type} {hc : HostCode H}

namespace Emu

/-- Stopped, and not to be woken up. -/
def Ended (e : Emu H) : Prop := e.state = .stopped ∧ e.stopreason ≠ .wai

/-- A stop is requested or has happened. -/
def Stopping (e : Emu H) : Prop := e.stopRequested = true ∨ e.Ended

variable {e : Emu H}

theorem foldl_requested (cs : List HostCall) (h : e.stopRequested = true ∨ .requestStop ∈ cs) :
    (cs.foldl hostCall e).stopRequested = true := by
  induction cs generalizing e with
  | nil => exact h.resolve_right List.not_mem_nil
  | cons c cs ih =>
    refine ih ?_
    rw [(hostCall_frame e c).stopRequested]
    by_cases hs : c = .requestStop
    · exact .inl (if_pos hs)
    · rw [if_neg hs]
      exact h.imp id fun hm => (List.mem_cons.1 hm).resolve_left fun hh => hs hh.symm

theorem Ended.foldl (h : e.Ended) (cs : List HostCall) : (cs.foldl hostCall e).Ended := by
  refine ⟨?_, ?_⟩
  · rcases foldl_state e cs with hs | hs
    · exact hs.trans h.1
    · exact absurd hs.2.2.1 h.2
  · rw [foldl_stopreason]
    exact h.2

theorem stopping_foldl (cs : List HostCall) (h : e.Stopping ∨ .requestStop ∈ cs) :
    (cs.foldl hostCall e).Stopping := by
  rcases h with (h | h) | h
  · exact .inl (foldl_requested cs (.inl h))
  · exact .inr (h.foldl cs)
  · exact .inl (foldl_requested cs (.inr h))

theorem Stopping.applyHostStopRequest (h : e.Stopping) : e.applyHostStopRequest.Ended := by
  unfold Emu.applyHostStopRequest
  cases hr : e.stopRequested with
  | true => exact ⟨rfl, StopReason.noConfusion⟩
  | false => exact h.resolve_left (by rw [hr]; exact Bool.false_ne_true)

/-- A poll answers the request. -/
theorem Stopping.poll (hc : HostCode H) (h : e.Stopping) : (e.pollHostControls hc).Ended := by
  have ha : (e.arrive hc).Stopping := by
    rw [arrive_eq]
    exact stopping_foldl (e := { e with clock := e.clock + 1 }) _ (.inl h)
  have hh := ha.applyHostStopRequest
  refine Stopping.applyHostStopRequest (.inr ?_)
  rcases maybeTick_cases hc (e.arrive hc).applyHostStopRequest with ⟨n, ht⟩ | ⟨hact, -⟩
  · rw [ht]
    exact hh
  · rcases hact with hs | hs <;> exact absurd (hh.1.symm.trans hs) EmuState.noConfusion

theorem Ended.not_waited (h : e.Ended) : (e.maybeWaitOnIdle hc).1 = false := by
  unfold maybeWaitOnIdle
  split
  · rfl
  · rw [if_pos (.inr h.2)]

theorem Ended.callOnStop (h : e.Ended) : (e.maybeCallOnStop hc).Ended := by
  unfold maybeCallOnStop
  split
  · exact h
  · next cb _ => exact Ended.foldl (e := { e with host := (hc.onStop e.host cb e.stopreason).1 }) h _

theorem Stopping.finish (h : e.Stopping) : (e.finish hc).Ended := by
  have hp := h.poll hc
  unfold Emu.finish
  dsimp only
  rw [if_pos hp.1]
  exact hp.callOnStop

/-- A request was made by a callback other than `on_stop`, or arrived. -/
def StopAsked (hc : HostCode H) : Emu (H × List Event) → Emu (H × List Event) → Prop :=
  Happened (fun n => .requestStop ∈ (hc.async n).map AsyncCall.call)
    fun ev => ev.callback.notifies = false ∧ .requestStop ∈ ev.calls

/-- Once there is a request since `e₀`, `P` holds. -/
structure Heeded (hc : HostCode H) (e₀ : Emu (H × List Event)) (P : Emu (H × List Event) → Prop)
    (e : Emu (H × List Event)) : Prop where
  before : e₀.Before e
  heeded : e₀.Stopping ∨ e₀.StopAsked hc e → P e

section Heeded

variable {e₀ e e' : Emu (H × List Event)} {P Q : Emu (H × List Event) → Prop}

theorem Heeded.mono (h : e₀.Heeded hc P e) (hpq : P e → Q e) : e₀.Heeded hc Q e :=
  ⟨h.before, fun hh => hpq (h.heeded hh)⟩

theorem Heeded.congr (hc' : e'.control = e.control) (h : e₀.Heeded hc P e) (hpq : P e → Q e') :
    e₀.Heeded hc Q e' :=
  ⟨h.before.congr hc', fun hh => hpq (h.heeded (hh.imp id (Happened.congr hc').1))⟩

/-- It is enough that `P` survives changes of the state, or holds after them. -/
theorem Heeded.next (h : e₀.Heeded hc P e) (hb : e.Before e') (hn : ¬e.StopAsked hc e') (hpq : P e → Q e') :
    e₀.Heeded hc Q e' := by
  refine ⟨h.before.trans hb, fun hh => hpq (h.heeded (hh.imp id fun ha => ?_))⟩
  exact ((Happened.iff_of_between h.before hb).1 ha).resolve_right hn

variable (hP : ∀ (s : Emu (H × List Event)) (cs : List HostCall), P s ∨ .requestStop ∈ cs →
    P (cs.foldl hostCall s))

include hP

theorem Heeded.arrive (h : e₀.Heeded hc P e) (hclock : P e → P { e with clock := e.clock + 1 }) :
    e₀.Heeded hc P (e.arrive hc.recording) := by
  refine ⟨h.before.trans (arrive_before hc e), fun hh => ?_⟩
  rw [arrive_eq]
  refine hP _ _ ?_
  rcases hh with hh | hh
  · exact .inl (hclock (h.heeded (.inl hh)))
  · rcases (Happened.iff_of_between h.before (arrive_before hc e)).1 hh with hh | hh
    · exact .inl (hclock (h.heeded (.inr hh)))
    · exact .inr ((happened_arrive hc e).1 hh)

theorem Heeded.callback (h : e₀.Heeded hc P e) (cb : Callback)
    (hhost : P e → P { e with host := (hc.recording.invoke e.host cb).1 }) :
    e₀.Heeded hc P (e.hostReturns (hc.recording.invoke e.host cb)) := by
  refine ⟨h.before.trans (callback_before hc e cb), fun hh => ?_⟩
  refine hP _ _ ?_
  rcases hh with hh | hh
  · exact .inl (hhost (h.heeded (.inl hh)))
  · rcases (Happened.iff_of_between h.before (callback_before hc e cb)).1 hh with hh | hh
    · exact .inl (hhost (h.heeded (.inr hh)))
    · rw [hc.recording_invoke]
      exact .inr ((happened_callback hc e cb).1 hh).2

omit hP

theorem Heeded.refl (h : ¬e.Stopping) : e.Heeded hc P e :=
  ⟨.refl e, fun hh => absurd hh (not_or.2 ⟨h, not_happened_refl e⟩)⟩

theorem Heeded.of_stopping (h : P e) : e.Heeded hc P e := ⟨.refl e, fun _ => h⟩

theorem steady_stopping (hc : HostCode H) (e₀ : Emu (H × List Event)) :
    Steady hc.recording (e₀.Heeded hc Stopping) := by
  have hstop : ∀ (e : Emu (H × List Event)) q, q ≠ .wai → e₀.Heeded hc Stopping e →
      e₀.Heeded hc Stopping { e with state := .stopped, stopreason := q, stopRequested := false } :=
    fun e q hq h => ⟨⟨h.before.clock, h.before.log⟩, fun _ => .inr ⟨rfl, hq⟩⟩
  refine steady_of_control (fun e e' hc' h => h.congr hc' fun hs => ?_)
    (fun e h => h.arrive (fun _ => stopping_foldl) fun hs => hs)
      (fun e cb h => h.callback (fun _ => stopping_foldl) cb fun hs => hs)
    (fun e => hstop e _ StopReason.noConfusion) fun e h _ => hstop e _ StopReason.noConfusion h
  have hr : e'.stopRequested = e.stopRequested := congrArg Control.stopRequested hc'
  have ht : e'.state = e.state := congrArg Control.state hc'
  have hq : e'.stopreason = e.stopreason := congrArg Control.stopreason hc'
  rwa [Stopping, Ended, hr, ht, hq]

/-- Nothing but a stop takes the request away. -/
theorem accesses_requested (hc : HostCode H) (e₀ : Emu (H × List Event)) :
    Accesses hc.recording (e₀.Heeded hc fun e => e.stopRequested = true) where
  callback e cb _ h := h.callback (fun _ => foldl_requested) cb fun hs => hs
  mmu e _ h := h.congr (e := e) rfl fun hs => hs
  ram e _ _ _ h := h.congr (e := e) rfl fun hs => hs
  note e a h := by
    obtain ⟨j, u, m, hn⟩ := e.noteGuestWrite_frame hc.recording a
    rw [hn]
    exact h.congr (e := e) rfl fun hs => hs

theorem Heeded.asked (h : e₀.Heeded hc (fun e => e.stopRequested = true) e) (r : Regs) :
    e₀.Heeded hc (fun e => e.stopRequested = true) (e.asked hc.recording r) := by
  have hr : e₀.Heeded hc (fun e => e.stopRequested = true) { e with regs := r } :=
    h.congr (e := e) rfl fun hs => hs
  exact hr.arrive (fun _ => foldl_requested) fun hs => hs

theorem Heeded.frame (hr : e'.stopRequested = e.stopRequested) (hcl : e'.clock = e.clock) (hh : e'.host = e.host)
    (h : e₀.Heeded hc (fun e => e.stopRequested = true) e) :
    e₀.Heeded hc (fun e => e.stopRequested = true) e' := by
  refine ⟨⟨hcl ▸ h.before.clock, hh ▸ h.before.log⟩, fun ha => hr.trans (h.heeded (ha.imp id fun ha => ?_))⟩
  rwa [StopAsked, Happened, hcl, hh] at ha

/-- `WAI` alone makes a stop that can be woken up from, and it leaves the request standing. -/
theorem Heeded.execRun (h : e₀.Heeded hc Stopping e) (hr : e.state = .running)
    (hwai : ∀ i, e.fetched hc.recording = some i → i.emul = .wai → ∀ o r s,
      Tree.Visit (handle hc.recording) (execFetch.run e.regs) e o r s →
      ¬(s.asked hc.recording r).Refuses hc.recording o) :
    (e.execRun hc.recording).Ends (e₀.Heeded hc Stopping) := by
  have hA := accesses_requested hc e₀
  by_cases hw : ∃ i, e.fetched hc.recording = some i ∧ i.emul = .wai
  · obtain ⟨i, hi, him⟩ := hw
    have h₁ : e₀.Heeded hc (fun e => e.stopRequested = true) e := h.mono fun hs => hs.resolve_right fun hh =>
      EmuState.noConfusion (hr.symm.trans hh.1)
    have hask : ∀ o r s, ¬(s.asked hc.recording r).Refuses hc.recording o →
      e₀.Heeded hc (fun e => e.stopRequested = true) s →
        (handle hc.recording o r s).Ends (e₀.Heeded hc fun e => e.stopRequested = true) := by
      intro o r s hn hs
      refine (hA.answer (hs.asked r) o (fun _ s _ => .frame (e := s) rfl rfl rfl) (fun _ => ?_) (fun _ _ => ?_)
        (fun ho => ?_) fun a x code hre => absurd hre hn).ends
      · exact .frame (e := s.asked hc.recording r) rfl rfl rfl (hs.asked r)
      · exact .frame (e := s.asked hc.recording r) rfl rfl rfl (hs.asked r)
      · rw [ho] at hn
        exact absurd trivial hn
    have hf : (e.fetchRun hc.recording).Ends (e₀.Heeded hc fun e => e.stopRequested = true) :=
      Tree.run_visit (fun o r s hv hs => hask o r s (hwai i hi him o r s hv) hs) h₁
    refine Out.Ends.mono (I := e₀.Heeded hc fun e => e.stopRequested = true) ?_ fun _ hs => hs.mono .inl
    rw [execRun_eq]
    rw [fetched] at hi
    cases hfe : e.fetchRun hc.recording with
    | ok v s =>
      rw [hfe] at hi hf
      change (((execRest e.regs.PC v.1).run v.2).run (handle hc.recording) s).Ends _
      rw [show v.1 = some i from hi]
      refine Tree.run_visit (fun o r s hv hs => hask o r s (fun hre => ?_) hs) hf
      have ho := (execInsn_wai _ him v.2 trivial).visit hv
      cases o <;> first | exact hre | exact ho
    | exit s =>
      rw [hfe] at hi
      cases hi
    | stuck => trivial
  · have hS := steady_stopping hc e₀
    have hregs : ∀ (s : Emu (H × List Event)) r, e₀.Heeded hc Stopping s →
      e₀.Heeded hc Stopping { s with regs := r } :=
      fun s _ h => h.congr (e := s) rfl fun hs => hs
    have hstop : ∀ (s : Emu (H × List Event)) q, q ≠ .wai → e₀.Heeded hc Stopping s →
        e₀.Heeded hc Stopping { s with state := .stopped, stopreason := q } :=
      fun s q hq h => ⟨⟨h.before.clock, h.before.log⟩, fun _ => .inr ⟨rfl, hq⟩⟩
    have hack : ∀ s : Emu (H × List Event), e₀.Heeded hc Stopping s →
      e₀.Heeded hc Stopping { s with irq := false } :=
      fun s h => ⟨⟨h.before.clock, h.before.log⟩, h.heeded⟩
    refine hS.execRun hregs (hS.arrive _ (hregs e _ h)) (fun _ => hack)
      (fun s => hstop s _ StopReason.noConfusion)
      fun i r s hf hs => ?_
    have hi : e.fetched hc.recording = some i := by rw [fetched, hf]
    exact hS.execInsn hregs hs _ i r (fun _ => hack) (fun him => absurd ⟨i, hi, him⟩ hw) fun _ s =>
      hstop s _ StopReason.noConfusion

/-- In a block an error is the only stop that clears the request, and it ends the block. -/
theorem handleNative_requested (o : NOp) (r : Regs) (h : e₀.Heeded hc (fun e => e.stopRequested = true) e)
    (hin : e.inJitRun = true) : (handleNative hc.recording o r e).Leads
      (fun s => e₀.Heeded hc (fun e => e.stopRequested = true) s ∧ s.inJitRun = true) Ended := by
  have ha : e₀.Heeded hc (fun e => e.stopRequested = true) (e.asked hc.recording r) ∧
    (e.asked hc.recording r).inJitRun = true :=
    ⟨h.asked r, (arrive_inJitRun hc.recording _).trans hin⟩
  have hframe : ∀ s s' : Emu (H × List Event), s'.stopRequested = s.stopRequested → s'.clock = s.clock →
    s'.host = s.host →
      s'.inJitRun = s.inJitRun → e₀.Heeded hc (fun e => e.stopRequested = true) s ∧ s.inJitRun = true →
      e₀.Heeded hc (fun e => e.stopRequested = true) s' ∧ s'.inJitRun = true :=
    fun s s' hr hcl hh hi hs => ⟨hs.1.frame hr hcl hh, hi.trans hs.2⟩
  have hexit : ∀ {s : Emu (H × List Event)}, s.state = .stopped ∧ s.stopreason = .emuerror → s.Ended := fun hs =>
    ⟨hs.1, fun hq => StopReason.noConfusion (hs.2.symm.trans hq)⟩
  change ((e.asked hc.recording r).answerNative hc.recording o).Leads _ _
  generalize e.asked hc.recording r = s at ha ⊢
  cases o with
  | base o =>
    refine ((accesses_requested hc e₀).and (accesses_inJitRun hc.recording true)).answer ha o
      (fun _ s _ => hframe s _ rfl rfl rfl rfl) (fun _ => hframe s _ rfl rfl rfl rfl ha)
      (fun _ _ => hframe s _ rfl rfl rfl rfl ha) (fun _ => ?_) fun a x code _ => ?_
    · exact (emuStopError_exits ha.2).mono (fun _ hs => hs.elim) fun _ => hexit
    · exact (mmuFault_exits (e := (s.mmuTranslateAddr hc.recording a x).2) ha.2 a x code).mono
        (fun _ hs => hs.elim)
        fun _ => hexit
  | setLoopBudget n => exact hframe s _ rfl rfl rfl rfl ha
  | countInsns n => exact hframe s _ rfl rfl rfl rfl ha
  | _ => exact ha

theorem Heeded.native (h : e₀.Heeded hc (fun e => e.stopRequested = true) e) (hin : e.inJitRun = true)
    (ctx : EmitCtx) (k : Nat) (i : Instruction) : (e.runNative hc.recording (nativeInsn ctx k i)).Leads
      (e₀.Heeded hc fun e => e.stopRequested = true) Ended := by
  have hx := (nativeInsn_within ctx k i e.regs).run_leads
    (A := fun s => e₀.Heeded hc (fun e => e.stopRequested = true) s ∧ s.inJitRun = true) (B := Ended)
    (fun o r s _ hs => handleNative_requested o r hs.1 hs.2) ⟨h, hin⟩
  exact hx.bind fun _ s hs => hs.1.frame (e := s) rfl rfl rfl

end Heeded

section Guard

variable {ctx : EmitCtx} {k : Nat} {i : Instruction}

theorem requested_asked (h : e.stopRequested = true) (r : Regs) : (e.asked hc r).stopRequested = true := by
  rw [asked, arrive_eq]
  exact foldl_requested (e := { e with regs := r, clock := _ }) _ (.inl h)

/-- The guard of a backward jump sees the request. -/
theorem backedgeGuard_requested (hc : HostCode H) (h : e.stopRequested = true) (span : Nat) (r : Regs) :
    ∃ s, ((backedgeGuard span).run r).run (handleNative hc) e = .ok (true, r) s := by
  rw [backedgeGuard_run span r e rfl rfl rfl]
  split
  · exact ⟨_, rfl⟩
  · rw [if_pos]
    · exact ⟨_, rfl⟩
    · refine requested_asked ?_ r
      exact requested_asked (requested_asked h r) r

/-- With a request standing, jumps inside a block go forward. -/
theorem native_forward {e' : Emu H} {t : Nat} (h : e.stopRequested = true)
    (hx : e.runNative hc (nativeInsn ctx k i) = .ok (.goto t) e') : k < t := by
  rcases native_goto hx with hk | ⟨r, r', s, hg, -⟩
  · exact hk
  · obtain ⟨s', hs⟩ := backedgeGuard_requested hc h (k - t + 1) r
    rw [hs] at hg
    cases hg

end Guard

end Emu

namespace Run

variable {c : Run (H × List Event)} {e₀ : Emu (H × List Event)}

/-- No access of an interrupt entry, or of a fetch, is refused right before a `WAI` that the
loops interpret. -/
def WaiUnrefused (hc : HostCode H) (c : Run H) : Prop :=
  ∀ e i, c.Execs hc e → e.fetched hc = some i → i.emul = .wai → ∀ o r s,
    Tree.Visit (Emu.handle hc) (execFetch.run e.regs) e o r s → ¬(s.asked hc r).Refuses hc o

/-- What the end of the loop makes of a request. -/
theorem finish_heeded {e : Emu (H × List Event)} (h : e₀.Heeded hc Emu.Stopping e) :
    e₀.Heeded hc Emu.Ended (e.finish hc.recording) := by
  have hp : e₀.Heeded hc Emu.Ended (e.pollHostControls hc.recording) := by
    refine ((Emu.steady_stopping hc e₀).poll h).mono fun hs => hs.resolve_left ?_
    rw [show (e.pollHostControls hc.recording).stopRequested = false from Emu.applyHostStopRequest_done _]
    exact Bool.false_ne_true
  unfold Emu.finish
  dsimp only
  split
  · have hc' : (e.pollHostControls hc.recording).Ended →
        ((e.pollHostControls hc.recording).maybeCallOnStop hc.recording).Ended :=
      Emu.Ended.callOnStop
    unfold Emu.maybeCallOnStop at hc' ⊢
    split at hc'
    · exact hp
    · next cb _ =>
      refine hp.next (Emu.callback_before hc _ (.onStop cb _)) (fun ha => ?_) hc'
      exact Bool.noConfusion ((Emu.happened_callback hc _ (.onStop cb _)).1 ha).1
  · exact hp

theorem native_heeded (hs : c.Sound) (h : e₀.Heeded hc Emu.Stopping c.emu) {b : Block} {k : Nat} {i : Instruction}
    (he : c.Enters b k i) :
    (c.emu.runNative hc.recording (nativeInsn ⟨insnAddrs b.startPc (b.fn.getD [])⟩ k i)).Ends
      (e₀.Heeded hc Emu.Stopping) := by
  have hfits := hs.fits
  rw [he.1] at hfits
  have hr : e₀.Heeded hc (fun e => e.stopRequested = true) c.emu := h.mono fun hst => hst.resolve_right fun hh =>
    EmuState.noConfusion (hfits.2.1.symm.trans hh.1)
  have hl := hr.native hfits.1 ⟨insnAddrs b.startPc (b.fn.getD [])⟩ k i
  have hb := keeps_native (Emu.steady_before hc e₀) (fun _ _ h => ⟨h.clock, h.log⟩) h.before
    (fun e _ hb => (Emu.execRun_before hc e).mono fun _ hs => hb.trans ((Emu.asked_before hc e e.regs).trans hs))
      he
  cases hx : c.emu.runNative hc.recording (nativeInsn ⟨insnAddrs b.startPc (b.fn.getD [])⟩ k i) with
  | ok next e => exact (hl.ok hx).mono .inl
  | exit e =>
    rw [hx] at hb
    exact ⟨hb, fun _ => .inr (hl.exit hx)⟩
  | stuck => trivial

/-- A request made in a step is standing, or answered, at its end. -/
theorem step_heeded (hc : HostCode H) (hs : c.Sound) (hne : c.phase ≠ .done) (hw : c.WaiUnrefused hc.recording)
    (h : e₀.Heeded hc Emu.Stopping c.emu) :
    Ends (e₀.Heeded hc Emu.Stopping) (e₀.Heeded hc Emu.Ended) (c.step hc.recording) := by
  have hS := Emu.steady_stopping hc e₀
  have hregs : ∀ (s : Emu (H × List Event)) r, e₀.Heeded hc Emu.Stopping s →
      e₀.Heeded hc Emu.Stopping { s with regs := r } := fun s _ h => h.congr (e := s) rfl fun hs => hs
  exact ends_step (fun _ => hS.poll) (fun _ => hS.idle) hS.engine hS.mmu (fun _ h _ => finish_heeded h)
    (fun e b e' _ hi hr => (hS.compileBlock (fun s _ h => h.congr (e := s) rfl fun hs => hs) hi
      fun pc' e' _ h => hS.fetchEmu hregs e' pc' h).ok hr) hne h
    (fun e e' he hi hr => (Emu.Closed.putRegs hregs (hi.execRun he.running fun i => hw e i he)).ok hr)
    fun b k i he => native_heeded hs h he

/-- A request is standing, or, at the end, has been answered. -/
def Stopping (c : Run H) : Prop := c.Ends Emu.Stopping Emu.Ended

section Stopping

variable {c : Run H}

theorem Stopping.emu (h : c.Stopping) : c.emu.Stopping := by
  unfold Stopping Ends at h
  split at h
  · exact .inr h
  · exact h

theorem polled_none (h : c.emu.Stopping) : c.polled hc = none := by
  unfold polled
  split
  · rfl
  · rw [if_pos]
    rw [(h.poll hc).1]
    exact EmuState.noConfusion

theorem not_polled {e : Emu H} (h : c.emu.Stopping) : c.polled hc ≠ some e := by
  rw [polled_none h]
  exact fun hh => nomatch hh

theorem not_compiles {e : Emu H} (h : c.emu.Stopping) : ¬c.Compiles hc e := by
  rintro ⟨hd⟩
  exact not_polled h hd.polled

theorem not_interprets {e : Emu H} (h : c.emu.Stopping) : ¬c.Interprets hc e := by
  rintro (hd | hd | ⟨hd, -⟩)
  · exact not_polled h hd.polled
  · exact not_polled h hd.polled
  · exact not_compiles h hd

theorem not_offers {e : Emu H} {b : Block} (h : c.emu.Stopping) : ¬c.Offers hc e b := by
  rintro (hd | ⟨hd, -⟩)
  · exact not_polled h hd.polled
  · exact not_compiles h hd

theorem not_execs {e : Emu H} (h : c.emu.Stopping) : ¬c.Execs hc e := by
  rintro (⟨-, hd⟩ | hd)
  · exact not_polled h hd
  · exact not_interprets h hd

/-- What a run that is to stop still has to do. -/
def rank (c : Run H) : Nat :=
  match c.phase with
  | .block b k => (b.fn.getD []).length - k + 1
  | .dispatch | .interp => 1
  | .done | .stuck => 0

theorem step_rank (hs : c.Sound) (h : c.Stopping) (hne : c.phase ≠ .done) : (c.step hc).rank < c.rank := by
  have hsound := step_sound hc hs
  have ho := c.step_outcome hc
  have hloop : ∀ c' : Run H, c.phase = .dispatch ∨ c.phase = .interp → (Run.finish hc c').rank < c.rank := by
    rintro c' (hp | hp) <;> · unfold rank; rw [hp]; exact Nat.zero_lt_one
  have hblock : ∀ {b k i} {c' : Run H}, c.Enters b k i → c'.phase = .dispatch ∨ c'.phase = .done →
    c'.rank < c.rank := by
    intro b k i c' he hp
    have hfits := hs.fits
    rw [he.1] at hfits
    have hk := hfits.2.2
    unfold rank
    rw [he.1]
    rcases hp with hp | hp <;> · rw [hp]; dsimp only; omega
  generalize c.step hc = c' at ho hsound ⊢
  cases ho with
  | finished hp =>
    rcases hp with hp | hp
    · exact absurd hp hne
    · exact absurd hp hs.ne_stuck
  | stopped hp => exact hloop _ hp
  | waits hp hst hw =>
    rw [(h.emu.poll hc).not_waited] at hw
    cases hw
  | polled hp => exact hloop _ hp
  | debugs hp => exact hloop _ (.inl hp)
  | handsOver hp hpo => exact absurd hpo (not_polled h.emu)
  | interprets hi => exact absurd hi (not_interprets h.emu)
  | interpretsLast hi => exact absurd hi (not_interprets h.emu)
  | round hp hpo => exact absurd hpo (not_polled h.emu)
  | compileStops hi => exact absurd hi (not_compiles h.emu)
  | enters hb => exact absurd hb (not_offers h.emu)
  | entersTagged hb => exact absurd hb (not_offers h.emu)
  | drops hb => exact absurd hb (not_offers h.emu)
  | @goesOn b k k' i next e he hx hn =>
    have hk : k < k' := by
      rcases hn with rfl | ⟨-, rfl, -⟩
      · refine Emu.native_forward ?_ hx
        have hfits := hs.fits
        rw [he.1] at hfits
        exact h.emu.resolve_right fun hh => EmuState.noConfusion (hfits.2.1.symm.trans hh.1)
      · exact Nat.lt_succ_self k
    have hlen : k' < (b.fn.getD []).length := hsound.fits.2.2
    unfold rank
    rw [he.1]
    dsimp only
    omega
  | @returns b k i next e he hx hn =>
    exact hblock he (blockReturn_phase hc { c with emu := e })
  | @exits b k i e he hx =>
    refine hblock he (.inl ?_)
    exact (processPendingWrites_inJitRun _).2
  | roundFails => exact absurd rfl hsound.ne_stuck
  | execFails => exact absurd rfl hsound.ne_stuck
  | compileFails => exact absurd rfl hsound.ne_stuck
  | nativeFails => exact absurd rfl hsound.ne_stuck
  | offBlock => exact absurd rfl hsound.ne_stuck

end Stopping

theorem step_stopping (hs : c.Sound) (h : c.Stopping) : (c.step hc.recording).Stopping := by
  by_cases hd : c.phase = .done
  · unfold step
    rw [hd]
    exact h
  · have hh := step_heeded hc hs hd (fun e i he => absurd he (not_execs h.emu)) (.of_stopping h.emu)
    unfold Stopping Ends at hh ⊢
    split at hh
    · exact (if_pos ‹_›).mpr (hh.heeded (.inl h.emu))
    · exact (if_neg ‹_›).mpr (hh.heeded (.inl h.emu))

/-- From here on no instruction is interpreted and no block dispatched, and the call returns
with the machine stopped. -/
structure Winds (hc : HostCode H) (c : Run H) : Prop where
  interprets : ∀ m e, ¬(c.steps hc m).Execs hc e
  dispatches : ∀ m e b, ¬(c.steps hc m).Offers hc e b
  returns : ∃ m, (c.steps hc m).phase = .done ∧ (c.steps hc m).emu.state = .stopped

theorem steps_stopping (hc : HostCode H) (hs : c.Sound) (h : c.Stopping) (m : Nat) :
    (c.steps hc.recording m).Sound ∧ (c.steps hc.recording m).Stopping :=
  steps_keeps (P := fun c => c.Sound ∧ c.Stopping) (Q := fun _ => True)
    (fun _ h _ => ⟨step_sound _ h.1, step_stopping h.1 h.2⟩) ⟨hs, h⟩ m fun _ _ => trivial

theorem Stopping.returns (hc : HostCode H) (hs : c.Sound) (h : c.Stopping) :
    ∃ m, (c.steps hc.recording m).phase = .done := by
  generalize hn : c.rank = n
  induction n using Nat.strongRecOn generalizing c with
  | ind n ih =>
    by_cases hd : c.phase = .done
    · exact ⟨0, hd⟩
    · obtain ⟨m, hm⟩ := ih _ (hn ▸ step_rank hs h hd) (step_sound hc.recording hs) (step_stopping hs h) rfl
      exact ⟨m + 1, hm⟩

theorem Stopping.winds (hs : c.Sound) (h : c.Stopping) : c.Winds hc.recording := by
  refine ⟨fun m e => not_execs (steps_stopping hc hs h m).2.emu, fun m e b =>
    not_offers (steps_stopping hc hs h m).2.emu, ?_⟩
  obtain ⟨m, hm⟩ := h.returns hc hs
  have hh := (steps_stopping hc hs h m).2
  unfold Stopping Ends at hh
  rw [if_pos hm] at hh
  exact ⟨m, hm, hh.1⟩

end Run

/-- A stop request made in a step ends the run: what the step had begun, an instruction or a
block, is the last of it. -/
theorem stop_request_honoured (hc : HostCode H) (e : Emu (H × List Event)) (he : e.Fit) (n : Nat)
    (hw : (e.start.steps hc.recording n).WaiUnrefused hc.recording)
    (ha : (e.start.steps hc.recording n).emu.StopAsked hc
      ((e.start.steps hc.recording n).step hc.recording).emu) :
    ((e.start.steps hc.recording n).step hc.recording).Winds hc.recording := by
  have hs := he.steps hc.recording n
  generalize e.start.steps hc.recording n = c at hw ha hs ⊢
  have hne : c.phase ≠ .done := fun hd => by
    unfold Run.step at ha
    rw [hd] at ha
    exact Emu.not_happened_refl _ ha
  have hst : (c.step hc.recording).Stopping := by
    by_cases hst : c.emu.Stopping
    · refine Run.step_stopping hs ?_
      exact Run.ends_of_ne hne hst
    · have hh := Run.step_heeded hc hs hne hw (.refl hst)
      unfold Run.Stopping Run.Ends at hh ⊢
      split at hh
      · exact (if_pos ‹_›).mpr (hh.heeded (.inr ha))
      · exact (if_neg ‹_›).mpr (hh.heeded (.inr ha))
  exact hst.winds (Run.step_sound hc.recording hs)

/-- A host that asks for a stop at time `n` and ends each idle wait with an interrupt. -/
def askingHost (tr : Translate) (n : Nat) : HostCode Unit :=
  { quietHost tr with
    idleWait := fun h _ => (h, [.assertIrq])
    async := fun m => if m = n then [.requestStop] else [] }

/-- An emulator over RAM full of one byte, with an interrupt to enter. -/
def askedEmu (v : Byte) : Emu (Unit × List Event) :=
  { (init (ramBus fun _ => v) ((), []) ⟨0, 0, 0, 0x0200, 0xFF, 0⟩ : Emu (Unit × List Event)) with
    regs := ⟨0, 0, 0, 0x0200, 0xFF, 0x20⟩, irq := true, idleWait := some 0 }

/-- The request comes while the interrupt is entered, and the handler begins with a `NOP`. -/
theorem stop_request_honoured_nop :
    ((askedEmu 0xEA).start.step (askingHost identity 1).recording).Winds (askingHost identity 1).recording := by
  refine stop_request_honoured (askingHost identity 1) (askedEmu 0xEA) ⟨Jit.filled_create, rfl⟩ 0
    (fun e i he hi him => ?_)
    (.inl ⟨1, by decide +kernel, by decide +kernel, by decide⟩)
  have hf : ((askedEmu 0xEA).start.polled (askingHost identity 1).recording).all
      (fun e => (e.fetched (askingHost identity 1).recording).all fun i => i.emul ≠ .wai) = true := by
        decide +kernel
  replace he : (askedEmu 0xEA).start.polled (askingHost identity 1).recording = some e :=
    (Run.callsExec_interp rfl).1 (.inl he)
  rw [he, Option.all_some, hi, Option.all_some] at hf
  exact absurd him (of_decide_eq_true hf)

/-- An emulator whose stack refuses the interrupt entry, over RAM full of `WAI`. -/
def refusedEmu : Emu (Unit × List Event) := (askedEmu 0xCB).hostCall (.mmuSet (some 0) none true false)

/-- The error takes the request away, the `WAI` at the handler's start makes it a stop to wake up
from, and the run goes on. -/
theorem refused_entry_loses_stop :
    refusedEmu.start.emu.StopAsked (askingHost withoutStack 1)
    (refusedEmu.start.step (askingHost withoutStack 1).recording).emu ∧
      (refusedEmu.start.step (askingHost withoutStack 1).recording).emu.stopRequested = false ∧
      ¬(refusedEmu.start.step (askingHost withoutStack 1).recording).Winds
      (askingHost withoutStack 1).recording := by
  refine ⟨.inl ⟨1, by decide +kernel, by decide +kernel, by decide⟩, by decide +kernel, fun hw => ?_⟩
  have hp : (refusedEmu.start.step (askingHost withoutStack 1).recording).phase = .interp := by decide +kernel
  have hs : ((refusedEmu.start.step (askingHost withoutStack 1).recording).polled
    (askingHost withoutStack 1).recording).isSome =
    true := by decide +kernel
  obtain ⟨e, he⟩ := Option.isSome_iff_exists.1 hs
  exact hw.interprets 0 e (.inl ⟨hp, he⟩)

end Rk65c02
