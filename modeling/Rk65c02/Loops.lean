import Rk65c02.JitCounts
import Rk65c02.NativeRequests
import Rk65c02.Rules

/-! The invariant rule for what the run loops do between pieces of code, and for the
compilation of blocks. -/

namespace Rk65c02

open Resumption

variable {H : Type} (hc : HostCode H)

/-- Some debugging facility is on. -/
def Emu.debugging (e : Emu H) : Bool := e.trace || e.runtimeDisassembly || !e.bps.isEmpty

theorem Emu.debugging_off {e : Emu H} (h : e.debugging = false) :
    e.bps = [] ∧ e.trace = false ∧ e.runtimeDisassembly = false := by
  simp only [debugging, Bool.or_eq_false_iff, Bool.not_eq_false'] at h
  exact ⟨List.isEmpty_iff.1 h.2, h.1⟩

/-- What happens to the cache outside of compilation. -/
def Jit.Drifts (j k : Option Jit) : Prop :=
  (j.getD jitBackendCreate).Keyed → Jit.Moves (j.getD jitBackendCreate) (k.getD jitBackendCreate)

theorem Jit.Drifts.refl (j : Option Jit) : Drifts j j := fun _ => .refl

theorem Jit.Drifts.map {f : Jit → Jit} (hf : ∀ j, j.Keyed → Jit.Moves j (f j)) (j : Option Jit) :
    Drifts j (j.map f) := by
  cases j with
  | none => exact .refl none
  | some j => exact hf j

namespace Emu

/-- Kept also by what the loops do between pieces of code. -/
structure Loops (I : Emu H → Prop) : Prop extends Quiet hc I where
  stopNow : ∀ e, I e → e.stopRequested = true →
    I { e with state := .stopped, stopreason := .host, stopRequested := false }
  countdown : ∀ e n, I e → I { e with tickCountdown := n }
  engine : ∀ e j u b n, Jit.Drifts e.jit j → I e →
    I { e with jit := j, useJit := u, inJitRun := b, jitLoopBudget := n }

/-- Kept by everything but acknowledging the line and stopping. -/
structure Steady (I : Emu H → Prop) : Prop extends Loops hc I, Closed hc I

variable {hc} {I : Emu H → Prop} {e : Emu H}

theorem translatePaddr_mmu (hc : HostCode H) (e : Emu H) (a : Addr) (x : Access) :
    ∃ m, (e.jitTranslatePaddr hc a x).2 = { e with mmu := m } := by
  unfold jitTranslatePaddr mmuTranslateCached
  dsimp only
  split
  · exact ⟨e.mmu, rfl⟩
  · exact ⟨_, rfl⟩

theorem noteGuestWrite_frame (hc : HostCode H) (e : Emu H) (a : Addr) :
    ∃ j u m, e.jitNoteGuestWrite hc a = { e with jit := j, useJit := u, mmu := m } := by
  have hp : ∀ j : Jit, ∃ m, (e.jitPhysHit hc j a).2 = { e with mmu := m } := by
    intro j
    unfold jitPhysHit
    split
    · exact ⟨e.mmu, rfl⟩
    · exact translatePaddr_mmu hc e a .write
  unfold jitNoteGuestWrite
  split
  · exact ⟨e.jit, e.useJit, e.mmu, rfl⟩
  · next j hj =>
    split
    · exact ⟨e.jit, e.useJit, e.mmu, rfl⟩
    · obtain ⟨m, hm⟩ := hp j
      dsimp only
      rw [hm]
      split
      · exact ⟨e.jit, e.useJit, m, rfl⟩
      · split
        · exact ⟨_, _, m, rfl⟩
        · exact ⟨_, e.useJit, m, rfl⟩

theorem physTags_mmu (hc : HostCode H) (e : Emu H) (b : Block) :
    ∃ m, (e.jitPhysTags hc b).2 = { e with mmu := m } := by
  unfold jitPhysTags
  dsimp only
  split
  · obtain ⟨m1, h1⟩ := translatePaddr_mmu hc e b.startPc .fetch
    generalize e.jitTranslatePaddr hc b.startPc .fetch = t at h1 ⊢
    obtain ⟨_ | p, e1⟩ := t
    · exact ⟨m1, h1⟩
    · dsimp only
      split
      · obtain ⟨m2, h2⟩ := translatePaddr_mmu hc e1 (b.endPcExclusive - 1) .fetch
        generalize e1.jitTranslatePaddr hc (b.endPcExclusive - 1) .fetch = t at h2 ⊢
        replace h1 : e1 = { e with mmu := m1 } := h1
        subst h1
        obtain ⟨_ | q, e2⟩ := t <;> exact ⟨m2, h2⟩
      · exact ⟨m1, h1⟩
  · exact ⟨e.mmu, rfl⟩

/-- The build of a block fetches an instruction from `pc'` in the state `e'`. -/
inductive Fetches (hc : HostCode H) (startPc : Addr) : Nat → Addr → Emu H → Addr → Emu H → Prop
  | here {n : Nat} {pc : Addr} {e : Emu H} : Fetches hc startPc (n + 1) pc e pc e
  | later {n : Nat} {pc pc' : Addr} {e e₁ e' : Emu H} {i : Instruction}
      (hi : e.runCpu hc (instructionFetchEmu pc) = .ok i e₁) (h : Fetches hc startPc n (pc + i.size) e₁ pc' e') :
      Fetches hc startPc (n + 1) pc e pc' e'

theorem buildBlockInsns_ends {startPc : Addr} {n : Nat} {pc : Addr} (h : I e)
    (hfetch : ∀ pc' e', Fetches hc startPc n pc e pc' e' → I e' →
      (e'.runCpu hc (instructionFetchEmu pc')).Ends I) :
    (e.jitBuildBlockInsns hc startPc n pc).Ends I := by
  induction n generalizing pc e with
  | zero => exact h
  | succ n ih =>
    unfold jitBuildBlockInsns
    split
    · exact h
    · have hi := hfetch pc e .here h
      cases hr : e.runCpu hc (instructionFetchEmu pc) with
      | ok i e₁ =>
        replace hi : I e₁ := hi.ok hr
        rw [Out.ok_bind]
        split
        · exact hi
        · split
          · exact hi
          · split
            · exact hi
            · exact (ih hi fun pc' e' hf => hfetch pc' e' (.later hr hf)).bind (fun _ hs => hs) fun _ _ hs => hs
      | exit e₁ =>
        rw [hr] at hi
        exact hi
      | stuck => trivial

/-- The cache with a record for the block at `pc`. -/
def jitRecord (j : Jit) (pc : Addr) : Jit :=
  if (jitFindBlock j pc).isNone then { j with blocks := j.blocks ++ [.empty pc] } else j

/-- The record of the block at `pc`. -/
def recordAt (j : Jit) (pc : Addr) : Block := (jitFindBlock (jitRecord j pc) pc).getD (.empty pc)

/-- The end of a compilation: the tags of the block, and its code. -/
def compileEnd (hc : HostCode H) (pc : Addr) (b : Block) (insns : List Instruction) (e : Emu H) :
    Out (Emu H) (Option Block) :=
  if insns = [] then .ok none e
  else
    let (b, e) := e.jitPhysTags hc { b with endPcExclusive := blockEnd pc insns }
    let b := { b with numInsns := insns.length, fn := some insns }
    .ok (some b) { e with jit := e.jit.map fun j => jitInstall j b }

theorem compileBlock_none (hj : e.jit = none) (pc : Addr) : e.jitCompileBlock hc pc = .ok none e := by
  unfold jitCompileBlock
  rw [hj]

theorem compileBlock_some {j : Jit} (hj : e.jit = some j) (pc : Addr) : e.jitCompileBlock hc pc =
    if (recordAt j pc).active then .ok (some (recordAt j pc)) { e with jit := some (jitRecord j pc) }
    else (({ e with jit := some (jitRecord j pc) } : Emu H).jitBuildBlockInsns hc pc jitBlockMaxInsns pc).bind
      (compileEnd hc pc (recordAt j pc)) := by
  unfold jitCompileBlock
  rw [hj]
  rfl

/-- The compilation of the block at `pc` fetches an instruction from `pc'` in the state `e'`. -/
def CompileFetches (hc : HostCode H) (pc : Addr) (e : Emu H) (pc' : Addr) (e' : Emu H) : Prop :=
  ∃ j, e.jit = some j ∧ Fetches hc pc jitBlockMaxInsns pc { e with jit := some (jitRecord j pc) } pc' e'

/-- What the run loops, the line and the host have to do with each other. -/
structure Control (H : Type) where
  state : EmuState
  stopreason : StopReason
  irq : Bool
  stopRequested : Bool
  clock : Nat
  host : H
  onStop : Option Cb
  idleWait : Option Cb

def control (e : Emu H) : Control H :=
  ⟨e.state, e.stopreason, e.irq, e.stopRequested, e.clock, e.host, e.onStop, e.idleWait⟩

/-- The rule for a property of these fields only. -/
theorem loops_of_control (hframe : ∀ e e' : Emu H, e'.control = e.control → I e → I e')
    (harrive : ∀ e, I e → I (e.arrive hc))
    (hcallback : ∀ e c, c.notifies = false → I e → I (e.hostReturns (hc.invoke e.host c)))
    (herror : ∀ e, I e → I { e with state := .stopped, stopreason := .emuerror, stopRequested := false })
    (hstop : ∀ e, I e → e.stopRequested = true →
      I { e with state := .stopped, stopreason := .host, stopRequested := false }) : Loops hc I where
  arrive := harrive
  callback := hcallback
  mmu e _ h := hframe e _ rfl h
  ram e _ _ _ h := hframe e _ rfl h
  fault e _ _ _ h := hframe e _ rfl h
  error := herror
  leave e h := hframe e _ rfl h
  note e a h := by
    obtain ⟨j, u, m, hn⟩ := e.noteGuestWrite_frame hc a
    rw [hn]
    exact hframe e _ rfl h
  log e _ h := hframe e _ rfl h
  stopNow := hstop
  countdown e _ h := hframe e _ rfl h
  engine e _ _ _ _ _ h := hframe e _ rfl h

theorem steady_of_control (hframe : ∀ e e' : Emu H, e'.control = e.control → I e → I e')
    (harrive : ∀ e, I e → I (e.arrive hc)) (hcallback : ∀ e c, I e → I (e.hostReturns (hc.invoke e.host c)))
    (herror : ∀ e, I e → I { e with state := .stopped, stopreason := .emuerror, stopRequested := false })
    (hstop : ∀ e, I e → e.stopRequested = true →
      I { e with state := .stopped, stopreason := .host, stopRequested := false }) : Steady hc I where
  toLoops := loops_of_control hframe harrive (fun e c _ h => hcallback e c h) herror hstop
  notify e h := by
    unfold maybeCallOnStop
    split
    · exact h
    · exact hcallback e (.onStop _ _) h

theorem applyHostStopRequest_done (e : Emu H) : e.applyHostStopRequest.stopRequested = false := by
  unfold applyHostStopRequest
  cases hr : e.stopRequested with
  | false => exact hr
  | true => rfl

/-- A tick is a callback made while instructions are executed, or nothing but counting. -/
theorem maybeTick_cases (hc : HostCode H) (e : Emu H) : (∃ n, e.maybeTick hc = { e with tickCountdown := n }) ∨
    e.Active ∧ ∃ cb n n', e.maybeTick hc =
      { ({ e with tickCountdown := n } : Emu H).hostReturns (hc.tick e.host cb) with tickCountdown := n' } := by
  unfold maybeTick
  split
  · exact .inl ⟨e.tickCountdown, rfl⟩
  · next cb _ =>
    split
    · exact .inl ⟨e.tickCountdown, rfl⟩
    · next ha =>
      replace ha : e.Active := Decidable.by_contra fun hn => ha ⟨fun h => hn (.inl h), fun h => hn (.inr h)⟩
      split
      · exact .inr ⟨ha, cb, e.tickCountdown, (e.hostReturns (hc.tick e.host cb)).tickCountdown, rfl⟩
      · dsimp only
        generalize (if 0 < e.tickCountdown then e.tickCountdown - 1 else e.tickCountdown) = n
        split
        · exact .inr ⟨ha, cb, n,
            (({ e with tickCountdown := n } : Emu H).hostReturns (hc.tick e.host cb)).tickInterval, rfl⟩
        · exact .inl ⟨n, rfl⟩

namespace Loops

variable (hS : Loops hc I)

include hS

theorem applyHostStopRequest (h : I e) : I e.applyHostStopRequest := by
  unfold Emu.applyHostStopRequest
  cases hr : e.stopRequested with
  | false => exact h
  | true => exact hS.stopNow e h hr

theorem maybeTick (h : I e) : I (e.maybeTick hc) := by
  rcases maybeTick_cases hc e with ⟨n, ht⟩ | ⟨-, cb, n, n', ht⟩
  · rw [ht]
    exact hS.countdown e n h
  · rw [ht]
    exact hS.countdown _ _ (hS.callback _ (.tick cb) rfl (hS.countdown e n h))

theorem poll (h : I e) : I (e.pollHostControls hc) :=
  hS.applyHostStopRequest (hS.maybeTick (hS.applyHostStopRequest (hS.arrive e h)))

theorem idle (h : I e) : I (e.maybeWaitOnIdle hc).2 := by
  unfold maybeWaitOnIdle
  split
  · exact h
  · next cb _ =>
    split
    · exact h
    · exact hS.applyHostStopRequest (hS.callback _ (.idleWait cb) rfl h)

theorem setLoopBudget (h : I e) (n : BitVec 32) : I { e with jitLoopBudget := n } :=
  hS.engine e e.jit e.useJit e.inJitRun n (.refl _) h

theorem countInsns (h : I e) (n : Nat) : I { e with jit := e.jit.map fun j =>
    { j with stats := { j.stats with insnsExecuted := j.stats.insnsExecuted + n } } } := by
  refine hS.engine e _ e.useJit e.inJitRun e.jitLoopBudget (.map ?_ _) h
  exact fun _ _ => .single (.note rfl)

/-- Compilation asks for the bytes of the instructions and for nothing else. -/
theorem compileBlock (hjit : ∀ e j, I e → I { e with jit := j }) (h : I e) {pc : Addr}
    (hfetch : ∀ pc' e', CompileFetches hc pc e pc' e' → I e' → (e'.runCpu hc (instructionFetchEmu pc')).Ends I) :
    (e.jitCompileBlock hc pc).Ends I := by
  cases hj : e.jit with
  | none =>
    rw [compileBlock_none hj]
    exact h
  | some j =>
    rw [compileBlock_some hj]
    generalize recordAt j pc = b
    split
    · exact hjit _ _ h
    · refine (buildBlockInsns_ends (hjit _ _ h) fun pc' e' hf => hfetch pc' e' ⟨j, hj, hf⟩).bind (fun _ hs => hs)
        fun insns s hs => ?_
      unfold compileEnd
      split
      · exact hs
      · have ht := physTags_mmu hc s { b with endPcExclusive := blockEnd pc insns }
        generalize s.jitPhysTags hc { b with endPcExclusive := blockEnd pc insns } = t at ht ⊢
        obtain ⟨m, hm⟩ := ht
        refine hjit t.2 _ ?_
        rw [hm]
        exact hS.mmu s m hs

end Loops

namespace Steady

variable (hS : Steady hc I)

include hS

theorem finish (h : I e) : I (e.finish hc) := by
  unfold Emu.finish
  dsimp only
  split
  · exact hS.notify _ (hS.poll h)
  · exact hS.poll h

variable (hregs : ∀ e r, I e → I { e with regs := r })

include hregs

theorem fetchEmu (e : Emu H) (pc : Addr) (h : I e) : (e.runCpu hc (instructionFetchEmu pc)).Ends I := by
  refine hS.runCpu hregs h fun o r s hv _ => ?_
  have ho := (instructionFetchEmu_keeps (G := fun _ => True) pc e.regs trivial).visit hv
  cases o <;> trivial

/-- Native code: only the requests of the interpreter's code it contains need a look. -/
theorem runTree {α : Type} {t : Tree NOp NOp.Ret Regs α} (h : I e)
    (ha : ∀ o r s, Tree.Visit (handleNative hc) t e (.base o) r s → I (s.asked hc r) →
      Allows I o (s.asked hc r)) :
    (t.run (handleNative hc) e).Ends I := by
  refine Tree.run_visit (fun o r s hv hs => ?_) h
  have he : I (s.asked hc r) := hS.arrive _ (hregs s r hs)
  cases o with
  | base o => exact hS.handle hregs hs (ha o r s hv)
  | setLoopBudget n => exact hS.setLoopBudget he n
  | countInsns n => exact hS.countInsns he n
  | _ => exact he

end Steady

/-- Code of the interpreter inside native code. -/
theorem runNative_ofCpu {α β : Type} (e : Emu H) (x : Cpu α) (f : α → NCpu β) :
    e.runNative hc (NCpu.ofCpu x >>= f) = ((x.run e.regs).run (handle hc) e).bind fun v s =>
      putRegs (((f v.1).run v.2).run (handleNative hc) s) := by
  have hl : ((x.run e.regs).lift NOp.base fun _ v => v).run (handleNative hc) e = (x.run e.regs).run
    (handle hc) e := by
    refine Tree.run_lift (fun o r s => ?_) _ e
    change (handle hc o r s).bind (fun v s => .ok v s) = _
    cases handle hc o r s <;> rfl
  rw [runNative, StateT.run_bind, Tree.run_bind]
  change putRegs ((((x.run e.regs).lift NOp.base fun _ v => v).run (handleNative hc) e).bind _) = _
  rw [hl, putRegs, Out.bind_assoc]
  rfl

/-- The guard counts the budget down, then looks at the request and at the line. -/
theorem backedgeGuard_run (span : Nat) (r : Regs) (e : Emu H) {w : BitVec 64} {s t : Emu H}
    (hw : (e.asked hc r).jitLoopBudget.signExtend 64 - 1 = w)
    (hs : s = { (e.asked hc r).asked hc r with jitLoopBudget := w.setWidth 32 })
    (ht : t = (s.asked hc r).asked hc r) : ((backedgeGuard span).run r).run (handleNative hc) e =
      if w.sle 0 then .ok (true, r) s
      else if (s.asked hc r).stopRequested then .ok (true, r) (s.asked hc r)
      else if t.irq then .ok (true, r) t
      else .ok (false, r) { t.asked hc r with jit := (t.asked hc r).jit.map fun j =>
        { j with stats := { j.stats with insnsExecuted := j.stats.insnsExecuted + span } } } := by
  subst hs ht
  have hb : ((backedgeGuard span).run r).run (handleNative hc) e =
      (((if w.sle 0 then (return true : NCpu Bool) else do
        let s : Bool ← NCpu.request .stopRequested
        if s then return true
        let q : Bool ← NCpu.request .irqLine
        if q then return true
        NCpu.request (.countInsns span)
        return false)).run r).run (handleNative hc)
          { (e.asked hc r).asked hc r with jitLoopBudget := w.setWidth 32 } := by
    subst hw
    rfl
  rw [hb]
  split
  · rfl
  · generalize ({ (e.asked hc r).asked hc r with jitLoopBudget := w.setWidth 32 } : Emu H) = s
    change ((if (s.asked hc r).stopRequested then _ else _ : NCpu Bool).run r).run (handleNative hc)
      (s.asked hc r) = _
    split
    · rfl
    · generalize s.asked hc r = t
      change ((if (t.asked hc r).irq then _ else _ : NCpu Bool).run r).run (handleNative hc) (t.asked hc r) = _
      split <;> rfl

/-- After a store native code goes on only if the JIT is still in use. -/
theorem bailOut_run (hc : HostCode H) (r : Regs) (s : Emu H) :
    ∃ next, ((bailOut.run r).run (handleNative hc) s) = .ok (next, r) (s.asked hc r) ∧
      (next = .ret ∨ next = .fall ∧ (s.asked hc r).useJit = true) := by
  refine ⟨if (s.asked hc r).useJit then .fall else .ret, rfl, ?_⟩
  cases (s.asked hc r).useJit with
  | true => exact .inr ⟨rfl, rfl⟩
  | false => exact .inl rfl

/-- A fallback goes on in its block only if it finds the machine running. -/
theorem fallbackControl_run (hc : HostCode H) (id : InstrDef) (r : Regs) (s : Emu H) :
    ∃ next s', ((fallbackControl id).run r).run (handleNative hc) s = .ok (next, r) s' ∧
      (next = .ret ∨ (s.asked hc r).state = .running ∧ s'.useJit = true ∧ s' = (s.asked hc r).asked hc r) := by
  by_cases hm : id.modifyPc = true
  · refine ⟨.ret, s, ?_, .inl rfl⟩
    rw [fallbackControl, if_pos hm]
    rfl
  · refine ⟨if (s.asked hc r).state = .running ∧ ((s.asked hc r).asked hc r).useJit = true then .fall else .ret,
      (s.asked hc r).asked hc r, ?_, ?_⟩
    · rw [fallbackControl, if_neg hm]
      rfl
    · by_cases hs : (s.asked hc r).state = .running ∧ ((s.asked hc r).asked hc r).useJit = true
      · exact .inr ⟨hs.1, hs.2, rfl⟩
      · exact .inl (if_neg hs)

end Emu

end Rk65c02
