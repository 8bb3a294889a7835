import Rk65c02.Loops
import Mathlib.Logic.Function.Iterate

/-! One step of a run, once and for all: everything it can do, and the rule for what it
keeps. -/

namespace Rk65c02

open Resumption

variable {H : Type} (hc : HostCode H)

/-- What the dispatcher does before it compiles: a full cache is flushed. -/
def jitMakeRoom (j : Jit) : Jit := if jitMaxActiveBlocks ≤ j.activeBlocks then jitBackendFlush j else j

namespace Run

/-- The emulator after the poll of a round, if the round goes on. -/
def polled (c : Run H) : Option (Emu H) :=
  if c.emu.state ≠ .running then none
  else if (c.emu.pollHostControls hc).state ≠ .running then none
  else some (c.emu.pollHostControls hc)

/-- The dispatcher goes on with the cache `j`. -/
structure Dispatches (c : Run H) (e : Emu H) (j : Jit) : Prop where
  phase : c.phase = .dispatch
  polled : c.polled hc = some e
  debugging : e.debugging = false
  useJit : e.useJit = true
  jit : e.jit = some j

/-- The dispatcher calls `jit_compile_block` on the emulator. -/
inductive Compiles (c : Run H) : Emu H → Prop
  | mk {e : Emu H} {j : Jit} (hd : c.Dispatches hc e j) (hirq : (e.irq && !e.regs.flag pIrqDisable) = false)
      (hmut : j.mutableCodePage (page e.regs.PC) = false)
      (hfind : (jitFindBlock j e.regs.PC).filter Block.active = none) :
        Compiles c { e with jit := some (jitMakeRoom j) }

/-- The dispatcher executes one instruction in the interpreter. -/
inductive Interprets (c : Run H) : Emu H → Prop
  | irq {e : Emu H} {j : Jit} (hd : c.Dispatches hc e j) (hirq : (e.irq && !e.regs.flag pIrqDisable) = true) :
      Interprets c e
  | mutable {e : Emu H} {j : Jit} (hd : c.Dispatches hc e j) (hirq : (e.irq && !e.regs.flag pIrqDisable) = false)
      (hmut : j.mutableCodePage (page e.regs.PC) = true) : Interprets c e
  | uncompiled {e e' : Emu H} (hd : c.Compiles hc e) (hb : e.jitCompileBlock hc e.regs.PC = .ok none e')
      (hs : e'.state = .running) : Interprets c e'

/-- The step calls `rk65c02_exec` on the emulator, outside of a block. -/
def Execs (c : Run H) (e : Emu H) : Prop := c.phase = .interp ∧ c.polled hc = some e ∨ c.Interprets hc e

/-- The step runs the native code of an instruction. -/
def Enters (c : Run H) (b : Block) (k : Nat) (i : Instruction) : Prop :=
  c.phase = .block b k ∧ (b.fn.getD [])[k]? = some i

/-- The dispatcher has the active block `b` for `PC`. -/
inductive Offers (c : Run H) : Emu H → Block → Prop
  | found {e : Emu H} {j : Jit} {b : Block} (hd : c.Dispatches hc e j)
      (hirq : (e.irq && !e.regs.flag pIrqDisable) = false)
      (hmut : j.mutableCodePage (page e.regs.PC) = false)
      (hb : (jitFindBlock j e.regs.PC).filter Block.active = some b) : Offers c e b
  | compiled {e e' : Emu H} {b : Block} (hd : c.Compiles hc e)
      (hb : e.jitCompileBlock hc e.regs.PC = .ok (some b) e')
      (hs : e'.state = .running) : Offers c e' b

/-- Everything a step can do. -/
inductive Outcome (c : Run H) : Run H → Prop
  | finished (hp : c.phase = .done ∨ c.phase = .stuck) : Outcome c c
  | stopped (hp : c.phase = .dispatch ∨ c.phase = .interp) (hs : c.emu.state ≠ .running) : Outcome c (c.finish hc)
  | waits (hp : c.phase = .dispatch ∨ c.phase = .interp) (hs : c.emu.state = .running)
      (hw : ((c.emu.pollHostControls hc).maybeWaitOnIdle hc).1 = true) :
      Outcome c { c with emu := ((c.emu.pollHostControls hc).maybeWaitOnIdle hc).2 }
  | polled (hp : c.phase = .dispatch ∨ c.phase = .interp) (hs : c.emu.state = .running)
      (hs' : (c.emu.pollHostControls hc).state ≠ .running)
      (hw : ((c.emu.pollHostControls hc).maybeWaitOnIdle hc).1 = false) :
      Outcome c (finish hc { c with emu := c.emu.pollHostControls hc })
  | debugs {e : Emu H} (hp : c.phase = .dispatch) (hpo : c.polled hc = some e) (hd : e.debugging = true) :
      Outcome c (finish hc { c with emu := e })
  | handsOver {e : Emu H} (hp : c.phase = .dispatch) (hpo : c.polled hc = some e) (hd : e.debugging = false)
      (hj : e.useJit = true → e.jit = none) : Outcome c { c with emu := e, phase := .interp }
  | interprets {e e' : Emu H} (hi : c.Interprets hc e) (hx : e.exec hc = .ok () e') :
      Outcome c { c with emu := e' }
  | interpretsLast {e e' : Emu H} (hi : c.Interprets hc e) (hx : e.exec hc = .ok () e')
      (hs : e'.state ≠ .running) :
      Outcome c (finish hc { c with emu := e' })
  | round {e e' : Emu H} (hp : c.phase = .interp) (hpo : c.polled hc = some e) (hx : e.exec hc = .ok () e') :
      Outcome c (afterPoll hc { c with emu := e'.pollHostControls hc })
  | compileStops {e e' : Emu H} {b : Option Block} (hi : c.Compiles hc e)
      (hx : e.jitCompileBlock hc e.regs.PC = .ok b e') (hs : e'.state ≠ .running) :
        Outcome c (finish hc { c with emu := e' })
  | enters {e : Emu H} {b : Block} (hb : c.Offers hc e b) (ht : b.mmuPhysPageValid = false) :
      Outcome c (enterBlock { c with emu := e } b)
  | entersTagged {e : Emu H} {b : Block} (hb : c.Offers hc e b) (ht : b.mmuPhysPageValid = true)
      (hm : (e.jitTranslatePaddr hc e.regs.PC .fetch).1.map page = some b.mmuPhysPage) :
      Outcome c (enterBlock { c with emu := (e.jitTranslatePaddr hc e.regs.PC .fetch).2 } b)
  | drops {e e' : Emu H} {b : Block} (hb : c.Offers hc e b) (ht : b.mmuPhysPageValid = true)
      (hm : (e.jitTranslatePaddr hc e.regs.PC .fetch).1.map page ≠ some b.mmuPhysPage)
      (he : e' = (e.jitTranslatePaddr hc e.regs.PC .fetch).2) : Outcome c { c with emu :=
        { e' with jit := e'.jit.map fun j => jitInvalidateBlocksForPage j (page e'.regs.PC) } }
  | goesOn {b : Block} {k k' : Nat} {i : Instruction} {next : Next} {e : Emu H} (he : c.Enters b k i)
      (hx : c.emu.runNative hc (nativeInsn ⟨insnAddrs b.startPc (b.fn.getD [])⟩ k i) = .ok next e)
      (hn : next = .goto k' ∨ next = .fall ∧ k' = k + 1 ∧ k' < (b.fn.getD []).length) :
      Outcome c { c with emu := e, phase := .block b k' }
  | returns {b : Block} {k : Nat} {i : Instruction} {next : Next} {e : Emu H} (he : c.Enters b k i)
      (hx : c.emu.runNative hc (nativeInsn ⟨insnAddrs b.startPc (b.fn.getD [])⟩ k i) = .ok next e)
      (hn : next = .ret ∨ next = .fall ∧ ¬k + 1 < (b.fn.getD []).length) :
        Outcome c (blockReturn hc { c with emu := e })
  | exits {b : Block} {k : Nat} {i : Instruction} {e : Emu H} (he : c.Enters b k i)
      (hx : c.emu.runNative hc (nativeInsn ⟨insnAddrs b.startPc (b.fn.getD [])⟩ k i) = .exit e) :
      Outcome c (processPendingWrites { c with emu := e, phase := .dispatch })
  | roundFails {e : Emu H} (hp : c.phase = .interp) (hpo : c.polled hc = some e)
      (hx : ∀ e', e.exec hc ≠ .ok () e') :
      Outcome c { c with phase := .stuck }
  | execFails {e : Emu H} (hi : c.Interprets hc e) (hx : ∀ e', e.exec hc ≠ .ok () e') :
      Outcome c { c with emu := e, phase := .stuck }
  | compileFails {e e' : Emu H} (hi : c.Compiles hc e) (hx : ∀ b e', e.jitCompileBlock hc e.regs.PC ≠ .ok b e')
      (hpo : c.polled hc = some e') : Outcome c { c with emu := e', phase := .stuck }
  | nativeFails {b : Block} {k : Nat} {i : Instruction} (he : c.Enters b k i)
      (hx : c.emu.runNative hc (nativeInsn ⟨insnAddrs b.startPc (b.fn.getD [])⟩ k i) = .stuck) :
      Outcome c { c with phase := .stuck }
  | offBlock {b : Block} {k : Nat} (hp : c.phase = .block b k) (hk : (b.fn.getD [])[k]? = none) :
      Outcome c { c with phase := .stuck }

variable {hc} {I J K : Emu H → Prop} {c : Run H}

theorem idle_of_not_waited {e : Emu H} (h : (e.maybeWaitOnIdle hc).1 = false) : (e.maybeWaitOnIdle hc).2 = e := by
  unfold Emu.maybeWaitOnIdle at h ⊢
  cases hw : e.idleWait with
  | none => rfl
  | some cb =>
    rw [hw] at h
    dsimp only at h ⊢
    split
    · rfl
    · next hs =>
      rw [if_neg hs] at h
      cases h

/-- A round whose poll stops the machine. -/
theorem outcome_stopped (hp : c.phase = .dispatch ∨ c.phase = .interp) (hs : c.emu.state = .running)
    (hs' : (c.emu.pollHostControls hc).state ≠ .running) {e : Emu H} (he : e = c.emu.pollHostControls hc) :
    Outcome hc c (if (e.maybeWaitOnIdle hc).1 = true then { c with emu := (e.maybeWaitOnIdle hc).2 }
      else finish hc { c with emu := (e.maybeWaitOnIdle hc).2 }) := by
  subst he
  split
  · next hw => exact .waits hp hs hw
  · next hw =>
    replace hw := Bool.eq_false_iff.2 hw
    rw [idle_of_not_waited hw]
    exact .polled hp hs hs' hw

theorem outcome_interpStep (hp : c.phase = .interp) : Outcome hc c (c.interpStep hc) := by
  unfold interpStep
  split
  · next hs => exact .stopped (.inr hp) hs
  · next hs =>
    have hs : c.emu.state = .running := Decidable.not_not.1 hs
    dsimp only
    split
    · next hs' => exact outcome_stopped (.inr hp) hs hs' rfl
    · next hs' =>
      have hpo : c.polled hc = some (c.emu.pollHostControls hc) := by
        rw [Run.polled, if_neg (not_not_intro hs), if_neg hs']
      cases hr : (c.emu.pollHostControls hc).exec hc with
      | ok v e => exact .round hp hpo hr
      | exit e => exact .roundFails hp hpo fun e' he => nomatch hr.symm.trans he
      | stuck => exact .roundFails hp hpo fun e' he => nomatch hr.symm.trans he

theorem outcome_dispatchBlock {e : Emu H} {b : Block} (hb : c.Offers hc e b) :
    Outcome hc c (dispatchBlock hc { c with emu := e } b) := by
  unfold dispatchBlock
  split
  · next ht =>
    dsimp only
    split
    · next hm => exact .entersTagged hb ht hm
    · next hm => exact .drops hb ht hm rfl
  · next ht => exact .enters hb (Bool.eq_false_iff.2 ht)

theorem execHere_ok {e : Emu H} (hx : c.emu.exec hc = .ok () e) : c.execHere hc = { c with emu := e } := by
  unfold execHere
  rw [hx]

theorem execHere_fails (hx : ∀ e, c.emu.exec hc ≠ .ok () e) : c.execHere hc = { c with phase := .stuck } := by
  unfold execHere
  split
  · next e he => exact absurd he (hx e)
  · rfl

theorem outcome_execHere {e : Emu H} (hi : c.Interprets hc e) :
    Outcome hc c (execHere hc { c with emu := e }) := by
  by_cases hx : ∃ e', e.exec hc = .ok () e'
  · obtain ⟨e', hx⟩ := hx
    rw [execHere_ok (c := { c with emu := e }) hx]
    exact .interprets hi hx
  · replace hx : ∀ e', e.exec hc ≠ .ok () e' := fun e' he => hx ⟨e', he⟩
    rw [execHere_fails (c := { c with emu := e }) hx]
    exact .execFails hi hx

theorem outcome_compileStep {e : Emu H} {j : Jit} (hd : c.Dispatches hc e j)
    (hirq : (e.irq && !e.regs.flag pIrqDisable) = false) (hmut : j.mutableCodePage (page e.regs.PC) = false)
    (hfind : (jitFindBlock j e.regs.PC).filter Block.active = none) : Outcome hc c
    (compileStep hc { c with emu := e } j) := by
  have hco : c.Compiles hc { e with jit := some (jitMakeRoom j) } := .mk hd hirq hmut hfind
  unfold compileStep
  dsimp only
  rw [show (if jitMaxActiveBlocks ≤ j.activeBlocks then jitBackendFlush j else j) = jitMakeRoom j from rfl]
  cases hr : ({ e with jit := some (jitMakeRoom j) } : Emu H).jitCompileBlock hc e.regs.PC with
  | ok b e' =>
    dsimp only
    split
    · next hs => exact .compileStops hco hr hs
    · next hs =>
      have hs : e'.state = .running := Decidable.not_not.1 hs
      cases b with
      | some b => exact outcome_dispatchBlock (.compiled hco hr hs)
      | none =>
        have hi : c.Interprets hc e' := .uncompiled hco hr hs
        dsimp only
        by_cases hx : ∃ e'', e'.exec hc = .ok () e''
        · obtain ⟨e'', hx⟩ := hx
          rw [execHere_ok (c := { c with emu := e' }) hx]
          split
          · next hf => exact .interpretsLast hi hx hf.2
          · exact .interprets hi hx
        · replace hx : ∀ e'', e'.exec hc ≠ .ok () e'' := fun e'' he => hx ⟨e'', he⟩
          rw [execHere_fails (c := { c with emu := e' }) hx, if_neg fun h => Phase.noConfusion h.1]
          exact .execFails hi hx
  | exit e' => exact .compileFails hco (fun b e'' he => nomatch hr.symm.trans he) hd.polled
  | stuck => exact .compileFails hco (fun b e'' he => nomatch hr.symm.trans he) hd.polled

theorem outcome_dispatchStep (hp : c.phase = .dispatch) : Outcome hc c (c.dispatchStep hc) := by
  unfold dispatchStep
  split
  · next hs => exact .stopped (.inl hp) hs
  · next hs =>
    have hs : c.emu.state = .running := Decidable.not_not.1 hs
    dsimp only
    split
    · next hs' => exact outcome_stopped (.inl hp) hs hs' rfl
    · next hs' =>
      have hpo : c.polled hc = some (c.emu.pollHostControls hc) := by
        rw [Run.polled, if_neg (not_not_intro hs), if_neg hs']
      generalize c.emu.pollHostControls hc = e at *
      split
      · next hd => exact .debugs hp hpo hd
      · next hd =>
        have hd : e.debugging = false := Bool.eq_false_iff.2 hd
        split
        · next j hu hj =>
          have hdi : c.Dispatches hc e j := ⟨hp, hpo, hd, hu, hj⟩
          split
          · next hirq => exact outcome_execHere (.irq hdi hirq)
          · next hirq =>
            split
            · next hmut => exact outcome_execHere (.mutable hdi (Bool.eq_false_iff.2 hirq) hmut)
            · next hmut =>
              split
              · next hb => exact outcome_dispatchBlock (.found hdi (Bool.eq_false_iff.2 hirq)
                  (Bool.eq_false_iff.2 hmut) hb)
              · next hb => exact outcome_compileStep hdi (Bool.eq_false_iff.2 hirq) (Bool.eq_false_iff.2 hmut) hb
        · next hn =>
          refine .handsOver hp hpo hd fun hu => ?_
          cases hj : e.jit with
          | none => rfl
          | some j => exact absurd hj (hn j hu)

theorem outcome_blockStep {b : Block} {k : Nat} (hp : c.phase = .block b k) :
    Outcome hc c (c.blockStep hc b k) := by
  unfold blockStep
  dsimp only
  split
  · next hk => exact .offBlock hp hk
  · next i hi =>
    have he : c.Enters b k i := ⟨hp, hi⟩
    cases hr : c.emu.runNative hc (nativeInsn ⟨insnAddrs b.startPc (b.fn.getD [])⟩ k i) with
    | stuck => exact .nativeFails he hr
    | exit e => exact .exits he hr
    | ok next e =>
      cases next with
      | ret => exact .returns he hr (.inl rfl)
      | goto t => exact .goesOn he hr (.inl rfl)
      | fall =>
        dsimp only
        split
        · next hk => exact .goesOn he hr (.inr ⟨rfl, rfl, hk⟩)
        · next hk => exact .returns he hr (.inr ⟨rfl, hk⟩)

theorem step_outcome (hc : HostCode H) (c : Run H) : Outcome hc c (c.step hc) := by
  unfold step
  cases hp : c.phase with
  | dispatch => exact outcome_dispatchStep hp
  | block b k => exact outcome_blockStep hp
  | interp => exact outcome_interpStep hp
  | done => exact .finished (.inl hp)
  | stuck => exact .finished (.inr hp)

/-- The emulator with which `rk65c02_start` leaves its loop. -/
def Leaves (hc : HostCode H) (c : Run H) (e : Emu H) : Prop :=
  e.state ≠ .running ∨ c.phase = .dispatch ∧ c.polled hc = some e ∧ e.debugging = true

/-- `I` holds while the run goes on, `J` when it is over. -/
def Ends (I J : Emu H → Prop) (c : Run H) : Prop := if c.phase = .done then J c.emu else I c.emu

theorem ends_of_ne {c : Run H} (hp : c.phase ≠ .done) (h : I c.emu) : c.Ends I J := (if_neg hp).mpr h

theorem ends_finish {c : Run H} (h : J (c.emu.finish hc)) : (c.finish hc).Ends I J := (if_pos rfl).mpr h

theorem polled_eq {e : Emu H} (hp : c.polled hc = some e) :
    c.emu.state = .running ∧ e.state = .running ∧ c.emu.pollHostControls hc = e := by
  unfold polled at hp
  split at hp
  · cases hp
  · next hs =>
    split at hp
    · cases hp
    · next hs' =>
      cases hp
      exact ⟨Decidable.not_not.1 hs, Decidable.not_not.1 hs', rfl⟩

theorem makeRoom_drifts (j : Jit) : Jit.Drifts (some j) (some (jitMakeRoom j)) := by
  intro _
  unfold jitMakeRoom
  split
  · exact .single .flush
  · exact .refl

section Rule

variable (hpoll : ∀ e, I e → I (e.pollHostControls hc)) (hidle : ∀ e, I e → I (e.maybeWaitOnIdle hc).2)
  (hengine : ∀ e j u b n, Jit.Drifts e.jit j → I e →
    I { e with jit := j, useJit := u, inJitRun := b, jitLoopBudget := n })
  (hmmu : ∀ e m, I e → I { e with mmu := m }) (hfinish : ∀ e, I e → c.Leaves hc e → J (e.finish hc))
  (hIK : ∀ e, I e → K e)
  (hengineK : ∀ e j u b n, Jit.Drifts e.jit j → K e →
    K { e with jit := j, useJit := u, inJitRun := b, jitLoopBudget := n })
  (hlook : ∀ c' : Run H, c'.phase ≠ .done → K c'.emu →
    Ends I J (afterPoll hc { c' with emu := c'.emu.pollHostControls hc }))
  (hcompile : ∀ e b e', c.Compiles hc e → I e → e.jitCompileBlock hc e.regs.PC = .ok b e' → I e')

include hidle hfinish in
theorem ends_afterPoll {c' : Run H} (hp : c'.phase ≠ .done) (h : I c'.emu) : Ends I J (c'.afterPoll hc) := by
  unfold afterPoll
  split
  · exact ends_of_ne hp h
  · next hs =>
    dsimp only
    split
    · exact ends_of_ne hp (hidle _ h)
    · next hw =>
      refine ends_finish (hfinish _ (hidle _ h) (.inl fun hr => hw ⟨?_, hr⟩))
      by_contra hn
      rw [idle_of_not_waited (Bool.eq_false_iff.2 hn)] at hr
      exact hs hr

include hpoll in
theorem keeps_polled (h : I c.emu) {e : Emu H} (hp : c.polled hc = some e) : I e := (polled_eq hp).2.2 ▸ hpoll _ h

include hpoll hengine in
theorem keeps_compiles (h : I c.emu) {e : Emu H} (hi : c.Compiles hc e) : I e := by
  cases hi with
  | @mk e j hd =>
    refine hengine e _ e.useJit e.inJitRun e.jitLoopBudget ?_ (keeps_polled hpoll h hd.polled)
    rw [hd.jit]
    exact makeRoom_drifts j

include hpoll hengine hcompile in
theorem keeps_interprets (h : I c.emu) {e : Emu H} (hi : c.Interprets hc e) : I e := by
  cases hi with
  | irq hd => exact keeps_polled hpoll h hd.polled
  | mutable hd => exact keeps_polled hpoll h hd.polled
  | uncompiled hd hb => exact hcompile _ _ _ hd (keeps_compiles hpoll hengine h hd) hb

include hpoll hengine hcompile in
theorem keeps_offers (h : I c.emu) {e : Emu H} {b : Block} (hi : c.Offers hc e b) : I e := by
  cases hi with
  | found hd => exact keeps_polled hpoll h hd.polled
  | compiled hd hb => exact hcompile _ _ _ hd (keeps_compiles hpoll hengine h hd) hb

include hengine in
theorem keeps_enterBlock {d : Run H} (h : I d.emu) (b : Block) : I (d.enterBlock b).emu := by
  refine hengine d.emu _ d.emu.useJit _ _ (.map ?_ _) h
  exact fun _ _ => .single (.note rfl)

include hengine in
theorem keeps_processPendingWrites {d : Run H} (h : I d.emu) :
    I d.processPendingWrites.emu ∧ d.processPendingWrites.phase = d.phase := by
  unfold processPendingWrites
  split
  · exact ⟨h, rfl⟩
  · next j hj =>
    split
    · exact ⟨h, rfl⟩
    · refine ⟨hengine _ _ _ d.emu.inJitRun d.emu.jitLoopBudget ?_ h, rfl⟩
      rw [hj]
      intro hk
      refine (Jit.moves_process hk).tail (.note ?_)
      split <;> rfl

include hengine in
theorem keeps_processNeedsFlush {d : Run H} (h : I d.emu) :
    I d.processNeedsFlush.emu ∧ d.processNeedsFlush.phase = d.phase := by
  unfold processNeedsFlush
  split
  · exact ⟨h, rfl⟩
  · next j hj =>
    split
    · refine ⟨hengine _ _ _ d.emu.inJitRun d.emu.jitLoopBudget ?_ h, rfl⟩
      rw [hj]
      exact fun _ => .single .flush
    · exact ⟨h, rfl⟩

include hengineK hlook in
theorem ends_blockReturn {d : Run H} (h : K d.emu) : Ends I J (d.blockReturn hc) := by
  have h0 : K ({ d.emu with inJitRun := false } : Emu H) :=
    hengineK _ d.emu.jit d.emu.useJit _ d.emu.jitLoopBudget (.refl _) h
  obtain ⟨h1, hp1⟩ := keeps_processPendingWrites hengineK
    (d := ⟨{ d.emu with inJitRun := false }, .dispatch, d.disabled⟩) h0
  obtain ⟨h2, hp2⟩ := keeps_processNeedsFlush hengineK h1
  refine hlook _ ?_ h2
  rw [hp2, hp1]
  exact Phase.noConfusion

include hpoll hidle hengine hmmu hfinish hIK hengineK hlook hcompile in
/-- The rule for one step of a run that is not over. Between code that may stop the machine and
the loop's look at it only `K` holds. -/
theorem ends_step_looking (hne : c.phase ≠ .done) (h : I c.emu)
    (hinterp : ∀ e e', c.phase = .interp → c.polled hc = some e → I e → e.exec hc = .ok () e' → K e')
    (hexec : ∀ e e', c.Interprets hc e → I e → e.exec hc = .ok () e' → I e')
    (hret : ∀ b k i e, c.Enters b k i →
      c.emu.runNative hc (nativeInsn ⟨insnAddrs b.startPc (b.fn.getD [])⟩ k i) = .ok .ret e → K e)
    (hgo : ∀ b k i next e, c.Enters b k i → next ≠ .ret →
      c.emu.runNative hc (nativeInsn ⟨insnAddrs b.startPc (b.fn.getD [])⟩ k i) = .ok next e → I e)
    (hleave : ∀ b k i e, c.Enters b k i →
      c.emu.runNative hc (nativeInsn ⟨insnAddrs b.startPc (b.fn.getD [])⟩ k i) = .exit e → I e) :
    Ends I J (c.step hc) := by
  have hinterprets : ∀ {e}, c.Interprets hc e → I e := keeps_interprets hpoll hengine hcompile h
  have hoffers : ∀ {e b}, c.Offers hc e b → I e := keeps_offers hpoll hengine hcompile h
  have htag : ∀ {e b}, c.Offers hc e b → I (e.jitTranslatePaddr hc e.regs.PC .fetch).2 := fun {e _} hb => by
    obtain ⟨m, hm⟩ := Emu.translatePaddr_mmu hc e e.regs.PC .fetch
    rw [hm]
    exact hmmu e m (hoffers hb)
  have ho := c.step_outcome hc
  generalize c.step hc = c' at ho ⊢
  cases ho with
  | finished hp => exact ends_of_ne hne h
  | stopped hp hs => exact ends_finish (hfinish _ h (.inl hs))
  | waits hp hs hw => exact ends_of_ne hne (hidle _ (hpoll _ h))
  | polled hp hs hs' hw => exact ends_finish (hfinish _ (hpoll _ h) (.inl hs'))
  | debugs hp hpo hd => exact ends_finish (hfinish _ (keeps_polled hpoll h hpo) (.inr ⟨hp, hpo, hd⟩))
  | handsOver hp hpo hd hj => exact ends_of_ne Phase.noConfusion (keeps_polled hpoll h hpo)
  | interprets hi hx => exact ends_of_ne hne (hexec _ _ hi (hinterprets hi) hx)
  | interpretsLast hi hx hs => exact ends_finish (hfinish _ (hexec _ _ hi (hinterprets hi) hx) (.inl hs))
  | round hp hpo hx => exact hlook { c with emu := _ } hne (hinterp _ _ hp hpo (keeps_polled hpoll h hpo) hx)
  | compileStops hi hx hs =>
    exact ends_finish (hfinish _ (hcompile _ _ _ hi (keeps_compiles hpoll hengine h hi) hx) (.inl hs))
  | enters hb ht =>
    exact ends_of_ne Phase.noConfusion (keeps_enterBlock hengine (d := { c with emu := _ }) (hoffers hb) _)
  | entersTagged hb ht hm =>
    exact ends_of_ne Phase.noConfusion (keeps_enterBlock hengine (d := { c with emu := _ }) (htag hb) _)
  | @drops e e' b hb ht hm he =>
    have hi := htag hb
    rw [← he] at hi
    refine ends_of_ne hne (hengine e' _ e'.useJit e'.inJitRun e'.jitLoopBudget (.map ?_ _) hi)
    exact fun _ hk => Jit.moves_forPage hk _
  | @goesOn b k k' i next e he hx hn =>
    refine ends_of_ne Phase.noConfusion (hgo b k i next e he ?_ hx)
    rintro rfl
    rcases hn with hn | ⟨hn, -⟩ <;> cases hn
  | @returns b k i next e he hx hn =>
    refine ends_blockReturn hengineK hlook (d := { c with emu := e }) ?_
    rcases hn with rfl | ⟨rfl, -⟩
    · exact hret b k i e he hx
    · exact hIK e (hgo b k i _ e he Next.noConfusion hx)
  | exits he hx =>
    obtain ⟨h1, hp1⟩ := keeps_processPendingWrites hengine (d := ⟨_, .dispatch, c.disabled⟩)
      (hleave _ _ _ _ he hx)
    exact ends_of_ne (by rw [hp1]; exact Phase.noConfusion) h1
  | roundFails hp hpo hx => exact ends_of_ne Phase.noConfusion h
  | execFails hi hx => exact ends_of_ne Phase.noConfusion (hinterprets hi)
  | compileFails hi hx hpo => exact ends_of_ne Phase.noConfusion (keeps_polled hpoll h hpo)
  | nativeFails he hx => exact ends_of_ne Phase.noConfusion h
  | offBlock hp hk => exact ends_of_ne Phase.noConfusion h

include hpoll hidle hengine hmmu hfinish hcompile in
/-- The rule for a property that all code keeps. -/
theorem ends_step (hne : c.phase ≠ .done) (h : I c.emu)
    (hexec : ∀ e e', c.Execs hc e → I e → e.exec hc = .ok () e' → I e')
    (hnative : ∀ b k i, c.Enters b k i →
      (c.emu.runNative hc (nativeInsn ⟨insnAddrs b.startPc (b.fn.getD [])⟩ k i)).Ends I) :
    Ends I J (c.step hc) := by
  refine ends_step_looking hpoll hidle hengine hmmu hfinish (fun _ h => h) hengine
    (fun c' hp h => ends_afterPoll hidle hfinish hp (hpoll _ h)) hcompile hne h
    (fun e e' hp hpo => hexec e e' (.inl ⟨hp, hpo⟩)) (fun e e' he => hexec e e' (.inr he))
    (fun b k i e he hr => (hnative b k i he).ok hr)
    (fun b k i next e he _ hr => (hnative b k i he).ok hr) fun b k i e he hr => ?_
  have hn := hnative b k i he
  rw [hr] at hn
  exact hn

end Rule

theorem step_round {e e' : Emu H} (hp : c.phase = .interp) (hpo : c.polled hc = some e)
    (hx : e.exec hc = .ok () e') :
    c.step hc = afterPoll hc { c with emu := e'.pollHostControls hc } := by
  obtain ⟨hr, hr', rfl⟩ := polled_eq hpo
  unfold step interpStep
  rw [hp]
  dsimp only
  rw [if_neg (not_not_intro hr), if_neg (not_not_intro hr'), hx]

theorem step_ret {b : Block} {k : Nat} {i : Instruction} {e : Emu H} (he : c.Enters b k i)
    (hx : c.emu.runNative hc (nativeInsn ⟨insnAddrs b.startPc (b.fn.getD [])⟩ k i) = .ok .ret e) :
    c.step hc = ({ c with emu := e } : Run H).blockReturn hc := by
  unfold step blockStep
  rw [he.1]
  dsimp only
  rw [he.2]
  dsimp only
  rw [hx]

/-- The step calls `rk65c02_exec` on the emulator, in a loop or as the code of an instruction
that has no native code. -/
def CallsExec (hc : HostCode H) (c : Run H) (e : Emu H) : Prop :=
  c.Execs hc e ∨ ∃ b k i, c.Enters b k i ∧ emitCase i.opcode = none ∧ e = c.emu

theorem Compiles.phase {e : Emu H} (h : c.Compiles hc e) : c.phase = .dispatch := by
  cases h with
  | mk hd => exact hd.phase

theorem Interprets.phase {e : Emu H} (h : c.Interprets hc e) : c.phase = .dispatch := by
  cases h with
  | irq hd => exact hd.phase
  | mutable hd => exact hd.phase
  | uncompiled hd => exact hd.phase

theorem Offers.phase {e : Emu H} {b : Block} (h : c.Offers hc e b) : c.phase = .dispatch := by
  cases h with
  | found hd => exact hd.phase
  | compiled hd => exact hd.phase

theorem callsExec_interp {e : Emu H} (hp : c.phase = .interp) : c.CallsExec hc e ↔ c.polled hc = some e := by
  constructor
  · rintro ((⟨-, h⟩ | h) | ⟨b, k, i, he, -⟩)
    · exact h
    · have hd := h.phase
      rw [hp] at hd
      cases hd
    · rw [he.1] at hp
      cases hp
  · exact fun h => .inl (.inl ⟨hp, h⟩)

theorem keeps_fallbackControl (hS : Emu.Steady hc I) (hregs : ∀ e r, I e → I { e with regs := r })
    {e : Emu H} (h : I e)
    (id : InstrDef) (r : Regs) : (((fallbackControl id).run r).run (Emu.handleNative hc) e).Ends I := by
  refine hS.runTree hregs h fun o r' s hv _ => ?_
  have hsat : ((fallbackControl id).run r).Sat (fun o _ => NativeAsks o) fun _ => True := by
    unfold fallbackControl
    split
    · trivial
    · exact ⟨trivial, fun _ => ⟨trivial, fun _ => trivial⟩⟩
  have ho := hsat.visit hv
  cases o <;> trivial

/-- Native code proper never acknowledges the line and never stops the machine. -/
theorem keeps_compiled (hS : Emu.Steady hc I) (hregs : ∀ e r, I e → I { e with regs := r }) {e : Emu H} (h : I e)
    {i : Instruction} {ca : EmitCase} (hc' : emitCase i.opcode = some ca) (ctx : EmitCtx) (k : Nat) :
    (e.runNative hc (nativeInsn ctx k i)).Ends I := by
  refine Emu.Closed.putRegs hregs (hS.runTree hregs h fun o r s hv _ => ?_)
  have ho := ((nativeInsn_sat (G := fun _ => True) trivial hc' _ k).visit hv).1
  cases o <;> trivial

theorem keeps_native (hS : Emu.Steady hc I) (hregs : ∀ e r, I e → I { e with regs := r }) (h : I c.emu)
    (hexec : ∀ e, c.CallsExec hc e → I e → (e.execRun hc).Ends I) {b : Block} {k : Nat}
    {i : Instruction} (he : c.Enters b k i) :
    (c.emu.runNative hc (nativeInsn ⟨insnAddrs b.startPc (b.fn.getD [])⟩ k i)).Ends I := by
  cases hc' : emitCase i.opcode with
  | some ca => exact keeps_compiled hS hregs h hc' _ k
  | none =>
    rw [nativeInsn_fallback hc', Emu.runNative_ofCpu]
    refine (hexec c.emu (.inr ⟨b, k, i, he, hc', rfl⟩) h).bind (fun _ hs => hs) fun v s hs => ?_
    exact Emu.Closed.putRegs hregs (keeps_fallbackControl hS hregs hs _ _)

theorem Offers.running {e : Emu H} {b : Block} (h : c.Offers hc e b) : e.state = .running := by
  cases h with
  | found hd => exact (polled_eq hd.polled).2.1
  | compiled hd hb hs => exact hs

theorem Execs.running {e : Emu H} (h : c.Execs hc e) : e.state = .running := by
  rcases h with ⟨-, hpo⟩ | h
  · exact (polled_eq hpo).2.1
  · cases h with
    | irq hd => exact (polled_eq hd.polled).2.1
    | mutable hd => exact (polled_eq hd.polled).2.1
    | uncompiled hd hb hs => exact hs

/-- The rule for properties that only `rk65c02_exec` could break. -/
theorem step_keeps (hS : Emu.Steady hc I) (hjit : ∀ e j, I e → I { e with jit := j })
    (hregs : ∀ e r, I e → I { e with regs := r }) (h : I c.emu)
    (hexec : ∀ e, c.CallsExec hc e → I e → (e.execRun hc).Ends I) : I (c.step hc).emu := by
  by_cases hd : c.phase = .done
  · unfold step
    rw [hd]
    exact h
  · have hx := ends_step (I := I) (J := I) (fun _ => hS.poll) (fun _ => hS.idle) hS.engine hS.mmu
      (fun _ h _ => hS.finish h)
      (fun e b e' _ hi hr => (hS.compileBlock hjit hi fun pc' e' _ h => hS.fetchEmu hregs e' pc' h).ok hr) hd h
      (fun e e' he hi hr => (Emu.Closed.putRegs hregs (hexec e (.inl he) hi)).ok hr)
      fun b k i he => keeps_native hS hregs h hexec he
    unfold Ends at hx
    split at hx <;> exact hx

/-- What the loop does before it interprets an instruction. -/
theorem Execs.keeps (hS : Emu.Steady hc I) (hjit : ∀ e j, I e → I { e with jit := j })
    (hregs : ∀ e r, I e → I { e with regs := r }) (h : I c.emu) {e : Emu H} (he : c.Execs hc e) : I e := by
  rcases he with ⟨-, hp⟩ | he
  · exact keeps_polled (I := I) (fun _ => hS.poll) h hp
  · exact keeps_interprets (I := I) (fun _ => hS.poll) hS.engine
      (fun e b e' _ hi hr => (hS.compileBlock hjit hi fun pc' e' _ h => hS.fetchEmu hregs e' pc' h).ok hr) h he

/-- A run after `n` more steps. -/
def steps (hc : HostCode H) (c : Run H) (n : Nat) : Run H := (Run.step hc)^[n] c

theorem steps_succ (hc : HostCode H) (c : Run H) (n : Nat) : c.steps hc (n + 1) = (c.steps hc n).step hc :=
  Function.iterate_succ_apply' _ _ _

theorem steps_done {m n : Nat} (h : (c.steps hc m).phase = .done) (hle : m ≤ n) :
    (c.steps hc n).phase = .done := by
  obtain ⟨k, rfl⟩ := Nat.exists_eq_add_of_le hle
  induction k with
  | zero => exact h
  | succ k ih =>
    have hd := ih (Nat.le_add_right m k)
    rw [← Nat.add_assoc, steps_succ, step, hd]
    exact hd

/-- The rule for whole runs: a property that a step keeps under a condition. -/
theorem steps_keeps {P Q : Run H → Prop} (hstep : ∀ c, P c → Q c → P (c.step hc)) (h : P c) (n : Nat)
    (hQ : ∀ m < n, Q (c.steps hc m)) : P (c.steps hc n) := by
  induction n with
  | zero => exact h
  | succ n ih =>
    rw [steps_succ]
    exact hstep _ (ih fun m hm => hQ m (Nat.lt_succ_of_lt hm)) (hQ n (Nat.lt_succ_self n))

end Run

theorem Emu.start_running (e : Emu H) : e.start.emu.state = .running := by
  unfold start
  dsimp only
  split <;> rfl

end Rk65c02
