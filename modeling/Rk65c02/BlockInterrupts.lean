import Rk65c02.Agreement

/-! Interrupts and compiled blocks. Native code does not look at the interrupt line, and the
interpreter, which a block calls for instructions without native code, does. -/

namespace Rk65c02

open Resumption

variable {H : Type} {hc : HostCode H}

namespace Machine

/-- Executions with the interrupt line as each of them finds it. -/
def steps (lines : List Bool) (s : Regs × Machine) : Regs × Machine :=
  lines.foldl (fun s line => advance line s) s

theorem steps_snoc (lines : List Bool) (line : Bool) (s : Regs × Machine) :
    steps (lines ++ [line]) s = advance line (steps lines s) := List.foldl_concat ..

/-- Only `WAI` and `STP` stop the machine. -/
theorem step_state {line : Bool} {m : Machine} {r : Regs} {i : Instruction}
    (h : (line && !r.flag pIrqDisable) = false)
    (hi : Image.insnAt m.bus.peek r.PC = i) (hw : i.emul ≠ .wai) (hs : i.emul ≠ .stp) :
    (step line (r, m)).2.state = m.state := by
  have hr := exec_run line r m
  rw [exec_insn h, hi] at hr
  refine Out.Leads.ok (A := fun m' => m'.state = m.state) (B := fun _ => True) ?_ hr
  refine (execInsn_keeps (G := fun _ => True) r.PC i r trivial).run_leads (fun o _ m' ho hm' => ?_) rfl
  cases o with
  | stop q =>
    rcases ho with ho | ho | ⟨_, ho, _⟩
    · exact (ho.1.elim (fun h => hw h.1) fun h => hs h.1).elim
    · cases ho.1
    · cases ho
  | panic =>
    rcases ho with ho | ho | ⟨_, ho, _⟩
    · exact ho.elim
    · cases ho.1
    · cases ho
  | _ => exact hm'

end Machine

namespace Emu

/-- The registers and the memory are those of the machine. -/
def Holds (e : Emu H) (s : Regs × Machine) : Prop := e.regs = s.1 ∧ e.bus = s.2.bus

variable {e e' : Emu H}

theorem poll_guest (hc : HostCode H) (e : Emu H) :
    (e.pollHostControls hc).regs = e.regs ∧ (e.pollHostControls hc).bus = e.bus := by
  have hstop : ∀ e : Emu H, e.applyHostStopRequest.regs = e.regs ∧ e.applyHostStopRequest.bus = e.bus := by
    intro e
    unfold applyHostStopRequest
    split <;> exact ⟨rfl, rfl⟩
  have htick : ∀ e : Emu H, (e.maybeTick hc).regs = e.regs ∧ (e.maybeTick hc).bus = e.bus := by
    intro e
    rcases maybeTick_cases hc e with ⟨n, ht⟩ | ⟨-, cb, n, n', ht⟩
    · rw [ht]
      exact ⟨rfl, rfl⟩
    · rw [ht]
      exact ⟨foldl_regs _ _, foldl_bus _ _⟩
  have harrive : (e.arrive hc).regs = e.regs ∧ (e.arrive hc).bus = e.bus := by
    obtain ⟨i, s, q, h⟩ := arrive_frame hc e
    rw [h]
    exact ⟨rfl, rfl⟩
  unfold pollHostControls
  rw [(hstop _).1, (hstop _).2, (htick _).1, (htick _).2, (hstop _).1, (hstop _).2]
  exact harrive

theorem callOnStop_guest (hc : HostCode H) (e : Emu H) :
    (e.maybeCallOnStop hc).regs = e.regs ∧ (e.maybeCallOnStop hc).bus = e.bus := by
  unfold maybeCallOnStop
  split
  · exact ⟨rfl, rfl⟩
  · exact ⟨foldl_regs _ _, foldl_bus _ _⟩

theorem finish_guest (hc : HostCode H) (e : Emu H) : (e.finish hc).regs = e.regs ∧ (e.finish hc).bus = e.bus := by
  unfold finish
  dsimp only
  split
  · rw [(callOnStop_guest hc _).1, (callOnStop_guest hc _).2]
    exact poll_guest hc e
  · exact poll_guest hc e

theorem idle_guest (hc : HostCode H) (e : Emu H) :
    (e.maybeWaitOnIdle hc).2.regs = e.regs ∧ (e.maybeWaitOnIdle hc).2.bus = e.bus := by
  unfold maybeWaitOnIdle
  split
  · exact ⟨rfl, rfl⟩
  · split
    · exact ⟨rfl, rfl⟩
    · unfold applyHostStopRequest
      dsimp only
      split <;> exact ⟨foldl_regs _ _, foldl_bus _ _⟩

end Emu

namespace Run

variable {c : Run H} {b : Block} {k : Nat} {s : Regs × Machine}

theorem processPendingWrites_guest (c : Run H) :
    c.processPendingWrites.emu.regs = c.emu.regs ∧ c.processPendingWrites.emu.bus = c.emu.bus := by
  unfold processPendingWrites
  split
  · exact ⟨rfl, rfl⟩
  · split <;> exact ⟨rfl, rfl⟩

theorem processNeedsFlush_guest (c : Run H) :
    c.processNeedsFlush.emu.regs = c.emu.regs ∧ c.processNeedsFlush.emu.bus = c.emu.bus := by
  unfold processNeedsFlush
  split
  · exact ⟨rfl, rfl⟩
  · split <;> exact ⟨rfl, rfl⟩

theorem afterPoll_guest (hc : HostCode H) (c : Run H) :
    (c.afterPoll hc).emu.regs = c.emu.regs ∧ (c.afterPoll hc).emu.bus = c.emu.bus := by
  unfold afterPoll
  split
  · exact ⟨rfl, rfl⟩
  · dsimp only
    split
    · exact Emu.idle_guest hc c.emu
    · obtain ⟨hr, hb⟩ := Emu.finish_guest hc (c.emu.maybeWaitOnIdle hc).2
      exact ⟨hr.trans (Emu.idle_guest hc c.emu).1, hb.trans (Emu.idle_guest hc c.emu).2⟩

/-- The dispatcher's work after a block leaves the guest alone. -/
theorem blockReturn_guest (hc : HostCode H) (c : Run H) :
    (c.blockReturn hc).emu.regs = c.emu.regs ∧ (c.blockReturn hc).emu.bus = c.emu.bus := by
  unfold blockReturn
  dsimp only
  rw [(afterPoll_guest hc _).1, (afterPoll_guest hc _).2]
  dsimp only
  rw [(Emu.poll_guest hc _).1, (Emu.poll_guest hc _).2, (processNeedsFlush_guest _).1,
    (processNeedsFlush_guest _).2,
    (processPendingWrites_guest _).1, (processPendingWrites_guest _).2]
  exact ⟨rfl, rfl⟩

/-- An instruction that the block leaves to the interpreter, unless it is the last of the block,
finds no interrupt to enter. -/
def Uninterrupted (hc : HostCode H) (c : Run H) : Prop := ∀ b k i, c.Enters b k i → emitCase i.opcode = none →
  k + 1 < (b.fn.getD []).length → c.emu.takesIrq hc = false

/-- The instruction before which the run is enters an interrupt. -/
def EntersInterrupt (hc : HostCode H) (c : Run H) : Prop :=
  ∃ b k i, c.Enters b k i ∧ emitCase i.opcode = none ∧ c.emu.takesIrq hc = true

/-- The line as the instruction before which the run is finds it. -/
def line (hc : HostCode H) (c : Run H) : Bool :=
  match c.phase with
  | .block b k => (b.fn.getD [])[k]?.any (c.emu.lineFor hc)
  | _ => false

theorem Enters.line {i : Instruction} (h : c.Enters b k i) : c.line hc = c.emu.lineFor hc i := by
  unfold Run.line
  rw [h.1]
  dsimp only
  rw [h.2, Option.any_some]

/-- The run is in the block, where the machine is. -/
structure Within (c : Run H) (b : Block) (s : Regs × Machine) : Prop where
  at_ : ∃ k, c.phase = .block b k ∧ c.emu.At b k
  holds : c.emu.Holds s
  running : s.2.state = .running

/-- One instruction of a block is one execution, with the line as it finds it. -/
theorem Within.step (h : c.Within b s) (hu : c.Uninterrupted hc) :
    (c.step hc).emu.Holds (Machine.advance (c.line hc) s) ∧
      ∀ k, (c.step hc).phase = .block b k →
        (c.step hc).Within b (Machine.advance (c.line hc) s) ∧ ¬c.EntersInterrupt hc := by
  obtain ⟨⟨k, hp, hat⟩, ⟨hregs, hbus⟩, hrun⟩ := h
  obtain ⟨i, hi⟩ : ∃ i, (b.fn.getD [])[k]? = some i := ⟨_, List.getElem?_eq_getElem hat.lt⟩
  have hent : c.Enters b k i := ⟨hp, hi⟩
  have hinsn : Image.insnAt s.2.bus.peek c.emu.regs.PC = i := hbus ▸ hat.insn hi
  have hq : False → hc.Undisturbed := False.elim
  have htr : c.emu.Tracks False c.emu s.2 := ⟨hat.bare, hbus.symm, .refl _, False.elim⟩
  obtain ⟨next, e', hr, hregs', ht, hn⟩ := htr.native hq ⟨insnAddrs b.startPc (b.fn.getD [])⟩ k hat.pc hinsn
  rw [← hent.line] at hregs' ht hn
  have hline : c.line hc = true → emitCase i.opcode = none ∧ (c.emu.asked hc c.emu.regs).irq = true := by
    rw [hent.line, Emu.lineFor, Bool.and_eq_true, Option.isNone_iff_eq_none]
    exact id
  generalize c.line hc = line at *
  have hadv : Machine.advance line s = Machine.step line (c.emu.regs, s.2) := by
    rw [hregs]
    exact if_pos hrun
  rw [← hadv] at hregs' ht
  have hholds : e'.Holds (Machine.advance line s) := ⟨hregs', ht.bus.symm⟩
  -- A jump or a step to the next label: no interrupt was entered, and nothing stopped the machine.
  have hgo : ∀ k', next = .goto k' ∨ next = .fall ∧ k' = k + 1 ∧ k' < (b.fn.getD []).length →
      Within { c with emu := e', phase := .block b k' } b (Machine.advance line s) ∧ ¬c.EntersInterrupt hc := by
    intro k' hk'
    have hfree : emitCase i.opcode = none → c.emu.takesIrq hc = false := by
      intro hnone
      rcases hk' with rfl | ⟨-, rfl, hlt⟩
      · cases hnone.symm.trans (hn.jumps k' rfl).2
      · exact hu b k i hent hnone hlt
    have htaken : (line && !c.emu.regs.flag pIrqDisable) = false := by
      refine Bool.eq_false_iff.2 fun hh => ?_
      obtain ⟨hl, hI⟩ := Bool.and_eq_true_iff.1 hh
      obtain ⟨hnone, hirq⟩ := hline hl
      refine Bool.false_ne_true ((hfree hnone).symm.trans ?_)
      rw [Emu.takesIrq, hirq, hI]
      rfl
    have hemul : i.emul ≠ .wai ∧ i.emul ≠ .stp := by
      rcases hk' with rfl | ⟨-, rfl, hlt⟩
      · exact (emitCase_emul (hn.jumps k' rfl).2).2
      · rcases hat.formed.1.line i (mem_dropLast_of_lt hi hlt) with hcb | ⟨-, hstp, hwai⟩
        · exact (emitCase_emul (Emu.condBranch_case hcb)).2
        · exact ⟨hwai, hstp⟩
    rw [htaken] at hn
    refine ⟨⟨⟨k', rfl, hat.next hi hn ht.bare ht.same hk'⟩, hholds, ?_⟩, ?_⟩
    · rw [hadv, Machine.step_state htaken hinsn hemul.1 hemul.2]
      exact hrun
    · rintro ⟨b', l, i', ⟨hp', hi'⟩, hnone, htakes⟩
      cases hp.symm.trans hp'
      cases hi.symm.trans hi'
      exact Bool.false_ne_true ((hfree hnone).symm.trans htakes)
  have hret : (blockReturn hc { c with emu := e' }).emu.Holds (Machine.advance line s) :=
    ⟨(blockReturn_guest hc _).1.trans hholds.1, (blockReturn_guest hc _).2.trans hholds.2⟩
  have hout : ∀ k', (blockReturn hc { c with emu := e' }).phase ≠ .block b k' := by
    intro k'
    rcases blockReturn_phase hc { c with emu := e' } with h | h <;> rw [h] <;> exact Phase.noConfusion
  unfold Run.step
  rw [hp]
  unfold blockStep
  dsimp only
  rw [hi]
  dsimp only
  rw [hr]
  cases next with
  | ret => exact ⟨hret, fun k' hk' => absurd hk' (hout k')⟩
  | goto t => exact ⟨hholds, fun _ _ => hgo t (.inl rfl)⟩
  | fall =>
    dsimp only
    split
    · next hlt => exact ⟨hholds, fun _ _ => hgo (k + 1) (.inr ⟨rfl, rfl, hlt⟩)⟩
    · exact ⟨hret, fun k' hk' => absurd hk' (hout k')⟩

/-- The lines that the first `n` instructions find. -/
def lines (hc : HostCode H) (c : Run H) (n : Nat) : List Bool := (List.range n).map fun m =>
    (c.steps hc m).line hc

theorem lines_succ (hc : HostCode H) (c : Run H) (n : Nat) :
    c.lines hc (n + 1) = c.lines hc n ++ [(c.steps hc n).line hc] := by
  rw [lines, List.range_succ, List.map_append]
  rfl

/-- In a block that no interrupt interrupts before its last instruction. -/
theorem Within.steps (h : c.Within b s) (n : Nat) (hblock : ∀ m < n, ∃ k, (c.steps hc m).phase = .block b k)
    (hu : ∀ m < n, (c.steps hc m).Uninterrupted hc) : (c.steps hc n).emu.Holds (Machine.steps (c.lines hc n) s) ∧
      ∀ k, (c.steps hc n).phase = .block b k → (c.steps hc n).Within b (Machine.steps (c.lines hc n) s) := by
  induction n with
  | zero => exact ⟨h.holds, fun _ _ => h⟩
  | succ n ih =>
    obtain ⟨-, hw⟩ := ih (fun m hm => hblock m (Nat.lt_succ_of_lt hm)) fun m hm => hu m (Nat.lt_succ_of_lt hm)
    obtain ⟨k, hk⟩ := hblock n (Nat.lt_succ_self n)
    obtain ⟨hh, hw'⟩ := (hw k hk).step (hu n (Nat.lt_succ_self n))
    rw [steps_succ, lines_succ, Machine.steps_snoc]
    exact ⟨hh, fun k hk => (hw' k hk).1⟩

end Run

/-- The dispatcher may enter the block: it is in a cache that matches the memory, and starts at `PC`. -/
structure Emu.MayEnter (e : Emu H) (b : Block) : Prop where
  bare : e.Bare
  outside : e.inJitRun = false
  running : e.state = .running
  cached : ∃ j, e.jit = some j ∧ b ∈ j.blocks
  active : b.active = true
  here : b.startPc = e.regs.PC

/-- The dispatcher may enter a block that was just compiled. -/
theorem Emu.MayEnter.of_compile {e e' : Emu H} {b : Block} {j : Jit} (h : e.Bare) (hin : e.inJitRun = false)
    (hj : e.jit = some j)
    (hlt : j.activeBlocks < jitMaxActiveBlocks) (hx : e.jitCompileBlock hc e.regs.PC = .ok (some b) e')
    (hrun : e'.state = .running) : e'.MayEnter b := by
  have hq : False → hc.Undisturbed := False.elim
  have htr : e.Tracks False e e.machine := ⟨h, rfl, .refl _, False.elim⟩
  obtain ⟨_, _, hx', ht, -, hregs, hb⟩ := htr.compile hq hin hj hlt e.regs.PC
  cases hx.symm.trans hx'
  obtain ⟨hpc, ha, hk⟩ := hb b rfl
  exact ⟨ht.bare, ht.same.inJitRun.trans hin, hrun, hk, ha, hregs ▸ hpc⟩

/-- The first `n` instructions of a block, up to its return, whatever calls arrive meanwhile: the
registers and the memory are those of `n` executions of the interpreter, each with the line as the
instruction of the block found it, and an instruction that entered an interrupt was the last of them. -/
theorem block_interrupts (hc : HostCode H) (e : Emu H) (b : Block) (he : e.MayEnter b) (d : Bool) (n : Nat)
    (hblock : ∀ m < n, ∃ k, ((Run.enterBlock ⟨e, .dispatch, d⟩ b).steps hc m).phase = .block b k)
    (hu : ∀ m < n, ((Run.enterBlock ⟨e, .dispatch, d⟩ b).steps hc m).Uninterrupted hc) :
    ((Run.enterBlock ⟨e, .dispatch, d⟩ b).steps hc n).emu.Holds
        (Machine.steps ((Run.enterBlock ⟨e, .dispatch, d⟩ b).lines hc n) e.guest) ∧
      ∀ m, m + 1 < n → ¬((Run.enterBlock ⟨e, .dispatch, d⟩ b).steps hc m).EntersInterrupt hc := by
  have hw : (Run.enterBlock ⟨e, .dispatch, d⟩ b).Within b e.guest :=
    ⟨⟨0, rfl, Emu.Bare.enter (c := ⟨e, .dispatch, d⟩) he.bare he.outside he.active he.cached he.here⟩,
      ⟨rfl, rfl⟩, he.running⟩
  refine ⟨(hw.steps n hblock hu).1, fun m hm => ?_⟩
  obtain ⟨k, hk⟩ := hblock m (by omega)
  obtain ⟨k', hk'⟩ := hblock (m + 1) hm
  obtain ⟨-, hwm⟩ := hw.steps m (fun l hl => hblock l (by omega)) fun l hl => hu l (by omega)
  obtain ⟨-, hgo⟩ := (hwm k hk).step (hu m (by omega))
  rw [Run.steps_succ] at hk'
  exact (hgo k' hk').2

/-- No executions from `s` come to the registers, and all have stopped after `n`. -/
def Machine.avoids (r : Regs) : Nat → Regs × Machine → Bool
  | 0, s => decide (s.1 ≠ r ∧ s.2.state ≠ .running)
  | n + 1, s => decide (s.1 ≠ r) &&
      (decide (s.2.state ≠ .running) || avoids r n (advance false s) && avoids r n (advance true s))

theorem Machine.steps_stopped {s : Regs × Machine} (hs : s.2.state ≠ .running) (lines : List Bool) :
    steps lines s = s := by
  induction lines with
  | nil => rfl
  | cons line lines ih =>
    change steps lines (advance line s) = s
    rw [advance, if_neg hs, ih]

theorem Machine.steps_avoid {r : Regs} {n : Nat} {s : Regs × Machine} (h : avoids r n s = true)
    (lines : List Bool) :
    (steps lines s).1 ≠ r := by
  induction n generalizing s lines with
  | zero =>
    obtain ⟨hr, hs⟩ := of_decide_eq_true h
    rwa [steps_stopped hs]
  | succ n ih =>
    obtain ⟨hr, hn⟩ := Bool.and_eq_true_iff.1 h
    rcases Bool.or_eq_true_iff.1 hn with hs | hn
    · rw [steps_stopped (of_decide_eq_true hs)]
      exact of_decide_eq_true hr
    · obtain ⟨hf, ht⟩ := Bool.and_eq_true_iff.1 hn
      cases lines with
      | nil => exact of_decide_eq_true hr
      | cons line lines =>
        cases line with
        | false => exact ih hf lines
        | true => exact ih ht lines

/-- `CLI`, an opcode that does not exist, `LDA #$42`, `JMP $0400`; the handler is a `NOP`. -/
def interruptedMem : Addr → Byte := fun a =>
  ([(0x0200, 0x58), (0x0201, 0x03), (0x0202, 0xA9), (0x0203, 0x42), (0x0204, 0x4C), (0x0205, 0x00),
    (0x0206, 0x04),
    (0x0300, 0xEA), (0xFFFE, 0x00), (0xFFFF, 0x03)] : List (Addr × Byte)).lookup a |>.getD 0xDB

/-- The program with the line asserted or not; it has not enabled interrupts yet. -/
def interruptedEmu (line : Bool) : Emu Unit :=
  { (init (ramBus interruptedMem) () ⟨0, 0, 0, 0x0200, 0xFF, 0x24⟩).jitEnable true with
    regs := ⟨0, 0, 0, 0x0200, 0xFF, 0x24⟩
    state := .running
    irq := line }

/-- The emulator with the block at `PC` compiled. -/
def interruptedBlock (line : Bool) : Option (Emu Unit × Block) :=
  match (interruptedEmu line).jitCompileBlock (quietHost identity) 0x0200 with
  | .ok (some b) e => some (e, b)
  | _ => none

theorem interruptedBlock_mayEnter {line : Bool} {e : Emu Unit} {b : Block}
    (h : interruptedBlock line = some (e, b)) (hrun : e.state = .running) : e.MayEnter b := by
  have hb : (interruptedEmu line).Bare := by
    refine ⟨ramOnce_ramBus _, ⟨rfl, rfl⟩, rfl, rfl, fun j hj => ?_⟩
    cases hj
    exact ⟨Jit.matches_create _, .inl ⟨rfl, rfl⟩⟩
  unfold interruptedBlock at h
  split at h
  · next b' e' hx =>
    cases h
    exact .of_compile hb rfl rfl (by decide) hx hrun
  · cases h

theorem interruptedBlock_isSome : ∀ line, (interruptedBlock line).isSome = true := by decide +kernel

def interruptedEntry (line : Bool) : Emu Unit × Block := (interruptedBlock line).get
    (interruptedBlock_isSome line)

/-- The run that enters it. -/
def interruptedRun (line : Bool) : Run Unit :=
  Run.enterBlock ⟨(interruptedEntry line).1, .dispatch, false⟩ (interruptedEntry line).2

theorem interruptedRun_phase : ∀ line, ∀ m < 4, ((interruptedRun line).steps (quietHost identity) m).phase =
    .block (interruptedEntry line).2 m := by
  decide +kernel

theorem interruptedEntry_mayEnter (line : Bool) : (interruptedEntry line).1.MayEnter (interruptedEntry line).2 :=
  interruptedBlock_mayEnter (Option.some_get (interruptedBlock_isSome line)).symm (by revert line; decide +kernel)

theorem interruptedRun_end : ((interruptedRun true).steps (quietHost identity) 4).phase = .dispatch ∧
    ((interruptedRun true).steps (quietHost identity) 4).emu.regs = ⟨0x42, 0, 0, 0x0400, 0xFC, 0x24⟩ ∧
    Machine.avoids ⟨0x42, 0, 0, 0x0400, 0xFC, 0x24⟩ 7 (interruptedEntry true).1.guest := by
  decide +kernel

/-- The opcode that does not exist enters the interrupt, and then the block goes on with `LDA #$42`. -/
theorem block_interrupts_goes_on : (interruptedEntry true).1.MayEnter (interruptedEntry true).2 ∧
    (∀ m < 4, ∃ k, ((interruptedRun true).steps (quietHost identity) m).phase = .block
      (interruptedEntry true).2 k) ∧
      ((interruptedRun true).steps (quietHost identity) 4).phase = .dispatch ∧
      ∀ lines, ¬((interruptedRun true).steps (quietHost identity) 4).emu.Holds
        (Machine.steps lines (interruptedEntry true).1.guest) := by
  obtain ⟨hp, hr, ha⟩ := interruptedRun_end
  refine ⟨interruptedEntry_mayEnter true, fun m hm => ⟨m, interruptedRun_phase true m hm⟩, hp, fun lines hh => ?_⟩
  exact Machine.steps_avoid ha lines (hh.1.symm.trans hr)

theorem block_interrupts_quiet : ((interruptedRun false).steps (quietHost identity) 4).emu.Holds
    (Machine.steps ((interruptedRun false).lines (quietHost identity) 4) (interruptedEntry false).1.guest) := by
  have hquiet : ∀ m < 4, ((interruptedRun false).steps (quietHost identity) m).emu.takesIrq
    (quietHost identity) = false := by
    decide +kernel
  exact (block_interrupts (quietHost identity) _ _ (interruptedEntry_mayEnter false) false 4
    (fun m hm => ⟨m, interruptedRun_phase false m hm⟩) fun m hm _ _ _ _ _ _ => hquiet m hm).1

end Rk65c02
