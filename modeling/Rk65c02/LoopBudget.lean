import Rk65c02.BlockShape
import Rk65c02.StopRequests

/-! The native code of a block ends. Between two jumps back control goes forward, and every
jump back takes one from the budget. -/

namespace Rk65c02

open Resumption

variable {H : Type} {hc : HostCode H}

/-- One less in the budget, as the guard computes it. -/
theorem budget_dec {m : Nat} (hm : m + 1 ≤ 256) : (BitVec.ofNat 32 (m + 1)).signExtend
    64 - 1 = BitVec.ofNat 64 m := by
  have hmsb : (BitVec.ofNat 32 (m + 1)).msb = false := by
    rw [BitVec.msb_eq_decide, decide_eq_false_iff_not, BitVec.toNat_ofNat]
    omega
  rw [BitVec.signExtend_eq_setWidth_of_msb_false hmsb]
  apply BitVec.eq_of_toNat_eq
  rw [BitVec.toNat_sub, BitVec.toNat_setWidth, BitVec.toNat_ofNat, BitVec.toNat_ofNat,
    show (1 : BitVec 64).toNat = 1 from rfl]
  omega

theorem budget_spent {m : Nat} (hm : m ≤ 256) : (BitVec.ofNat 64 m).sle 0 = decide (m = 0) := by
  have ht : (BitVec.ofNat 64 m).toInt = m := by
    rw [BitVec.toInt_eq_toNat_of_lt] <;> rw [BitVec.toNat_ofNat] <;> omega
  rw [BitVec.sle, ht]
  simp

namespace Emu

variable {e e' : Emu H}

theorem foldl_budget (e : Emu H) (cs : List HostCall) : (cs.foldl hostCall e).jitLoopBudget = e.jitLoopBudget :=
  List.foldlRecOn (motive := fun e' : Emu H => e'.jitLoopBudget = e.jitLoopBudget) cs _ rfl fun e' h c _ =>
    (hostCall_frame e' c).jitLoopBudget.trans h

theorem closed_budget (hc : HostCode H) (n : BitVec 32) : Closed hc fun e => e.jitLoopBudget = n where
  callback e c _ h := (foldl_budget _ _).trans h
  mmu _ _ h := h
  ram _ _ _ _ h := h
  note e a h := by
    obtain ⟨j, u, m, hn⟩ := e.noteGuestWrite_frame hc a
    rw [hn]
    exact h
  arrive e h := by
    rw [arrive_eq]
    exact (foldl_budget _ _).trans h
  fault _ _ _ _ h := h
  error _ h := h
  leave _ h := h
  log _ _ h := h
  notify e h := by
    unfold maybeCallOnStop
    split
    · exact h
    · exact (foldl_budget _ _).trans h

theorem asked_budget (hc : HostCode H) (r : Regs) (e : Emu H) : (e.asked hc r).jitLoopBudget = e.jitLoopBudget :=
  (closed_budget hc e.jitLoopBudget).arrive { e with regs := r } rfl

theorem run_budget {α : Type} {t : Tree NOp NOp.Ret Regs α} {q : α → Prop}
    (ht : t.Sat (fun o _ => o.keepsBudget = true) q)
    {v : α} (hr : t.run (handleNative hc) e = .ok v e') : e'.jitLoopBudget = e.jitLoopBudget := by
  refine (Tree.run_visit (I := fun s => s.jitLoopBudget = e.jitLoopBudget) (fun o r s hv hs => ?_) rfl).ok hr
  have ho := ht.visit hv
  have ha := (asked_budget hc r s).trans hs
  cases o with
  | base o => exact (closed_budget hc e.jitLoopBudget).answer ha o (fun _ => ha) fun _ _ => ha
  | setLoopBudget n => cases ho
  | _ => exact ha

/-- A guard that lets the jump through has taken one from the budget, and some is left. -/
theorem backedgeGuard_budget {span m : Nat} {r r' : Regs} (hb : e.jitLoopBudget = BitVec.ofNat 32 m)
    (hm : 0 < m ∧ m ≤ 256) (hg : ((backedgeGuard span).run r).run (handleNative hc) e = .ok (false, r') e') :
    ∃ m', m = m' + 1 ∧ 0 < m' ∧ e'.jitLoopBudget = BitVec.ofNat 32 m' := by
  obtain ⟨m', rfl⟩ : ∃ m', m = m' + 1 := ⟨m - 1, by omega⟩
  have hw : (e.asked hc r).jitLoopBudget.signExtend 64 - 1 = BitVec.ofNat 64 m' := by
    rw [asked_budget, hb, budget_dec hm.2]
  rw [backedgeGuard_run span r e hw rfl rfl, budget_spent (by omega)] at hg
  by_cases hz : m' = 0
  · rw [if_pos (decide_eq_true hz)] at hg
    cases hg
  · rw [if_neg (by simpa using hz)] at hg
    refine ⟨m', rfl, Nat.pos_of_ne_zero hz, ?_⟩
    split at hg
    · cases hg
    · split at hg
      · cases hg
      · cases hg
        simp only [asked_budget]
        apply BitVec.eq_of_toNat_eq
        simp

theorem backedgeGuard_answers (hc : HostCode H) (span : Nat) (r : Regs) (e : Emu H) :
    ∃ g s, ((backedgeGuard span).run r).run (handleNative hc) e = .ok (g, r) s := by
  rw [backedgeGuard_run span r e rfl rfl rfl]
  split
  · exact ⟨_, _, rfl⟩
  · split
    · exact ⟨_, _, rfl⟩
    · split <;> exact ⟨_, _, rfl⟩

/-- The line stays up until the host takes the request back. -/
theorem asked_irq (h : e.irq = true) (r : Regs) :
    (e.asked hc r).irq = true ∨ .deassertIrq ∈ hc.async e.clock := by
  have hf := foldl_irq { e with regs := r, clock := e.clock + 1 } ((hc.async e.clock).map AsyncCall.call) (.inl h)
  rw [asked, arrive_eq]
  refine hf.imp id fun hd => ?_
  obtain ⟨c, hc, hcall⟩ := List.mem_map.1 hd
  cases c with
  | deassertIrq => exact hc
  | assertIrq => cases hcall
  | requestStop => cases hcall

theorem asked_clock (hc : HostCode H) (r : Regs) (e : Emu H) : (e.asked hc r).clock = e.clock + 1 := by
  rw [asked, arrive_eq, foldl_clock]

/-- A guard that lets the jump through has seen the line low. -/
theorem backedgeGuard_irq {span : Nat} {r r' : Regs} (h : e.irq = true)
    (hg : ((backedgeGuard span).run r).run (handleNative hc) e = .ok (false, r') e') :
    ∃ m, e.clock ≤ m ∧ m < e'.clock ∧ .deassertIrq ∈ hc.async m := by
  obtain ⟨s, hs⟩ : ∃ s : Emu H, s = { (e.asked hc r).asked hc r with
      jitLoopBudget := ((e.asked hc r).jitLoopBudget.signExtend 64 - 1).setWidth 32 } := ⟨_, rfl⟩
  obtain ⟨t, ht⟩ : ∃ t, t = (s.asked hc r).asked hc r := ⟨_, rfl⟩
  have hclock : s.clock = e.clock + 2 := by rw [hs]; simp only [asked_clock]
  rw [backedgeGuard_run span r e rfl hs ht] at hg
  split at hg
  · cases hg
  · split at hg
    · cases hg
    · split at hg
      · cases hg
      · next hlow =>
        cases hg
        by_contra hn
        have hnone : ∀ m, e.clock ≤ m → m < e.clock + 5 → .deassertIrq ∉ hc.async m := fun m h1 h2 hd =>
          hn ⟨m, h1, by simpa only [ht, asked_clock, hclock] using h2, hd⟩
        have h1 := (asked_irq h r).resolve_right (hnone _ (by omega) (by omega))
        have h2 := (asked_irq h1 r).resolve_right
          (hnone _ (by rw [asked_clock]; omega) (by rw [asked_clock]; omega))
        have h3 : s.irq = true := by rw [hs]; exact h2
        have h4 := (asked_irq h3 r).resolve_right (hnone _ (by omega) (by omega))
        have h5 := (asked_irq h4 r).resolve_right
          (hnone _ (by rw [asked_clock]; omega) (by rw [asked_clock]; omega))
        exact hlow (ht ▸ h5)

/-- The budget on the way to another instruction of the block. -/
theorem native_budget {ctx : EmitCtx} {k m : Nat} {i : Instruction} {next : Next}
    (hb : e.jitLoopBudget = BitVec.ofNat 32 m)
    (hm : 0 < m ∧ m ≤ 256) (hx : e.runNative hc (nativeInsn ctx k i) = .ok next e') (hne : next ≠ .ret) :
    (next = .fall ∨ ∃ t, next = .goto t ∧ k < t) ∧ e'.jitLoopBudget = BitVec.ofNat 32 m ∨
      ∃ t m', next = .goto t ∧ Backward ctx k i e.regs t ∧ m = m' + 1 ∧ 0 < m' ∧
      e'.jitLoopBudget = BitVec.ofNat 32 m' := by
  obtain ⟨v, s, hr, hv⟩ := Out.of_bind_ok hx
  obtain ⟨rfl, rfl⟩ := Out.ok.inj hv
  rcases nativeInsn_cases ctx k i e.regs with hs | ⟨t, hback⟩
  · exact .inl ⟨(hs.run_ok hr).resolve_left hne, (run_budget hs hr).trans hb⟩
  · rw [hback.run, Tree.run_bind] at hr
    obtain ⟨⟨g, r'⟩, s', hg, hr⟩ := Out.of_bind_ok hr
    cases g with
    | true =>
      cases hr
      exact absurd rfl hne
    | false =>
      cases hr
      obtain ⟨m', rfl, hpos, hb'⟩ := backedgeGuard_budget hb hm hg
      exact .inr ⟨t, m', rfl, hback, rfl, hpos, hb'⟩

theorem accesses_stopRequested (hc : HostCode H) : Accesses hc fun e => e.stopRequested = true where
  callback e c _ h := foldl_requested (e := { e with host := _ }) _ (.inl h)
  mmu _ _ h := h
  ram _ _ _ _ h := h
  note e a h := by
    obtain ⟨j, u, m, hn⟩ := e.noteGuestWrite_frame hc a
    rw [hn]
    exact h

/-- Native code leaves a stop request standing, unless it is left through an error. -/
theorem native_requested {ctx : EmitCtx} {k : Nat} {i : Instruction} {next : Next} (h : e.stopRequested = true)
    (hin : e.inJitRun = true) (hx : e.runNative hc (nativeInsn ctx k i) = .ok next e') :
    e'.stopRequested = true := by
  obtain ⟨v, s, hr, hv⟩ := Out.of_bind_ok hx
  obtain ⟨-, rfl⟩ := Out.ok.inj hv
  refine ((nativeInsn_within ctx k i e.regs).run_leads (A := fun s => s.stopRequested = true ∧ s.inJitRun = true)
    (B := fun _ => True) (fun o r s _ hs => ?_) ⟨h, hin⟩).ok hr |>.1
  have ha : (s.asked hc r).stopRequested = true ∧ (s.asked hc r).inJitRun = true :=
    ⟨requested_asked hs.1 r, (arrive_inJitRun hc _).trans hs.2⟩
  change ((s.asked hc r).answerNative hc o).Leads _ _
  generalize s.asked hc r = s at ha ⊢
  cases o with
  | base o =>
    refine ((accesses_stopRequested hc).and (accesses_inJitRun hc true)).answer ha o
      (fun _ _ _ h => h) (fun _ => ha)
      (fun _ _ => ha) (fun _ => ?_) fun a x code _ => ?_
    · exact (emuStopError_exits ha.2).mono (fun _ hs => hs.elim) fun _ _ => trivial
    · exact (mmuFault_exits (e := (s.mmuTranslateAddr hc a x).2) ha.2 a x code).mono
        (fun _ hs => hs.elim) fun _ _ => trivial
  | setLoopBudget n => exact ha
  | countInsns n => exact ha
  | _ => exact ha

end Emu

namespace Run

variable {c : Run H} {b : Block} {k m : Nat}

/-- The block has been left: it has returned, or an access was refused. -/
def Left (c : Run H) : Prop := c.phase = .dispatch ∨ c.phase = .done

/-- The run is before instruction `k` of the block, and `m` is left of the budget. -/
structure InBlock (b : Block) (k m : Nat) (c : Run H) : Prop where
  phase : c.phase = .block b k
  within : k < (b.fn.getD []).length
  inJitRun : c.emu.inJitRun = true
  budget : c.emu.jitLoopBudget = BitVec.ofNat 32 m
  pos : 0 < m ∧ m ≤ 256

theorem step_block (hp : c.phase = .block b k) : c.step hc = c.blockStep hc b k := by
  unfold Run.step
  rw [hp]

/-- The next instruction of the running block is a branch that is taken back. -/
def AttemptsBack (c : Run H) : Prop :=
  ∃ b k i t, c.Enters b k i ∧ Backward ⟨insnAddrs b.startPc (b.fn.getD [])⟩ k i c.emu.regs t

/-- The step executes instruction `k`, and control goes from it to instruction `t`. -/
def GoesTo (hc : HostCode H) (b : Block) (k t : Nat) (c : Run H) : Prop :=
  ∃ i next e, c.Enters b k i ∧
    c.emu.runNative hc (nativeInsn ⟨insnAddrs b.startPc (b.fn.getD [])⟩ k i) = .ok next e ∧
    (next = .goto t ∨ next = .fall ∧ t = k + 1) ∧ t < (b.fn.getD []).length ∧ e.inJitRun = true ∧
    c.step hc = { c with emu := e, phase := .block b t }

theorem InBlock.left_or_goes (hc : HostCode H) (h : c.InBlock b k m) : (c.step hc).Left ∨
    ∃ t, c.GoesTo hc b k t := by
  obtain ⟨i, hi⟩ : ∃ i, (b.fn.getD [])[k]? = some i := ⟨_, List.getElem?_eq_getElem h.within⟩
  have hleads := Emu.native_leads hc h.inJitRun ⟨insnAddrs b.startPc (b.fn.getD [])⟩ k i
  have hstep : c.step hc = c.blockStep hc b k := step_block h.phase
  unfold blockStep at hstep
  cases hx : c.emu.runNative hc (nativeInsn ⟨insnAddrs b.startPc (b.fn.getD [])⟩ k i) with
  | stuck =>
    rw [hx] at hleads
    exact hleads.elim
  | exit e =>
    simp only [hi, hx] at hstep
    rw [hstep]
    exact .inl (.inl (processPendingWrites_inJitRun _).2)
  | ok next e =>
    have hin := hleads.ok hx
    simp only [hi, hx] at hstep
    cases next with
    | ret =>
      rw [hstep]
      exact .inl (blockReturn_phase hc _)
    | fall =>
      dsimp only at hstep
      split at hstep
      · next hk => exact .inr ⟨k + 1, i, _, e, ⟨h.phase, hi⟩, hx, .inr ⟨rfl, rfl⟩, hk, hin, hstep⟩
      · rw [hstep]
        exact .inl (blockReturn_phase hc _)
    | goto t =>
      have ht := Emu.native_within hx t rfl
      rw [insnAddrs_length] at ht
      exact .inr ⟨t, i, _, e, ⟨h.phase, hi⟩, hx, .inl rfl, ht, hin, hstep⟩

/-- Control goes forward, or back with one taken from the budget. -/
theorem InBlock.goes (h : c.InBlock b k m) {t : Nat} (hg : c.GoesTo hc b k t) :
    k < t ∧ (c.step hc).InBlock b t m ∨ t ≤ k ∧ c.AttemptsBack ∧ ∃ m', m = m' + 1 ∧
    (c.step hc).InBlock b t m' := by
  obtain ⟨i, next, e, he, hx, hn, ht, hin, hs⟩ := hg
  rw [hs]
  have hne : next ≠ .ret := by rcases hn with rfl | ⟨rfl, -⟩ <;> nofun
  rcases Emu.native_budget h.budget h.pos hx hne with ⟨hf, hb⟩ | ⟨t', m', rfl, hback, rfl, hpos, hb⟩
  · refine .inl ⟨?_, rfl, ht, hin, hb, h.pos⟩
    rcases hn with rfl | ⟨rfl, rfl⟩
    · rcases hf with hf | ⟨t', hf, hk⟩
      · cases hf
      · cases hf
        exact hk
    · exact Nat.lt_succ_self k
  · have hm := h.pos
    rcases hn with hn | ⟨hn, -⟩
    · cases hn
      exact .inr ⟨hback.back, ⟨b, k, i, t, he, hback⟩, m', rfl, rfl, ht, hin, hb, hpos, by omega⟩
    · cases hn

/-- The step is a jump back inside the running block. -/
def jumpsBack (hc : HostCode H) (c : Run H) : Bool :=
  match c.phase, (c.step hc).phase with
  | .block _ k, .block _ t => t ≤ k
  | _, _ => false

/-- How many of the next `n` steps jump back. -/
def backJumps (hc : HostCode H) : Nat → Run H → Nat
  | 0, _ => 0
  | n + 1, c => (c.jumpsBack hc).toNat + backJumps hc n (c.step hc)

/-- The run is in the block for `n` steps, and then it is not. -/
structure LeavesAfter (hc : HostCode H) (b : Block) (n : Nat) (c : Run H) : Prop where
  inside : ∀ i < n, ∃ k m, (c.steps hc i).InBlock b k m
  left : (c.steps hc n).Left

theorem LeavesAfter.succ {n : Nat} (hp : c.InBlock b k m) (h : (c.step hc).LeavesAfter hc b n) :
    c.LeavesAfter hc b (n + 1) := by
  refine ⟨fun i hi => ?_, h.left⟩
  cases i with
  | zero => exact ⟨k, m, hp⟩
  | succ i => exact h.inside i (Nat.lt_of_succ_lt_succ hi)

theorem InBlock.jumpsBack_eq (h : c.InBlock b k m) {t m' : Nat} (hs : (c.step hc).InBlock b t m') :
    c.jumpsBack hc = decide (t ≤ k) := by
  unfold jumpsBack
  rw [h.phase, hs.phase]

theorem Left.not_jumpsBack (h : (c.step hc).Left) : c.jumpsBack hc = false := by
  unfold jumpsBack
  rcases h with h | h <;> rw [h] <;> cases c.phase <;> rfl

variable (hc) in
/-- The block is left before the measure of budget and position is used up. -/
theorem InBlock.leaves (N : Nat) (h : c.InBlock b k m)
    (hN : (b.fn.getD []).length - k + (m - 1) * (b.fn.getD []).length ≤ N) :
    ∃ n ≤ N, c.LeavesAfter hc b n ∧ c.backJumps hc n ≤ m - 1 := by
  induction N generalizing c k m with
  | zero =>
    have hk := h.within
    omega
  | succ N ih =>
    have hk := h.within
    rcases h.left_or_goes hc with hl | ⟨t, hg⟩
    · exact ⟨1, Nat.succ_pos N, .succ h ⟨nofun, hl⟩, by simp [backJumps, hl.not_jumpsBack]⟩
    rcases h.goes hg with ⟨ht, hs⟩ | ⟨ht, -, m', rfl, hs⟩
    · obtain ⟨n, hn, hleaves, hjumps⟩ := ih hs (by omega)
      refine ⟨n + 1, Nat.succ_le_succ hn, .succ h hleaves, ?_⟩
      simpa [backJumps, h.jumpsBack_eq hs, Nat.not_le_of_lt ht] using hjumps
    · have hpos := hs.pos
      obtain ⟨m, rfl⟩ : ∃ m'', m' = m'' + 1 := ⟨m' - 1, by omega⟩
      rw [Nat.add_sub_cancel, Nat.succ_mul] at hN
      obtain ⟨n, hn, hleaves, hjumps⟩ := ih hs (by rw [Nat.add_sub_cancel]; omega)
      refine ⟨n + 1, Nat.succ_le_succ hn, .succ h hleaves, ?_⟩
      have hj := Bool.toNat_le (c.jumpsBack hc)
      rw [backJumps]
      omega

/-- An attempt ends the block, or the guard lets it through. -/
theorem AttemptsBack.step (hc : HostCode H) (h : c.AttemptsBack) : (c.step hc).Left ∨ ∃ span r r' s,
    ((backedgeGuard span).run r).run (Emu.handleNative hc) c.emu = .ok (false, r') s ∧
      (c.step hc).emu = { s with regs := r' } := by
  obtain ⟨b, k, i, t, ⟨hp, hi⟩, hb⟩ := h
  obtain ⟨g, s, hg⟩ := c.emu.backedgeGuard_answers hc (k - t + 1)
    (branchRegs ⟨insnAddrs b.startPc (b.fn.getD [])⟩ k i c.emu.regs)
  have hx : c.emu.runNative hc (nativeInsn ⟨insnAddrs b.startPc (b.fn.getD [])⟩ k i) =
      .ok (if g then .ret else .goto t)
        { s with regs := branchRegs ⟨insnAddrs b.startPc (b.fn.getD [])⟩ k i c.emu.regs } := by
    unfold Emu.runNative
    rw [hb.run, Tree.run_bind, hg]
    rfl
  rw [step_block hp]
  unfold blockStep
  simp only [hi, hx]
  cases g with
  | true => exact .inl (blockReturn_phase hc _)
  | false => exact .inr ⟨_, _, _, s, hg, rfl⟩

theorem AttemptsBack.left_of_requested (hc : HostCode H) (h : c.AttemptsBack) (hs : c.emu.stopRequested = true) :
    (c.step hc).Left := by
  refine (h.step hc).resolve_right ?_
  rintro ⟨span, r, r', s, hg, -⟩
  obtain ⟨s', hg'⟩ := Emu.backedgeGuard_requested hc hs span r
  cases hg.symm.trans hg'

theorem AttemptsBack.left_of_irq (hc : HostCode H) (h : c.AttemptsBack) (hi : c.emu.irq = true) :
    (c.step hc).Left ∨ ∃ m, c.emu.clock ≤ m ∧ m < (c.step hc).emu.clock ∧ .deassertIrq ∈ hc.async m := by
  refine (h.step hc).imp id ?_
  rintro ⟨span, r, r', s, hg, hs⟩
  obtain ⟨m, hm⟩ := Emu.backedgeGuard_irq hi hg
  exact ⟨m, hs ▸ hm⟩

/-- Every jump back is an attempt. -/
theorem InBlock.attempts (h : c.InBlock b k m) (hj : c.jumpsBack hc = true) : c.AttemptsBack := by
  rcases h.left_or_goes hc with hl | ⟨t, hg⟩
  · cases hl.not_jumpsBack.symm.trans hj
  · rcases h.goes hg with ⟨ht, hs⟩ | ⟨-, ha, -⟩
    · rw [h.jumpsBack_eq hs, decide_eq_true_iff] at hj
      omega
    · exact ha

/-- A stop request stands as long as the block runs. -/
theorem GoesTo.requested {t : Nat} (hg : c.GoesTo hc b k t) (hin : c.emu.inJitRun = true)
    (hs : c.emu.stopRequested = true) :
    (c.step hc).emu.stopRequested = true := by
  obtain ⟨i, next, e, -, hx, -, -, -, hstep⟩ := hg
  rw [hstep]
  exact Emu.native_requested hs hin hx

theorem LeavesAfter.requested {n : Nat} (h : c.LeavesAfter hc b n) {i l : Nat} (hil : i ≤ l) (hl : l < n)
    (hs : (c.steps hc i).emu.stopRequested = true) : (c.steps hc l).emu.stopRequested = true := by
  induction hil with
  | refl => exact hs
  | @step l _ ih =>
    obtain ⟨k, m, hin⟩ := h.inside l (Nat.lt_of_succ_lt hl)
    rw [steps_succ]
    rcases hin.left_or_goes hc with hleft | ⟨t, hg⟩
    · obtain ⟨k', m', hin'⟩ := h.inside (l + 1) hl
      rw [steps_succ] at hin'
      rcases hleft with hp | hp <;> cases hp.symm.trans hin'.phase
    · exact hg.requested hin.inJitRun (ih (Nat.lt_of_succ_lt hl))

end Run

/-- The native code of a block returns within the budget, and a request ends it at the first
attempt to jump back. -/
theorem block_dispatch_ends {j : Jit} (hj : j.Reachable) {b : Block} (hb : b ∈ j.blocks) (ha : b.active = true)
    (hc : HostCode H) {c : Run H} (hp : c.phase = .block b 0) (hin : c.emu.inJitRun = true)
    (hbudget : c.emu.jitLoopBudget = jitLoopBudget) :
    ∃ n ≤ jitLoopBudget.toNat * jitBlockMaxInsns, c.LeavesAfter hc b n ∧
    c.backJumps hc n ≤ jitLoopBudget.toNat - 1 ∧
      (∀ l < n, (c.steps hc l).jumpsBack hc = true → (c.steps hc l).AttemptsBack) ∧
      (∀ i l, i ≤ l → l < n → (c.steps hc i).emu.stopRequested = true → (c.steps hc l).AttemptsBack →
        (c.steps hc (l + 1)).Left) ∧
      ∀ l < n, (c.steps hc l).emu.irq = true → (c.steps hc l).AttemptsBack → (c.steps hc (l + 1)).Left ∨
        ∃ m, (c.steps hc l).emu.clock ≤ m ∧ m < (c.steps hc (l + 1)).emu.clock ∧ .deassertIrq ∈ hc.async m := by
  obtain ⟨insns, hfn⟩ := Option.isSome_iff_exists.1 ha
  obtain ⟨hpos, hmax, -⟩ := (hj.shaped b hb insns hfn).count
  have hlen : (b.fn.getD []).length = insns.length := by rw [hfn]; rfl
  have hblock : c.InBlock b 0 256 := ⟨hp, hlen ▸ hpos, hin, hbudget, by decide⟩
  have hN : (b.fn.getD []).length - 0 + (256 - 1) * (b.fn.getD []).length ≤ jitLoopBudget.toNat *
    jitBlockMaxInsns := by
    have h256 : jitLoopBudget.toNat = 256 := rfl
    rw [hlen, h256]
    omega
  obtain ⟨n, hn, hleaves, hjumps⟩ := hblock.leaves hc _ hN
  refine ⟨n, hn, hleaves, hjumps, fun l hl => ?_, fun i l hil hl hs hat => ?_, fun l _ hi hat => ?_⟩
  · obtain ⟨k, m, hin⟩ := hleaves.inside l hl
    exact hin.attempts
  · rw [Run.steps_succ]
    exact hat.left_of_requested hc (hleaves.requested hil hl hs)
  · rw [Run.steps_succ]
    exact hat.left_of_irq hc hi

/-- `DEX`, `BNE` back to it, `RTS`, with five rounds to go. -/
def countingEmu : Emu Unit :=
  let code : List Byte := [0xCA, 0xD0, 0xFD, 0x60]
  let regs : Regs := ⟨0, 5, 0, 0x0200, 0xFD, 0x20⟩
  { (init (ramBus fun a => code.getD (a.toNat - 0x0200) 0) () regs).jitEnable
    true with regs := regs, state := .running }

/-- The run that enters the block. -/
def countingRun (b : Block) : Run Unit :=
  ⟨{ countingEmu with inJitRun := true, jitLoopBudget := jitLoopBudget }, .block b 0, false⟩

theorem block_dispatch_ends_loop : ∃ b : Block, (countingRun b).backJumps (quietHost identity) 10 = 4 ∧
    ((countingRun b).steps (quietHost identity) 10).emu.regs.X = 0 ∧
    ∃ n ≤ 16384, (countingRun b).LeavesAfter (quietHost identity) b n ∧ (countingRun b).backJumps
    (quietHost identity) n ≤ 255 := by
  have hany : (cacheAfter (quietHost identity) countingEmu 0x0200).any (fun j => j.blocks.any fun b => b.active &&
      decide ((countingRun b).backJumps (quietHost identity) 10 = 4 ∧
        ((countingRun b).steps (quietHost identity) 10).emu.regs.X = 0)) = true := by
    decide +kernel
  obtain ⟨j, hj, hb⟩ := (Option.any_eq_true _ _).1 hany
  obtain ⟨b, hb, hab⟩ := List.any_eq_true.1 hb
  obtain ⟨ha, hback⟩ := Bool.and_eq_true_iff.1 hab
  obtain ⟨hfour, hx⟩ := of_decide_eq_true hback
  obtain ⟨n, hn, hleaves, hjumps, -⟩ := block_dispatch_ends (cacheAfter_reachable rfl hj) hb ha
    (quietHost identity)
    (c := countingRun b) rfl rfl rfl
  exact ⟨b, hfour, hx, n, hn, hleaves, hjumps⟩

end Rk65c02
