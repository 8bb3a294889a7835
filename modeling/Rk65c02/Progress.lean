import Rk65c02.JitReachable

/-! Runs never get stuck: code outside of blocks is never left through an error, native code
jumps only to instructions of its block, and no block is empty. -/

namespace Rk65c02

open Resumption

variable {H : Type} {hc : HostCode H}

namespace Emu

variable {b : Bool} {e : Emu H}

theorem accesses_inJitRun (hc : HostCode H) (b : Bool) : Accesses hc fun e => e.inJitRun = b where
  callback e c _ h := (foldl_inJitRun _ _).trans h
  mmu _ _ h := h
  ram _ _ _ _ h := h
  note e a h := by
    obtain ⟨j, u, m, hn⟩ := e.noteGuestWrite_frame hc a
    rw [hn]
    exact h

theorem arrive_inJitRun (hc : HostCode H) (e : Emu H) : (e.arrive hc).inJitRun = e.inJitRun := by
  rw [arrive_eq, foldl_inJitRun]

theorem callOnStop_inJitRun (hc : HostCode H) (e : Emu H) : (e.maybeCallOnStop hc).inJitRun = e.inJitRun := by
  unfold maybeCallOnStop
  split
  · rfl
  · exact foldl_inJitRun _ _

/-- An error leaves a block, and nothing else. -/
theorem emuStopError_leads (h : e.inJitRun = b) :
    (e.emuStopError hc).Leads (fun s => s.inJitRun = b) fun s => b = true ∧ s.inJitRun = false := by
  unfold emuStopError
  dsimp only
  split
  · next hb => exact ⟨h.symm.trans hb, rfl⟩
  · split
    · exact (callOnStop_inJitRun hc _).trans h
    · exact h

/-- In a block an error is the end of the block. -/
theorem emuStopError_exits (h : e.inJitRun = true) :
    (e.emuStopError hc).Leads (fun _ => False) fun s => s.state = .stopped ∧ s.stopreason = .emuerror := by
  unfold emuStopError
  dsimp only
  rw [if_pos h]
  exact ⟨rfl, rfl⟩

theorem mmuFault_exits (h : e.inJitRun = true) (a : Addr) (x : Access) (code : BitVec 16) :
    (e.mmuFault hc a x code).Leads (fun _ => False) fun s => s.state = .stopped ∧ s.stopreason = .emuerror := by
  unfold mmuFault
  refine emuStopError_exits ?_
  split
  · exact h
  · exact (foldl_inJitRun _ _).trans h

theorem handle_leads (o : Op) (r : Regs) (h : e.inJitRun = b) :
    (handle hc o r e).Leads (fun s => s.inJitRun = b) fun s => b = true ∧ s.inJitRun = false := by
  have ha : (e.asked hc r).inJitRun = b := (arrive_inJitRun hc _).trans h
  refine (accesses_inJitRun hc b).answer ha o (fun _ _ _ h => h) (fun _ => ha) (fun _ _ => ha)
    (fun _ => emuStopError_leads ha) fun a x code _ => ?_
  unfold mmuFault
  refine emuStopError_leads ?_
  split
  · exact ha
  · exact (foldl_inJitRun _ _).trans ha

theorem handleNative_leads (hc : HostCode H) (o : NOp) (r : Regs) (h : e.inJitRun = b) :
    (handleNative hc o r e).Leads (fun s => s.inJitRun = b) fun s => b = true ∧ s.inJitRun = false := by
  cases o with
  | base o => exact handle_leads o r h
  | _ => exact (arrive_inJitRun hc _).trans h

end Emu

/-- The jump, if it is one, stays within `n` instructions. -/
def Next.Within (n : Nat) (next : Next) : Prop := ∀ t, next = .goto t → t < n

theorem branchControl_within (ctx : EmitCtx) (k : Nat) (target : Addr) (taken : Bool) (r : Regs) :
    ((branchControl ctx k target taken).run r).Sat (fun _ _ => True) fun v => v.1.Within ctx.insnAddr.length :=
  (branchControl_sat ctx k target taken).mono (fun _ _ _ => trivial) fun _ hv t ht =>
    (List.getElem?_eq_some_iff.1 (hv.2.2 t ht).2).1

theorem nativeInsn_within (ctx : EmitCtx) (k : Nat) (i : Instruction) (r : Regs) :
    ((nativeInsn ctx k i).run r).Sat (fun _ _ => True) fun v => v.1.Within ctx.insnAddr.length := by
  cases hc : emitCase i.opcode with
  | none =>
    rw [nativeInsn_fallback hc, StateT.run_bind]
    refine Tree.Sat.bind (q := fun _ => True) ((exec_keeps r trivial).lift fun _ _ _ => trivial) fun v _ => ?_
    exact (fallbackControl_sat _).mono (fun _ _ _ => trivial) fun _ h t ht => absurd ht (h.2 t)
  | some c =>
    by_cases hb : c = .condBranch
    · subst hb
      rw [nativeInsn_branch ctx k r hc]
      exact branchControl_within ctx k _ _ _
    · rw [nativeInsn_eq_of_ne ctx k r hc hb]
      exact (nativeProgram_sat (G := fun _ => True) trivial hc hb ctx k).mono (fun _ _ _ => trivial)
        fun _ h t ht => absurd ht (h.2 t)

/-- The instruction is a branch that is taken, back to instruction `t`. -/
structure Backward (ctx : EmitCtx) (k : Nat) (i : Instruction) (r : Regs) (t : Nat) : Prop where
  branch : emitCase i.opcode = some .condBranch
  taken : branchTaken i.opcode (r.P.setWidth 64) = true
  label : ctx.insnAddr.idxOf? (branchTarget ctx k i (instructionDecode i.opcode).size) = some t
  back : t ≤ k

/-- It goes through the guard. -/
theorem Backward.run {ctx : EmitCtx} {k t : Nat} {i : Instruction} {r : Regs} (h : Backward ctx k i r t) :
    (nativeInsn ctx k i).run r = (backedgeGuard (k - t + 1)).run (branchRegs ctx k i r) >>= fun v =>
      .done (if v.1 then .ret else .goto t, v.2) := by
  rw [nativeInsn_branch ctx k r h.branch, h.taken]
  unfold branchControl
  simp only [if_true, h.label, if_pos h.back, StateT.run_bind]
  refine congrArg (_ >>= ·) (funext fun v => ?_)
  obtain ⟨g, r'⟩ := v
  cases g <;> rfl

/-- Native code leaves the budget alone and goes forward, or it is a branch back. -/
theorem nativeInsn_cases (ctx : EmitCtx) (k : Nat) (i : Instruction) (r : Regs) :
    ((nativeInsn ctx k i).run r).Sat (fun o _ => o.keepsBudget = true)
      (fun v => v.1 = .ret ∨ v.1 = .fall ∨ ∃ t, v.1 = .goto t ∧ k < t) ∨ ∃ t, Backward ctx k i r t := by
  have hplain : ∀ next : Next, (∀ t, next ≠ .goto t) → next = .ret ∨ next = .fall ∨ ∃ t, next = .goto t ∧ k < t :=
    fun next h => by
      cases next with
      | ret => exact .inl rfl
      | fall => exact .inr (.inl rfl)
      | goto t => exact absurd rfl (h t)
  cases hc : emitCase i.opcode with
  | none =>
    left
    rw [nativeInsn_fallback hc, StateT.run_bind]
    refine Tree.Sat.bind (q := fun _ => True) ((exec_keeps r trivial).lift fun _ _ _ => rfl) fun v _ => ?_
    exact (fallbackControl_sat _).mono (fun _ _ h => h.2) fun v h => hplain v.1 h.2
  | some c =>
    by_cases hb : c = .condBranch
    · subst hb
      rw [nativeInsn_branch ctx k r hc]
      cases htaken : branchTaken i.opcode (r.P.setWidth 64) with
      | false => exact .inl (.inr (.inl rfl))
      | true =>
        cases ht : ctx.insnAddr.idxOf? (branchTarget ctx k i (instructionDecode i.opcode).size) with
        | none =>
          left
          simp only [branchControl, if_true, ht]
          exact .inl rfl
        | some t =>
          by_cases hk : t ≤ k
          · exact .inr ⟨t, hc, htaken, ht, hk⟩
          · left
            simp only [branchControl, if_true, ht, if_neg hk]
            exact .inr (.inr ⟨t, rfl, Nat.lt_of_not_le hk⟩)
    · left
      rw [nativeInsn_eq_of_ne ctx k r hc hb]
      exact (nativeProgram_sat (G := fun _ => True) trivial hc hb ctx k).mono (fun _ _ h => h.1.2) fun v h =>
        hplain v.1 h.2

namespace Emu

variable {b : Bool} {e : Emu H}

theorem runCpu_leads (hc : HostCode H) {α : Type} {x : Cpu α} {p : Op → Regs → Prop}
    {q : α × Regs → Prop} (hx : (x.run e.regs).Sat p q) (h : e.inJitRun = b) :
    (e.runCpu hc x).Leads (fun s => s.inJitRun = b) fun s => b = true ∧ s.inJitRun = false :=
  (hx.run_leads (fun o r _ _ => handle_leads o r) h).bind fun _ _ hs => hs

theorem exec_leads (hc : HostCode H) (h : e.inJitRun = b) :
    (e.exec hc).Leads (fun s => s.inJitRun = b) fun s => b = true ∧ s.inJitRun = false :=
  runCpu_leads hc (exec_keeps e.regs trivial) h

theorem exec_answers (hc : HostCode H) (h : e.inJitRun = false) : ∃ e', e.exec hc = .ok () e' ∧
    e'.inJitRun = false := by
  have hx := exec_leads hc h
  cases hr : e.exec hc with
  | ok v s => exact ⟨s, rfl, hx.ok hr⟩
  | exit s => exact absurd (hx.exit hr).1 Bool.false_ne_true
  | stuck =>
    rw [hr] at hx
    exact hx.elim

theorem native_leads (hc : HostCode H) (h : e.inJitRun = true) (ctx : EmitCtx) (k : Nat) (i : Instruction) :
    (e.runNative hc (nativeInsn ctx k i)).Leads (fun s => s.inJitRun = true) fun s => s.inJitRun = false := by
  have hx := (nativeInsn_within ctx k i e.regs).run_leads (A := fun s => s.inJitRun = true)
    (B := fun s => s.inJitRun = false) (h := handleNative hc) (s := e) (fun o r s _ hs => ?_) h
  · exact hx.bind fun _ _ hs => hs
  · have ho := handleNative_leads hc o r hs
    cases hr : handleNative hc o r s with
    | ok v s' => exact ho.ok hr
    | exit s' => exact (ho.exit hr).2
    | stuck =>
      rw [hr] at ho
      exact ho

theorem native_within {ctx : EmitCtx} {k : Nat} {i : Instruction} {next : Next} {e' : Emu H}
    (hx : e.runNative hc (nativeInsn ctx k i) = .ok next e') : next.Within ctx.insnAddr.length := by
  obtain ⟨v, s, hr, hv⟩ := Out.of_bind_ok hx
  have hn : v.1 = next := (Out.ok.inj hv).1
  exact hn ▸ (nativeInsn_within ctx k i e.regs).run_ok hr

/-- A jump inside a block goes forward, or through the guard. -/
theorem native_goto {ctx : EmitCtx} {k t : Nat} {i : Instruction} {e' : Emu H}
    (hx : e.runNative hc (nativeInsn ctx k i) = .ok (.goto t) e') : k < t ∨ ∃ r r' s,
      ((backedgeGuard (k - t + 1)).run r).run (handleNative hc) e = .ok (false, r') s ∧
      e' = { s with regs := r' } := by
  obtain ⟨v, s, hr, hv⟩ := Out.of_bind_ok hx
  have hn : v.1 = .goto t := (Out.ok.inj hv).1
  have he : { s with regs := v.2 } = e' := (Out.ok.inj hv).2
  rcases nativeInsn_cases ctx k i e.regs with hs | ⟨l, hb⟩
  · rcases hs.run_ok hr with hf | hf | ⟨l, hf, hl⟩
    · cases hn.symm.trans hf
    · cases hn.symm.trans hf
    · cases hn.symm.trans hf
      exact .inl hl
  · rw [hb.run, Tree.run_bind] at hr
    obtain ⟨⟨g, r'⟩, s', hg, hr⟩ := Out.of_bind_ok hr
    cases g with
    | true =>
      cases hr
      cases hn
    | false =>
      cases hr
      cases hn
      exact .inr ⟨_, r', s, hg, he.symm⟩

theorem accesses_running (hc : HostCode H) (b : Bool) :
    Accesses hc fun e => e.inJitRun = b ∧ e.state = .running where
  callback e c hn h := ⟨(accesses_inJitRun hc b).callback e c hn h.1,
    foldl_running (e := { e with host := (hc.invoke e.host c).1 }) h.2 _⟩
  mmu _ _ h := h
  ram _ _ _ _ h := h
  note e a h := by
    obtain ⟨j, u, m, hn⟩ := e.noteGuestWrite_frame hc a
    rw [hn]
    exact h

theorem asked_running (hr : e.state = .running) (r : Regs) : (e.asked hc r).state = .running := by
  rw [asked, arrive_eq]
  exact foldl_running (e := { e with regs := r, clock := _ }) hr _

/-- A block goes on only with the machine running. -/
theorem native_running {ctx : EmitCtx} {k : Nat} {i : Instruction} {next : Next} {e' : Emu H}
    (h : e.inJitRun = true)
    (hr : e.state = .running) (hx : e.runNative hc (nativeInsn ctx k i) = .ok next e') (hn : next ≠ .ret) :
    e'.state = .running := by
  cases hc' : emitCase i.opcode with
  | some ca =>
    have hl := (nativeInsn_sat (G := fun _ => True) trivial hc' ctx k (r := e.regs)).run_leads
      (A := fun s => s.inJitRun = true ∧ s.state = .running) (B := fun _ => True) (h := handleNative hc) (s := e)
      (fun o r s ho hs => ?_) ⟨h, hr⟩
    · obtain ⟨v, s, hv, he⟩ := Out.of_bind_ok hx
      cases he
      exact (hl.ok hv).2
    · have ha : (s.asked hc r).inJitRun = true ∧ (s.asked hc r).state = .running :=
        ⟨(arrive_inJitRun hc _).trans hs.1, asked_running hs.2 r⟩
      cases o with
      | base o =>
        refine (accesses_running hc true).answer ha o (fun _ _ _ h => h) (fun _ => ha) ?_ ?_ fun a x code _ => ?_
        · rintro q rfl
          exact ho.1.elim
        · rintro rfl
          exact ho.1.elim
        · exact (mmuFault_exits (e := ((s.asked hc r).mmuTranslateAddr hc a x).2) ha.1 a x code).mono
            (fun _ h => h.elim) fun _ _ => trivial
      | _ => exact ha
  | none =>
    rw [nativeInsn_fallback hc', runNative_ofCpu] at hx
    obtain ⟨v, s, -, hx⟩ := Out.of_bind_ok hx
    obtain ⟨w, s', hf, hcase⟩ := fallbackControl_run hc (instructionDecode i.opcode) v.2 s
    rw [hf] at hx
    cases hx
    obtain ⟨hs, -, rfl⟩ := hcase.resolve_left hn
    exact asked_running hs v.2

theorem buildBlockInsns_answers (startPc : Addr) (n : Nat) (pc : Addr) (h : e.inJitRun = false) :
    (e.jitBuildBlockInsns hc startPc n pc).Leads (fun s => s.inJitRun = false) fun _ => False := by
  induction n generalizing pc e with
  | zero => exact h
  | succ n ih =>
    unfold jitBuildBlockInsns
    split
    · exact h
    · have hi := runCpu_leads hc (instructionFetchEmu_keeps (G := fun _ => True) pc e.regs trivial) h
      cases hr : e.runCpu hc (instructionFetchEmu pc) with
      | ok i e₁ =>
        have h₁ := hi.ok hr
        rw [Out.ok_bind]
        split
        · exact h₁
        · split
          · exact h₁
          · split
            · exact h₁
            · exact (ih _ h₁).bind fun _ _ hs => hs
      | exit e₁ => exact absurd (hi.exit hr).1 Bool.false_ne_true
      | stuck =>
        rw [hr] at hi
        exact hi

theorem physTags_inJitRun (hc : HostCode H) (e : Emu H) (b : Block) :
    (e.jitPhysTags hc b).2.inJitRun = e.inJitRun := by
  obtain ⟨m, hm⟩ := e.physTags_mmu hc b
  rw [hm]

theorem compile_answers (hc : HostCode H) (h : e.inJitRun = false) (pc : Addr) :
    (e.jitCompileBlock hc pc).Leads (fun s => s.inJitRun = false) fun _ => False := by
  cases hj : e.jit with
  | none =>
    rw [compileBlock_none hj]
    exact h
  | some j =>
    rw [compileBlock_some hj]
    split
    · exact h
    · refine (buildBlockInsns_answers pc _ pc ?_).bind fun insns s hs => ?_
      · exact h
      · unfold compileEnd
        split
        · exact hs
        · exact (physTags_inJitRun hc s _).trans hs

end Emu

/-- No block is empty. -/
structure Jit.Filled (j : Jit) : Prop where
  keyed : j.Keyed
  filled : ∀ b ∈ j.blocks, b.fn ≠ some []

namespace Jit

theorem Filled.move {j k : Jit} (hj : j.Filled) (h : Move j k) : k.Filled := by
  refine ⟨Moves.keyed (.single h) hj.keyed, fun x hx => ?_⟩
  cases h with
  | drop hb ha =>
    rcases (mem_drop hb).1 hx with rfl | ⟨hx, -⟩
    · exact fun h => nomatch h
    · exact hj.filled x hx
  | flush =>
    obtain ⟨y, -, rfl⟩ := List.mem_map.1 hx
    exact fun h => nomatch h
  | note h => exact hj.filled x (blocks_of_core h ▸ hx)

theorem stable_filled : Stable Filled := ⟨fun _ h => h.keyed, fun _ _ => Filled.move⟩

theorem filled_create : jitBackendCreate.Filled := ⟨List.nodup_nil, fun _ h => absurd h List.not_mem_nil⟩

theorem Filled.record {j : Jit} (hj : j.Filled) (pc : Addr) : (Emu.jitRecord j pc).Filled := by
  unfold Emu.jitRecord
  split
  · next hf =>
    refine ⟨hj.keyed.append (Option.isNone_iff_eq_none.1 hf), fun x hx => ?_⟩
    rcases List.mem_append.1 hx with hx | hx
    · exact hj.filled x hx
    · rw [List.mem_singleton.1 hx]
      exact fun h => nomatch h
  · exact hj

theorem Filled.install {j : Jit} (hj : j.Filled) {b : Block} {insns : List Instruction} (hne : insns ≠ [])
    (hb : b.fn = some insns) : (Emu.jitInstall j b).Filled := by
  refine ⟨(congrArg List.Nodup (Records.keys_put Block.startPc b j.blocks)).mpr hj.keyed, fun x hx => ?_⟩
  obtain ⟨y, hy, rfl⟩ := List.mem_map.1 hx
  split
  · rw [hb]
    exact fun h => hne (Option.some.inj h)
  · exact hj.filled y hy

end Jit

namespace Emu

variable {e : Emu H}

theorem steady_filled (hc : HostCode H) : Steady hc (Cached Jit.Filled) := steady_cached Jit.stable_filled hc

theorem compile_filled (h : e.Cached Jit.Filled) (pc : Addr) :
    (e.jitCompileBlock hc pc).Ends (Cached Jit.Filled) := by
  cases hj : e.jit with
  | none =>
    rw [compileBlock_none hj]
    exact h
  | some j =>
    have hf : j.Filled := by
      rw [Cached, hj] at h
      exact h
    exact compile_cached hc Jit.stable_filled (fun _ h => h) hj (hf.record pc) (fun _ => hf.record pc)
      fun _ _ _ hk hb _ => hk.install hb.nonempty hb.fn

theorem length_pos_of_active {b : Block} (ha : b.active = true) (hb : b.fn ≠ some []) :
    0 < (b.fn.getD []).length := by
  unfold Block.active at ha
  cases hf : b.fn with
  | none =>
    rw [hf] at ha
    cases ha
  | some insns => exact List.length_pos_iff.2 fun hn => hb (hf.trans (congrArg some hn))

/-- What is compiled is not empty. -/
theorem compile_length {e' : Emu H} {pc : Addr} {b : Block} (h : e.Cached Jit.Filled)
    (hb : e.jitCompileBlock hc pc = .ok (some b) e') : 0 < (b.fn.getD []).length := by
  cases hj : e.jit with
  | none =>
    rw [compileBlock_none hj] at hb
    cases hb
  | some j =>
    have hf : (jitRecord j pc).Filled := by
      rw [Cached, hj] at h
      exact Jit.Filled.record h pc
    rw [compileBlock_some hj] at hb
    split at hb
    · next ha =>
      cases hb
      exact length_pos_of_active ha (hf.filled _ (recordAt_mem j pc))
    · obtain ⟨insns, s, -, hb⟩ := Out.of_bind_ok hb
      unfold compileEnd at hb
      split at hb
      · cases hb
      · next hne =>
        cases hb
        exact List.length_pos_iff.2 hne

theorem exec_filled {e' : Emu H} (h : e.Cached Jit.Filled) (hx : e.exec hc = .ok () e') :
    e'.Cached Jit.Filled := by
  refine (Closed.putRegs (I := Cached Jit.Filled) (fun _ _ h => h) ?_).ok hx
  have hS := steady_filled hc
  refine hS.execRun (fun _ _ h => h) (hS.arrive _ h) (fun _ _ h => h) (fun _ h => h) fun i r s _ hs => ?_
  exact hS.execInsn (fun _ _ h => h) hs _ i r (fun _ _ h => h) (fun _ _ h => h) fun _ _ h => h

theorem poll_inJitRun (hc : HostCode H) (e : Emu H) : (e.pollHostControls hc).inJitRun = e.inJitRun := by
  have happly : ∀ e : Emu H, e.applyHostStopRequest.inJitRun = e.inJitRun := by
    intro e
    unfold applyHostStopRequest
    split <;> rfl
  have htick : ∀ e : Emu H, (e.maybeTick hc).inJitRun = e.inJitRun := by
    intro e
    rcases maybeTick_cases hc e with ⟨k, ht⟩ | ⟨-, cb, k, k', ht⟩
    · rw [ht]
    · rw [ht]
      exact foldl_inJitRun _ _
  rw [pollHostControls, happly, htick, happly, arrive_inJitRun]

theorem idle_inJitRun (hc : HostCode H) (e : Emu H) : (e.maybeWaitOnIdle hc).2.inJitRun = e.inJitRun := by
  unfold maybeWaitOnIdle
  split
  · rfl
  · split
    · rfl
    · unfold applyHostStopRequest
      split <;> exact foldl_inJitRun _ _

theorem finish_inJitRun (hc : HostCode H) (e : Emu H) : (e.finish hc).inJitRun = e.inJitRun := by
  unfold finish
  dsimp only
  split
  · exact (callOnStop_inJitRun hc _).trans (poll_inJitRun hc e)
  · exact poll_inJitRun hc e

end Emu

/-- What the place of a run says about the emulator. -/
def Phase.Fits : Phase → Emu H → Prop
  | .stuck, _ => False
  | .block b k, e => e.inJitRun = true ∧ e.state = .running ∧ k < (b.fn.getD []).length
  | _, e => e.inJitRun = false

/-- A run in good order. -/
structure Run.Sound (c : Run H) : Prop where
  cache : c.emu.Cached Jit.Filled
  fits : c.phase.Fits c.emu

namespace Run

variable {c : Run H}

theorem Sound.ne_stuck (h : c.Sound) : c.phase ≠ .stuck := fun hp => by
  have hf := h.fits
  rw [hp] at hf
  exact hf

theorem insnAddrs_length (pc : Addr) (is : List Instruction) : (insnAddrs pc is).length = is.length := by
  induction is generalizing pc with
  | nil => rfl
  | cons i is ih => exact congrArg Nat.succ (ih _)

theorem step_filled (h : c.emu.Cached Jit.Filled) : (c.step hc).emu.Cached Jit.Filled := by
  by_cases hd : c.phase = .done
  · unfold step
    rw [hd]
    exact h
  · have hS := Emu.steady_filled hc
    have hx := ends_step (I := Emu.Cached Jit.Filled) (J := Emu.Cached Jit.Filled) (fun _ => hS.poll)
      (fun _ => hS.idle)
      hS.engine hS.mmu (fun _ h _ => hS.finish h) (fun e b e' _ hi hr => (Emu.compile_filled hi _).ok hr) hd h
      (fun e e' _ hi hr => Emu.exec_filled hi hr) fun b k i he =>
        keeps_native hS (fun _ _ h => h) h (fun e _ h => ?_) he
    · unfold Ends at hx
      split at hx <;> exact hx
    · refine hS.execRun (fun _ _ h => h) (hS.arrive _ h) (fun _ _ h => h) (fun _ h => h) fun i r s _ hs => ?_
      exact hS.execInsn (fun _ _ h => h) hs _ i r (fun _ _ h => h) (fun _ _ h => h) fun _ _ h => h

theorem Fits.of_running {p : Phase} {e : Emu H} (hp : p = .dispatch ∨ p = .interp) (h : p.Fits e) :
    e.inJitRun = false := by
  rcases hp with rfl | rfl <;> exact h

/-- Looking after a poll is outside of blocks. -/
theorem afterPoll_fits (hp : c.phase = .dispatch ∨ c.phase = .interp) (h : c.emu.inJitRun = false) :
    (afterPoll hc c).phase.Fits (afterPoll hc c).emu := by
  have hfits : ∀ e : Emu H, e.inJitRun = false → c.phase.Fits e := fun e he => by
    rcases hp with hp | hp <;> rw [hp] <;> exact he
  unfold afterPoll
  split
  · exact hfits _ h
  · dsimp only
    split
    · exact hfits _ ((Emu.idle_inJitRun hc _).trans h)
    · exact (Emu.finish_inJitRun hc _).trans ((Emu.idle_inJitRun hc _).trans h)

theorem polled_inJitRun {e : Emu H} (hpo : c.polled hc = some e) (h : c.emu.inJitRun = false) :
    e.inJitRun = false := by
  rw [← (polled_eq hpo).2.2]
  exact (Emu.poll_inJitRun hc _).trans h

theorem compiles_inJitRun {e : Emu H} (hi : c.Compiles hc e) (h : c.emu.inJitRun = false) :
    e.inJitRun = false := by
  cases hi with
  | mk hd =>
    have he := polled_inJitRun hd.polled h
    exact he

theorem interprets_inJitRun {e : Emu H} (hi : c.Interprets hc e) (h : c.emu.inJitRun = false) :
    e.inJitRun = false := by
  cases hi with
  | irq hd => exact polled_inJitRun hd.polled h
  | mutable hd => exact polled_inJitRun hd.polled h
  | uncompiled hd hb => exact (Emu.compile_answers hc (compiles_inJitRun hd h) _).ok hb

theorem offers_inJitRun {e : Emu H} {b : Block} (ho : c.Offers hc e b) (h : c.emu.inJitRun = false) :
    e.inJitRun = false := by
  cases ho with
  | found hd => exact polled_inJitRun hd.polled h
  | compiled hd hb => exact (Emu.compile_answers hc (compiles_inJitRun hd h) _).ok hb

theorem offers_length {e : Emu H} {b : Block} (ho : c.Offers hc e b) (h : c.emu.Cached Jit.Filled) :
    0 < (b.fn.getD []).length := by
  have hS := Emu.steady_filled hc
  cases ho with
  | @found _ j _ hd hirq hmut hb =>
    have hf := keeps_polled (I := Emu.Cached Jit.Filled) (fun _ => hS.poll) h hd.polled
    rw [Emu.Cached, hd.jit] at hf
    obtain ⟨hb, ha⟩ := Option.filter_eq_some_iff.1 hb
    exact Emu.length_pos_of_active ha (hf.filled _ (List.mem_of_find?_eq_some hb))
  | compiled hd hb =>
    exact Emu.compile_length (keeps_compiles (I := Emu.Cached Jit.Filled) (fun _ => hS.poll) hS.engine h hd) hb

theorem processPendingWrites_inJitRun (c : Run H) : c.processPendingWrites.emu.inJitRun = c.emu.inJitRun ∧
    c.processPendingWrites.phase = c.phase := by
  unfold processPendingWrites
  split
  · exact ⟨rfl, rfl⟩
  · split <;> exact ⟨rfl, rfl⟩

theorem processNeedsFlush_inJitRun (c : Run H) : c.processNeedsFlush.emu.inJitRun = c.emu.inJitRun ∧
    c.processNeedsFlush.phase = c.phase := by
  unfold processNeedsFlush
  split
  · exact ⟨rfl, rfl⟩
  · split <;> exact ⟨rfl, rfl⟩

theorem afterPoll_phase (hc : HostCode H) (c : Run H) :
    (c.afterPoll hc).phase = c.phase ∨ (c.afterPoll hc).phase = .done := by
  unfold afterPoll
  split
  · exact .inl rfl
  · dsimp only
    split
    · exact .inl rfl
    · exact .inr rfl

theorem blockReturn_phase (hc : HostCode H) (c : Run H) :
    (c.blockReturn hc).phase = .dispatch ∨ (c.blockReturn hc).phase = .done := by
  have hp1 := (processPendingWrites_inJitRun
    { c with emu := { c.emu with inJitRun := false }, phase := .dispatch }).2
  have hp2 := (processNeedsFlush_inJitRun
    (processPendingWrites { c with emu := { c.emu with inJitRun := false }, phase := .dispatch })).2
  exact (afterPoll_phase hc _).imp (fun h => h.trans (hp2.trans hp1)) id

theorem blockReturn_fits (c : Run H) : (c.blockReturn hc).phase.Fits (c.blockReturn hc).emu := by
  obtain ⟨h1, hp1⟩ := processPendingWrites_inJitRun
    { c with emu := { c.emu with inJitRun := false }, phase := .dispatch }
  obtain ⟨h2, hp2⟩ := processNeedsFlush_inJitRun
    (processPendingWrites { c with emu := { c.emu with inJitRun := false }, phase := .dispatch })
  exact afterPoll_fits (.inl (hp2.trans hp1)) ((Emu.poll_inJitRun hc _).trans (h2.trans h1))

theorem step_sound (hc : HostCode H) (h : c.Sound) : (c.step hc).Sound := by
  refine ⟨step_filled h.cache, ?_⟩
  have hfits := h.fits
  have hout : c.phase = .dispatch ∨ c.phase = .interp → c.emu.inJitRun = false :=
    fun hp => Fits.of_running hp hfits
  have hin : ∀ {b k i}, c.Enters b k i → c.emu.inJitRun = true ∧ c.emu.state = .running := fun he => by
    rw [he.1] at hfits
    exact ⟨hfits.1, hfits.2.1⟩
  have ho := c.step_outcome hc
  generalize c.step hc = c' at ho ⊢
  cases ho with
  | finished hp => exact hfits
  | stopped hp hs => exact (Emu.finish_inJitRun hc _).trans (hout hp)
  | waits hp hs hw =>
    have hi := (Emu.idle_inJitRun hc _).trans ((Emu.poll_inJitRun hc c.emu).trans (hout hp))
    rcases hp with hp | hp <;> · rw [hp]; exact hi
  | polled hp hs hs' hw => exact (Emu.finish_inJitRun hc _).trans ((Emu.poll_inJitRun hc _).trans (hout hp))
  | debugs hp hpo hd => exact (Emu.finish_inJitRun hc _).trans (polled_inJitRun hpo (hout (.inl hp)))
  | handsOver hp hpo hd hj => exact polled_inJitRun hpo (hout (.inl hp))
  | interprets hi hx =>
    have he := interprets_inJitRun hi (hout (.inl hi.phase))
    rw [hi.phase]
    exact (Emu.exec_leads hc he).ok hx
  | interpretsLast hi hx hs =>
    have he := interprets_inJitRun hi (hout (.inl hi.phase))
    exact (Emu.finish_inJitRun hc _).trans ((Emu.exec_leads hc he).ok hx)
  | round hp hpo hx =>
    have he := polled_inJitRun hpo (hout (.inr hp))
    exact afterPoll_fits (.inr hp) ((Emu.poll_inJitRun hc _).trans ((Emu.exec_leads hc he).ok hx))
  | compileStops hi hx hs =>
    have he := compiles_inJitRun hi (hout (.inl hi.phase))
    exact (Emu.finish_inJitRun hc _).trans ((Emu.compile_answers hc he _).ok hx)
  | enters hb ht => exact ⟨rfl, hb.running, offers_length hb h.cache⟩
  | @entersTagged e b hb ht hm =>
    obtain ⟨m, hm'⟩ := Emu.translatePaddr_mmu hc e e.regs.PC .fetch
    refine ⟨rfl, ?_, offers_length hb h.cache⟩
    rw [hm']
    exact hb.running
  | @drops e e' b hb ht hm he =>
    have hi := offers_inJitRun hb (hout (.inl hb.phase))
    obtain ⟨m, hm'⟩ := Emu.translatePaddr_mmu hc e e.regs.PC .fetch
    rw [hb.phase]
    rw [he, hm']
    exact hi
  | @goesOn b k k' i next e he hx hn =>
    refine ⟨(Emu.native_leads hc (hin he).1 _ k i).ok hx, Emu.native_running (hin he).1 (hin he).2 hx ?_, ?_⟩
    · rintro rfl
      rcases hn with hn | ⟨hn, -⟩ <;> cases hn
    · rcases hn with rfl | ⟨-, -, hk⟩
      · have hw := Emu.native_within hx k' rfl
        rwa [insnAddrs_length] at hw
      · exact hk
  | @returns b k i next e he hx hn => exact blockReturn_fits _
  | @exits b k i e he hx =>
    obtain ⟨h1, hp1⟩ := processPendingWrites_inJitRun { c with emu := e, phase := .dispatch }
    rw [hp1]
    exact h1.trans ((Emu.native_leads hc (hin he).1 _ k i).exit hx)
  | roundFails hp hpo hx =>
    obtain ⟨e', hr, -⟩ := Emu.exec_answers hc (polled_inJitRun hpo (hout (.inr hp)))
    exact absurd hr (hx e')
  | execFails hi hx =>
    obtain ⟨e', hr, -⟩ := Emu.exec_answers hc (interprets_inJitRun hi (hout (.inl hi.phase)))
    exact absurd hr (hx e')
  | compileFails hi hx hpo =>
    obtain ⟨b, e', hr, -⟩ := (Emu.compile_answers hc (compiles_inJitRun hi (hout (.inl hi.phase))) _).answers
    exact absurd hr (hx b e')
  | @nativeFails b k i he hx =>
    have hl := Emu.native_leads hc (hin he).1 ⟨insnAddrs b.startPc (b.fn.getD [])⟩ k i
    rw [hx] at hl
    exact hl.elim
  | offBlock hp hk =>
    rw [hp] at hfits
    exact absurd hfits.2.2 (Nat.not_lt.2 (List.getElem?_eq_none_iff.1 hk))

end Run

/-- An emulator on which `rk65c02_start` may be called: every one that initialisation and runs
lead to. -/
structure Emu.Fit (e : Emu H) : Prop where
  cache : e.Cached Jit.Filled
  outside : e.inJitRun = false

theorem Emu.fit_init (bus : Bus) (host : H) (regs : Regs) : (init bus host regs : Emu H).Fit :=
  ⟨Jit.filled_create, rfl⟩

theorem Emu.Fit.start {e : Emu H} (h : e.Fit) : e.start.Sound := by
  unfold Emu.start
  dsimp only
  split
  · refine ⟨?_, h.outside⟩
    have hd : Jit.Drifts e.jit (e.jit.map jitRunStateReset) :=
      .map (f := jitRunStateReset) (fun _ _ => .single (.note rfl)) _
    exact Jit.stable_filled.moves h.cache (hd h.cache.keyed)
  · exact ⟨h.cache, h.outside⟩

/-- The runs of `rk65c02_start` are in good order throughout. -/
theorem Emu.Fit.steps {e : Emu H} (h : e.Fit) (hc : HostCode H) (n : Nat) : (e.start.steps hc n).Sound :=
  Run.steps_keeps (P := Run.Sound) (Q := fun _ => True) (fun _ h _ => Run.step_sound hc h) h.start n
    fun _ _ => trivial

/-- What a call leaves behind may be run again. -/
theorem Emu.Fit.done {e : Emu H} (h : e.Fit) (n : Nat) (hd : (e.start.steps hc n).phase = .done) :
    (e.start.steps hc n).emu.Fit := by
  have hs := h.steps hc n
  have hf := hs.fits
  rw [hd] at hf
  exact ⟨hs.cache, hf⟩

end Rk65c02
