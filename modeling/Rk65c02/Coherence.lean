import Rk65c02.RamMachine
import Rk65c02.Progress

/-! Compiled code and the memory it was compiled from. With the MMU off every store keeps each
active block equal to its bytes, or leaves a note that the block is to be dropped. -/

namespace Rk65c02

open Resumption

variable {H : Type}

/-- A block has its shape, and only its last instruction may end it. -/
structure Block.Formed (b : Block) (insns : List Instruction) : Prop extends b.Shaped insns where
  inner : ∀ i ∈ insns.dropLast, jitEndsBlock i = false

theorem Emu.Compiled.formed {hc : HostCode H} {e : Emu H} {pc : Addr} {insns : List Instruction} {b : Block}
    (h : e.Compiled hc pc insns b) : b.Formed insns :=
  ⟨h.shaped, h.built.elim fun _ hb => (build_line _ hb).1.line⟩

namespace Jit

/-- No store is noted that has not been acted on. -/
def Settled (j : Jit) : Prop := j.pendingWrites = [] ∧ j.pendingWriteOverflow = false

/-- A noted store may have changed the block. -/
def Doubts (j : Jit) (x : Block) : Prop :=
  j.pendingWriteOverflow = true ∨ ∃ w ∈ j.pendingWrites, jitBlockContainsAddr x w.addr = true

theorem Settled.not_doubts {j : Jit} (h : j.Settled) (x : Block) : ¬j.Doubts x := by
  rintro (ho | ⟨w, hw, -⟩)
  · exact Bool.false_ne_true (h.2.symm.trans ho)
  · rw [h.1] at hw
    cases hw

/-- Every active block is the code that the bytes `f` hold, unless it is in doubt. -/
structure Matches (f : Addr → Byte) (j : Jit) : Prop where
  exact : j.Exact
  untagged : ∀ x ∈ j.blocks, x.active = true → x.mmuPhysPageValid = false
  code : ∀ x ∈ j.blocks, ∀ insns, x.fn = some insns → x.Formed insns ∧ (Reads f x.startPc insns ∨ j.Doubts x)

theorem matches_create (f : Addr → Byte) : jitBackendCreate.Matches f := ⟨exact_create, nofun, nofun⟩

theorem Moves.active_mem {j k : Jit} (h : Moves j k) (hj : j.Keyed) {x : Block} (hx : x ∈ k.blocks)
    (ha : x.active = true) :
    x ∈ j.blocks := by
  obtain ⟨insns, hfn⟩ := Option.isSome_iff_exists.1 ha
  have hs : j.Adds (fun _ _ => False) k := stable_adds.moves ⟨hj, fun b hb _ _ => .inl hb⟩ h
  exact (hs.2 x hx insns hfn).resolve_right id

/-- The cache after moves still matches, if what is left was right before. -/
theorem Matches.moves {f g : Addr → Byte} {j k : Jit} (h : j.Matches f) (hm : Moves j k)
    (hk : ∀ x ∈ k.blocks, x.active = true → ∀ insns, x.fn = some insns → x.Formed insns →
      Reads f x.startPc insns ∨ j.Doubts x →
      Reads g x.startPc insns ∨ k.Doubts x) : k.Matches g := by
  have hmem : ∀ x ∈ k.blocks, x.active = true → x ∈ j.blocks := fun x hx ha => hm.active_mem h.exact.keyed hx ha
  refine ⟨stable_exact.moves h.exact hm, fun x hx ha => h.untagged x (hmem x hx ha) ha, fun x hx insns hfn => ?_⟩
  have ha : x.active = true := Option.isSome_iff_exists.2 ⟨insns, hfn⟩
  obtain ⟨hs, hr⟩ := h.code x (hmem x hx ha) insns hfn
  exact ⟨hs, hk x hx ha insns hfn hs hr⟩

theorem Matches.settled {f : Addr → Byte} {j : Jit} (h : j.Matches f) (hs : j.Settled)
    {x : Block} (hx : x ∈ j.blocks)
    {insns : List Instruction} (hfn : x.fn = some insns) : Reads f x.startPc insns :=
  (h.code x hx insns hfn).2.resolve_right (hs.not_doubts x)

theorem pending_where (j : Jit) (hit : Block → Bool) : (jitInvalidateWhere j hit).pendingWrites =
    j.pendingWrites ∧
    (jitInvalidateWhere j hit).pendingWriteOverflow = j.pendingWriteOverflow :=
  List.foldlRecOn (motive := fun k : Jit => k.pendingWrites = j.pendingWrites ∧
    k.pendingWriteOverflow = j.pendingWriteOverflow) _ _ ⟨rfl, rfl⟩ fun _ h _ _ => h

theorem pending_writeEvent (j : Jit) (w : PendingWrite) : (jitWriteEvent j w).pendingWrites = j.pendingWrites ∧
    (jitWriteEvent j w).pendingWriteOverflow = j.pendingWriteOverflow := by
  have hpage : ∀ (k : Jit) p, (jitCountPageEvent k p).pendingWrites = k.pendingWrites ∧
      (jitCountPageEvent k p).pendingWriteOverflow = k.pendingWriteOverflow := by
    intro k p
    unfold jitCountPageEvent
    dsimp only
    split
    · exact pending_where _ _
    · exact ⟨rfl, rfl⟩
  have haddr : (jitInvalidateBlocksForAddr j w.addr).pendingWrites = j.pendingWrites ∧
      (jitInvalidateBlocksForAddr j w.addr).pendingWriteOverflow = j.pendingWriteOverflow := pending_where _ _
  unfold jitWriteEvent
  dsimp only
  rw [(hpage _ _).1, (hpage _ _).2]
  cases w.phys with
  | none => exact haddr
  | some p => exact ⟨(pending_where _ _).1.trans haddr.1, (pending_where _ _).2.trans haddr.2⟩

/-- The event is one for the block. -/
def Hits (w : PendingWrite) (x : Block) : Prop :=
  jitBlockContainsAddr x w.addr = true ∨ ∃ q, w.phys = some q ∧ jitBlockMatchesPhys x q = true

/-- A write event leaves no active block that it hits. -/
theorem writeEvent_clear {j : Jit} (hj : j.Keyed) (w : PendingWrite) {x : Block}
    (hx : x ∈ (jitWriteEvent j w).blocks) (ha : x.active = true) : x ∈ j.blocks ∧ ¬Hits w x := by
  have hk : (jitInvalidateBlocksForAddr j w.addr).Keyed := (moves_forAddr hj w.addr).keyed hj
  have hph : x ∈ (w.phys.elim (jitInvalidateBlocksForAddr j w.addr)
      (jitInvalidateBlocksForPhysAddr (jitInvalidateBlocksForAddr j w.addr))).blocks := by
    unfold jitWriteEvent at hx
    dsimp only at hx
    refine (moves_countPageEvent ?_ _).active_mem ?_ hx ha
    all_goals
      cases w.phys with
      | none => exact hk
      | some p => exact (moves_forPhysAddr hk p).keyed hk
  have hx' : x ∈ (jitInvalidateBlocksForAddr j w.addr).blocks ∧ ∀ q, w.phys = some q →
    jitBlockMatchesPhys x q = false := by
    cases hw : w.phys with
    | none =>
      rw [hw] at hph
      exact ⟨hph, nofun⟩
    | some p =>
      rw [hw] at hph
      obtain ⟨hm, hn⟩ := where_active hk hph ha
      refine ⟨hm, fun q hq => ?_⟩
      cases hq
      exact hn
  obtain ⟨hm, hn⟩ := where_active (j := { j with invalidationEventsThisRun := j.invalidationEventsThisRun + 1 })
    hj hx'.1 ha
  refine ⟨hm, ?_⟩
  rintro (hc | ⟨q, hq, hmq⟩)
  · exact nomatch hn.symm.trans hc
  · exact nomatch (hx'.2 q hq).symm.trans hmq

theorem writeEvents_clear {j : Jit} (hj : j.Keyed) (ws : List PendingWrite) {x : Block}
    (hx : x ∈ (ws.foldl jitWriteEvent j).blocks) (ha : x.active = true) :
    x ∈ j.blocks ∧ ∀ w ∈ ws, ¬Hits w x := by
  induction ws generalizing j with
  | nil => exact ⟨hx, nofun⟩
  | cons w ws ih =>
    obtain ⟨hw, hws⟩ := ih ((moves_writeEvent hj w).keyed hj) hx
    obtain ⟨hb, hc⟩ := writeEvent_clear hj w hw ha
    exact ⟨hb, List.forall_mem_cons.mpr ⟨hc, hws⟩⟩

theorem flush_inactive {j : Jit} {x : Block} (hx : x ∈ (jitBackendFlush j).blocks) : x.active = false := by
  obtain ⟨b, -, rfl⟩ := List.mem_map.1 hx
  rfl

/-- Processing leaves no active block that a recorded write hits. -/
theorem process_clear {j : Jit} (hj : j.Keyed) {x : Block} (hx : x ∈ (jitProcessPendingWrites j).1.blocks)
    (ha : x.active = true) :
    x ∈ j.blocks ∧ j.pendingWriteOverflow = false ∧ ∀ w ∈ j.pendingWrites, ¬Hits w x := by
  unfold jitProcessPendingWrites at hx
  dsimp only at hx
  split at hx
  · rw [show (jitBackendFlush j).pendingWrites = [] from rfl] at hx
    exact (Bool.false_ne_true ((flush_inactive hx).symm.trans ha)).elim
  · next ho =>
    obtain ⟨hm, hw⟩ := writeEvents_clear hj _ hx ha
    exact ⟨hm, Bool.eq_false_iff.2 ho, hw⟩

section Matches

variable {f g : Addr → Byte} {j : Jit} (h : j.Matches f)

include h

theorem Matches.flush (g : Addr → Byte) : (jitBackendFlush j).Matches g :=
  h.moves (.single .flush) fun _ hx ha => (Bool.false_ne_true ((flush_inactive hx).symm.trans ha)).elim

/-- Once the noted stores are processed no block is in doubt. -/
theorem Matches.process : (jitProcessPendingWrites j).1.Matches f ∧ (jitProcessPendingWrites j).1.Settled := by
  refine ⟨h.moves (moves_process h.exact.keyed) fun x hx ha insns hfn hs hr =>
    .inl (hr.resolve_right ?_), rfl, rfl⟩
  obtain ⟨-, ho, hw⟩ := process_clear h.exact.keyed hx ha
  rintro (hd | ⟨w, hm, hd⟩)
  · exact Bool.false_ne_true (ho.symm.trans hd)
  · exact hw w hm (.inl hd)

theorem Matches.record (pc : Addr) : (Emu.jitRecord j pc).Matches f := by
  unfold Emu.jitRecord
  split
  · next hf =>
    have hold : ∀ x ∈ j.blocks ++ [.empty pc], x.active = true → x ∈ j.blocks := by
      intro x hx ha
      refine (List.mem_append.1 hx).resolve_right fun hx => ?_
      rw [List.mem_singleton.1 hx] at ha
      cases ha
    refine ⟨h.exact.append (Option.isNone_iff_eq_none.1 hf), fun x hx ha => h.untagged x (hold x hx ha) ha, ?_⟩
    exact fun x hx insns hfn => h.code x (hold x hx (Option.isSome_iff_exists.2 ⟨insns, hfn⟩)) insns hfn
  · exact h

/-- A new block that is what memory holds. -/
theorem Matches.install {b c : Block} {insns : List Instruction} (hc : c ∈ j.blocks) (hk : c.startPc = b.startPc)
    (hca : c.active = false) (hlt : j.activeBlocks < jitMaxActiveBlocks) (hfn : b.fn = some insns)
    (hb : b.Formed insns) (ht : b.mmuPhysPageValid = false) (hr : Reads f b.startPc insns) :
    (Emu.jitInstall j b).Matches f ∧ b ∈ (Emu.jitInstall j b).blocks := by
  have hba : b.active = true := Option.isSome_iff_exists.2 ⟨insns, hfn⟩
  have hmem : ∀ x ∈ (Emu.jitInstall j b).blocks, x = b ∨ x ∈ j.blocks := by
    intro x hx
    obtain ⟨y, hy, rfl⟩ := List.mem_map.1 hx
    split
    · exact .inl rfl
    · exact .inr hy
  refine ⟨⟨h.exact.install hc hk hca hba hlt, fun x hx ha => ?_, fun x hx is his => ?_⟩,
    List.mem_map.2 ⟨c, hc, if_pos hk⟩⟩
  · exact (hmem x hx).elim (fun hxb => hxb ▸ ht) fun hx => h.untagged x hx ha
  · rcases hmem x hx with rfl | hx
    · cases hfn.symm.trans his
      exact ⟨hb, .inl hr⟩
    · exact h.code x hx is his

variable {a : Addr} (hg : ∀ x, x ≠ a → g x = f x)

include hg

/-- A change of one byte that no block contains. -/
theorem Matches.outside (ha : j.contains a = false) : j.Matches g := by
  refine h.moves .refl fun x hx hact insns hfn hs hr => hr.imp_left fun hr => hr.congr fun y hy => hg y ?_
  rintro rfl
  have hc : j.contains y = true :=
    List.any_eq_true.2 ⟨x, hx, by rw [hact, Bool.true_and]; exact Block.mem_addrs.1 (hs.bytes ▸ hy)⟩
  exact Bool.false_ne_true (ha.symm.trans hc)

/-- A change of one byte that is noted. -/
theorem Matches.pend (p : Option Addr) : (Emu.jitPendWrite j ⟨a, p⟩).Matches g := by
  refine h.moves (moves_pend j _) fun x hx hact insns hfn hs hr => ?_
  have hmono : j.Doubts x → (Emu.jitPendWrite j ⟨a, p⟩).Doubts x := by
    unfold Emu.jitPendWrite
    split
    · exact Or.imp_right fun ⟨w, hw, hd⟩ => ⟨w, List.mem_append_left _ hw, hd⟩
    · exact fun _ => .inl rfl
  by_cases hc : jitBlockContainsAddr x a = true
  · refine .inr ?_
    unfold Emu.jitPendWrite
    split
    · exact .inr ⟨_, List.mem_append_right _ (List.mem_singleton_self _), hc⟩
    · exact .inl rfl
  · refine hr.imp (fun hr => hr.congr fun y hy => hg y ?_) hmono
    rintro rfl
    exact hc (Block.mem_addrs.1 (hs.bytes ▸ hy))

/-- A change of one byte whose blocks are dropped at once. -/
theorem Matches.event (hj : j.Settled) (p : Option Addr) :
    (jitWriteEvent j ⟨a, p⟩).Matches g ∧ (jitWriteEvent j ⟨a, p⟩).Settled := by
  obtain ⟨hp, ho⟩ := pending_writeEvent j ⟨a, p⟩
  refine ⟨h.moves (moves_writeEvent h.exact.keyed _) fun x hx hact insns hfn hs hr =>
    .inl ?_, hp.trans hj.1, ho.trans hj.2⟩
  refine (hr.resolve_right (hj.not_doubts x)).congr fun y hy => hg y ?_
  rintro rfl
  exact (writeEvent_clear h.exact.keyed _ hx hact).2 (.inl (Block.mem_addrs.1 (hs.bytes ▸ hy)))

end Matches

end Jit

/-- The effect of a request on the stop and on the interrupt line. -/
def Op.control (o : Op) (c : Emu.Control H) : Emu.Control H :=
  match o with
  | .stop reason => { c with state := .stopped, stopreason := reason }
  | .ackIrq => { c with irq := false }
  | _ => c

namespace Emu

theorem pend_blocks (j : Jit) (w : PendingWrite) : (jitPendWrite j w).blocks = j.blocks := by
  unfold jitPendWrite
  split <;> rfl

/-- Without physical tags a store is recorded exactly if an active block contains its address. -/
theorem noteGuestWrite_untagged {hc : HostCode H} {e : Emu H} {j : Jit} (hj : e.jit = some j) (hx : j.Exact)
    (ht : ∀ x ∈ j.blocks, x.active = true → x.mmuPhysPageValid = false) (a : Addr) : e.jitNoteGuestWrite hc a =
      if j.contains a then
        if e.inJitRun then
          { e with
            jit := some (jitPendWrite { j with stats := { j.stats with writeEvents := j.stats.writeEvents + 1 } }
              ⟨a, none⟩)
            useJit := false }
        else
          { e with
            jit := some (jitWriteEvent { j with stats := { j.stats with writeEvents := j.stats.writeEvents + 1 } }
              ⟨a, none⟩) }
      else e := by
  have hphys : e.jitPhysHit hc j a = (none, e) := by
    unfold jitPhysHit
    rw [if_pos (Jit.zero_of_count hx.physTotal ht)]
  unfold jitNoteGuestWrite
  rw [hj]
  dsimp only
  rw [hphys, hx.covered_iff]
  split
  · next hz =>
    rw [if_neg]
    intro hcov
    obtain ⟨x, hmem, hxa⟩ := List.any_eq_true.1 hcov
    exact hx.unclamped.active x hmem (Bool.and_eq_true_iff.1 hxa).1 hz
  · by_cases hcov : j.contains a = true
    · simp [hcov]
    · simp [hcov]

/-- The MMU is off, the bus is RAM, nothing is being debugged, and the cache matches the memory.
Stores are noted only inside a running block, which then bails out. -/
structure Bare (e : Emu H) : Prop where
  bus : e.bus.RamOnce
  off : e.MmuOff
  reexec : e.mmu.faultReexec = false
  debugging : e.debugging = false
  cache : ∀ j, e.jit = some j → j.Matches e.bus.peek ∧ (j.Settled ∨ e.inJitRun = true ∧ e.useJit = false)

namespace Bare

variable {hc : HostCode H} {e : Emu H} (h : e.Bare)

include h

theorem busRead1 (a : Addr) : e.busRead1 hc a = (e.bus.peek a, e) := by
  unfold Emu.busRead1 deviceRead1 Bus.peek
  cases ha : e.bus.accessDevice a with
  | none => rfl
  | some p => simp only [if_pos (h.bus.device ha), Option.elim]

theorem busWrite1 (a : Addr) (v : Byte) : e.busWrite1 hc a v = { e with bus := e.bus.poke a v } := by
  unfold Emu.busWrite1 deviceWrite1 Bus.poke
  cases ha : e.bus.accessDevice a with
  | none => rfl
  | some p => simp only [if_pos (h.bus.device ha), Option.elim]

theorem read (a : Addr) (x : Access) : e.memRead1 hc a x = .ok (e.bus.peek a) e := by
  unfold memRead1 memReadDirect
  rw [h.off.2, h.busRead1]
  rfl

/-- What a store leaves in the cache. -/
theorem note {e' : Emu H} {a : Addr} {v : Byte} (he : e' = { e with bus := e.bus.poke a v }) : ∃ j u,
    e'.jitNoteGuestWrite hc a = { e' with jit := j, useJit := u } ∧
      ({ e' with jit := j, useJit := u } : Emu H).Bare ∧
      j.isSome = e'.jit.isSome ∧ (e'.inJitRun = true → j.map Jit.blocks = e'.jit.map Jit.blocks) := by
  have hg : ∀ x, x ≠ a → e'.bus.peek x = e.bus.peek x := fun x hx => he ▸ h.bus.peek_poke v hx
  have hjit : e'.jit = e.jit := he ▸ rfl
  have hin : e'.inJitRun = e.inJitRun := he ▸ rfl
  have huse : e'.useJit = e.useJit := he ▸ rfl
  have hkeep : ∀ j u, (∀ k, j = some k → k.Matches e'.bus.peek ∧ (k.Settled ∨ e'.inJitRun = true ∧ u = false)) →
      ({ e' with jit := j, useJit := u } : Emu H).Bare := by
    subst he
    exact fun j u hj => ⟨h.bus.poke a v, h.off, h.reexec, h.debugging, hj⟩
  cases hj : e'.jit with
  | none =>
    have hn : e'.jitNoteGuestWrite hc a = e' := by
      unfold jitNoteGuestWrite
      rw [hj]
    exact ⟨e'.jit, e'.useJit, hn, hkeep _ _ fun k hk => (nomatch hj.symm.trans hk),
      by rw [hj], fun _ => by rw [hj]⟩
  | some j =>
    obtain ⟨hm, hs⟩ := h.cache j (hjit ▸ hj)
    rw [← hin, ← huse] at hs
    have hm' : Jit.Matches e.bus.peek
        { j with stats := { j.stats with writeEvents := j.stats.writeEvents + 1 } } :=
      hm.moves (.single (.note rfl)) fun _ _ _ _ _ _ hr => hr
    rw [noteGuestWrite_untagged hj hm.exact hm.untagged, ← hj]
    by_cases hcov : j.contains a = true
    · rw [if_pos hcov]
      by_cases hrun : e'.inJitRun = true
      · rw [if_pos hrun]
        refine ⟨_, _, rfl, hkeep _ _ fun k hk => ?_,
          by rw [hj]; rfl, fun _ => by rw [hj]; exact congrArg some (pend_blocks ..)⟩
        cases hk
        exact ⟨hm'.pend hg none, .inr ⟨hrun, rfl⟩⟩
      · rw [if_neg hrun]
        obtain ⟨hev, hes⟩ := hm'.event hg (hs.resolve_right fun hh => hrun hh.1) none
        refine ⟨_, _, rfl, hkeep _ _ fun k hk => ?_, by rw [hj]; rfl, fun hh => absurd hh hrun⟩
        cases hk
        exact ⟨hev, .inl hes⟩
    · rw [if_neg hcov]
      refine ⟨e'.jit, e'.useJit, rfl, hkeep _ _ fun k hk => ?_, rfl, fun _ => rfl⟩
      cases hj.symm.trans hk
      exact ⟨hm.outside hg (Bool.eq_false_iff.2 hcov), hs⟩

theorem write (hc : HostCode H) (a : Addr) (v : Byte) : ∃ j u,
    e.memWrite1 hc a v = .ok () { e with bus := e.bus.poke a v, jit := j, useJit := u } ∧
      ({ e with bus := e.bus.poke a v, jit := j, useJit := u } : Emu H).Bare ∧
      j.isSome = e.jit.isSome ∧ (e.inJitRun = true → j.map Jit.blocks = e.jit.map Jit.blocks) := by
  obtain ⟨j, u, hn, hb, hf⟩ := h.note rfl
  refine ⟨j, u, ?_, hb, hf⟩
  unfold memWrite1 memWriteDirect
  rw [h.off.2, h.busWrite1]
  exact congrArg (Out.ok ()) hn

end Bare

/-- What the requests of an instruction leave of the emulator around the machine. -/
structure SameRun (e e' : Emu H) : Prop where
  inJitRun : e'.inJitRun = e.inJitRun
  requested : e'.jitRequested = e.jitRequested
  tick : e'.tick = e.tick
  enabled : e'.jit.isSome = e.jit.isSome
  blocks : e.inJitRun = true → e'.jit.map Jit.blocks = e.jit.map Jit.blocks

theorem SameRun.refl (e : Emu H) : e.SameRun e := ⟨rfl, rfl, rfl, rfl, fun _ => rfl⟩

theorem SameRun.trans {e e' e'' : Emu H} (h : e.SameRun e') (h' : e'.SameRun e'') : e.SameRun e'' :=
  ⟨h'.inJitRun.trans h.inJitRun, h'.requested.trans h.requested, h'.tick.trans h.tick, h'.enabled.trans h.enabled,
    fun hin => (h'.blocks (h.inJitRun.trans hin)).trans (h.blocks hin)⟩

/-- Without MMU and devices a request is answered as the machine answers it. -/
theorem Bare.answer {hc : HostCode H} {e : Emu H} (h : e.Bare) {line : Bool} {m m' : Machine} {o : Op} {v : o.Ret}
    (hm : m.bus = e.bus) (ho : o = .irq → e.irq = line) (ha : m.answer line o = .ok v m') :
    ∃ e', e.answer hc o = .ok v e' ∧ e'.Bare ∧ e'.bus = m'.bus ∧ e.SameRun e' ∧ e'.control = o.control e.control ∧
      (o.isWrite = false → e'.jit = e.jit) := by
  obtain ⟨hbps, htrace, hdis⟩ := debugging_off h.debugging
  have hsame : m.answer line o = .ok v m → e.answer hc o = .ok v e → o.control e.control = e.control →
      ∃ e', e.answer hc o = .ok v e' ∧ e'.Bare ∧ e'.bus = m'.bus ∧ e.SameRun e' ∧
        e'.control = o.control e.control ∧
        (o.isWrite = false → e'.jit = e.jit) := by
    intro hmm he hcon
    cases ha.symm.trans hmm
    exact ⟨e, he, h, hm.symm, .refl e, hcon.symm, fun _ => rfl⟩
  cases o with
  | fetch a | read a =>
    cases ha
    refine hsame rfl ?_ rfl
    rw [hm]
    exact h.read a _
  | write a w =>
    cases ha
    obtain ⟨j, u, hw, hb, hsome, hblocks⟩ := h.write hc a w
    exact ⟨_, hw, hb, by rw [hm], ⟨rfl, rfl, rfl, hsome, hblocks⟩, rfl, nofun⟩
  | irq =>
    cases ha
    exact hsame rfl (congrArg (Out.ok · e) (ho rfl)) rfl
  | ackIrq =>
    cases ha
    exact ⟨_, rfl, ⟨h.bus, h.off, h.reexec, h.debugging, h.cache⟩, hm.symm, ⟨rfl, rfl, rfl, rfl, fun _ => rfl⟩,
      rfl, fun _ => rfl⟩
  | stop q =>
    cases ha
    exact ⟨_, rfl, ⟨h.bus, h.off, h.reexec, h.debugging, h.cache⟩, hm.symm, ⟨rfl, rfl, rfl, rfl, fun _ => rfl⟩,
      rfl, fun _ => rfl⟩
  | panic => cases ha
  | isBreakpoint pc =>
    cases ha
    refine hsame rfl ?_ rfl
    change Out.ok (e.bps.contains pc) e = _
    rw [hbps]
    rfl
  | disassemble pc =>
    cases ha
    refine hsame rfl ?_ rfl
    change Out.ok () (e.disassembled hc pc) = _
    rw [disassembled, hdis, if_neg Bool.false_ne_true]
  | reexec =>
    cases ha
    refine hsame rfl ?_ rfl
    change (if e.state = .stopped ∧ e.mmu.faultReexec = true then _ else Out.ok false e) = _
    rw [if_neg fun hh => Bool.false_ne_true (h.reexec.symm.trans hh.2)]
  | trace tpc i r =>
    cases ha
    refine hsame rfl ?_ rfl
    change Out.ok () (e.tracePush _) = _
    rw [tracePush, htrace, if_neg Bool.false_ne_true]

end Emu

end Rk65c02
