import Rk65c02.JitCounts
import Rk65c02.Steps

/-! The caches that compilations, write events, invalidations and flushes can reach, in any
order, and what the bookkeeping invariant says about each of them. -/

namespace Rk65c02

open Resumption

variable {H : Type}

namespace Emu

/-- The cache has the property; where there is none, the one that `rk65c02_jit_enable` creates. -/
def Cached (P : Jit → Prop) (e : Emu H) : Prop := P (e.jit.getD jitBackendCreate)

section Cached

variable {P : Jit → Prop} (hP : Jit.Stable P) {e : Emu H} (h : e.Cached P)

include hP h

theorem Cached.invalidate {f : Jit → Jit} (hf : ∀ j, j.Keyed → Jit.Moves j (f j)) :
    (e.jitInvalidate f).Cached P := by
  unfold jitInvalidate
  split
  · exact h
  · next j hj =>
    have hp : P j := by
      rw [Cached, hj] at h
      exact h
    unfold jitInvalidateDeferred
    split
    · exact hP.move j _ hp (.note rfl)
    · exact hP.moves hp (hf j (hP.keyed j hp))

theorem Cached.flush : e.jitFlush.Cached P := h.invalidate hP fun _ _ => .single .flush

theorem Cached.applyChanged : e.jitApplyChanged.Cached P := by
  unfold jitApplyChanged
  split
  · exact h.flush hP
  · exact List.foldlRecOn _ _ h fun e he p _ => he.invalidate hP fun j hj => Jit.moves_forCodePage hj p

omit hP in
theorem Cached.asyncCall (c : AsyncCall) : (e.asyncCall c).Cached P := by
  cases c with
  | assertIrq =>
    change e.assertIrq.Cached P
    unfold Emu.assertIrq
    dsimp only
    split <;> exact h
  | _ => exact h

theorem Cached.hostCall (c : HostCall) : (e.hostCall c).Cached P := by
  cases c with
  | mmuSet tr f en id =>
    change (e.mmuSet tr f en id).Cached P
    unfold mmuSet
    dsimp only
    split
    · exact h
    · exact Cached.flush hP h
  | mmuEndUpdate =>
    change e.mmuEndUpdate.Cached P
    unfold mmuEndUpdate
    split
    · exact h
    · exact h.applyChanged hP
  | jitEnable en =>
    change (e.jitEnable en).Cached P
    unfold jitEnable
    split <;> exact h
  | jitFlush => exact h.flush hP
  | assertIrq => exact h.asyncCall .assertIrq
  | _ => exact h

theorem Cached.hostReturns (r : H × List HostCall) : (e.hostReturns r).Cached P := by
  have hr : Cached P { e with host := r.1 } := h
  exact List.foldlRecOn r.2 _ hr fun e he c _ => he.hostCall hP c

omit hP in
theorem Cached.arrive (hc : HostCode H) : (e.arrive hc).Cached P := by
  have hr : Cached P { e with clock := e.clock + 1 } := h
  exact List.foldlRecOn (hc.async e.clock) _ hr fun e he c _ => he.asyncCall c

omit hP in
theorem Cached.physHit (hc : HostCode H) (j : Jit) (a : Addr) : (e.jitPhysHit hc j a).2.Cached P := by
  unfold jitPhysHit jitTranslatePaddr mmuTranslateCached
  split
  · exact h
  · dsimp only
    split <;> exact h

theorem Cached.note (hc : HostCode H) (a : Addr) : (e.jitNoteGuestWrite hc a).Cached P := by
  unfold jitNoteGuestWrite
  split
  · exact h
  · next j hj =>
    have hp : P j := by
      rw [Cached, hj] at h
      exact h
    dsimp only
    have hh := h.physHit hc j a
    generalize e.jitPhysHit hc j a = t at hh ⊢
    split
    · exact h
    · split
      · exact hh
      · have hm : Jit.Move j { j with stats := { j.stats with writeEvents := j.stats.writeEvents + 1 } } :=
          .note rfl
        split
        · exact hP.moves hp (.head hm (Jit.moves_pend _ _))
        · exact hP.moves hp (.head hm (Jit.moves_writeEvent (hP.keyed _ (hP.move _ _ hp hm)) _))

end Cached

theorem steady_cached {P : Jit → Prop} (hP : Jit.Stable P) (hc : HostCode H) : Steady hc (Cached P) where
  arrive _ h := h.arrive hc
  callback _ _ _ h := h.hostReturns hP _
  notify e h := by
    unfold maybeCallOnStop
    split
    · exact h
    · exact h.hostReturns hP _
  mmu _ _ h := h
  ram _ _ _ _ h := h
  fault _ _ _ _ h := h
  error _ h := h
  leave _ h := h
  note _ a h := h.note hP hc a
  log _ _ h := h
  stopNow _ h _ := h
  countdown _ _ h := h
  engine _ _ _ _ _ hd h := hP.moves h (hd (hP.keyed _ h))

end Emu

namespace Jit

/-- The cache has a place for one more block, and an inactive record to put it in. -/
structure Room (pc : Addr) (j : Jit) : Prop where
  exact : j.Exact
  lt : j.activeBlocks < jitMaxActiveBlocks
  record : ∃ c ∈ j.blocks, c.startPc = pc ∧ c.active = false

theorem active_drop_le (j : Jit) (b : Block) : (jitInvalidateBlock j b).activeBlocks ≤ j.activeBlocks := by
  change (if j.activeBlocks > 0 then j.activeBlocks - 1 else j.activeBlocks) ≤ j.activeBlocks
  split <;> omega

theorem mem_drop {j : Jit} {b x : Block} (hb : b ∈ j.blocks) :
    x ∈ (jitInvalidateBlock j b).blocks ↔ x = { b with fn := none } ∨ (x ∈ j.blocks ∧ x.startPc ≠ b.startPc) :=
  have hm : b.startPc ∈ j.blocks.map Block.startPc := List.mem_map_of_mem hb
  Records.mem_put (b := { b with fn := none }) hm

theorem activeBlocks_of_core {j k : Jit} (h : k.core = j.core) : k.activeBlocks = j.activeBlocks := by
  have hh := congrArg (fun k : Jit => k.activeBlocks) h
  exact hh

theorem blocks_of_core {j k : Jit} (h : k.core = j.core) : k.blocks = j.blocks := by
  have hh := congrArg (fun k : Jit => k.blocks) h
  exact hh

theorem Room.move {pc : Addr} {j k : Jit} (hj : j.Room pc) (h : Move j k) : k.Room pc := by
  refine ⟨hj.exact.move h, ?_, ?_⟩
  · cases h with
    | drop hb ha => exact Nat.lt_of_le_of_lt (j.active_drop_le _) hj.lt
    | flush => exact Nat.zero_lt_succ _
    | note h => exact (activeBlocks_of_core h).symm ▸ hj.lt
  · obtain ⟨c, hc, hpc, hca⟩ := hj.record
    cases h with
    | @drop b hb ha =>
      by_cases hcb : c.startPc = b.startPc
      · exact ⟨{ b with fn := none }, (mem_drop hb).2 (.inl rfl), hcb ▸ hpc, rfl⟩
      · exact ⟨c, (mem_drop hb).2 (.inr ⟨hc, hcb⟩), hpc, hca⟩
    | flush => exact ⟨{ c with fn := none }, List.mem_map.2 ⟨c, hc, rfl⟩, hpc, rfl⟩
    | note h => exact ⟨c, (blocks_of_core h).symm ▸ hc, hpc, hca⟩

theorem Keyed.append {j : Jit} (hj : j.Keyed) {pc : Addr} (hf : jitFindBlock j pc = none) :
    Keyed { j with blocks := j.blocks ++ [.empty pc] } := by
  have hpc : pc ∉ j.blocks.map Block.startPc := by
    simpa [jitFindBlock] using hf
  rw [Keyed, List.map_append, List.nodup_append]
  refine ⟨hj, List.nodup_singleton _, fun a ha b hb hab => hpc ?_⟩
  rw [List.map_singleton, List.mem_singleton] at hb
  rw [hab, hb] at ha
  exact ha

/-- A new record is inactive, so it changes no count. -/
theorem Exact.append {j : Jit} (hj : j.Exact) {pc : Addr} (hf : jitFindBlock j pc = none) :
    Exact { j with blocks := j.blocks ++ [.empty pc] } := by
  have hcount : ∀ p, Jit.count { j with blocks := j.blocks ++ [.empty pc] } p = j.count p := fun p => by
    simp [count, Block.active, Block.empty]
  exact ⟨hj.keyed.append hf, hj.active.trans (hcount _).symm, hj.bound, fun a =>
    (hj.addr a).trans (hcount _).symm,
    fun p => (hj.page p).trans (hcount _).symm, fun p => (hj.code p).trans (hcount _).symm,
    fun a => (hj.phys a).trans (hcount _).symm, fun p => (hj.physPage p).trans (hcount _).symm,
    hj.physTotal.trans (hcount _).symm⟩

theorem stable_room (pc : Addr) : Stable (Room pc) := ⟨fun _ h => h.exact.keyed, fun _ _ => Room.move⟩

end Jit

namespace Emu

variable {P : Jit → Prop} (hP : Jit.Stable P) (hc : HostCode H) {e : Emu H} (h : e.Cached P)

include hP h in
theorem Cached.buildBlockInsns (startPc : Addr) (n : Nat) (pc : Addr) :
    (e.jitBuildBlockInsns hc startPc n pc).Ends (Cached P) :=
  buildBlockInsns_ends h fun pc' e' _ h => (steady_cached hP hc).fetchEmu (fun _ _ h => h) e' pc' h

theorem translatePaddr_jit (e : Emu H) (a : Addr) (x : Access) : (e.jitTranslatePaddr hc a x).2.jit = e.jit := by
  unfold jitTranslatePaddr mmuTranslateCached
  dsimp only
  split <;> rfl

theorem physTags_jit (e : Emu H) (b : Block) : (e.jitPhysTags hc b).2.jit = e.jit := by
  unfold jitPhysTags
  dsimp only
  split
  · have h1 := e.translatePaddr_jit hc b.startPc .fetch
    generalize e.jitTranslatePaddr hc b.startPc .fetch = t at h1 ⊢
    obtain ⟨_ | p, e1⟩ := t
    · exact h1
    · dsimp only
      split
      · have h2 := e1.translatePaddr_jit hc (b.endPcExclusive - 1) .fetch
        generalize e1.jitTranslatePaddr hc (b.endPcExclusive - 1) .fetch = t at h2 ⊢
        obtain ⟨_ | q, e2⟩ := t
        · exact h2.trans h1
        · exact h2.trans h1
      · exact h1
  · rfl

/-- The tags are all that changes. -/
theorem physTags_block (e : Emu H) (b : Block) : ∃ v p c s, (e.jitPhysTags hc b).1 =
    { b with mmuPhysPageValid := v, mmuPhysPage := p, mmuPhysByteCov := c, mmuPhysStart := s } := by
  unfold jitPhysTags
  dsimp only
  split
  · generalize e.jitTranslatePaddr hc b.startPc .fetch = t
    obtain ⟨_ | p, e1⟩ := t
    · exact ⟨_, _, _, _, rfl⟩
    · dsimp only
      split
      · generalize e1.jitTranslatePaddr hc (b.endPcExclusive - 1) .fetch = t
        obtain ⟨_ | q, e2⟩ := t <;> exact ⟨_, _, _, _, rfl⟩
      · exact ⟨_, _, _, _, rfl⟩
  · exact ⟨_, _, _, _, rfl⟩

theorem find_record (j : Jit) (pc : Addr) : jitFindBlock (jitRecord j pc) pc = some (recordAt j pc) := by
  have h : (jitFindBlock (jitRecord j pc) pc).isSome := by
    unfold jitRecord
    cases hf : jitFindBlock j pc with
    | none =>
      rw [Option.isNone_none, if_pos rfl]
      unfold jitFindBlock at hf ⊢
      rw [List.find?_append, hf]
      simp [Block.empty]
    | some b =>
      rw [Option.isNone_some, if_neg Bool.false_ne_true, hf]
      rfl
  obtain ⟨b, hb⟩ := Option.isSome_iff_exists.1 h
  rw [recordAt, hb, Option.getD_some]

theorem recordAt_mem (j : Jit) (pc : Addr) : recordAt j pc ∈ (jitRecord j pc).blocks :=
  List.mem_of_find?_eq_some (find_record j pc)

theorem recordAt_startPc (j : Jit) (pc : Addr) : (recordAt j pc).startPc = pc := by
  simpa using List.find?_some (find_record j pc)

/-- The block is what the build from `pc` on the emulator gives. -/
structure Compiled (e : Emu H) (pc : Addr) (insns : List Instruction) (b : Block) : Prop where
  startPc : b.startPc = pc
  endPc : b.endPcExclusive = blockEnd pc insns
  numInsns : b.numInsns = insns.length
  fn : b.fn = some insns
  nonempty : insns ≠ []
  built : ∃ s, e.jitBuildBlockInsns hc pc jitBlockMaxInsns pc = .ok insns s

/-- The tags of the block are those of its addresses when its instructions have been fetched. -/
def TagsOf (e : Emu H) (pc : Addr) (insns : List Instruction) (b : Block) : Prop :=
  ∃ s c, e.jitBuildBlockInsns hc pc jitBlockMaxInsns pc = .ok insns s ∧ c.startPc = pc ∧
    c.endPcExclusive = blockEnd pc insns ∧
      b = { (s.jitPhysTags hc c).1 with numInsns := insns.length, fn := some insns }

/-- The rule for compilation: `Q` holds while the instructions are fetched. -/
theorem compile_cached {P Q : Jit → Prop} (hQ : Jit.Stable Q) (hQP : ∀ j, Q j → P j)
    {e : Emu H} {j : Jit} {pc : Addr} (hj : e.jit = some j) (hrec : P (jitRecord j pc))
    (hroom : (recordAt j pc).active = false → Q (jitRecord j pc))
    (hinst : ∀ k b insns, Q k → Compiled hc { e with jit := some (jitRecord j pc) } pc insns b →
      TagsOf hc { e with jit := some (jitRecord j pc) } pc insns b → P (jitInstall k b)) :
    (e.jitCompileBlock hc pc).Ends (Cached P) := by
  have hpc := recordAt_startPc j pc
  rw [compileBlock_some hj]
  generalize recordAt j pc = b at hroom hpc ⊢
  by_cases ha : b.active = true
  · rw [if_pos ha]
    exact hrec
  rw [if_neg ha]
  have hq : Cached Q { e with jit := some (jitRecord j pc) } := hroom (Bool.eq_false_iff.2 ha)
  have hends := hq.buildBlockInsns hQ hc pc jitBlockMaxInsns pc
  cases hb : ({ e with jit := some (jitRecord j pc) } : Emu H).jitBuildBlockInsns hc pc jitBlockMaxInsns pc with
  | exit s =>
    rw [hb] at hends
    exact hQP _ hends
  | stuck => trivial
  | ok insns s =>
    have hs : Cached Q s := hends.ok hb
    rw [Out.ok_bind]
    unfold compileEnd
    split
    · exact hQP _ hs
    · next hne =>
      have h1 := s.physTags_jit hc { b with endPcExclusive := blockEnd pc insns }
      obtain ⟨v, p, c, q, h2⟩ := s.physTags_block hc { b with endPcExclusive := blockEnd pc insns }
      have h3 : TagsOf hc { e with jit := some (jitRecord j pc) } pc insns
          { (s.jitPhysTags hc { b with endPcExclusive := blockEnd pc insns }).1 with
            numInsns := insns.length, fn := some insns } :=
        ⟨s, { b with endPcExclusive := blockEnd pc insns }, hb, hpc, rfl, rfl⟩
      dsimp only [Out.Ends]
      generalize s.jitPhysTags hc { b with endPcExclusive := blockEnd pc insns } = t at h1 h2 h3 ⊢
      rw [Cached] at hs ⊢
      dsimp only at h3 ⊢
      rw [h2] at h3
      rw [h1, h2]
      cases hk : s.jit with
      | none =>
        rw [hk] at hs
        exact hQP _ hs
      | some k =>
        rw [hk] at hs
        exact hinst k _ insns hs ⟨hpc, rfl, rfl, rfl, hne, s, hb⟩ h3

/-- Compilation keeps the counters exact, whatever the host does during the fetches. -/
theorem compile_exact {e : Emu H} {j : Jit} (hj : e.jit = some j) (hx : j.Exact)
    (hlt : j.activeBlocks < jitMaxActiveBlocks)
    (pc : Addr) : (e.jitCompileBlock hc pc).Ends (Cached Jit.Exact) := by
  have hrec : (jitRecord j pc).Exact ∧ (jitRecord j pc).activeBlocks = j.activeBlocks := by
    unfold jitRecord
    split
    · next hf => exact ⟨hx.append (Option.isNone_iff_eq_none.1 hf), rfl⟩
    · exact ⟨hx, rfl⟩
  refine compile_cached hc (Jit.stable_room pc) (fun _ h => h.exact) hj hrec.1 (fun ha => ?_)
    fun k b insns hk hb _ => ?_
  · exact ⟨hrec.1, hrec.2 ▸ hlt, recordAt j pc, recordAt_mem j pc, recordAt_startPc j pc, ha⟩
  · obtain ⟨c, hcm, hcp, hca⟩ := hk.record
    exact hk.exact.install hcm (hcp.trans hb.startPc.symm) hca (by rw [Block.active, hb.fn]; rfl) hk.lt

end Emu

/-- The caches reached by compilations, write events, invalidations and flushes. A round of
an invalidation loop is a step of its own, so that what holds of every reachable cache
holds in the middle of a loop too. -/
inductive Jit.Reachable : Jit → Prop
  | create : Reachable jitBackendCreate
  | compile {H : Type} {hc : HostCode H} {e e' : Emu H} {j k : Jit} {pc : Addr} {b : Option Block}
      (hj : Reachable j) (he : e.jit = some (jitMakeRoom j)) (hb : e.jitCompileBlock hc pc = .ok b e')
      (hk : e'.jit = some k) : Reachable k
  | round {j : Jit} {b : Block} (hj : Reachable j) (hb : b ∈ j.blocks) (ha : b.active = true) :
      Reachable (jitInvalidateBlock j b)
  | writeEvent {j : Jit} (hj : Reachable j) (w : PendingWrite) : Reachable (jitWriteEvent j w)
  | pend {j : Jit} (hj : Reachable j) (w : PendingWrite) : Reachable (Emu.jitPendWrite j w)
  | process {j : Jit} (hj : Reachable j) : Reachable (jitProcessPendingWrites j).1
  | forAddr {j : Jit} (hj : Reachable j) (a : Addr) : Reachable (jitInvalidateBlocksForAddr j a)
  | forPage {j : Jit} (hj : Reachable j) (p : Byte) : Reachable (jitInvalidateBlocksForPage j p)
  | forCodePage {j : Jit} (hj : Reachable j) (p : Byte) : Reachable (jitInvalidateBlocksForCodePage j p)
  | forPhysAddr {j : Jit} (hj : Reachable j) (a : Addr) : Reachable (jitInvalidateBlocksForPhysAddr j a)
  | flush {j : Jit} (hj : Reachable j) : Reachable (jitBackendFlush j)
  | note {j k : Jit} (hj : Reachable j) (h : k.core = j.core) : Reachable k

namespace Jit

theorem exact_create : jitBackendCreate.Exact :=
  ⟨List.nodup_nil, rfl, Nat.zero_le _, fun _ => rfl, fun _ => rfl, fun _ => rfl, fun _ => rfl, fun _ => rfl, rfl⟩

theorem Exact.makeRoom {j : Jit} (hj : j.Exact) :
    (jitMakeRoom j).Exact ∧ (jitMakeRoom j).activeBlocks < jitMaxActiveBlocks := by
  unfold jitMakeRoom
  split
  · exact ⟨hj.flush, Nat.zero_lt_succ _⟩
  · exact ⟨hj, by omega⟩

/-- What a new cache has and every change of a cache keeps, every reachable cache has. -/
theorem Reachable.stable {P : Jit → Prop} (hP : Stable P) (hnew : P jitBackendCreate)
    (hcompile : ∀ {H : Type} (hc : HostCode H) {e : Emu H} {j : Jit}, P j → e.jit = some (jitMakeRoom j) →
      ∀ pc, (e.jitCompileBlock hc pc).Ends (Emu.Cached P)) {j : Jit} (h : j.Reachable) : P j := by
  have hm : ∀ {j k : Jit}, P j → (j.Keyed → Moves j k) → P k := fun hj h => hP.moves hj (h (hP.keyed _ hj))
  induction h with
  | create => exact hnew
  | @compile _ hc e e' j k pc b _ he hb hk ih =>
    have hx := (hcompile hc ih he pc).ok hb
    rw [Emu.Cached, hk] at hx
    exact hx
  | round _ hb ha ih => exact hP.move _ _ ih (.drop hb ha)
  | writeEvent _ w ih => exact hm ih (moves_writeEvent · w)
  | pend _ w ih => exact hm ih fun _ => moves_pend _ w
  | process _ ih => exact hm ih moves_process
  | forAddr _ a ih => exact hm ih (moves_forAddr · a)
  | forPage _ p ih => exact hm ih (moves_forPage · p)
  | forCodePage _ p ih => exact hm ih (moves_forCodePage · p)
  | forPhysAddr _ a ih => exact hm ih (moves_forPhysAddr · a)
  | flush _ ih => exact hP.move _ _ ih .flush
  | note _ h ih => exact hP.move _ _ ih (.note h)

theorem Reachable.exact {j : Jit} (h : j.Reachable) : j.Exact :=
  h.stable stable_exact exact_create fun hc _ _ hj he pc => Emu.compile_exact hc he hj.makeRoom.1 hj.makeRoom.2 pc

end Jit

namespace Block

theorem mem_addrs_iff {b : Block} {a : Addr} : a ∈ b.addrs ↔ (a - b.startPc).toNat <
    if b.startPc = b.endPcExclusive then 65536 else (b.endPcExclusive - b.startPc).toNat := by
  have hlen : (if b.startPc = b.endPcExclusive then 65536 else (b.endPcExclusive - b.startPc).toNat) ≤ 65536 := by
    split <;> omega
  simp only [addrs, List.mem_map, List.mem_range]
  constructor
  · rintro ⟨k, hk, rfl⟩
    have hs : b.startPc + BitVec.ofNat 16 k - b.startPc = BitVec.ofNat 16 k := by bv_omega
    rw [hs, BitVec.toNat_ofNat]
    exact Nat.lt_of_le_of_lt (Nat.mod_le _ _) hk
  · intro h
    refine ⟨_, h, ?_⟩
    bv_omega

/-- The counters and the invalidation by address agree on what a block covers. -/
theorem mem_addrs {b : Block} {a : Addr} : a ∈ b.addrs ↔ jitBlockContainsAddr b a = true := by
  rw [mem_addrs_iff]
  unfold jitBlockContainsAddr
  split
  · next h => simp [h]; omega
  · split
    · simp only [Bool.and_eq_true, decide_eq_true_eq]
      bv_omega
    · split
      · simp only [Bool.or_eq_true, decide_eq_true_eq]
        bv_omega
      · bv_omega

end Block

namespace Jit

/-- No counter is at zero when an active block is to be taken from it, and none is near the
limit of its type. -/
structure Unclamped (j : Jit) : Prop where
  active : ∀ b ∈ j.blocks, b.active = true → j.activeBlocks ≠ 0
  addr : ∀ b ∈ j.blocks, b.active = true → ∀ a ∈ b.addrs, j.coveredAddrRefcnt a ≠ 0
  page : ∀ b ∈ j.blocks, b.active = true → ∀ a ∈ b.addrs, j.compiledPageRefcnt (page a) ≠ 0
  code : ∀ b ∈ j.blocks, b.active = true → j.compiledCodePageRefcnt (Rk65c02.page b.startPc) ≠ 0
  phys : ∀ b ∈ j.blocks, b.active = true → ∀ a, b.coversPhys a = true → j.coveredPhysAddrRefcnt a ≠ 0
  physPage : ∀ b ∈ j.blocks, b.active = true → ∀ p, b.coversPhysPage p = true → j.compiledPhysPageRefcnt p ≠ 0
  physTotal : ∀ b ∈ j.blocks, b.active = true → b.mmuPhysPageValid = true → j.compiledPhysRefsTotal ≠ 0
  addr_le : ∀ a, (j.coveredAddrRefcnt a).toNat ≤ jitMaxActiveBlocks
  page_le : ∀ p, (j.compiledPageRefcnt p).toNat ≤ jitMaxActiveBlocks
  code_le : ∀ p, (j.compiledCodePageRefcnt p).toNat ≤ jitMaxActiveBlocks
  phys_le : ∀ a, (j.coveredPhysAddrRefcnt a).toNat ≤ jitMaxActiveBlocks
  physPage_le : ∀ p, (j.compiledPhysPageRefcnt p).toNat ≤ jitMaxActiveBlocks

/-- A counter that equals a count is zero only if no active block has the coverage. -/
theorem ne_zero_of_count {w : Nat} {j : Jit} {c : BitVec w} {p : Block → Bool}
    (h : c.toNat = j.count p) {b : Block}
    (hb : b ∈ j.blocks) (ha : b.active = true) (hp : p b = true) : c ≠ 0 := by
  rintro rfl
  have hpos : 0 < j.count p := count_pos.2 ⟨b, hb, ha, hp⟩
  rw [← h] at hpos
  simp at hpos

theorem zero_of_count {w : Nat} {j : Jit} {c : BitVec w} {p : Block → Bool} (h : c.toNat = j.count p)
    (hp : ∀ b ∈ j.blocks, b.active = true → p b = false) : c = 0 := by
  have hz : j.count p = 0 := by
    refine Nat.eq_zero_of_not_pos fun hpos => ?_
    obtain ⟨b, hb, ha, hpb⟩ := count_pos.1 hpos
    exact Bool.false_ne_true ((hp b hb ha).symm.trans hpb)
  exact BitVec.eq_of_toNat_eq (h.trans hz)

theorem Exact.count_le_max {j : Jit} (hj : j.Exact) (p : Block → Bool) : j.count p ≤ jitMaxActiveBlocks :=
  Nat.le_trans (j.count_le p) (hj.active ▸ hj.bound)

theorem Exact.unclamped {j : Jit} (hj : j.Exact) : j.Unclamped where
  active b hb ha := by
    rw [hj.active]
    exact Nat.ne_of_gt (count_pos.2 ⟨b, hb, ha, rfl⟩)
  addr b hb ha a h := ne_zero_of_count (hj.addr a) hb ha (decide_eq_true h)
  page b hb ha a h := ne_zero_of_count (hj.page _) hb ha (List.contains_iff_mem.2 (List.mem_map_of_mem h))
  code b hb ha := ne_zero_of_count (hj.code _) hb ha (decide_eq_true rfl)
  phys b hb ha a h := ne_zero_of_count (hj.phys a) hb ha h
  physPage b hb ha p h := ne_zero_of_count (hj.physPage p) hb ha h
  physTotal b hb ha h := ne_zero_of_count hj.physTotal hb ha h
  addr_le a := hj.addr a ▸ hj.count_le_max _
  page_le p := hj.page p ▸ hj.count_le_max _
  code_le p := hj.code p ▸ hj.count_le_max _
  phys_le a := hj.phys a ▸ hj.count_le_max _
  physPage_le p := hj.physPage p ▸ hj.count_le_max _

theorem writeEvents_where (j : Jit) (hit : Block → Bool) :
    (jitInvalidateWhere j hit).stats.writeEvents = j.stats.writeEvents :=
  List.foldlRecOn (motive := fun k : Jit => k.stats.writeEvents = j.stats.writeEvents) _ _ rfl fun _ h _ _ => h

theorem writeEvents_writeEvent (j : Jit) (w : PendingWrite) :
    (jitWriteEvent j w).stats.writeEvents = j.stats.writeEvents := by
  have h1 : (jitInvalidateBlocksForAddr j w.addr).stats.writeEvents = j.stats.writeEvents := writeEvents_where _ _
  have h2 : ∀ k : Jit, (jitCountPageEvent k (Rk65c02.page w.addr)).stats.writeEvents = k.stats.writeEvents := by
    intro k
    unfold jitCountPageEvent
    dsimp only
    split
    · exact writeEvents_where _ _
    · rfl
  refine (h2 _).trans ?_
  cases w.phys with
  | none => exact h1
  | some a => exact (writeEvents_where _ _).trans h1

/-- Some active block contains the address. -/
def contains (j : Jit) (a : Addr) : Bool := j.blocks.any fun b => b.active && jitBlockContainsAddr b a

theorem Exact.covered_iff {j : Jit} (hj : j.Exact) (a : Addr) :
    (j.compiledPageRefcnt (Rk65c02.page a) != 0 && j.coveredAddrRefcnt a != 0) = j.contains a := by
  have hu := hj.unclamped
  rw [Bool.eq_iff_iff, contains, List.any_eq_true]
  simp only [Bool.and_eq_true, bne_iff_ne]
  constructor
  · rintro ⟨-, h⟩
    by_contra hn
    refine h (zero_of_count (hj.addr a) fun b hb ha => decide_eq_false fun hm => ?_)
    exact hn ⟨b, hb, ha, Block.mem_addrs.1 hm⟩
  · rintro ⟨b, hb, ha, hm⟩
    exact ⟨hu.page b hb ha a (Block.mem_addrs.2 hm), hu.addr b hb ha a (Block.mem_addrs.2 hm)⟩

end Jit

/-- The write events recorded so far. -/
def Emu.writeEvents (e : Emu H) : Nat := (e.jit.map fun j => j.stats.writeEvents).getD 0

/-- In every reachable cache the counters count exactly the active blocks, and none is clamped; while
no block has a physical tag, a store is a write event exactly if it hits an active block. -/
theorem jit_bookkeeping {j : Jit} (h : j.Reachable) :
    j.Exact ∧ j.Unclamped ∧
      ∀ {H : Type} (hc : HostCode H) (e : Emu H) (a : Addr), e.jit = some j →
        (∀ b ∈ j.blocks, b.active = true → b.mmuPhysPageValid = false) →
          (e.jitNoteGuestWrite hc a).writeEvents = e.writeEvents + (j.contains a).toNat := by
  have hx := h.exact
  refine ⟨hx, hx.unclamped, fun hc e a hj hphys => ?_⟩
  have hw : e.writeEvents = j.stats.writeEvents := by
    rw [Emu.writeEvents, hj]
    rfl
  have ht : j.compiledPhysRefsTotal = 0 := Jit.zero_of_count hx.physTotal hphys
  unfold Emu.jitNoteGuestWrite
  rw [hj]
  dsimp only
  rw [hx.covered_iff]
  by_cases hact : j.activeBlocks = 0
  · have hn : j.contains a = false := by
      refine List.any_eq_false.2 fun b hb hba => ?_
      exact hx.unclamped.active b hb (Bool.and_eq_true _ _ ▸ hba).1 hact
    rw [if_pos hact, hn]
    rfl
  · rw [if_neg hact, Emu.jitPhysHit, if_pos ht]
    cases j.contains a with
    | false => rfl
    | true =>
      dsimp only
      rw [if_neg (by simp), hw]
      split
      · unfold Emu.jitPendWrite
        dsimp only
        split <;> rfl
      · exact Jit.writeEvents_writeEvent _ _

/-- The cache after one compilation. -/
def cacheAfter (hc : HostCode H) (e : Emu H) (pc : Addr) : Option Jit :=
  match e.jitCompileBlock hc pc with
  | .ok _ e => e.jit
  | _ => none

theorem cacheAfter_reachable {hc : HostCode H} {e : Emu H} {pc : Addr}
    (he : e.jit = some jitBackendCreate) {j : Jit} (h : cacheAfter hc e pc = some j) : j.Reachable := by
  unfold cacheAfter at h
  split at h
  · next hb => exact .compile .create he hb h
  · cases h

/-- Memory full of RTS, no MMU. -/
def rtsEmu : Emu Unit :=
  { (init (ramBus fun _ => 0x60) () ⟨0, 0, 0, 0, 0, 0⟩ : Emu Unit).jitEnable true with state := .running }

theorem jit_bookkeeping_rts : ∃ j : Jit, j.Reachable ∧ j.Exact ∧ j.activeBlocks = 1 ∧
    (Emu.jitNoteGuestWrite (quietHost identity) { rtsEmu with jit := some j } 0x0200).writeEvents = 1 := by
  have hany : (cacheAfter (quietHost identity) rtsEmu 0x0200).any (fun j => j.activeBlocks = 1 ∧
      j.contains 0x0200 = true ∧ j.stats.writeEvents = 0 ∧ ∀ b ∈ j.blocks,
        b.mmuPhysPageValid = false) = true := by
    decide +kernel
  obtain ⟨j, hj, hb⟩ := (Option.any_eq_true _ _).1 hany
  obtain ⟨hone, hin, hw, hphys⟩ := of_decide_eq_true hb
  have hr : j.Reachable := cacheAfter_reachable rfl hj
  refine ⟨j, hr, (jit_bookkeeping hr).1, hone, ?_⟩
  rw [(jit_bookkeeping hr).2.2 _ { rtsEmu with jit := some j } 0x0200 rfl fun b hb _ => hphys b hb, hin]
  exact congrArg (· + 1) hw

/-- Physical coverage of an address below 64K, byte-precise or by its page. -/
def Block.coversPhysAddr (b : Block) (p : Addr) : Bool := b.coversPhys p || b.coversPhysPage (page p)

/-- The physical span of a byte-precise block, one past its last byte. -/
def Block.physEnd (b : Block) : Nat := b.mmuPhysStart.toNat + (b.endPcExclusive - b.startPc).toNat

theorem Block.coversPhys_iff {b : Block} {p : Addr} : b.coversPhys p = true ↔
    (b.mmuPhysPageValid && b.mmuPhysByteCov) = true ∧ b.mmuPhysStart.toNat ≤ p.toNat ∧ p.toNat < b.physEnd := by
  simp only [coversPhys, decide_eq_true_eq, physAddrs, List.mem_map, List.mem_range, physEnd]
  refine and_congr_right fun _ => ⟨?_, fun h => ⟨p.toNat - b.mmuPhysStart.toNat, by omega, by omega⟩⟩
  rintro ⟨k, hk, he⟩
  omega

/-- The test of the invalidation and the coverage of the counters differ on the blocks whose
span reaches the end of the 64K space, and nowhere else. -/
theorem Block.matchesPhys_iff {b : Block} {p : Addr} : jitBlockMatchesPhys b p = true ↔
    b.coversPhysAddr p = true ∧ ¬(b.coversPhys p = true ∧ 0x10000 ≤ b.physEnd) := by
  rw [coversPhysAddr, Bool.or_eq_true, coversPhys_iff]
  unfold jitBlockMatchesPhys coversPhysPage physEnd
  cases b.mmuPhysPageValid with
  | false => simp
  | true =>
    cases b.mmuPhysByteCov with
    | false => simp
    | true =>
      simp only [Bool.true_and, if_true, Bool.not_eq_true', Bool.or_eq_false_iff,
        decide_eq_false_iff_not, true_and,
        Bool.not_true, Bool.false_eq_true, false_and, decide_false, or_false]
      bv_omega

open Jit in
/-- After a physical invalidation nothing active covers the address and no other block is dropped,
exactly if no block that covers the address ends at the 64K boundary or beyond. -/
theorem phys_invalidation_iff {j : Jit} (h : j.Reachable) (p : Addr) :
    ((∀ b ∈ (jitInvalidateBlocksForPhysAddr j p).blocks, b.active = true → b.coversPhysAddr p = false) ∧
        (jitInvalidateBlocksForPhysAddr j p).coveredPhysAddrRefcnt p = 0 ∧
        (jitInvalidateBlocksForPhysAddr j p).compiledPhysPageRefcnt (page p) = 0 ∧
        ∀ b ∈ j.blocks, b.active = true → b.coversPhysAddr p = false →
          b ∈ (jitInvalidateBlocksForPhysAddr j p).blocks) ↔
      ∀ b ∈ j.blocks, b.active = true → b.coversPhys p = true → b.physEnd < 0x10000 := by
  have hx := h.exact
  have hkx : (jitInvalidateBlocksForPhysAddr j p).Exact := stable_exact.moves hx (moves_forPhysAddr hx.keyed p)
  have hblocks := where_blocks hx.keyed fun b => jitBlockMatchesPhys b p
  have hstays : ∀ b ∈ j.blocks, ¬jitBlockMatchesPhys b p = true →
    b ∈ (jitInvalidateBlocksForPhysAddr j p).blocks := by
    intro b hb hn
    refine hblocks ▸ List.mem_map.2 ⟨b, hb, if_neg fun hh => hn ?_⟩
    exact (Bool.and_eq_true _ _ ▸ hh).2
  constructor
  · rintro ⟨hnone, -, -, -⟩ b hb ha hcov
    by_contra hend
    have hn : ¬jitBlockMatchesPhys b p = true := fun hm => (Block.matchesPhys_iff.1 hm).2
      ⟨hcov, Nat.le_of_not_lt hend⟩
    have hf := hnone b (hstays b hb hn) ha
    rw [Block.coversPhysAddr, hcov] at hf
    exact Bool.noConfusion hf
  · intro hend
    have hnone : ∀ b ∈ (jitInvalidateBlocksForPhysAddr j p).blocks, b.active = true →
      b.coversPhysAddr p = false := by
      intro c hc ha
      obtain ⟨b, hb, rfl⟩ := List.mem_map.1 (hblocks ▸ hc)
      split at ha
      · exact absurd ha Bool.false_ne_true
      · next hm =>
        rw [if_neg hm]
        refine Bool.eq_false_iff.2 fun hcov => hm ?_
        have hmatch := Block.matchesPhys_iff.2 ⟨hcov, fun hh => Nat.not_lt.2 hh.2 (hend b hb ha hh.1)⟩
        rw [ha, hmatch]
        rfl
    have hor : ∀ b ∈ (jitInvalidateBlocksForPhysAddr j p).blocks, b.active = true →
        b.coversPhys p = false ∧ b.coversPhysPage (page p) = false :=
      fun b hb ha => Bool.or_eq_false_iff.1 (hnone b hb ha)
    refine ⟨hnone, zero_of_count (hkx.phys p) fun b hb ha => (hor b hb ha).1,
      zero_of_count (hkx.physPage _) fun b hb ha => (hor b hb ha).2, fun b hb ha hn => hstays b hb fun hm => ?_⟩
    exact Bool.false_ne_true (hn.symm.trans (Block.matchesPhys_iff.1 hm).1)

/-- The virtual page 2 is the last page below 64K, which holds RTS in its last byte. -/
def lastPage : Translate := fun a _ =>
  { ok := true, paddr := if page a = 2 then 0xFF00 + (a.setWidth 32 &&& 0xFF) else a.setWidth 32, perms := 7
    faultCode := 0, noFillTlb := false }

def lastPageEmu : Emu Unit :=
  let e := (init (ramBus fun _ => 0x60) () ⟨0, 0, 0, 0, 0, 0⟩ : Emu Unit)
  { (e.mmuSet (some 0) none true false).jitEnable true with state := .running }

theorem phys_invalidation_rts : ∃ j : Jit, j.Reachable ∧ j.coveredPhysAddrRefcnt 0xFFF0 = 1 ∧
    (jitInvalidateBlocksForPhysAddr j 0xFFF0).coveredPhysAddrRefcnt 0xFFF0 = 0 := by
  have hany : (cacheAfter (quietHost lastPage) lastPageEmu 0x02F0).any
    (fun j => j.coveredPhysAddrRefcnt 0xFFF0 = 1 ∧
      ∀ b ∈ j.blocks, b.physEnd < 0x10000) = true := by decide +kernel
  obtain ⟨j, hj, hb⟩ := (Option.any_eq_true _ _).1 hany
  obtain ⟨hone, hend⟩ := of_decide_eq_true hb
  have hr : j.Reachable := cacheAfter_reachable rfl hj
  exact ⟨j, hr, hone, ((phys_invalidation_iff hr 0xFFF0).2 fun b hb _ _ => hend b hb).2.1⟩

theorem last_byte_survives : ∃ j : Jit, j.Reachable ∧
    ∃ b ∈ (jitInvalidateBlocksForPhysAddr j 0xFFFF).blocks, b.active = true ∧ b.coversPhys 0xFFFF = true := by
  have hany : (cacheAfter (quietHost lastPage) lastPageEmu 0x02FF).any (fun j =>
      (jitInvalidateBlocksForPhysAddr j 0xFFFF).blocks.any fun b => b.active && b.coversPhys 0xFFFF) = true := by
    decide +kernel
  obtain ⟨j, hj, hb⟩ := (Option.any_eq_true _ _).1 hany
  refine ⟨j, cacheAfter_reachable rfl hj, ?_⟩
  simpa using hb

end Rk65c02
