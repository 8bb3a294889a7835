import Rk65c02.Run
import Rk65c02.Records

/-! The counters of the JIT cache are exact: each is the number of active blocks with its
coverage. -/

namespace Rk65c02

namespace Jit

/-- How many active blocks have a property. -/
def count (j : Jit) (p : Block → Bool) : Nat := j.blocks.countP fun b => b.active && p b

end Jit

namespace Block

@[simp] theorem active_none (b : Block) : ({ b with fn := none } : Block).active = false := rfl

def startsOn (b : Block) (p : Byte) : Bool := p = page b.startPc

/-- Byte-precise physical coverage, in the 32-bit arithmetic of the counters. -/
def coversPhys (b : Block) (a : Addr) : Bool := (b.mmuPhysPageValid && b.mmuPhysByteCov) ∧ a.toNat ∈ b.physAddrs

/-- Page-granular physical coverage. -/
def coversPhysPage (b : Block) (p : Byte) : Bool := (b.mmuPhysPageValid && !b.mmuPhysByteCov) ∧ p = b.mmuPhysPage

end Block

/-- The bookkeeping invariant. -/
structure Jit.Exact (j : Jit) : Prop where
  nodup : (j.blocks.map Block.startPc).Nodup
  active : j.activeBlocks = j.count fun _ => true
  bound : j.activeBlocks ≤ jitMaxActiveBlocks
  addr : ∀ a, (j.coveredAddrRefcnt a).toNat = j.count fun b => a ∈ b.addrs
  page : ∀ p, (j.compiledPageRefcnt p).toNat = j.count fun b => b.coversPage p
  code : ∀ p, (j.compiledCodePageRefcnt p).toNat = j.count fun b => b.startsOn p
  phys : ∀ a, (j.coveredPhysAddrRefcnt a).toNat = j.count fun b => b.coversPhys a
  physPage : ∀ p, (j.compiledPhysPageRefcnt p).toNat = j.count fun b => b.coversPhysPage p
  physTotal : j.compiledPhysRefsTotal.toNat = j.count Block.mmuPhysPageValid

section Bump

variable {c : BitVec 16} {n : Nat}

theorem bump_up (h : c.toNat = n) (hn : n < 65535) : (bump true c).toNat = n + 1 := by
  rw [bump, if_pos rfl, BitVec.toNat_add, h]
  exact Nat.mod_eq_of_lt (by change n + 1 < 65536; omega)

theorem bump_down (h : c.toNat = n + 1) : (bump false c).toNat = n := by
  have hc : c ≠ 0 := by
    rintro rfl
    simp at h
  rw [bump, if_neg Bool.false_ne_true, if_neg hc, BitVec.toNat_sub_of_le, h]
  · rfl
  · rw [BitVec.le_def, h]
    change 1 ≤ n + 1
    omega

variable {q : Prop} [Decidable q]

theorem counted_up (h : c.toNat = n) (hn : n < 65535) : (if q then bump true c else c).toNat =
    n + (decide q).toNat := by
  by_cases hq : q
  · rw [if_pos hq, decide_eq_true hq]
    exact bump_up h hn
  · rw [if_neg hq, decide_eq_false hq]
    exact h

theorem counted_down (h : n + (decide q).toNat = c.toNat) : (if q then bump false c else c).toNat = n := by
  by_cases hq : q
  · rw [decide_eq_true hq] at h
    rw [if_pos hq]
    exact bump_down h.symm
  · rw [decide_eq_false hq] at h
    rw [if_neg hq]
    exact h.symm

end Bump

namespace Jit

theorem count_le (j : Jit) (p : Block → Bool) : j.count p ≤ j.count fun _ => true := by
  refine List.countP_mono_left fun b _ h => ?_
  rw [Bool.and_eq_true] at h ⊢
  exact ⟨h.1, rfl⟩

theorem count_pos {j : Jit} {p : Block → Bool} : 0 < j.count p ↔ ∃ b ∈ j.blocks, b.active = true ∧
    p b = true := by
  simp [count, List.countP_pos_iff]

theorem setBlock_blocks (j : Jit) (b : Block) : (j.setBlock b).blocks = Records.put Block.startPc
    b j.blocks := rfl

/-- Compiling code into an inactive record adds it to every count it has. -/
theorem count_install {j : Jit} (hn : (j.blocks.map Block.startPc).Nodup) {b c : Block} (hc : c ∈ j.blocks)
    (hk : c.startPc = b.startPc) (hca : c.active = false) (hb : b.active = true) (p : Block → Bool) :
    (j.setBlock b).count p = j.count p + (p b).toNat := by
  have h := Records.countP_put hn hc hk fun b => b.active && p b
  simpa [count, setBlock_blocks, hca, hb] using h

/-- Dropping an active block takes it from every count it has. -/
theorem count_drop {j : Jit} (hn : (j.blocks.map Block.startPc).Nodup) {b : Block} (hb : b ∈ j.blocks)
    (ha : b.active = true) (p : Block → Bool) :
    (j.setBlock { b with fn := none }).count p + (p b).toNat = j.count p := by
  have h := Records.countP_put hn (b := { b with fn := none }) hb rfl fun b => b.active && p b
  simpa [count, setBlock_blocks, ha] using h

theorem Exact.count_lt {j : Jit} (hj : j.Exact) (p : Block → Bool) : j.count p < 65535 := by
  have h := j.count_le p
  have hb := hj.bound
  have ha := hj.active
  have hm : jitMaxActiveBlocks = 1024 := rfl
  omega

theorem total_up {c : BitVec 32} {n : Nat} {q : Bool} (h : c.toNat = n) (hn : n < 65535) :
    (if !q then c else if true then c + 1 else if c = 0 then 0 else c - 1).toNat = n + q.toNat := by
  cases q with
  | true =>
    rw [Bool.not_true, if_neg Bool.false_ne_true, if_pos rfl, BitVec.toNat_add, h]
    exact Nat.mod_eq_of_lt (by change n + 1 < 2 ^ 32; omega)
  | false => exact h

theorem total_down {c : BitVec 32} {n : Nat} {q : Bool} (h : n + q.toNat = c.toNat) :
    (if !q then c else if false then c + 1 else if c = 0 then 0 else c - 1).toNat = n := by
  cases q with
  | true =>
    have hc : c ≠ 0 := by
      rintro rfl
      simp at h
    rw [Bool.not_true, if_neg Bool.false_ne_true, if_neg Bool.false_ne_true, if_neg hc,
      BitVec.toNat_sub_of_le, ← h]
    · rfl
    · rw [BitVec.le_def, ← h]
      change 1 ≤ n + 1
      omega
  | false => exact h.symm

theorem Exact.install {j : Jit} (hj : j.Exact) {b c : Block} (hc : c ∈ j.blocks) (hk : c.startPc = b.startPc)
    (hca : c.active = false) (hb : b.active = true) (hlt : j.activeBlocks < jitMaxActiveBlocks) :
    (Emu.jitInstall j b).Exact := by
  have hinst : ∀ p, (Emu.jitInstall j b).count p = j.count p + (p b).toNat :=
    count_install hj.nodup hc hk hca hb
  constructor
  case nodup => exact (Records.keys_put Block.startPc b j.blocks).symm ▸ hj.nodup
  case active =>
    rw [hinst, ← hj.active]
    rfl
  case bound => exact hlt
  case addr => exact fun a => (counted_up (hj.addr a) (hj.count_lt _)).trans (hinst _).symm
  case page =>
    intro p
    have h := counted_up (q := b.coversPage p = true) (hj.page p) (hj.count_lt _)
    rw [Bool.decide_eq_true] at h
    exact h.trans (hinst _).symm
  case code => exact fun p => (counted_up (hj.code p) (hj.count_lt _)).trans (hinst _).symm
  case phys => exact fun a => (counted_up (hj.phys a) (hj.count_lt _)).trans (hinst _).symm
  case physPage => exact fun p => (counted_up (hj.physPage p) (hj.count_lt _)).trans (hinst _).symm
  case physTotal => exact (total_up hj.physTotal (hj.count_lt _)).trans (hinst _).symm

theorem Exact.drop {j : Jit} (hj : j.Exact) {b : Block} (hb : b ∈ j.blocks) (ha : b.active = true) :
    (jitInvalidateBlock j b).Exact := by
  have hdrop : ∀ p, (jitInvalidateBlock j b).count p + (p b).toNat = j.count p := count_drop hj.nodup hb ha
  have hact := hj.active
  have htrue := hdrop fun _ => true
  have hle : (jitInvalidateBlock j b).activeBlocks = j.activeBlocks - 1 := by
    change (if j.activeBlocks > 0 then j.activeBlocks - 1 else j.activeBlocks) = j.activeBlocks - 1
    split <;> omega
  constructor
  case nodup => exact (Records.keys_put Block.startPc { b with fn := none } j.blocks).symm ▸ hj.nodup
  case active =>
    rw [hle, hact, ← htrue]
    rfl
  case bound =>
    have := hj.bound
    omega
  case addr => exact fun a => counted_down ((hdrop _).trans (hj.addr a).symm)
  case page =>
    intro p
    refine counted_down (q := b.coversPage p = true) ?_
    rw [Bool.decide_eq_true]
    exact (hdrop _).trans (hj.page p).symm
  case code => exact fun p => counted_down ((hdrop _).trans (hj.code p).symm)
  case phys => exact fun a => counted_down ((hdrop _).trans (hj.phys a).symm)
  case physPage => exact fun p => counted_down ((hdrop _).trans (hj.physPage p).symm)
  case physTotal => exact total_down ((hdrop _).trans hj.physTotal.symm)

/-- The cache without the fields on which no counter depends. -/
def core (j : Jit) : Jit :=
  { j with
    stats := .zero
    needsFlush := false
    pendingWriteOverflow := false
    pendingWrites := []
    invalidationEventsThisRun := 0
    pageInvalidationEvents := fun _ => 0
    mutableCodePage := fun _ => false }

/-- What happens to the cache outside of compilation: a block is dropped, all blocks are
flushed, or fields change on which no counter depends. -/
inductive Move : Jit → Jit → Prop
  | drop {j : Jit} {b : Block} (hb : b ∈ j.blocks) (ha : b.active = true) : Move j (jitInvalidateBlock j b)
  | flush {j : Jit} : Move j (jitBackendFlush j)
  | note {j k : Jit} (h : k.core = j.core) : Move j k

abbrev Moves := Relation.ReflTransGen Move

def Keyed (j : Jit) : Prop := (j.blocks.map Block.startPc).Nodup

theorem Move.keys {j k : Jit} (h : Move j k) : k.blocks.map Block.startPc = j.blocks.map Block.startPc := by
  cases h with
  | drop hb ha => exact Records.keys_put ..
  | flush => exact List.map_map.trans (List.map_congr_left fun _ _ => rfl)
  | note h =>
    have hh := congrArg (fun k : Jit => k.blocks.map Block.startPc) h
    exact hh

theorem Moves.keyed {j k : Jit} (h : Moves j k) (hj : j.Keyed) : k.Keyed := by
  induction h with
  | refl => exact hj
  | tail _ hs ih => exact (congrArg List.Nodup hs.keys).mpr ih

theorem moves_foldl {j : Jit} (hj : j.Keyed) {bs : List Block} (hn : bs.Nodup)
    (hbs : ∀ b ∈ bs, b ∈ j.blocks ∧ b.active = true) : Moves j (bs.foldl jitInvalidateBlock j) := by
  induction bs generalizing j with
  | nil => exact .refl
  | cons b bs ih =>
    obtain ⟨hb, hn⟩ := List.nodup_cons.1 hn
    have hmove : Move j (jitInvalidateBlock j b) := .drop (hbs b (by simp)).1 (hbs b (by simp)).2
    refine .head hmove (ih (Moves.keyed (.single hmove) hj) hn fun c hc => ?_)
    have hcj := hbs c (by simp [hc])
    refine ⟨?_, hcj.2⟩
    have hcb : c.startPc ≠ b.startPc := fun he =>
      hb (List.inj_on_of_nodup_map hj hcj.1 (hbs b (by simp)).1 he ▸ hc)
    refine (Records.mem_put ?_).2 (.inr ⟨hcj.1, hcb⟩)
    exact List.mem_map.2 ⟨b, (hbs b (by simp)).1, rfl⟩

theorem Keyed.blocks_nodup {j : Jit} (hj : j.Keyed) : j.blocks.Nodup := List.Nodup.of_map _ hj

theorem moves_where {j : Jit} (hj : j.Keyed) (hit : Block → Bool) : Moves j (jitInvalidateWhere j hit) := by
  refine moves_foldl hj (hj.blocks_nodup.filter _) fun b hb => ?_
  simp only [List.mem_filter, Bool.and_eq_true] at hb
  exact ⟨hb.1, hb.2.1⟩

theorem foldl_blocks (bs : List Block) (j : Jit) : (bs.foldl jitInvalidateBlock j).blocks =
    bs.foldl (fun l b => Records.put Block.startPc { b with fn := none } l) j.blocks := by
  induction bs generalizing j with
  | nil => rfl
  | cons b bs ih => exact ih _

/-- An invalidation loop drops the active blocks that match and keeps every other. -/
theorem where_blocks {j : Jit} (hj : j.Keyed) (hit : Block → Bool) : (jitInvalidateWhere j hit).blocks =
    j.blocks.map fun b => if b.active && hit b then { b with fn := none } else b := by
  rw [jitInvalidateWhere, foldl_blocks]
  rw [Records.foldl_put (f := fun b => { b with fn := none }) (fun _ => rfl) hj (hj.blocks_nodup.filter _)
    fun b hb => (List.mem_filter.1 hb).1]
  refine List.map_congr_left fun b hb => ?_
  simp only [List.mem_filter, hb, true_and]

theorem where_active {j : Jit} (hj : j.Keyed) {hit : Block → Bool} {x : Block}
    (hx : x ∈ (jitInvalidateWhere j hit).blocks) (ha : x.active = true) : x ∈ j.blocks ∧ hit x = false := by
  rw [where_blocks hj] at hx
  obtain ⟨c, hc, rfl⟩ := List.mem_map.1 hx
  split at ha
  · cases ha
  · next hn =>
    rw [if_neg hn]
    rw [ha, Bool.true_and, Bool.not_eq_true] at hn
    exact ⟨hc, hn⟩

theorem where_stays {j : Jit} (hj : j.Keyed) {hit : Block → Bool} {x : Block} (hx : x ∈ j.blocks)
    (hn : hit x = false) :
    x ∈ (jitInvalidateWhere j hit).blocks := by
  rw [where_blocks hj]
  refine List.mem_map.2 ⟨x, hx, if_neg ?_⟩
  rw [hn, Bool.and_false]
  exact Bool.false_ne_true

theorem moves_forAddr {j : Jit} (hj : j.Keyed) (a : Addr) : Moves j (jitInvalidateBlocksForAddr j a) :=
  have hk : Move j { j with invalidationEventsThisRun := j.invalidationEventsThisRun + 1 } := .note rfl
  .head hk (moves_where (Moves.keyed (.single hk) hj) _)

theorem moves_forPage {j : Jit} (hj : j.Keyed) (p : Byte) : Moves j (jitInvalidateBlocksForPage j p) :=
  moves_where hj _

theorem moves_forCodePage {j : Jit} (hj : j.Keyed) (p : Byte) : Moves j (jitInvalidateBlocksForCodePage j p) := by
  unfold jitInvalidateBlocksForCodePage
  split
  · exact .refl
  · exact moves_where hj _

theorem moves_forPhysAddr {j : Jit} (hj : j.Keyed) (a : Addr) : Moves j (jitInvalidateBlocksForPhysAddr j a) :=
  moves_where hj _

theorem moves_countPageEvent {j : Jit} (hj : j.Keyed) (p : Byte) : Moves j (jitCountPageEvent j p) := by
  unfold jitCountPageEvent
  dsimp only
  split
  · refine .head (.note ?_) (moves_forPage ?_ p)
    · rfl
    · exact hj
  · exact .single (.note rfl)

theorem moves_writeEvent {j : Jit} (hj : j.Keyed) (w : PendingWrite) : Moves j (jitWriteEvent j w) := by
  have h1 := moves_forAddr hj w.addr
  have h2 : Moves (jitInvalidateBlocksForAddr j w.addr)
      (w.phys.elim (jitInvalidateBlocksForAddr j w.addr)
        (jitInvalidateBlocksForPhysAddr (jitInvalidateBlocksForAddr j w.addr))) := by
    cases w.phys with
    | none => exact .refl
    | some a => exact moves_forPhysAddr (h1.keyed hj) a
  exact h1.trans (h2.trans (moves_countPageEvent (h2.keyed (h1.keyed hj)) _))

theorem moves_foldl_writeEvent {j : Jit} (hj : j.Keyed) (ws : List PendingWrite) :
    Moves j (ws.foldl jitWriteEvent j) := by
  induction ws generalizing j with
  | nil => exact .refl
  | cons w ws ih =>
    have h := moves_writeEvent hj w
    exact h.trans (ih (h.keyed hj))

theorem moves_process {j : Jit} (hj : j.Keyed) : Moves j (jitProcessPendingWrites j).1 := by
  have h1 : Moves j (if j.pendingWriteOverflow then
      { jitBackendFlush j with
        invalidationEventsThisRun := (jitBackendFlush j).invalidationEventsThisRun + 1 } else j) := by
    split
    · exact .head .flush (.single (.note rfl))
    · exact .refl
  have h2 := moves_foldl_writeEvent (h1.keyed hj)
  exact (h1.trans (h2 _)).tail (.note rfl)

theorem moves_pend (j : Jit) (w : PendingWrite) : Moves j (Emu.jitPendWrite j w) := by
  unfold Emu.jitPendWrite
  split
  · exact .single (.note rfl)
  · exact .single (.note rfl)

theorem Exact.keyed {j : Jit} (h : j.Exact) : j.Keyed := h.nodup

theorem count_flush (j : Jit) (p : Block → Bool) : (jitBackendFlush j).count p = 0 := by
  simp [count, jitBackendFlush]

theorem Exact.flush {j : Jit} (hj : j.Exact) : (jitBackendFlush j).Exact := by
  have hz : ∀ p, 0 = (jitBackendFlush j).count p := fun p => (j.count_flush p).symm
  exact ⟨Moves.keyed (.single .flush) hj.nodup, hz _, Nat.zero_le _, fun _ => hz _, fun _ => hz _, fun _ => hz _,
    fun _ => hz _, fun _ => hz _, hz _⟩

theorem Exact.core {j : Jit} (hj : j.Exact) : j.core.Exact :=
  ⟨hj.nodup, hj.active, hj.bound, hj.addr, hj.page, hj.code, hj.phys, hj.physPage, hj.physTotal⟩

theorem Exact.of_core {j : Jit} (hj : j.core.Exact) : j.Exact :=
  ⟨hj.nodup, hj.active, hj.bound, hj.addr, hj.page, hj.code, hj.phys, hj.physPage, hj.physTotal⟩

theorem Exact.move {j k : Jit} (hj : j.Exact) (h : Move j k) : k.Exact := by
  cases h with
  | drop hb ha => exact hj.drop hb ha
  | flush => exact hj.flush
  | note h => exact .of_core (h ▸ hj.core)

/-- A property of the cache that nothing but compilation can break. -/
structure Stable (P : Jit → Prop) : Prop where
  keyed : ∀ j, P j → j.Keyed
  move : ∀ j k, P j → Move j k → P k

theorem Stable.moves {P : Jit → Prop} (hP : Stable P) {j k : Jit} (hj : P j) (h : Moves j k) : P k := by
  induction h with
  | refl => exact hj
  | tail _ hs ih => exact hP.move _ _ ih hs

theorem stable_exact : Stable Exact := ⟨fun _ => Exact.keyed, fun _ _ => Exact.move⟩

end Jit

end Rk65c02
