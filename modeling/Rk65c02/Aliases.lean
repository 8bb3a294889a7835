import Rk65c02.Coherence
import Rk65c02.FaultingStores
import Rk65c02.Tlb

/-! Stores to compiled code through other virtual pages. The physical tags of blocks, under one
mapping, and the stores that reach a block by them. -/

namespace Rk65c02

variable {H : Type} {hc : HostCode H} {tr : Translate}

/-- The mapping keeps offsets and is the same for all accesses to a page. -/
def Translate.Paged (tr : Translate) : Prop := ∀ p, tr.Uniform p

section Translate

variable {v w : Addr} {c d : Access} {p q : PAddr}

theorem MmuResult.outcomeAt_ok {a : MmuResult} (h : a.outcomeAt v c = .ok p) :
    p = a.paddr &&& 0xFFFFFF00 ||| offset v := by
  unfold MmuResult.outcomeAt at h
  split at h
  · cases h
  split at h
  · cases h
  split at h
  · cases h
  cases h
  rfl

theorem toNat_base (p : PAddr) : (p &&& 0xFFFFFF00).toNat = p.toNat / 256 * 256 := by
  have hsum : (p &&& 0xFFFFFF00) + (p &&& 0xFF) = p := by
    have hdis : p &&& 0xFFFFFF00 &&& (p &&& 0xFF) = 0 := by
      rw [BitVec.and_comm p 0xFF, ← BitVec.and_assoc, BitVec.and_assoc p,
        show (0xFFFFFF00 : PAddr) &&& 0xFF = 0#32 from rfl, BitVec.and_zero, BitVec.zero_and]
      rfl
    rw [BitVec.add_eq_or_of_and_eq_zero _ _ hdis, ← BitVec.and_or_distrib_left]
    exact BitVec.and_allOnes
  have hlow : (p &&& 0xFF).toNat = p.toNat % 256 := by
    rw [BitVec.toNat_and]
    exact Nat.and_two_pow_sub_one_eq_mod p.toNat 8
  have hhigh : (p &&& 0xFFFFFF00).toNat ≤ 0xFFFFFF00 := by
    rw [BitVec.toNat_and]
    exact Nat.and_le_right
  have hn := congrArg BitVec.toNat hsum
  rw [BitVec.toNat_add, hlow, Nat.mod_eq_of_lt (by omega)] at hn
  omega

theorem toNat_base_or_offset (p : PAddr) (v : Addr) :
    (p &&& 0xFFFFFF00 ||| offset v).toNat = p.toNat / 256 * 256 + v.toNat % 256 := by
  rw [BitVec.toNat_or, toNat_offset, toNat_base]
  have h := Nat.shiftLeft_add_eq_or_of_lt (b := v.toNat % 256) (i := 8) (by omega) (p.toNat / 256)
  rw [Nat.shiftLeft_eq] at h
  exact h.symm

/-- Two addresses of a page go to one physical page. -/
theorem Translate.Paged.same_page (ht : tr.Paged) (hp : tr.outcome v c = .ok p) (hq : tr.outcome w d = .ok q)
    (h : page v = page w) : q.toNat = p.toNat / 256 * 256 + w.toNat % 256 := by
  obtain ⟨a, ha⟩ := ht (page v)
  have hp' := MmuResult.outcomeAt_ok (((ha v c rfl).checkResult_eq c).symm.trans hp)
  have hq' := MmuResult.outcomeAt_ok (((ha w d h.symm).checkResult_eq d).symm.trans hq)
  rw [hq', hp', toNat_base_or_offset, toNat_base_or_offset]
  omega

/-- On one page, only the address itself goes where it goes. -/
theorem Translate.Paged.injective (ht : tr.Paged) (hp : tr.outcome v c = .ok p) (hq : tr.outcome w d = .ok p)
    (h : page v = page w) : v = w := by
  have h1 := ht.same_page hp hp rfl
  have h2 := ht.same_page hq hq rfl
  rw [page_eq_iff] at h
  exact BitVec.eq_of_toNat_eq (by omega)

/-- A page is mapped as a whole. -/
theorem Translate.Paged.whole (ht : tr.Paged) (hp : tr.outcome v c = .ok p) (h : page v = page w) :
    ∃ q, tr.outcome w c = .ok q := by
  obtain ⟨a, ha⟩ := ht (page v)
  have hv := ((ha v c rfl).checkResult_eq c).symm.trans hp
  have hw := (ha w c h.symm).checkResult_eq c
  refine ⟨a.paddr &&& 0xFFFFFF00 ||| offset w, hw.trans ?_⟩
  unfold MmuResult.outcomeAt at hv ⊢
  split at hv
  · cases hv
  next h1 =>
  rw [if_neg h1]
  split at hv
  · cases hv
  next h2 =>
  rw [if_neg h2]
  split at hv
  · cases hv
  next h3 => rw [if_neg h3]

/-- The physical address of a successful access, if it is one for the JIT. -/
def Translate.paddr (tr : Translate) (v : Addr) (c : Access) : Option Addr :=
  (tr.outcome v c).toOption.bind fun p => if busSize ≤ p.toNat then none else some (p.setWidth 16)

theorem Translate.paddr_eq_some {a : Addr} :
    tr.paddr v c = some a ↔ ∃ p, tr.outcome v c = .ok p ∧ p.toNat < busSize ∧ a.toNat = p.toNat := by
  unfold Translate.paddr
  cases tr.outcome v c with
  | error code =>
    refine ⟨nofun, ?_⟩
    rintro ⟨p, hp, -⟩
    cases hp
  | ok p =>
    change (if busSize ≤ p.toNat then none else some (p.setWidth 16)) = some a ↔ _
    by_cases hb : busSize ≤ p.toNat
    · rw [if_pos hb]
      refine ⟨nofun, ?_⟩
      rintro ⟨q, hq, hlt, -⟩
      cases hq
      omega
    · have hw : (p.setWidth 16).toNat = p.toNat := by
        have hlt : p.toNat < 65536 := Nat.not_le.1 hb
        rw [BitVec.toNat_setWidth, Nat.mod_eq_of_lt hlt]
      rw [if_neg hb]
      constructor
      · intro h
        cases h
        exact ⟨p, rfl, Nat.not_le.1 hb, hw⟩
      · rintro ⟨q, hq, -, ha⟩
        cases hq
        rw [BitVec.eq_of_toNat_eq (hw.trans ha.symm)]

/-- Below 64K, a page goes to one physical page. -/
theorem Translate.Paged.paddr_page (ht : tr.Paged) {a : Addr} (h : tr.paddr v c = some a) (hw : page v = page w) :
    ∃ b, tr.paddr w c = some b ∧ b.toNat = a.toNat / 256 * 256 + w.toNat % 256 := by
  obtain ⟨p, hp, hlt, ha⟩ := paddr_eq_some.1 h
  obtain ⟨q, hq⟩ := ht.whole hp hw
  have hs := ht.same_page hp hq hw
  have hlt : p.toNat < 65536 := hlt
  have hb : q.toNat < 65536 := by omega
  have hqa : (q.setWidth 16).toNat = q.toNat := by
    rw [BitVec.toNat_setWidth, Nat.mod_eq_of_lt hb]
  exact ⟨q.setWidth 16, paddr_eq_some.2 ⟨q, hq, hb, hqa⟩, by omega⟩

theorem Translate.Paged.paddr_offset (ht : tr.Paged) {a : Addr} (h : tr.paddr v c = some a) :
    a.toNat % 256 = v.toNat % 256 := by
  obtain ⟨b, hb, hn⟩ := ht.paddr_page h rfl
  cases h.symm.trans hb
  omega

end Translate

/-- Every page in a frame, with permissions. -/
def pageTable (frame perms : Byte → Byte) : Translate := fun v _ =>
  { ok := true, paddr := (frame (page v)).setWidth 32 <<< 8 ||| offset v, perms := perms (page v), faultCode := 0,
    noFillTlb := false }

theorem frame_base (p : Byte) : p.setWidth 32 <<< 8 &&& (0xFFFFFF00 : PAddr) = p.setWidth 32 <<< 8 := by
  revert p
  decide +kernel

theorem toNat_frame_or (p : Byte) (v : Addr) : (p.setWidth 32 <<< 8 ||| offset v).toNat =
    p.toNat * 256 + v.toNat % 256 := by
  have hp : ∀ p : Byte, (p.setWidth 32 <<< 8 : PAddr).toNat / 256 * 256 = p.toNat * 256 := by decide +kernel
  rw [← frame_base, toNat_base_or_offset, hp]

theorem pageTable_paged (frame perms : Byte → Byte) : (pageTable frame perms).Paged := by
  refine fun p => ⟨⟨true, (frame p).setWidth 32 <<< 8, perms p, 0, false⟩, fun v c hv => ?_⟩
  refine ⟨rfl, fun _ => rfl, fun _ => congrArg perms hv, fun _ => ?_⟩
  rw [frame_base, ← hv]
  rfl

theorem pageTable_ok {frame perms : Byte → Byte} {v : Addr} {c : Access} {p : PAddr} :
    (pageTable frame perms).outcome v c = .ok p ↔
      permits (perms (page v)) c.reqPerm = true ∧ p = (frame (page v)).setWidth 32 <<< 8 ||| offset v := by
  have hlt : ¬physMax ≤ ((frame (page v)).setWidth 32 <<< 8 ||| offset v).toNat := by
    have hf := (frame (page v)).isLt
    rw [toNat_frame_or, physMax]
    omega
  unfold Translate.outcome checkResult pageTable
  dsimp only
  rw [if_neg (show ¬(!true) = true by decide), if_neg hlt]
  cases permits (perms (page v)) c.reqPerm with
  | false =>
    refine ⟨fun h => ?_, fun h => absurd h.1 Bool.false_ne_true⟩
    cases h
  | true => exact ⟨fun h => ⟨rfl, (Except.ok.inj h).symm⟩, fun h => congrArg Except.ok h.2.symm⟩

/-- The block carries the tags of its addresses under the mapping. -/
structure Block.TaggedBy (tr : Translate) (b : Block) : Prop where
  some : ∀ p, tr.paddr b.startPc .fetch = some p →
    b.mmuPhysPageValid = true ∧ b.mmuPhysByteCov = true ∧ b.mmuPhysStart = p ∧ b.mmuPhysPage = page p
  none : tr.paddr b.startPc .fetch = none → b.mmuPhysPageValid = false

namespace Emu

/-- The MMU translates by `tr`, and its TLB holds nothing else. -/
structure Maps (hc : HostCode H) (tr : Translate) (e : Emu H) : Prop where
  enabled : e.mmu.enabled = true
  identity : e.mmu.identityActive = false
  translate : e.mmu.translate.isSome = true
  callback : hc.callback e.mmu e.host = tr
  entries : ∀ v c, tlbHit e.mmu v = true → (e.mmu.tlb (page v)).outcome v c = tr.outcome v c

section Maps

variable {e : Emu H} (h : e.Maps hc tr)

include h

theorem Maps.frame {e' : Emu H} (hm : e'.mmu = e.mmu) (hh : e'.host = e.host) : e'.Maps hc tr := by
  obtain ⟨h1, h2, h3, h4, h5⟩ := h
  rw [← hm] at h1 h2 h3 h4 h5
  rw [← hh] at h4
  exact ⟨h1, h2, h3, h4, h5⟩

theorem Maps.outcome (v : Addr) (c : Access) : (e.mmuTranslateAddr hc v c).1 = tr.outcome v c := by
  rw [mmuTranslateAddr_fst, h.callback]
  cases hh : tlbHit e.mmu v with
  | true => rw [Mmu.translateAddr_hit hh, h.entries v c hh]
  | false => rw [Mmu.translateAddr_miss hh h.translate]

theorem Maps.fill (ht : tr.Paged) {v : Addr} {c : Access} {q : PAddr} (hq : tr.outcome v c = .ok q) :
    Maps hc tr { e with mmu := tlbFill e.mmu v (tr v c) } := by
  unfold tlbFill
  split
  · refine ⟨h.enabled, h.identity, h.translate, h.callback, fun w d hw => ?_⟩
    dsimp only at hw ⊢
    by_cases hp : page w = page v
    · obtain ⟨a, ha⟩ := ht (page v)
      rw [hp, Function.update_self]
      exact ((ha v c rfl).outcome_ofResult hq e.mmu.epoch w d).trans ((ha w d hp).checkResult_eq d).symm
    · unfold tlbHit at hw
      dsimp only at hw
      rw [Function.update_of_ne hp] at hw ⊢
      exact h.entries w d hw
  · exact h

theorem Maps.translated (ht : tr.Paged) (v : Addr) (c : Access) : (e.mmuTranslateAddr hc v c).2.Maps hc tr := by
  unfold mmuTranslateAddr
  dsimp only
  rw [h.callback]
  cases hh : tlbHit e.mmu v with
  | true =>
    rw [Mmu.translateAddr_hit hh]
    exact h
  | false =>
    rw [Mmu.translateAddr_miss hh h.translate]
    cases hq : tr.outcome v c with
    | error code => exact h
    | ok q => exact h.fill ht hq

theorem Maps.paddr (v : Addr) (c : Access) : (e.jitTranslatePaddr hc v c).1 = tr.paddr v c := by
  unfold jitTranslatePaddr mmuTranslateCached Translate.paddr
  rw [h.enabled, h.identity, ← h.outcome]
  rfl

theorem Maps.translatedPaddr (ht : tr.Paged) (v : Addr) (c : Access) :
    (e.jitTranslatePaddr hc v c).2.Maps hc tr := by
  unfold jitTranslatePaddr mmuTranslateCached
  rw [h.enabled, h.identity]
  exact h.translated ht v c

theorem Maps.tags (ht : tr.Paged) {b : Block} {n : Nat} (hend : b.endPcExclusive = b.startPc + BitVec.ofNat 16 n)
    (hn : 0 < n) (hfit : b.startPc.toNat % 256 + n ≤ 256) : (e.jitPhysTags hc b).1.TaggedBy tr := by
  have hp := h.paddr b.startPc .fetch
  have hm := h.translatedPaddr ht b.startPc .fetch
  have hs := b.startPc.isLt
  have hsize : b.endPcExclusive - b.startPc = BitVec.ofNat 16 n := by
    rw [hend]
    bv_omega
  have hlast : (b.endPcExclusive - 1).toNat = b.startPc.toNat + (n - 1) := by
    rw [hend]
    bv_omega
  have hpage : page b.startPc = page (b.endPcExclusive - 1) := by
    rw [page_eq_iff, hlast]
    omega
  unfold jitPhysTags
  dsimp only
  rw [h.enabled, h.identity, if_pos (show (true && !false) = true from rfl)]
  generalize e.jitTranslatePaddr hc b.startPc .fetch = t at hp hm
  obtain ⟨_ | a, e₁⟩ := t
  · refine ⟨fun p h => ?_, fun _ => rfl⟩
    cases hp.trans h
  · have hp : tr.paddr b.startPc .fetch = some a := hp.symm
    have ha := ht.paddr_offset hp
    have hcond : (a &&& 0xFF == b.startPc &&& 0xFF && b.endPcExclusive != b.startPc) = true := by
      have hlow : a &&& 0xFF = b.startPc &&& 0xFF := by
        apply BitVec.eq_of_toNat_eq
        rw [BitVec.toNat_and, BitVec.toNat_and]
        exact (Nat.and_two_pow_sub_one_eq_mod a.toNat 8).trans
          (ha.trans (Nat.and_two_pow_sub_one_eq_mod b.startPc.toNat 8).symm)
      have hne : b.endPcExclusive ≠ b.startPc := by
        rw [hend]
        bv_omega
      rw [hlow, beq_self_eq_true, Bool.true_and]
      exact bne_iff_ne.2 hne
    dsimp only
    rw [if_pos hcond]
    obtain ⟨q, hq, hqn⟩ := ht.paddr_page hp hpage
    have hq' := Maps.paddr hm (b.endPcExclusive - 1) .fetch
    rw [hq] at hq'
    generalize Emu.jitTranslatePaddr hc e₁ (b.endPcExclusive - 1) .fetch = t at hq'
    obtain ⟨x, e₂⟩ := t
    have hx : x = some q := hq'
    subst hx
    have hcov : (q == a + (b.endPcExclusive - b.startPc) - 1) = true := by
      rw [hsize, beq_iff_eq]
      rw [hlast] at hqn
      have ha16 := a.isLt
      bv_omega
    refine ⟨fun p h => ?_, fun h => ?_⟩
    · cases hp.symm.trans h
      exact ⟨rfl, hcov, rfl, rfl⟩
    · cases hp.symm.trans h

end Maps

end Emu

namespace Jit

/-- Every block lies on one page and carries the tags of the mapping. -/
def Tagged (tr : Translate) (j : Jit) : Prop :=
  jitBackendCreate.Adds (fun insns b => b.Formed insns ∧ b.TaggedBy tr) j

theorem tags_of_build {e : Emu H} {pc : Addr} {insns : List Instruction} {b : Block} (ht : tr.Paged)
    (hm : ∀ insns s, e.jitBuildBlockInsns hc pc jitBlockMaxInsns pc = .ok insns s → s.Maps hc tr)
    (hb : e.Compiled hc pc insns b) (htags : e.TagsOf hc pc insns b) : b.TaggedBy tr := by
  obtain ⟨s, c, hs, hpc, hend, rfl⟩ := htags
  have hshape := hb.shaped
  have hpos : 0 < insnSpan insns := Nat.lt_of_lt_of_le hshape.count.1 (length_le_span insns)
  have hfit := hshape.fits.2
  rw [hb.startPc] at hfit
  rw [← hpc] at hfit
  have h := (hm insns s hs).tags ht (b := c) (by rw [hend, blockEnd_eq, hpc]) hpos hfit
  exact ⟨h.some, h.none⟩

end Jit

/-- A byte of the block is fetched from the physical address. -/
def Block.FetchesFrom (tr : Translate) (b : Block) (p : PAddr) : Prop :=
  ∃ y ∈ b.addrs, tr.outcome y .fetch = .ok p

section Tags

variable {b : Block} {insns : List Instruction} (ht : tr.Paged) (hs : b.Shaped insns) (hb : b.TaggedBy tr)

include hs

theorem Block.Shaped.span : b.endPcExclusive - b.startPc = BitVec.ofNat 16 (insnSpan insns) ∧ 0 < insnSpan insns ∧
    insnSpan insns ≤ 256 ∧ ∀ y, y ∈ b.addrs ↔ (y - b.startPc).toNat < insnSpan insns := by
  have hpos : 0 < insnSpan insns := Nat.lt_of_lt_of_le hs.count.1 (length_le_span insns)
  have hfit := hs.fits.2
  have hsub : b.endPcExclusive - b.startPc = BitVec.ofNat 16 (insnSpan insns) := by
    rw [hs.fits.1]
    bv_omega
  have hne : ¬b.startPc = b.endPcExclusive := by
    rw [hs.fits.1]
    bv_omega
  refine ⟨hsub, hpos, by omega, fun y => ?_⟩
  rw [Block.mem_addrs_iff, if_neg hne, hsub, BitVec.toNat_ofNat, Nat.mod_eq_of_lt (by omega)]

include ht hb

/-- The tags name the physical bytes below 64K that the block is fetched from. -/
theorem Block.coversPhys_iff_fetches (q : Addr) : b.coversPhys q = true ↔ b.FetchesFrom tr (q.setWidth 32) := by
  obtain ⟨hsub, hpos, hle, hmem⟩ := hs.span
  have hfit := hs.fits.2
  have hq := q.isLt
  have hqn : (q.setWidth 32 : PAddr).toNat = q.toNat := by
    rw [BitVec.toNat_setWidth, Nat.mod_eq_of_lt (by omega)]
  have hend : b.physEnd = b.mmuPhysStart.toNat + insnSpan insns := by
    rw [Block.physEnd, hsub, BitVec.toNat_ofNat, Nat.mod_eq_of_lt (by omega)]
  rw [Block.coversPhys_iff, hend]
  constructor
  · rintro ⟨hv, hlo, hhi⟩
    cases hp : tr.paddr b.startPc .fetch with
    | none =>
      rw [hb.none hp] at hv
      cases hv
    | some s =>
      obtain ⟨-, -, hst, -⟩ := hb.some s hp
      rw [hst] at hlo hhi
      have hoff := ht.paddr_offset hp
      have hy : (b.startPc + (q - s)).toNat = b.startPc.toNat + (q.toNat - s.toNat) := by
        have := b.startPc.isLt
        bv_omega
      have hpage : page b.startPc = page (b.startPc + (q - s)) := by
        rw [page_eq_iff, hy]
        omega
      obtain ⟨x, hx, hxn⟩ := ht.paddr_page hp hpage
      obtain ⟨p, hpo, hlt, hpn⟩ := Translate.paddr_eq_some.1 hx
      refine ⟨b.startPc + (q - s), (hmem _).2 ?_, ?_⟩
      · bv_omega
      · rw [hpo, BitVec.eq_of_toNat_eq (x := p) (y := q.setWidth 32) (by omega)]
  · rintro ⟨y, hy, ho⟩
    rw [hmem] at hy
    have hpy : tr.paddr y .fetch = some q := Translate.paddr_eq_some.2 ⟨_, ho, by rw [hqn]; exact hq, hqn.symm⟩
    have hyn : y.toNat = b.startPc.toNat + (y - b.startPc).toNat := by
      have := b.startPc.isLt
      bv_omega
    have hpage : page y = page b.startPc := by
      rw [page_eq_iff]
      omega
    obtain ⟨s, hsp, hsn⟩ := ht.paddr_page hpy hpage
    obtain ⟨hv, hc, hst, -⟩ := hb.some s hsp
    have hoff := ht.paddr_offset hpy
    rw [hv, hc, hst]
    exact ⟨rfl, by omega, by omega⟩

/-- The span ends at 64K exactly if the last byte below is one of the block. -/
theorem Block.physEnd_iff_fetches (hv : b.mmuPhysPageValid = true) : 0x10000 ≤ b.physEnd ↔
    b.FetchesFrom tr 0xFFFF := by
  have hcov : (b.mmuPhysPageValid && b.mmuPhysByteCov) = true := by
    cases hp : tr.paddr b.startPc .fetch with
    | none => cases (hb.none hp).symm.trans hv
    | some s => rw [hv, (hb.some s hp).2.1, Bool.and_self]
  have hstart := b.mmuPhysStart.isLt
  rw [← show (0xFFFF : Addr).setWidth 32 = 0xFFFF from rfl, ← Block.coversPhys_iff_fetches ht hs hb,
    Block.coversPhys_iff]
  exact ⟨fun h => ⟨hcov, by rw [show (0xFFFF : Addr).toNat = 65535 from rfl]; omega, h⟩, fun h => h.2.2⟩

end Tags

namespace Jit

/-- No active block is fetched from the physical address. -/
def Clear (tr : Translate) (p : PAddr) (j : Jit) : Prop := ∀ b ∈ j.blocks, b.active = true → ¬b.FetchesFrom tr p

theorem forPage_stays {j : Jit} (hj : j.Keyed) {x : Block} (hx : x ∈ j.blocks) {p : Byte}
    (hp : jitBlockOverlapsPage x p = false) : x ∈ (jitInvalidateBlocksForPage j p).blocks :=
  where_stays hj hx hp

/-- A write event leaves the blocks that it does not hit, on other pages. -/
theorem writeEvent_stays {j : Jit} (hj : j.Keyed) {w : PendingWrite} {x : Block} (hx : x ∈ j.blocks)
    (hw : ¬Hits w x)
    (hpage : jitBlockOverlapsPage x (page w.addr) = false) : x ∈ (jitWriteEvent j w).blocks := by
  have ha : jitBlockContainsAddr x w.addr = false := Bool.eq_false_iff.2 fun h => hw (.inl h)
  have h1 : x ∈ (jitInvalidateBlocksForAddr j w.addr).blocks :=
    where_stays (j := { j with invalidationEventsThisRun := j.invalidationEventsThisRun + 1 }) hj hx ha
  have hk : (jitInvalidateBlocksForAddr j w.addr).Keyed := (moves_forAddr hj w.addr).keyed hj
  have h2 : x ∈ (w.phys.elim (jitInvalidateBlocksForAddr j w.addr)
      (jitInvalidateBlocksForPhysAddr (jitInvalidateBlocksForAddr j w.addr))).blocks ∧
      (w.phys.elim (jitInvalidateBlocksForAddr j w.addr)
        (jitInvalidateBlocksForPhysAddr (jitInvalidateBlocksForAddr j w.addr))).Keyed := by
    cases hp : w.phys with
    | none => exact ⟨h1, hk⟩
    | some q =>
      exact ⟨where_stays hk h1 (Bool.eq_false_iff.2 fun h => hw (.inr ⟨q, hp, h⟩)),
        (moves_forPhysAddr hk q).keyed hk⟩
  unfold jitWriteEvent
  dsimp only
  generalize (w.phys.elim (jitInvalidateBlocksForAddr j w.addr)
    (jitInvalidateBlocksForPhysAddr (jitInvalidateBlocksForAddr j w.addr))) = k at h2
  unfold jitCountPageEvent
  dsimp only
  split
  · refine forPage_stays ?_ ?_ hpage
    · exact h2.2
    · exact h2.1
  · exact h2.1

end Jit

namespace Emu

variable {e : Emu H} {j : Jit} {a : Addr}

/-- The physical address that a store reports, under the mapping. -/
theorem Maps.physHit (h : e.Maps hc tr) (j : Jit) (a : Addr) : (e.jitPhysHit hc j a).1 =
    if j.compiledPhysRefsTotal = 0 then none
    else (tr.paddr a .write).filter fun p => j.coveredPhysAddrRefcnt p != 0 || j.compiledPhysPageRefcnt
    (page p) != 0 := by
  unfold jitPhysHit
  rw [← h.paddr]
  split <;> rfl

/-- The report of a store: nothing, a pending write inside of a block, or a write event. -/
theorem note_jit (hc : HostCode H) (hj : e.jit = some j) (hx : j.Exact) (a : Addr) :
    (j.contains a = false ∧ (e.jitPhysHit hc j a).1 = none ∧ (e.jitNoteGuestWrite hc a).jit = some j) ∨
    ∃ k : Jit, k.core = j.core ∧ k.pendingWrites = j.pendingWrites ∧
    k.pendingWriteOverflow = j.pendingWriteOverflow ∧
      (e.inJitRun = true ∧ (e.jitNoteGuestWrite hc a).useJit = false ∧
          (e.jitNoteGuestWrite hc a).jit = some (jitPendWrite k ⟨a, (e.jitPhysHit hc j a).1⟩) ∨
        e.inJitRun = false ∧
          (e.jitNoteGuestWrite hc a).jit = some (jitWriteEvent k ⟨a, (e.jitPhysHit hc j a).1⟩)) := by
  obtain ⟨m, hm⟩ := physHit_state hc e j a
  have hcov := hx.covered_iff a
  have hnone : j.activeBlocks = 0 → j.contains a = false ∧ (e.jitPhysHit hc j a).1 = none := by
    intro h0
    have hno : ∀ p, j.count p = 0 := fun p => Nat.eq_zero_of_le_zero
      ((j.count_le p).trans (hx.active ▸ Nat.le_of_eq h0))
    constructor
    · refine Bool.eq_false_iff.2 fun hh => ?_
      obtain ⟨b, hb, hm⟩ := List.any_eq_true.1 hh
      have hm := Bool.and_eq_true_iff.1 hm
      have hpos := Jit.count_pos (p := fun b => jitBlockContainsAddr b a) |>.2 ⟨b, hb, hm⟩
      rw [hno] at hpos
      cases hpos
    · have ht : j.compiledPhysRefsTotal = 0 := BitVec.eq_of_toNat_eq (hx.physTotal.trans (hno _))
      rw [jitPhysHit, if_pos ht]
  unfold jitNoteGuestWrite
  rw [hj]
  dsimp only
  by_cases hact : j.activeBlocks = 0
  · rw [if_pos hact]
    exact .inl ⟨(hnone hact).1, (hnone hact).2, hj⟩
  rw [if_neg hact, hm, hcov]
  by_cases hhit : (!j.contains a && (e.jitPhysHit hc j a).1.isNone) = true
  · rw [if_pos hhit]
    rw [Bool.and_eq_true, Bool.not_eq_true', Option.isNone_iff_eq_none] at hhit
    exact .inl ⟨hhit.1, hhit.2, hj⟩
  · rw [if_neg hhit]
    refine .inr ⟨{ j with stats := { j.stats with writeEvents := j.stats.writeEvents + 1 } }, rfl, rfl, rfl, ?_⟩
    cases hr : e.inJitRun with
    | true => exact .inl ⟨rfl, rfl, rfl⟩
    | false => exact .inr ⟨rfl, rfl⟩

end Emu

/-- A store at `a`, which goes to `p`, is one that the tables find for the block. -/
def Block.Seen (tr : Translate) (b : Block) (a : Addr) (p : PAddr) : Prop :=
  a ∈ b.addrs ∨ p.toNat < busSize ∧ ¬b.FetchesFrom tr 0xFFFF

section Store

variable {e : Emu H} {j : Jit} {b : Block} {a : Addr} {p : PAddr} (ht : tr.Paged) (hx : j.Exact)
    (hj : j.Tagged tr)
  (hm : e.Maps hc tr) (hw : tr.outcome a .write = .ok p) (hb : b ∈ j.blocks) (ha : b.active = true)
  (hf : b.FetchesFrom tr p)

theorem Jit.Tagged.block (hj : j.Tagged tr) (hb : b ∈ j.blocks) (ha : b.active = true) :
    ∃ insns, b.Shaped insns ∧ b.TaggedBy tr := by
  obtain ⟨insns, hfn⟩ := Option.isSome_iff_exists.1 ha
  obtain ⟨hs, ht⟩ := (hj.2 b hb insns hfn).resolve_left nofun
  exact ⟨insns, hs.toShaped, ht⟩

include ht hx hj hm hw hb ha hf

theorem hits_of_seen (hs : b.Seen tr a p) : Jit.Hits ⟨a, (e.jitPhysHit hc j a).1⟩ b ∧
    (j.contains a = true ∨ (e.jitPhysHit hc j a).1 ≠ none) := by
  obtain ⟨insns, hsh, htag⟩ := hj.block hb ha
  rcases hs with hs | ⟨hlt, hend⟩
  · have hcon := Block.mem_addrs.1 hs
    refine ⟨.inl hcon, .inl (List.any_eq_true.2 ⟨b, hb, ?_⟩)⟩
    rw [ha, hcon]
    rfl
  · have hpn : (p.setWidth 16).toNat = p.toNat := by
      rw [BitVec.toNat_setWidth]
      exact Nat.mod_eq_of_lt hlt
    have hp : (p.setWidth 16 : Addr).setWidth 32 = p := by
      have hlt : p.toNat < 65536 := hlt
      exact BitVec.eq_of_toNat_eq (by rw [BitVec.toNat_setWidth, hpn, Nat.mod_eq_of_lt p.isLt])
    have hcov : b.coversPhys (p.setWidth 16) = true := by
      rw [Block.coversPhys_iff_fetches ht hsh htag, hp]
      exact hf
    have hval : b.mmuPhysPageValid = true := (Bool.and_eq_true_iff.1 (Block.coversPhys_iff.1 hcov).1).1
    have hhit : (e.jitPhysHit hc j a).1 = some (p.setWidth 16) := by
      have htot := Jit.ne_zero_of_count hx.physTotal hb ha hval
      have hcnt := Jit.ne_zero_of_count (hx.phys (p.setWidth 16)) hb ha hcov
      rw [hm.physHit, if_neg htot, Translate.paddr_eq_some.2 ⟨p, hw, hlt, hpn⟩]
      exact Option.filter_some_pos (by rw [bne_iff_ne.2 hcnt, Bool.true_or])
    rw [hhit]
    refine ⟨.inr ⟨_, rfl, Block.matchesPhys_iff.2 ⟨?_, fun h => hend ?_⟩⟩, .inr nofun⟩
    · rw [Block.coversPhysAddr, hcov, Bool.true_or]
    · exact (Block.physEnd_iff_fetches ht hsh htag hval).1 h.2

omit hx in
theorem stays_of_not_seen (hs : ¬b.Seen tr a p) : ¬Jit.Hits ⟨a, (e.jitPhysHit hc j a).1⟩ b ∧
    jitBlockOverlapsPage b (page a) = false := by
  obtain ⟨insns, hsh, htag⟩ := hj.block hb ha
  have hmem : a ∉ b.addrs := fun h => hs (.inl h)
  constructor
  · rintro (hcon | ⟨q, hq, hmatch⟩)
    · exact hmem (Block.mem_addrs.2 hcon)
    · have hpq : tr.paddr a .write = some q := by
        rw [hm.physHit] at hq
        split at hq
        · cases hq
        · exact (Option.filter_eq_some_iff.1 hq).1
      obtain ⟨p', hp', hlt, hqn⟩ := Translate.paddr_eq_some.1 hpq
      cases hw.symm.trans hp'
      have hp : q.setWidth 32 = p := by
        have hlt : p.toNat < 65536 := hlt
        exact BitVec.eq_of_toNat_eq (by rw [BitVec.toNat_setWidth, hqn, Nat.mod_eq_of_lt p.isLt])
      have hend : b.FetchesFrom tr 0xFFFF := by
        by_contra h
        exact hs (.inr ⟨hlt, h⟩)
      have hcov : b.coversPhys q = true := by
        rw [Block.coversPhys_iff_fetches ht hsh htag, hp]
        exact hf
      have hval : b.mmuPhysPageValid = true := (Bool.and_eq_true_iff.1 (Block.coversPhys_iff.1 hcov).1).1
      exact (Block.matchesPhys_iff.1 hmatch).2 ⟨hcov, (Block.physEnd_iff_fetches ht hsh htag hval).2 hend⟩
  · rw [hsh.overlaps, decide_eq_false_iff_not]
    intro hpage
    obtain ⟨y, hy, ho⟩ := hf
    cases ht.injective ho hw ((hsh.onPage y hy).trans hpage)
    exact hmem hy

end Store

namespace Jit

theorem process_settled {j : Jit} (h : j.Settled) : (jitProcessPendingWrites j).1 = j := by
  obtain ⟨hp, ho⟩ := h
  cases j
  cases hp
  cases ho
  rfl

/-- Processing a single record is one write event. -/
theorem process_pend {j : Jit} (h : j.Settled) (w : PendingWrite) : ∃ k : Jit, k.core = j.core ∧
    (jitProcessPendingWrites (Emu.jitPendWrite j w)).1.blocks = (jitWriteEvent k w).blocks := by
  obtain ⟨hp, ho⟩ := h
  refine ⟨{ j with pendingWrites := [w] }, rfl, ?_⟩
  unfold Emu.jitPendWrite
  rw [hp, if_pos (by decide)]
  unfold jitProcessPendingWrites
  dsimp only
  rw [ho]
  rfl

end Jit

/-- The cache once a store is reported and, inside of a block, its record is processed. -/
def Emu.reported (hc : HostCode H) (e : Emu H) (a : Addr) : Option Jit :=
  (e.jitNoteGuestWrite hc a).jit.map fun k => if e.inJitRun then (jitProcessPendingWrites k).1 else k

/-- The tables find every active block fetched from `p`. -/
def Jit.Sees (tr : Translate) (a : Addr) (p : PAddr) (j : Jit) : Prop :=
  ∀ b ∈ j.blocks, b.active = true → b.FetchesFrom tr p → b.Seen tr a p

section Report

variable {e : Emu H} {j : Jit} {a : Addr} {p : PAddr}

/-- A reported store does nothing to the cache, or is a write event in it. -/
theorem Emu.reported_cases (hc : HostCode H) (hj : e.jit = some j) (hx : j.Exact) (hs : j.Settled) (a : Addr) :
    (j.contains a = false ∧ (e.jitPhysHit hc j a).1 = none ∧ e.reported hc a = some j) ∨
    ∃ k k' : Jit, k.core = j.core ∧ e.reported hc a = some k' ∧
      k'.blocks = (jitWriteEvent k ⟨a, (e.jitPhysHit hc j a).1⟩).blocks := by
  unfold Emu.reported
  rcases Emu.note_jit hc hj hx a with ⟨hc0, hp0, hn⟩ | ⟨k, hcore, hpw, hov, ⟨hin, -, hn⟩ | ⟨hin, hn⟩⟩
  · refine .inl ⟨hc0, hp0, ?_⟩
    rw [hn, Option.map_some, Jit.process_settled hs, ite_self]
  · have hk : k.Settled := ⟨hpw.trans hs.1, hov.trans hs.2⟩
    obtain ⟨k', hcore', hb⟩ := Jit.process_pend hk ⟨a, (e.jitPhysHit hc j a).1⟩
    refine .inr ⟨k', _, hcore'.trans hcore, ?_, hb⟩
    rw [hn, hin]
    rfl
  · refine .inr ⟨k, _, hcore, ?_, rfl⟩
    rw [hn, hin]
    rfl

/-- The report of a store drops the blocks fetched from its byte if the tables find them, and
only then. -/
theorem Emu.reported_clears_iff (ht : tr.Paged) (hj : e.jit = some j) (hx : j.Exact)
    (htag : j.Tagged tr) (hset : j.Settled) (hm : e.Maps hc tr) (hw : tr.outcome a .write = .ok p) :
    (∃ k, e.reported hc a = some k ∧ k.Clear tr p) ↔ j.Sees tr a p := by
  rcases Emu.reported_cases hc hj hx hset a with ⟨hc0, hp0, hn⟩ | ⟨k, k', hcore, hn, hblocks⟩
  · rw [hn]
    constructor
    · rintro ⟨k, hk, hcl⟩ b hb ha hf
      cases hk
      exact absurd hf (hcl b hb ha)
    · intro hs
      refine ⟨j, rfl, fun b hb ha hf => ?_⟩
      rcases (hits_of_seen ht hx htag hm hw hb ha hf (hs b hb ha hf)).2 with h | h
      · exact Bool.false_ne_true (hc0.symm.trans h)
      · exact h hp0
  · have hb' := Jit.blocks_of_core hcore
    have hk : k.Keyed := by
      rw [Jit.Keyed, hb']
      exact hx.keyed
    rw [hn]
    constructor
    · rintro ⟨_, ⟨⟩, hcl⟩ b hb ha hf
      by_contra hs
      obtain ⟨hnh, hpage⟩ := stays_of_not_seen ht htag hm hw hb ha hf hs
      exact hcl b (hblocks ▸ Jit.writeEvent_stays hk (hb' ▸ hb) hnh hpage) ha hf
    · intro hs
      refine ⟨k', rfl, fun b hb ha hf => ?_⟩
      obtain ⟨hbk, hnh⟩ := Jit.writeEvent_clear hk _ (hblocks ▸ hb) ha
      have hbj : b ∈ j.blocks := hb' ▸ hbk
      exact hnh (hits_of_seen ht hx htag hm hw hbj ha hf (hs b hbj ha hf)).1

end Report

end Rk65c02
