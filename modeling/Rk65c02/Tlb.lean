import Rk65c02.Memory
import Mathlib.Data.Set.Basic

/-! The TLB and the identity fast path are transparent: under the update protocol every
access has the outcome of the callback's answer for it. -/

namespace Rk65c02

open Resumption

variable {H : Type}

def offset (v : Addr) : PAddr := v.setWidth 32 &&& 0xFF

/-- `r` is the answer `a` at the address `v`: same verdict, same page, offset preserved. -/
structure MmuResult.Is (r a : MmuResult) (v : Addr) : Prop where
  ok : r.ok = a.ok
  code : r.ok = false → r.faultCode = a.faultCode
  perms : r.ok = true → r.perms = a.perms
  paddr : r.ok = true → r.paddr = a.paddr &&& 0xFFFFFF00 ||| offset v

/-- On the page `p` the answer depends only on the page. -/
def Translate.Uniform (tr : Translate) (p : Byte) : Prop :=
  ∃ a, ∀ v c, page v = p → (tr v c).Is a v

/-- On the page `p` the answer depends only on the page and the access class. -/
def Translate.ClassUniform (tr : Translate) (p : Byte) : Prop :=
  ∀ c, ∃ a, ∀ v, page v = p → (tr v c).Is a v

def Translate.NoFill (tr : Translate) (p : Byte) : Prop :=
  ∀ v c, page v = p → (tr v c).noFillTlb = true

/-- What the callback and the checks give for an access of class `c`. -/
def Translate.outcome (tr : Translate) (v : Addr) (c : Access) : Except (BitVec 16) PAddr :=
  checkResult (tr v c) c.reqPerm

/-- What an entry gives for an access of class `c`. -/
def TlbEntry.outcome (te : TlbEntry) (v : Addr) (c : Access) : Except (BitVec 16) PAddr :=
  if !permits te.perms c.reqPerm then .error 0xFFFE else .ok (te.ppageBase ||| offset v)

def TlbEntry.ofResult (p : Byte) (r : MmuResult) (epoch : BitVec 32) : TlbEntry :=
  { valid := true, vpage := p, ppageBase := r.paddr &&& 0xFFFFFF00, perms := r.perms, epoch := epoch }

section Arithmetic

theorem base_or {x y : PAddr} (hy : y &&& 0xFFFFFF00 = 0) :
    (x &&& 0xFFFFFF00 ||| y) &&& 0xFFFFFF00 = x &&& 0xFFFFFF00 := by
  rw [BitVec.and_or_distrib_right, hy, BitVec.and_assoc, BitVec.and_self]
  exact BitVec.or_zero

theorem offset_and_base (v : Addr) : offset v &&& 0xFFFFFF00 = 0 := by
  unfold offset
  rw [BitVec.and_assoc]
  exact BitVec.and_zero

theorem lt_physMax_iff (x : PAddr) : x.toNat < physMax ↔ x >>> 24 = 0 := by
  rw [← BitVec.toNat_inj, BitVec.toNat_ushiftRight, Nat.shiftRight_eq_div_pow]
  simp only [physMax, BitVec.toNat_zero, Nat.div_eq_zero_iff, BitVec.ofNat_eq_ofNat]
  omega

theorem offset_shift (v : Addr) : offset v >>> 24 = 0 := by
  have h : (offset v).toNat < 256 := by
    unfold offset
    rw [BitVec.toNat_and]
    exact Nat.lt_of_le_of_lt Nat.and_le_right (by decide)
  have hlt : (offset v).toNat < physMax := Nat.lt_trans h (by decide)
  exact (lt_physMax_iff _).1 hlt

theorem physMax_le_or_offset (x : PAddr) (v : Addr) :
    physMax ≤ (x ||| offset v).toNat ↔ physMax ≤ x.toNat := by
  rw [← Nat.not_lt, ← Nat.not_lt, lt_physMax_iff, lt_physMax_iff, BitVec.ushiftRight_or_distrib, offset_shift]
  simp

theorem or_offset_and (x : PAddr) (v : Addr) : (x &&& 0xFFFFFF00 ||| offset v) &&& 0xFF = offset v := by
  rw [BitVec.and_or_distrib_right, BitVec.and_assoc]
  have h : (0xFFFFFF00 : PAddr) &&& 0xFF = 0 := rfl
  rw [h]
  unfold offset
  rw [BitVec.and_assoc, BitVec.and_self]
  simp

theorem toNat_offset (v : Addr) : (offset v).toNat = v.toNat % 256 := by
  have hv := v.isLt
  have h := Nat.and_two_pow_sub_one_eq_mod v.toNat 8
  unfold offset
  rw [BitVec.toNat_and, BitVec.toNat_setWidth, Nat.mod_eq_of_lt (by omega)]
  exact h

theorem setWidth_eq_page_or_offset (v : Addr) :
    v.setWidth 32 = (page v).setWidth 32 <<< 8 &&& 0xFFFFFF00 ||| offset v := by
  have hv := v.isLt
  have hp := toNat_page v
  have ho := toNat_offset v
  have hbase : ∀ p : Byte, p.setWidth 32 <<< 8 &&& (0xFFFFFF00 : PAddr) = p.setWidth 32 <<< 8 := by decide +kernel
  apply BitVec.eq_of_toNat_eq
  rw [hbase, BitVec.toNat_or, BitVec.toNat_shiftLeft, BitVec.toNat_setWidth, BitVec.toNat_setWidth, hp, ho,
    Nat.mod_eq_of_lt (by omega : v.toNat / 256 < 2 ^ 32), Nat.mod_eq_of_lt (by omega),
    Nat.mod_eq_of_lt (by rw [Nat.shiftLeft_eq]; omega),
    ← Nat.shiftLeft_add_eq_or_of_lt (by omega), Nat.shiftLeft_eq]
  omega

end Arithmetic

theorem checkResult_eq_ok_iff {r : MmuResult} {req : Byte} {q : PAddr} :
    checkResult r req = .ok q ↔
      r.ok = true ∧ permits r.perms req = true ∧ r.paddr.toNat < physMax ∧ r.paddr = q := by
  unfold checkResult
  cases r.ok <;> cases permits r.perms req <;> by_cases h : physMax ≤ r.paddr.toNat <;>
    (simp [h]; try omega)

/-- The outcome of an answer `a` that stands for a whole page. -/
def MmuResult.outcomeAt (a : MmuResult) (v : Addr) (c : Access) : Except (BitVec 16) PAddr :=
  if !a.ok then .error a.faultCode
  else if !permits a.perms c.reqPerm then .error 0xFFFE
  else if physMax ≤ (a.paddr &&& 0xFFFFFF00).toNat then .error 0xFFFF
  else .ok (a.paddr &&& 0xFFFFFF00 ||| offset v)

theorem MmuResult.Is.checkResult_eq {r a : MmuResult} {v : Addr} (h : r.Is a v) (c : Access) :
    checkResult r c.reqPerm = a.outcomeAt v c := by
  unfold checkResult outcomeAt
  rw [← h.ok]
  cases hok : r.ok with
  | false => simp [h.code hok]
  | true =>
    simp only [h.perms hok, h.paddr hok, physMax_le_or_offset, Bool.not_true, Bool.false_eq_true, if_false]

/-- An answer that an access got through with gives an entry that is right for the page. -/
theorem MmuResult.Is.outcome_ofResult {r a : MmuResult} {v : Addr} (h : r.Is a v) {c : Access} {q : PAddr}
    (hq : checkResult r c.reqPerm = .ok q) (epoch : BitVec 32) (v' : Addr) (c' : Access) :
    (TlbEntry.ofResult (page v) r epoch).outcome v' c' = a.outcomeAt v' c' := by
  obtain ⟨hok, -, hr, -⟩ := checkResult_eq_ok_iff.1 hq
  rw [h.paddr hok, ← Nat.not_le, physMax_le_or_offset] at hr
  unfold TlbEntry.outcome outcomeAt TlbEntry.ofResult
  simp only [h.perms hok, h.paddr hok, base_or (offset_and_base v), ← h.ok, hok, hr, if_false,
    Bool.not_true, Bool.false_eq_true]

namespace Mmu

theorem translateAddr_hit {m : Mmu} {v : Addr} (h : tlbHit m v = true) (tr : Translate) (c : Access) :
    m.translateAddr tr v c c.reqPerm = ((m.tlb (page v)).outcome v c, m) := by
  unfold translateAddr TlbEntry.outcome
  rw [if_pos h]
  dsimp only
  split <;> rfl

theorem translateAddr_miss {m : Mmu} {v : Addr} (h : tlbHit m v = false) (ht : m.translate.isSome)
    (tr : Translate) (c : Access) :
    m.translateAddr tr v c c.reqPerm =
      (tr.outcome v c, if (tr.outcome v c).isOk then tlbFill m v (tr v c) else m) := by
  obtain ⟨cb, hcb⟩ := Option.isSome_iff_exists.1 ht
  unfold translateAddr Translate.outcome
  rw [if_neg (by simp [h]), hcb]
  cases hc : checkResult (tr v c) c.reqPerm <;> simp [hc, Except.isOk, Except.toBool]

end Mmu

/-- A translation changes nothing but the TLB. -/
theorem Mmu.translateAddr_tlb (m : Mmu) (tr : Translate) (v : Addr) (c : Access) (req : Byte) :
    ∃ t, (m.translateAddr tr v c req).2 = { m with tlb := t } := by
  unfold translateAddr
  dsimp only
  split
  · split <;> exact ⟨m.tlb, rfl⟩
  · split
    · exact ⟨m.tlb, rfl⟩
    · split
      · exact ⟨m.tlb, rfl⟩
      · unfold tlbFill
        split
        · exact ⟨_, rfl⟩
        · exact ⟨m.tlb, rfl⟩

/-- An access through the accessor in force: its outcome and what it leaves in the TLB. -/
def Mmu.target (m : Mmu) (tr : Translate) (v : Addr) (c : Access) : Except (BitVec 16) PAddr × Mmu :=
  if m.accessors then m.translateAddr tr v c c.reqPerm else (.ok (v.setWidth 32), m)

/-- The outcome of an access with no TLB and no fast path. -/
def Mmu.plainTarget (m : Mmu) (tr : Translate) (v : Addr) (c : Access) : Except (BitVec 16) PAddr :=
  if !m.enabled then .ok (v.setWidth 32)
  else if m.translate.isNone then .error 0xFFFD
  else tr.outcome v c

namespace Mmu

theorem target_mmu {m : Mmu} (h : m.accessors = true) (tr : Translate) (v : Addr) (c : Access) :
    m.target tr v c = m.translateAddr tr v c c.reqPerm := if_pos h

theorem target_direct {m : Mmu} (h : m.accessors = false) (tr : Translate) (v : Addr) (c : Access) :
    m.target tr v c = (.ok (v.setWidth 32), m) := if_neg (by simp [h])

theorem target_tlb (m : Mmu) (tr : Translate) (v : Addr) (c : Access) :
    ∃ t, (m.target tr v c).2 = { m with tlb := t } := by
  unfold target
  split
  · exact translateAddr_tlb ..
  · exact ⟨m.tlb, rfl⟩

theorem plainTarget_on {m : Mmu} (h : m.enabled = true) (ht : m.translate.isSome = true) (tr : Translate)
    (v : Addr) (c : Access) : m.plainTarget tr v c = tr.outcome v c := by
  unfold plainTarget
  rw [if_neg (by simp [h]), if_neg (by simp [Option.isSome_iff_ne_none.1 ht])]

theorem plainTarget_off {m : Mmu} (h : m.enabled = false) (tr : Translate) (v : Addr) (c : Access) :
    m.plainTarget tr v c = .ok (v.setWidth 32) := if_pos (by simp [h])

end Mmu

/-- The MMU and its host under the update protocol. A page is `stale` from the change of
its mapping to the end of a batch that marked it; `marked` are the marks of the batch. -/
structure World (H : Type) where
  mmu : Mmu
  host : H
  stale : Set Byte
  marked : Set Byte

namespace World

def tr (hc : HostCode H) (w : World H) : Translate := hc.callback w.mmu w.host

def init (host : H) : World H := { mmu := .init, host := host, stale := ∅, marked := ∅ }

/-- The pages whose mapping differs in the host state `h`. -/
def remapped (hc : HostCode H) (w : World H) (h : H) : Set Byte :=
  { p | ∃ v c, page v = p ∧ hc.callback w.mmu h v c ≠ w.tr hc v c }

/-- The pages `rk65c02_mmu_mark_changed_vrange` names; all if the range is reversed. -/
def vrange (first last : Addr) : Set Byte :=
  { p | first ≤ last → page first ≤ p ∧ p ≤ page last }

/-- Guest accesses, changes of the host map and library calls. Guest accesses happen only
when no page is stale; `rk65c02_mmu_set` starts afresh and forgets marks. -/
inductive Step (hc : HostCode H) : World H → World H → Prop
  | access (w : World H) (v : Addr) (c : Access) (hs : w.stale = ∅) :
      Step hc w { w with mmu := (w.mmu.target (w.tr hc) v c).2 }
  | remap (w : World H) (h : H) : Step hc w { w with host := h, stale := w.stale ∪ w.remapped hc h }
  | mmuSet (w : World H) (translate fault : Option Cb) (enabled identity : Bool)
      (ht : enabled = true → translate.isSome = true)
      (hi : enabled = true → identity = true →
        ∀ v c, (hc.callback { w.mmu with translate := translate } w.host).outcome v c = .ok (v.setWidth 32)) :
      Step hc w { w with
        mmu := (w.mmu.set translate fault enabled identity).refreshAccessors.tlbFlush
        stale := ∅
        marked := ∅ }
  | mmuClear (w : World H) : Step hc w { w with mmu := w.mmu.clear, stale := ∅, marked := ∅ }
  | beginUpdate (w : World H) : Step hc w { w with mmu := w.mmu.beginUpdate, marked := ∅ }
  | markVpage (w : World H) (p : Byte) :
      Step hc w { w with mmu := w.mmu.markChangedVpage p, marked := w.marked ∪ {p} }
  | markVrange (w : World H) (first last : Addr) :
      Step hc w { w with mmu := w.mmu.markChangedVrange first last, marked := w.marked ∪ vrange first last }
  | endUpdate (w : World H) :
      Step hc w { w with mmu := w.mmu.endUpdate, stale := w.stale \ w.marked, marked := ∅ }
  | tlbSet (w : World H) (enabled : Bool) : Step hc w { w with mmu := w.mmu.tlbSet enabled }
  | tlbFlush (w : World H) : Step hc w { w with mmu := w.mmu.tlbFlush }
  | tlbFlushVpage (w : World H) (p : Byte) : Step hc w { w with mmu := w.mmu.tlbFlushVpage p }

/-- The worlds the protocol reaches from an initialised emulator. -/
inductive Reachable (hc : HostCode H) : World H → Prop
  | init (host : H) : Reachable hc (init host)
  | step {w w' : World H} (hr : Reachable hc w) (hs : Step hc w w') : Reachable hc w'

/-- Valid entries of pages that are not stale agree with the map, and so does the fast
path; the marks are recorded and have left the fast path. -/
structure Agrees (hc : HostCode H) (w : World H) : Prop where
  accessors : w.mmu.accessors = (w.mmu.enabled && !w.mmu.identityActive)
  translate : w.mmu.enabled = true → w.mmu.translate.isSome = true
  off : w.mmu.enabled = false → ∀ p, (w.mmu.tlb p).valid = false
  entries : ∀ p ∉ w.stale, (w.mmu.tlb p).valid = true →
    ∀ v c, page v = p → (w.mmu.tlb p).outcome v c = (w.tr hc).outcome v c
  identity : w.mmu.enabled = true → w.mmu.identityActive = true →
    ∀ v c, page v ∉ w.stale → (w.tr hc).outcome v c = .ok (v.setWidth 32)
  marks : w.mmu.enabled = true → ∀ p ∈ w.marked,
    w.mmu.updatePending = true ∧ w.mmu.identityActive = false ∧
      (w.mmu.changedAll = true ∨ w.mmu.changedVpage p = true)

theorem agrees_init (hc : HostCode H) (host : H) : Agrees hc (init host) where
  accessors := rfl
  translate h := by cases h
  off _ _ := rfl
  entries _ _ h := by cases h
  identity h := by cases h
  marks h := by cases h

variable {hc : HostCode H} {w : World H}

/-- Flushes: entries only lose validity, everything else is kept. -/
theorem Agrees.of_tlb (h : Agrees hc w) {m : Mmu} {t : Byte → TlbEntry} {b : Bool}
    (hm : m = { w.mmu with tlb := t, tlbEnabled := b })
    (ht : ∀ p, (t p).valid = true → t p = w.mmu.tlb p) : Agrees hc { w with mmu := m } := by
  subst hm
  refine ⟨h.accessors, h.translate, ?_, ?_, h.identity, h.marks⟩
  · intro hoff p
    by_contra hv
    have hv : (t p).valid = true := by simpa using hv
    have hw := h.off hoff p
    rw [← ht p hv, hv] at hw
    cases hw
  · intro p hp hv v c hpage
    have he := ht p hv
    dsimp only at hv ⊢
    rw [he] at hv ⊢
    exact h.entries p hp hv v c hpage

theorem Agrees.tlbFlush (h : Agrees hc w) : Agrees hc { w with mmu := w.mmu.tlbFlush } :=
  h.of_tlb (t := fun _ => .zero) (b := w.mmu.tlbEnabled) rfl (fun _ hv => by cases hv)

theorem Agrees.tlbSet (h : Agrees hc w) (b : Bool) : Agrees hc { w with mmu := w.mmu.tlbSet b } := by
  cases b with
  | false => exact h.of_tlb (t := fun _ => .zero) (b := false) rfl (fun _ hv => by cases hv)
  | true => exact h.of_tlb (t := w.mmu.tlb) (b := true) rfl (fun _ _ => rfl)

theorem Agrees.tlbFlushVpage (h : Agrees hc w) (p : Byte) :
    Agrees hc { w with mmu := w.mmu.tlbFlushVpage p } := by
  refine h.of_tlb (t := Function.update w.mmu.tlb p { w.mmu.tlb p with valid := false })
    (b := w.mmu.tlbEnabled) rfl ?_
  intro q hv
  by_cases hq : q = p
  · subst hq
    simp at hv
  · exact Function.update_of_ne hq _ _

theorem Agrees.remap (h : Agrees hc w) (host : H) :
    Agrees hc { w with host := host, stale := w.stale ∪ w.remapped hc host } := by
  have hsame : ∀ v c, page v ∉ w.remapped hc host → hc.callback w.mmu host v c = w.tr hc v c := by
    intro v c hp
    by_contra hne
    exact hp ⟨v, c, rfl, hne⟩
  refine ⟨h.accessors, h.translate, h.off, ?_, ?_, h.marks⟩
  · intro p hp hv v c hpage
    simp only [Set.mem_union, not_or] at hp
    have he := h.entries p hp.1 hv v c hpage
    subst hpage
    simpa only [tr, Translate.outcome, hsame v c hp.2] using he
  · intro hen hid v c hp
    simp only [Set.mem_union, not_or] at hp
    have he := h.identity hen hid v c hp.1
    simpa only [tr, Translate.outcome, hsame v c hp.2] using he

theorem agrees_mmuSet (w : World H) {translate fault : Option Cb} {enabled identity : Bool}
    (ht : enabled = true → translate.isSome = true)
    (hi : enabled = true → identity = true →
      ∀ v c, (hc.callback { w.mmu with translate := translate } w.host).outcome v c = .ok (v.setWidth 32)) :
    Agrees hc { w with
      mmu := (w.mmu.set translate fault enabled identity).refreshAccessors.tlbFlush
      stale := ∅
      marked := ∅ } where
  accessors := rfl
  translate := ht
  off _ _ := rfl
  entries _ _ h := by cases h
  identity := by
    intro hen hid v c _
    have hen : enabled = true := hen
    subst hen
    exact hi rfl hid v c
  marks _ _ h := absurd h (Set.notMem_empty _)

theorem agrees_mmuClear (w : World H) : Agrees hc { w with mmu := w.mmu.clear, stale := ∅, marked := ∅ } where
  accessors := rfl
  translate h := by cases h
  off _ _ := rfl
  entries _ _ h := by cases h
  identity h := by cases h
  marks h := by cases h

theorem Agrees.beginUpdate (h : Agrees hc w) :
    Agrees hc { w with mmu := w.mmu.beginUpdate, marked := ∅ } := by
  have hm : ∀ p ∈ (∅ : Set Byte), False := fun _ hp => hp
  unfold Mmu.beginUpdate
  split
  · exact ⟨h.accessors, h.translate, h.off, h.entries, h.identity, fun _ p hp => (hm p hp).elim⟩
  · exact ⟨h.accessors, h.translate, h.off, h.entries, h.identity, fun _ p hp => (hm p hp).elim⟩

/-- Both mark functions: they record pages, leave the fast path and refresh the accessors. -/
theorem Agrees.mark (h : Agrees hc w) (all : Bool) (changed : Byte → Bool) {marks : Set Byte}
    (hen : w.mmu.enabled = true) (hall : w.mmu.changedAll = true → all = true)
    (hold : ∀ p, w.mmu.changedVpage p = true → changed p = true)
    (hnew : ∀ p ∈ marks, all = true ∨ changed p = true) :
    Agrees hc { w with
      mmu := Mmu.refreshAccessors
        { w.mmu with updatePending := true, changedAll := all, changedVpage := changed, identityActive := false }
      marked := w.marked ∪ marks } where
  accessors := rfl
  translate := h.translate
  off := h.off
  entries := h.entries
  identity _ hid := by cases hid
  marks := by
    intro _ p hp
    refine ⟨rfl, rfl, ?_⟩
    rcases hp with hp | hp
    · obtain ⟨-, -, hc⟩ := h.marks hen p hp
      exact hc.imp hall (hold p)
    · exact hnew p hp

/-- While the MMU is off, marks are not recorded and need not be. -/
theorem Agrees.mark_off (h : Agrees hc w) (hoff : w.mmu.enabled = false) (marks : Set Byte) :
    Agrees hc { w with marked := marks } where
  accessors := h.accessors
  translate := h.translate
  off := h.off
  entries := h.entries
  identity := h.identity
  marks hen := by
    rw [hoff] at hen
    cases hen

theorem Agrees.markVpage (h : Agrees hc w) (p : Byte) :
    Agrees hc { w with mmu := w.mmu.markChangedVpage p, marked := w.marked ∪ {p} } := by
  unfold Mmu.markChangedVpage
  by_cases hen : w.mmu.enabled = true
  · rw [if_neg (by simp [hen])]
    refine h.mark w.mmu.changedAll _ hen id ?_ ?_
    · intro q hq
      by_cases hqp : q = p
      · subst hqp
        exact Function.update_self ..
      · rw [Function.update_of_ne hqp]
        exact hq
    · intro q hq
      obtain rfl : q = p := hq
      exact .inr (Function.update_self ..)
  · rw [if_pos (by simp [hen])]
    exact h.mark_off (by simpa using hen) _

theorem Agrees.markVrange (h : Agrees hc w) (first last : Addr) :
    Agrees hc { w with mmu := w.mmu.markChangedVrange first last, marked := w.marked ∪ vrange first last } := by
  unfold Mmu.markChangedVrange
  by_cases hen : w.mmu.enabled = true
  · rw [if_neg (by simp [hen])]
    by_cases hle : first ≤ last
    · simp only [hle, if_true]
      refine h.mark w.mmu.changedAll _ hen id ?_ ?_
      · intro p hp
        simp [hp]
      · intro p hp
        have hp := hp hle
        simp [hp]
    · simp only [hle, if_false]
      exact h.mark true w.mmu.changedVpage hen (fun _ => rfl) (fun _ hp => hp)
        (fun _ _ => .inl rfl)
  · rw [if_pos (by simp [hen])]
    exact h.mark_off (by simpa using hen) _

theorem Agrees.endUpdate (h : Agrees hc w) :
    Agrees hc { w with mmu := w.mmu.endUpdate, stale := w.stale \ w.marked, marked := ∅ } := by
  have hnone : ∀ p ∈ (∅ : Set Byte), False := fun _ hp => hp
  unfold Mmu.endUpdate
  by_cases hen : w.mmu.enabled = true
  · rw [if_neg (by simp [hen])]
    -- A page that leaves `stale` here was marked, so the fast path is off and its entry goes.
    have hmark : ∀ p, p ∉ w.stale \ w.marked → p ∈ w.stale → p ∈ w.marked := by
      intro p hp hs
      by_contra hm
      exact hp ⟨hs, hm⟩
    have hid : w.mmu.identityActive = true → ∀ v c, page v ∉ w.stale \ w.marked →
        (w.tr hc).outcome v c = .ok (v.setWidth 32) := by
      intro hid v c hp
      refine h.identity hen hid v c fun hs => ?_
      have := (h.marks hen _ (hmark _ hp hs)).2.1
      rw [hid] at this
      cases this
    by_cases hup : w.mmu.updatePending = true
    · rw [if_neg (by simp [hup])]
      unfold Mmu.flushChanged
      split
      · exact ⟨rfl, h.translate, fun _ _ => rfl, fun _ _ hv => (by cases hv), fun _ => hid,
          fun _ p hp => (hnone p hp).elim⟩
      · rename_i hall
        have hall : w.mmu.changedAll = false := by simpa using hall
        refine ⟨rfl, h.translate, ?_, ?_, fun _ => hid, fun _ p hp => (hnone p hp).elim⟩
        · intro hoff
          have hoff : w.mmu.enabled = false := hoff
          rw [hen] at hoff
          cases hoff
        · intro p hp hv v c hpage
          simp only [Mmu.refreshAccessors] at hv ⊢
          by_cases hch : w.mmu.changedVpage p = true
          · simp [hch] at hv
          · simp only [hch, Bool.false_eq_true, if_false] at hv ⊢
            refine h.entries p (fun hs => ?_) hv v c hpage
            obtain ⟨-, -, hc⟩ := h.marks hen p (hmark p hp hs)
            simp [hall, hch] at hc
    · rw [if_pos (by simp [hup])]
      refine ⟨h.accessors, h.translate, h.off, ?_, fun _ => hid, fun _ p hp => (hnone p hp).elim⟩
      intro p hp hv v c hpage
      exact h.entries p (fun hs => hup (h.marks hen p (hmark p hp hs)).1) hv v c hpage
  · rw [if_pos (by simp [hen])]
    have hoff : w.mmu.enabled = false := by simpa using hen
    refine ⟨h.accessors, h.translate, h.off, ?_, fun he => absurd he hen, fun _ p hp => (hnone p hp).elim⟩
    intro p _ hv
    have hv' := h.off hoff p
    have hv : (w.mmu.tlb p).valid = true := hv
    rw [hv'] at hv
    cases hv

/-- The callbacks the TLB is transparent for. -/
def PageUniform (hc : HostCode H) : Prop :=
  ∀ h cb p, Translate.Uniform (hc.translate h cb) p ∨ Translate.NoFill (hc.translate h cb) p

theorem Agrees.fill (h : Agrees hc w) (hu : PageUniform hc) (hen : w.mmu.enabled = true)
    (v : Addr) {c : Access} {q : PAddr} (hq : (w.tr hc).outcome v c = .ok q) :
    Agrees hc { w with mmu := tlbFill w.mmu v (w.tr hc v c) } := by
  unfold tlbFill
  split
  · rename_i hfill
    simp only [Bool.and_eq_true, Bool.not_eq_true'] at hfill
    refine ⟨h.accessors, h.translate, ?_, ?_, h.identity, h.marks⟩
    · intro hoff
      rw [show w.mmu.enabled = false from hoff] at hen
      cases hen
    · intro p hp hv v' c' hpage
      by_cases hpv : p = page v
      · subst hpv
        rcases hu w.host (w.mmu.translate.getD 0) (page v) with ⟨a, ha⟩ | hno
        · simp only [Function.update_self]
          have hout := (ha v c rfl).outcome_ofResult hq w.mmu.epoch v' c'
          have hown := (ha v' c' hpage).checkResult_eq c'
          exact hout.trans hown.symm
        · have := hno v c rfl
          rw [show (w.tr hc v c).noFillTlb = true from this] at hfill
          simp at hfill
      · simp only [Function.update_of_ne hpv] at hv ⊢
        exact h.entries p hp hv v' c' hpage
  · exact h

theorem Agrees.access (h : Agrees hc w) (hu : PageUniform hc) (v : Addr) (c : Access) :
    Agrees hc { w with mmu := (w.mmu.target (w.tr hc) v c).2 } := by
  unfold Mmu.target
  by_cases hacc : w.mmu.accessors = true
  · rw [if_pos hacc]
    have hen : w.mmu.enabled = true := by
      have := h.accessors
      rw [hacc] at this
      simpa using (Bool.and_eq_true_iff.1 this.symm).1
    cases hhit : tlbHit w.mmu v with
    | true =>
      rw [Mmu.translateAddr_hit hhit]
      exact h
    | false =>
      rw [Mmu.translateAddr_miss hhit (h.translate hen)]
      cases hq : (w.tr hc).outcome v c with
      | error code => exact h
      | ok q => exact h.fill hu hen v hq
  · rw [if_neg hacc]
    exact h

theorem Step.agrees {w' : World H} (hu : PageUniform hc) (hs : Step hc w w') (h : Agrees hc w) :
    Agrees hc w' := by
  cases hs with
  | access v c hs => exact h.access hu v c
  | remap host => exact h.remap host
  | mmuSet translate fault enabled identity ht hi => exact agrees_mmuSet w ht hi
  | mmuClear => exact agrees_mmuClear w
  | beginUpdate => exact h.beginUpdate
  | markVpage p => exact h.markVpage p
  | markVrange first last => exact h.markVrange first last
  | endUpdate => exact h.endUpdate
  | tlbSet b => exact h.tlbSet b
  | tlbFlush => exact h.tlbFlush
  | tlbFlushVpage p => exact h.tlbFlushVpage p

theorem Reachable.agrees (hu : PageUniform hc) (hr : Reachable hc w) : Agrees hc w := by
  induction hr with
  | init host => exact agrees_init hc host
  | step _ hs ih => exact hs.agrees hu ih

theorem Agrees.target_eq (h : Agrees hc w) (hs : w.stale = ∅) (v : Addr) (c : Access) :
    (w.mmu.target (w.tr hc) v c).1 = w.mmu.plainTarget (w.tr hc) v c := by
  have hns : page v ∉ w.stale := by
    rw [hs]
    exact Set.notMem_empty _
  have hacc := h.accessors
  by_cases hen : w.mmu.enabled = true
  · have ht := h.translate hen
    rw [Mmu.plainTarget_on hen ht]
    by_cases hid : w.mmu.identityActive = true
    · rw [Mmu.target_direct (by simp [hacc, hid]), h.identity hen hid v c hns]
    · rw [Mmu.target_mmu (by simp [hacc, hen, hid])]
      cases hhit : tlbHit w.mmu v with
      | true =>
        rw [Mmu.translateAddr_hit hhit]
        have hv : (w.mmu.tlb (page v)).valid = true := by
          simp only [tlbHit, Bool.and_eq_true] at hhit
          exact hhit.1.1.2
        exact h.entries _ hns hv v c rfl
      | false => rw [Mmu.translateAddr_miss hhit ht]
  · rw [Mmu.plainTarget_off (by simpa using hen), Mmu.target_direct (by simp [hacc, hen])]

end World

section Accessors

variable (hc : HostCode H)

/-- A read or fetch whose translation has the given outcome. -/
def Emu.readOutcome (e : Emu H) (v : Addr) (c : Access) : Except (BitVec 16) PAddr → Out (Emu H) Byte
  | .error code => (e.mmuFault hc v c code).bind fun _ e => .ok 0xFF e
  | .ok p => .ok (e.physRead1 hc p).1 (e.physRead1 hc p).2

/-- A store whose translation has the given outcome. -/
def Emu.writeOutcome (e : Emu H) (v : Addr) (val : Byte) : Except (BitVec 16) PAddr → Out (Emu H) Unit
  | .error code => e.mmuFault hc v .write code
  | .ok p => .ok () (e.physWrite1 hc p val)

theorem setWidth_lt_busSize (v : Addr) : (v.setWidth 32).toNat < busSize := by
  have := v.isLt
  simp only [busSize, BitVec.toNat_setWidth]
  omega

theorem physRead1_setWidth (e : Emu H) (v : Addr) : e.physRead1 hc (v.setWidth 32) = e.busRead1 hc v := by
  unfold Emu.physRead1
  rw [if_pos (setWidth_lt_busSize v)]
  simp

theorem physWrite1_setWidth (e : Emu H) (v : Addr) (val : Byte) :
    e.physWrite1 hc (v.setWidth 32) val = e.busWrite1 hc v val := by
  unfold Emu.physWrite1
  rw [if_pos (setWidth_lt_busSize v)]
  simp

theorem memRead1_eq_readOutcome (e : Emu H) (v : Addr) (c : Access) :
    let t := e.mmu.target (hc.callback e.mmu e.host) v c
    e.memRead1 hc v c = ({ e with mmu := t.2 } : Emu H).readOutcome hc v c t.1 := by
  unfold Emu.memRead1 Mmu.target
  by_cases hacc : e.mmu.accessors = true
  · simp only [hacc, if_true]
    unfold Emu.memReadMmu Emu.mmuTranslateAddr
    generalize e.mmu.translateAddr (hc.callback e.mmu e.host) v c c.reqPerm = t
    rcases t with ⟨_ | _, _⟩ <;> rfl
  · simp only [hacc, Bool.false_eq_true, if_false, Emu.readOutcome, physRead1_setWidth]
    rfl

theorem memWrite1_eq_writeOutcome (e : Emu H) (v : Addr) (val : Byte) :
    let t := e.mmu.target (hc.callback e.mmu e.host) v .write
    e.memWrite1 hc v val = (({ e with mmu := t.2 } : Emu H).writeOutcome hc v val t.1).bind
      fun _ e => .ok () (e.jitNoteGuestWrite hc v) := by
  unfold Emu.memWrite1 Mmu.target
  by_cases hacc : e.mmu.accessors = true
  · simp only [hacc, if_true]
    unfold Emu.memWriteMmu Emu.mmuTranslateAddr
    generalize e.mmu.translateAddr (hc.callback e.mmu e.host) v .write (Access.reqPerm .write) = t
    rcases t with ⟨_ | _, _⟩ <;> rfl
  · simp only [hacc, Bool.false_eq_true, if_false, Emu.writeOutcome, physWrite1_setWidth]
    rfl

end Accessors

/-- Whatever guest accesses, remaps and library calls came before, each read, fetch and
store has the outcome it has with no TLB and no fast path: the same physical byte or the
same fault code. Only the TLB itself may have changed on the way. -/
theorem tlb_transparent {hc : HostCode H} (hu : World.PageUniform hc) {w : World H}
    (hr : World.Reachable hc w) (hs : w.stale = ∅) {e : Emu H} (hm : e.mmu = w.mmu) (hh : e.host = w.host)
    (v : Addr) :
    let plain := e.mmu.plainTarget (hc.callback e.mmu e.host) v
    (∀ c, (e.mmu.target (hc.callback e.mmu e.host) v c).1 = plain c) ∧
    (∀ c, ∃ t, e.memRead1 hc v c =
      ({ e with mmu := { e.mmu with tlb := t } } : Emu H).readOutcome hc v c (plain c)) ∧
    ∀ val, ∃ t, e.memWrite1 hc v val =
      (({ e with mmu := { e.mmu with tlb := t } } : Emu H).writeOutcome hc v val (plain .write)).bind
        fun _ e => .ok () (e.jitNoteGuestWrite hc v) := by
  intro plain
  have htarget : ∀ c, (e.mmu.target (hc.callback e.mmu e.host) v c).1 = plain c := by
    intro c
    have := (hr.agrees hu).target_eq hs v c
    rw [World.tr, ← hm, ← hh] at this
    exact this
  refine ⟨htarget, fun c => ?_, fun val => ?_⟩
  · obtain ⟨t, ht⟩ := e.mmu.target_tlb (hc.callback e.mmu e.host) v c
    refine ⟨t, ?_⟩
    rw [memRead1_eq_readOutcome, ht, htarget c]
  · obtain ⟨t, ht⟩ := e.mmu.target_tlb (hc.callback e.mmu e.host) v .write
    refine ⟨t, ?_⟩
    rw [memWrite1_eq_writeOutcome, ht, htarget .write]

/-- A host that only translates. -/
def mapHost (tr : H → Translate) : HostCode H where
  translate h _ := tr h
  mmuFault h _ _ _ _ := (h, [])
  devRead h _ _ := (0, h, [])
  devWrite h _ _ _ := (h, [])
  tick h _ := (h, [])
  idleWait h _ := (h, [])
  onStop h _ _ := (h, [])
  async _ := []

/-- Every page at itself, with the same answer for every access but its verdict. -/
def identityMap (verdict : Access → Bool) (perms : Byte) : Translate := fun v c =>
  { ok := verdict c, paddr := v.setWidth 32, perms := perms, faultCode := 1, noFillTlb := false }

theorem identityMap_is (verdict : Access → Bool) (perms : Byte) {p : Byte} {v : Addr} (hp : page v = p)
    (c : Access) :
    (identityMap verdict perms v c).Is ⟨verdict c, p.setWidth 32 <<< 8, perms, 1, false⟩ v := by
  subst hp
  exact ⟨rfl, fun _ => rfl, fun _ => rfl, fun _ => setWidth_eq_page_or_offset v⟩

/-- A read fills the entry of a read-only page; a store then faults from the entry. -/
theorem tlb_transparent_readOnly :
    let hc := mapHost fun _ : Unit => identityMap (fun _ => true) permR
    let m := (Mmu.init.set (some 0) none true false).refreshAccessors.tlbFlush
    let e : Emu Unit :=
      { init ⟨[], [], fun _ => ⟨0, true⟩, fun _ _ => 0⟩ () ⟨0, 0, 0, 0, 0, 0⟩ with
        mmu := (m.target (hc.callback m ()) 0x1234 .read).2 }
    tlbHit e.mmu 0x1234 = true ∧
    (e.mmu.target (hc.callback e.mmu ()) 0x1234 .write).1 = .error 0xFFFE ∧
    (e.mmu.target (hc.callback e.mmu ()) 0x1234 .write).1 =
      e.mmu.plainTarget (hc.callback e.mmu ()) 0x1234 .write := by
  intro hc m e
  have hu : World.PageUniform hc := fun _ _ _ =>
    .inl ⟨_, fun _ c hp => identityMap_is (fun _ => true) permR hp c⟩
  have hr : World.Reachable hc ⟨e.mmu, (), ∅, ∅⟩ := by
    refine .step (.step (.init ()) (.mmuSet _ (some 0) none true false (fun _ => rfl) ?_))
      (.access _ 0x1234 .read rfl)
    intro _ h
    cases h
  exact ⟨by decide +kernel, by decide +kernel, (tlb_transparent hu hr rfl (e := e) rfl rfl 0x1234).1 .write⟩

namespace Mmu

/-- The TLB after a sequence of accesses. -/
def accesses (m : Mmu) (tr : Translate) (l : List (Addr × Access)) : Mmu :=
  l.foldl (fun m a => (m.target tr a.1 a.2).2) m

/-- `rk65c02_mmu_set` with a translation that is not the identity. -/
def translating (m : Mmu) (cb : Cb) (fault : Option Cb) : Mmu :=
  (m.set (some cb) fault true false).refreshAccessors.tlbFlush

end Mmu

/-- The classes agree where one of them can fill the entry: what the answer of class `c`
permits for class `c'` is what the answer of class `c'` gives. -/
def Translate.ClassesAgree (tr : Translate) : Prop :=
  ∀ v c c', (tr v c).ok = true → permits (tr v c).perms c.reqPerm = true → (tr v c).paddr.toNat < physMax →
    if permits (tr v c).perms c'.reqPerm then
      (tr v c').ok = true ∧ permits (tr v c').perms c'.reqPerm = true ∧ (tr v c').paddr = (tr v c).paddr
    else if (tr v c').ok then permits (tr v c').perms c'.reqPerm = false
    else (tr v c').faultCode = 0xFFFE

namespace Translate

variable {tr : Translate}

/-- An answer that fills the entry agrees with the callback for every access of its class. -/
theorem ClassUniform.outcome_entry (hu : ∀ p, tr.ClassUniform p) {v : Addr} {c : Access} {q : PAddr}
    (hq : tr.outcome v c = .ok q) (epoch : BitVec 32) {v' : Addr} (hp : page v' = page v) (c' : Access) :
    (TlbEntry.ofResult (page v) (tr v c) epoch).outcome v' c' =
      if permits (tr v' c).perms c'.reqPerm then .ok (tr v' c).paddr else .error 0xFFFE := by
  obtain ⟨a, ha⟩ := hu (page v) c
  obtain ⟨hok, -, -, -⟩ := checkResult_eq_ok_iff.1 hq
  have hv := ha v rfl
  have hv' := ha v' hp
  have hok' : (tr v' c).ok = true := by rw [hv'.ok, ← hv.ok, hok]
  unfold TlbEntry.outcome TlbEntry.ofResult
  rw [hv.perms hok, hv.paddr hok, hv'.perms hok', hv'.paddr hok', base_or (offset_and_base v)]
  cases permits a.perms c'.reqPerm <;> rfl

theorem ClassUniform.outcome_ok (hu : ∀ p, tr.ClassUniform p) {v : Addr} {c : Access} {q : PAddr}
    (hq : tr.outcome v c = .ok q) {v' : Addr} (hp : page v' = page v) : ∃ q', tr.outcome v' c = .ok q' := by
  obtain ⟨a, ha⟩ := hu (page v) c
  have hv : checkResult (tr v c) c.reqPerm = a.outcomeAt v c := (ha v rfl).checkResult_eq c
  have hv' : checkResult (tr v' c) c.reqPerm = a.outcomeAt v' c := (ha v' hp).checkResult_eq c
  unfold outcome at hq ⊢
  rw [hv] at hq
  rw [hv']
  unfold MmuResult.outcomeAt at hq ⊢
  split at hq
  · cases hq
  · rename_i hok
    rw [if_neg hok]
    split at hq
    · cases hq
    · rename_i hperm
      rw [if_neg hperm]
      split at hq
      · cases hq
      · rename_i hr
        exact ⟨_, if_neg hr⟩

/-- The condition read at outcomes. -/
theorem ClassesAgree.outcome_eq (ha : tr.ClassesAgree) {v : Addr} {c : Access} {q : PAddr}
    (hq : tr.outcome v c = .ok q) (c' : Access) :
    tr.outcome v c' = if permits (tr v c).perms c'.reqPerm then .ok (tr v c).paddr else .error 0xFFFE := by
  obtain ⟨hok, hperm, hr, -⟩ := checkResult_eq_ok_iff.1 hq
  have h := ha v c c' hok hperm hr
  unfold outcome
  split at h
  · rename_i hp
    obtain ⟨hok', hperm', hpaddr⟩ := h
    rw [if_pos hp]
    exact checkResult_eq_ok_iff.2 ⟨hok', hperm', hpaddr ▸ hr, hpaddr⟩
  · rename_i hp
    rw [if_neg hp]
    unfold checkResult
    split at h
    · rename_i hok'
      simp [hok', h]
    · rename_i hok'
      simp [hok', h]

theorem ClassesAgree.of_outcome_eq
    (h : ∀ v c c' q, tr.outcome v c = .ok q →
      tr.outcome v c' = if permits (tr v c).perms c'.reqPerm then .ok (tr v c).paddr else .error 0xFFFE) :
    tr.ClassesAgree := by
  intro v c c' hok hperm hr
  have he := h v c c' _ (checkResult_eq_ok_iff.2 ⟨hok, hperm, hr, rfl⟩)
  unfold outcome at he
  split
  · rename_i hp
    rw [if_pos hp] at he
    obtain ⟨hok', hperm', -, hpaddr⟩ := checkResult_eq_ok_iff.1 he
    exact ⟨hok', hperm', hpaddr⟩
  · rename_i hp
    rw [if_neg hp] at he
    unfold checkResult at he
    cases hok' : (tr v c').ok with
    | false => simpa [hok'] using he
    | true =>
      by_contra hn
      have hn : permits (tr v c').perms c'.reqPerm = true := by simpa using hn
      simp only [hok', hn, Bool.not_true, Bool.false_eq_true, if_false] at he
      split at he <;> cases he

end Translate

/-- Every valid entry was filled by an access that went through. -/
structure Mmu.Filled (m : Mmu) (tr : Translate) : Prop where
  accessors : m.accessors = true
  tlbEnabled : m.tlbEnabled = true
  translate : m.translate.isSome = true
  entries : ∀ p, (m.tlb p).valid = true →
    ∃ v c q, page v = p ∧ tr.outcome v c = .ok q ∧ m.tlb p = .ofResult p (tr v c) m.epoch

namespace Mmu

variable {tr : Translate} {m : Mmu}

theorem filled_translating (m : Mmu) (hte : m.tlbEnabled = true) (cb : Cb) (fault : Option Cb)
    (tr : Translate) : (m.translating cb fault).Filled tr :=
  ⟨rfl, hte, rfl, fun _ hv => by cases hv⟩

theorem Filled.target (h : m.Filled tr) (v : Addr) (c : Access) : (m.target tr v c).2.Filled tr := by
  rw [target_mmu h.accessors]
  cases hhit : tlbHit m v with
  | true =>
    rw [translateAddr_hit hhit]
    exact h
  | false =>
    rw [translateAddr_miss hhit h.translate]
    cases hq : tr.outcome v c with
    | error code => exact h
    | ok q =>
      simp only [Except.isOk, Except.toBool, if_true]
      unfold tlbFill
      split
      · refine ⟨h.accessors, h.tlbEnabled, h.translate, fun p hv => ?_⟩
        by_cases hp : p = page v
        · subst hp
          exact ⟨v, c, q, rfl, hq, Function.update_self ..⟩
        · simp only [Function.update_of_ne hp] at hv ⊢
          exact h.entries p hv
      · exact h

theorem Filled.accesses (h : m.Filled tr) (l : List (Addr × Access)) : (m.accesses tr l).Filled tr := by
  induction l generalizing m with
  | nil => exact h
  | cons a l ih => exact ih (h.target a.1 a.2)

theorem Filled.target_eq (h : m.Filled tr) (hu : ∀ p, tr.ClassUniform p) (ha : tr.ClassesAgree) (v : Addr)
    (c : Access) : (m.target tr v c).1 = tr.outcome v c := by
  rw [target_mmu h.accessors]
  cases hhit : tlbHit m v with
  | false => rw [translateAddr_miss hhit h.translate]
  | true =>
    rw [translateAddr_hit hhit]
    have hv : (m.tlb (page v)).valid = true := by
      simp only [tlbHit, Bool.and_eq_true] at hhit
      exact hhit.1.1.2
    obtain ⟨v', c', q, hp, hq, he⟩ := h.entries _ hv
    obtain ⟨q', hq'⟩ := Translate.ClassUniform.outcome_ok hu hq hp.symm
    rw [he, ← hp, Translate.ClassUniform.outcome_entry hu hq _ hp.symm, ha.outcome_eq hq']

/-- An access that goes through leaves its answer in an empty TLB. -/
theorem target_hit_after (hte : m.tlbEnabled = true) (cb : Cb) (fault : Option Cb)
    (hu : ∀ p, tr.ClassUniform p) (hf : ∀ v c, (tr v c).noFillTlb = false) {v : Addr} {c : Access} {q : PAddr}
    (hq : tr.outcome v c = .ok q) (c' : Access) :
    (((m.translating cb fault).accesses tr [(v, c)]).target tr v c').1 =
      if permits (tr v c).perms c'.reqPerm then .ok (tr v c).paddr else .error 0xFFFE := by
  have h := filled_translating m hte cb fault tr
  have hmiss : tlbHit (m.translating cb fault) v = false := by
    simp [tlbHit, translating, tlbFlush, TlbEntry.zero]
  obtain ⟨a, ha⟩ := hu (page v) c
  obtain ⟨hok, -, -, -⟩ := checkResult_eq_ok_iff.1 hq
  have hoff : (tr v c).paddr &&& 0xFF = v.setWidth 32 &&& 0xFF := by
    rw [(ha v rfl).paddr hok]
    exact or_offset_and _ v
  have hfill : ((m.translating cb fault).target tr v c).2 =
      { m.translating cb fault with
        tlb := Function.update (m.translating cb fault).tlb (page v)
          (.ofResult (page v) (tr v c) (m.translating cb fault).epoch) } := by
    rw [target_mmu h.accessors, translateAddr_miss hmiss h.translate, hq]
    simp only [Except.isOk, Except.toBool, if_true]
    unfold tlbFill
    rw [if_pos (by simpa [h.tlbEnabled, hf v c] using hoff)]
    rfl
  have hhit : tlbHit ((m.translating cb fault).target tr v c).2 v = true := by
    rw [hfill]
    simp [tlbHit, h.tlbEnabled, TlbEntry.ofResult]
  show (Mmu.target ((m.translating cb fault).target tr v c).2 tr v c').1 = _
  rw [target_mmu (h.target v c).accessors, translateAddr_hit hhit, hfill]
  simp only [Function.update_self]
  exact Translate.ClassUniform.outcome_entry hu hq _ rfl c'

end Mmu

/-- For a callback that is page-uniform within each class, every access sequence gives each
access its own class's outcome exactly when the classes agree wherever one of them can
fill the entry the others then use. -/
theorem tlb_respects_class_iff (m : Mmu) (hte : m.tlbEnabled = true) (cb : Cb) (fault : Option Cb)
    (tr : Translate) (hu : ∀ p, tr.ClassUniform p) (hf : ∀ v c, (tr v c).noFillTlb = false) :
    (∀ l v c, (((m.translating cb fault).accesses tr l).target tr v c).1 = tr.outcome v c) ↔
      tr.ClassesAgree := by
  constructor
  · intro h
    refine .of_outcome_eq fun v c c' q hq => ?_
    rw [← h [(v, c)] v c', Mmu.target_hit_after hte cb fault hu hf hq]
  · intro ha l v c
    exact ((Mmu.filled_translating m hte cb fault tr).accesses l).target_eq hu ha v c

theorem identityMap_classUniform (verdict : Access → Bool) (perms p : Byte) :
    (identityMap verdict perms).ClassUniform p :=
  fun c => ⟨_, fun _ hp => identityMap_is verdict perms hp c⟩

def permRWX : Byte := permR ||| permW ||| permX

theorem permits_permRWX (c : Access) : permits permRWX c.reqPerm = true := by
  cases c <;> decide

/-- A map that is the same for all classes: a store after a read goes where it goes without
the TLB. -/
theorem tlb_respects_class_identity :
    (((Mmu.init.translating 0 none).accesses (identityMap (fun _ => true) permRWX) [(0x1000, .read)]).target
      (identityMap (fun _ => true) permRWX) 0x1000 .write).1 =
        (identityMap (fun _ => true) permRWX).outcome 0x1000 .write := by
  refine (tlb_respects_class_iff .init rfl 0 none _ (identityMap_classUniform _ _) (fun _ _ => rfl)).2 ?_ _ _ _
  intro v c c' _ _ _
  have hp : permits (identityMap (fun _ => true) permRWX v c).perms c'.reqPerm = true := permits_permRWX c'
  rw [if_pos hp]
  exact ⟨rfl, permits_permRWX c', rfl⟩

/-- A callback that refuses every store but answers reads with write permission: after a
read of the page, the store the callback refuses goes through. -/
theorem store_goes_through_after_read :
    let tr := identityMap (fun c => c != .write) permRWX
    let m := Mmu.init.translating 0 none
    (∀ p, tr.ClassUniform p) ∧ (∀ v c, (tr v c).noFillTlb = false) ∧
    tr.outcome 0x1000 .write = .error 1 ∧
    (m.target tr 0x1000 .write).1 = .error 1 ∧
    ((m.accesses tr [(0x1000, .read)]).target tr 0x1000 .write).1 = .ok 0x1000 := by
  refine ⟨identityMap_classUniform _ _, fun _ _ => rfl, ?_, ?_, ?_⟩ <;> decide +kernel

end Rk65c02
