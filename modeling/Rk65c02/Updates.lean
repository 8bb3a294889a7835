import Rk65c02.BlockShape
import Rk65c02.Tlb

/-! The notification of mapping changes. The history of the calls decides which pages are
marked when a batch is applied, and the batch drops what is cached for them. -/

namespace Rk65c02

variable {H : Type}

/-- The calls by which a host reports that its mapping has changed. -/
inductive UpdateCall
  | beginUpdate
  | markVpage (vpage : Byte)
  | markVrange (first last : Addr)
  | endUpdate

namespace UpdateCall

def hostCall : UpdateCall → HostCall
  | beginUpdate => .mmuBeginUpdate
  | markVpage vpage => .mmuMarkChangedVpage vpage
  | markVrange first last => .mmuMarkChangedVrange first last
  | endUpdate => .mmuEndUpdate

/-- The pages that a call reports. A range that ends before it starts goes round. -/
def reports : UpdateCall → Byte → Bool
  | markVpage vpage, p => p == vpage
  | markVrange first last, p =>
    if first ≤ last then decide (page first ≤ p) && decide (p ≤ page last)
    else decide (page first ≤ p) || decide (p ≤ page last)
  | _, _ => false

/-- The pages that a call marks: all of them for a range that goes round. -/
def marks : UpdateCall → Byte → Bool
  | markVrange first last, p => if first ≤ last then decide (page first ≤ p) && decide (p ≤ page last) else true
  | c, p => c.reports p

/-- The pages reported since the last `endUpdate`. The latest call comes first. -/
def reported : List UpdateCall → Byte → Bool
  | [], _ => false
  | endUpdate :: _, _ => false
  | c :: cs, p => c.reports p || reported cs p

/-- The pages marked since the last `beginUpdate` or `endUpdate`. -/
def standing : List UpdateCall → Byte → Bool
  | [], _ => false
  | beginUpdate :: _, _ => false
  | endUpdate :: _, _ => false
  | c :: cs, p => c.marks p || standing cs p

end UpdateCall

theorem Mmu.endUpdate_enabled (m : Mmu) : m.endUpdate.enabled = m.enabled := by
  unfold Mmu.endUpdate
  split
  · rfl
  · split
    · rfl
    · unfold Mmu.flushChanged
      dsimp only [Mmu.refreshAccessors]
      split <;> rfl

namespace Emu

/-- The MMU is on, no batch is open, and no block is running. -/
structure Settles (e : Emu H) : Prop where
  enabled : e.mmu.enabled = true
  closed : e.mmu.updatePending = false ∧ e.mmu.changedAll = false ∧ ∀ p, e.mmu.changedVpage p = false
  idle : e.inJitRun = false
  cache : ∀ j, e.jit = some j → j.Reachable

/-- What may happen between two of the calls: guest code runs, entries of the TLB are
filled, blocks are compiled. -/
structure Between (e e' : Emu H) : Prop where
  enabled : e'.mmu.enabled = e.mmu.enabled
  pending : e'.mmu.updatePending = e.mmu.updatePending
  all : e'.mmu.changedAll = e.mmu.changedAll
  vpage : e'.mmu.changedVpage = e.mmu.changedVpage
  idle : e'.inJitRun = false
  cache : ∀ j, e'.jit = some j → j.Reachable

/-- The calls take the emulator there. The latest call comes first. -/
inductive Updates (e : Emu H) : List UpdateCall → Emu H → Prop
  | start : Updates e [] e
  | between {cs : List UpdateCall} {s s' : Emu H} (h : Updates e cs s) (hs : s.Between s') : Updates e cs s'
  | call {cs : List UpdateCall} {s : Emu H} (h : Updates e cs s) (c : UpdateCall) :
      Updates e (c :: cs) (s.hostCall c.hostCall)

/-- Nothing is cached for the page: no entry of the TLB and no code. -/
def Forgets (e : Emu H) (v : Byte) : Prop :=
  (e.mmu.tlb v).valid = false ∧
    ∀ j, e.jit = some j → ∀ b ∈ j.blocks, b.active = true → ∀ a ∈ b.addrs, page a ≠ v

/-- The open batch is the marks that stand. -/
structure Marked (cs : List UpdateCall) (e : Emu H) : Prop where
  enabled : e.mmu.enabled = true
  marks : ∀ p, (e.mmu.changedAll || e.mmu.changedVpage p) = UpdateCall.standing cs p
  pending : e.mmu.updatePending = false → ∀ p, UpdateCall.standing cs p = false
  idle : e.inJitRun = false
  cache : ∀ j, e.jit = some j → j.Reachable

variable {e e' : Emu H} {cs : List UpdateCall}

theorem jitInvalidate_idle (h : e.inJitRun = false) (f : Jit → Jit) :
    e.jitInvalidate f = { e with jit := e.jit.map f } := by
  unfold jitInvalidate
  cases hj : e.jit with
  | none =>
    cases e
    cases hj
    rfl
  | some j => simp [jitInvalidateDeferred, h]

theorem foldl_invalidateCodeVpage (h : e.inJitRun = false) (ps : List Byte) :
    ps.foldl jitInvalidateCodeVpage e =
      { e with jit := e.jit.map fun j => ps.foldl jitInvalidateBlocksForCodePage j } := by
  induction ps generalizing e with
  | nil => simp
  | cons p ps ih =>
    rw [List.foldl_cons, jitInvalidateCodeVpage, jitInvalidate_idle h]
    refine (ih (e := { e with jit := e.jit.map _ }) h).trans ?_
    rw [Option.map_map]
    rfl

/-- What applying the batch leaves of the cache. -/
def applied (m : Mmu) (j : Jit) : Jit :=
  if m.changedAll then jitBackendFlush j else (vpages.filter m.changedVpage).foldl
    jitInvalidateBlocksForCodePage j

theorem jitApplyChanged_idle (h : e.inJitRun = false) : e.jitApplyChanged =
    { e with jit := e.jit.map (applied e.mmu) } := by
  unfold jitApplyChanged applied
  split
  · next ha => exact jitInvalidate_idle h _
  · next ha => exact foldl_invalidateCodeVpage h _

end Emu

namespace Jit

theorem Reachable.foldl_codePage {j : Jit} (h : j.Reachable) (ps : List Byte) :
    (ps.foldl jitInvalidateBlocksForCodePage j).Reachable := by
  induction ps generalizing j with
  | nil => exact h
  | cons p ps ih => exact ih (.forCodePage h p)

theorem Reachable.applied {j : Jit} (h : j.Reachable) (m : Mmu) : (Emu.applied m j).Reachable := by
  unfold Emu.applied
  split
  · exact .flush h
  · exact h.foldl_codePage _

/-- The blocks that are left were there and start on none of the pages. -/
theorem Reachable.mem_foldl_codePage {j : Jit} (h : j.Reachable) {ps : List Byte} {b : Block}
    (hb : b ∈ (ps.foldl jitInvalidateBlocksForCodePage j).blocks) (ha : b.active = true) :
    b ∈ j.blocks ∧ page b.startPc ∉ ps := by
  induction ps generalizing j with
  | nil => exact ⟨hb, List.not_mem_nil⟩
  | cons p ps ih =>
    obtain ⟨hb, hps⟩ := ih (.forCodePage h p) hb
    rw [h.exact.codePage_eq, where_blocks h.exact.keyed] at hb
    obtain ⟨c, hc, rfl⟩ := List.mem_map.1 hb
    split at ha
    · cases ha
    · next hn =>
      rw [if_neg hn] at hps ⊢
      rw [ha, Bool.true_and, decide_eq_true_iff] at hn
      exact ⟨hc, fun hmem => (List.mem_cons.1 hmem).elim hn hps⟩

end Jit

namespace Emu

variable {e e' : Emu H} {cs : List UpdateCall}

theorem mem_vpages (v : Byte) : v ∈ vpages :=
  List.mem_map.2 ⟨v.toNat, List.mem_range.2 v.isLt, by rw [BitVec.ofNat_toNat, BitVec.setWidth_eq]⟩

theorem applied_clear {m : Mmu} {j : Jit} (h : j.Reachable) {v : Byte}
    (hv : (m.changedAll || m.changedVpage v) = true) {b : Block} (hb : b ∈ (applied m j).blocks)
    (ha : b.active = true) {a : Addr} (hm : a ∈ b.addrs) :
    page a ≠ v := by
  unfold applied at hb
  split at hb
  · obtain ⟨c, -, rfl⟩ := List.mem_map.1 hb
    cases ha
  · next hall =>
    rw [Bool.not_eq_true] at hall
    rw [hall, Bool.false_or] at hv
    obtain ⟨hb, hn⟩ := h.mem_foldl_codePage hb ha
    obtain ⟨insns, hfn⟩ := Option.isSome_iff_exists.1 ha
    rw [(h.shaped b hb insns hfn).onPage a hm]
    rintro rfl
    exact hn (List.mem_filter.2 ⟨mem_vpages _, hv⟩)

/-- Applying the batch forgets what is cached for a marked page. -/
theorem Marked.forgets (h : e.Marked cs) {v : Byte} (hv : UpdateCall.standing cs v = true) :
    e.mmuEndUpdate.Forgets v := by
  have hp : e.mmu.updatePending = true := by
    by_contra hn
    exact Bool.false_ne_true ((h.pending (Bool.eq_false_iff.2 hn) v).symm.trans hv)
  have hm := (h.marks v).trans hv
  unfold mmuEndUpdate
  rw [h.enabled, hp, if_neg (by decide), jitApplyChanged_idle h.idle]
  constructor
  · dsimp only
    unfold Mmu.endUpdate Mmu.flushChanged
    rw [h.enabled, hp]
    cases hall : e.mmu.changedAll with
    | true => rfl
    | false =>
      rw [hall, Bool.false_or] at hm
      simp [Mmu.refreshAccessors, hm]
  · rintro j' hj' b hb ha a hmem
    obtain ⟨j, hj, rfl⟩ := Option.map_eq_some_iff.1 hj'
    exact applied_clear (h.cache j hj) hm hb ha hmem

theorem Marked.tlb_kept (h : e.Marked cs) {v : Byte} (hv : UpdateCall.standing cs v = false) :
    e.mmuEndUpdate.mmu.tlb v = e.mmu.tlb v := by
  obtain ⟨hall, hpage⟩ := Bool.or_eq_false_iff.1 ((h.marks v).trans hv)
  unfold mmuEndUpdate
  split
  · rfl
  · next hn =>
    have hp : e.mmu.updatePending = true := by simpa [h.enabled] using hn
    simp [Mmu.endUpdate, Mmu.flushChanged, Mmu.refreshAccessors, h.enabled, hp, hall, hpage]

theorem Settles.marked (h : e.Settles) : e.Marked [] where
  enabled := h.enabled
  marks p := by simp [h.closed, UpdateCall.standing]
  pending := fun _ _ => rfl
  idle := h.idle
  cache := h.cache

theorem Marked.between (h : e.Marked cs) (hb : e.Between e') : e'.Marked cs where
  enabled := hb.enabled.trans h.enabled
  marks p := by rw [hb.all, hb.vpage, h.marks]
  pending := by rw [hb.pending]; exact h.pending
  idle := hb.idle
  cache := hb.cache

/-- A mark adds its pages to the open batch. -/
theorem Marked.mark (h : e.Marked cs) (c : UpdateCall) {m : Mmu} (hm : m.enabled = true)
    (hp : m.updatePending = true)
    (hmarks : ∀ p, (m.changedAll || m.changedVpage p) = (c.marks p || (e.mmu.changedAll || e.mmu.changedVpage p)))
    (hc : ∀ p, UpdateCall.standing (c :: cs) p = (c.marks p || UpdateCall.standing cs p)) :
    ({ e with mmu := m } : Emu H).Marked (c :: cs) where
  enabled := hm
  marks p := by rw [hmarks, h.marks, hc]
  pending := fun hn => absurd (hp.symm.trans hn) (by decide)
  idle := h.idle
  cache := h.cache

theorem Marked.endUpdate (h : e.Marked cs) : e.mmuEndUpdate.Marked (.endUpdate :: cs) := by
  unfold mmuEndUpdate
  split
  · next hn =>
    have hp : e.mmu.updatePending = false := by simpa [h.enabled] using hn
    exact ⟨h.enabled, fun p => (h.marks p).trans (h.pending hp p), fun _ _ => rfl, h.idle, h.cache⟩
  · next hn =>
    have hp : e.mmu.updatePending = true := by simpa [h.enabled] using hn
    rw [jitApplyChanged_idle h.idle]
    refine ⟨?_, fun p => ?_, fun _ _ => rfl, h.idle, fun j' hj' => ?_⟩
    · exact e.mmu.endUpdate_enabled.trans h.enabled
    · simp [Mmu.endUpdate, Mmu.refreshAccessors, h.enabled, hp, UpdateCall.standing]
    · obtain ⟨j, hj, rfl⟩ := Option.map_eq_some_iff.1 hj'
      exact (h.cache j hj).applied _

theorem Marked.call (h : e.Marked cs) (c : UpdateCall) : (e.hostCall c.hostCall).Marked (c :: cs) := by
  cases c with
  | beginUpdate =>
    change ({ e with mmu := e.mmu.beginUpdate } : Emu H).Marked _
    rw [Mmu.beginUpdate, h.enabled]
    exact ⟨rfl, fun _ => rfl, fun _ _ => rfl, h.idle, h.cache⟩
  | markVpage v =>
    refine h.mark _ ?_ ?_ (fun p => ?_) fun _ => rfl
    · simp [Mmu.markChangedVpage, Mmu.refreshAccessors, h.enabled]
    · simp [Mmu.markChangedVpage, Mmu.refreshAccessors, h.enabled]
    · by_cases hpv : p = v <;>
        simp [Mmu.markChangedVpage, Mmu.refreshAccessors, h.enabled, UpdateCall.marks, UpdateCall.reports, hpv]
  | markVrange first last =>
    refine h.mark _ ?_ ?_ (fun p => ?_) fun _ => rfl
    · simp [Mmu.markChangedVrange, Mmu.refreshAccessors, h.enabled]
      split <;> rfl
    · simp [Mmu.markChangedVrange, Mmu.refreshAccessors, h.enabled]
      split <;> rfl
    · by_cases hle : first ≤ last <;>
        simp [Mmu.markChangedVrange, Mmu.refreshAccessors, h.enabled, UpdateCall.marks, hle, Bool.or_comm,
          Bool.or_left_comm]
  | endUpdate => exact h.endUpdate

theorem Updates.marked (h : e.Updates cs e') (he : e.Settles) : e'.Marked cs := by
  induction h with
  | start => exact he.marked
  | between _ hs ih => exact ih.between hs
  | call _ c ih => exact ih.call c

/-- Accesses are translated by the callback, and the TLB is on and empty. -/
structure Translates (e : Emu H) : Prop where
  accessors : e.mmu.accessors = true
  active : e.mmu.identityActive = false
  enabled : e.mmu.enabled = true
  callback : e.mmu.translate.isSome
  tlb : e.mmu.tlbEnabled = true
  empty : ∀ p, (e.mmu.tlb p).valid = false

theorem Translates.call (h : e.Translates) (c : UpdateCall) : (e.hostCall c.hostCall).Translates := by
  obtain ⟨hacc, hid, hon, hcb, htlb, hempty⟩ := h
  cases c with
  | beginUpdate => constructor <;> simp [UpdateCall.hostCall, hostCall, mmuBeginUpdate, Mmu.beginUpdate, *]
  | markVpage v =>
    constructor <;> simp [UpdateCall.hostCall, hostCall, mmuMarkChangedVpage, Mmu.markChangedVpage,
      Mmu.refreshAccessors, *]
  | markVrange first last =>
    by_cases hle : first ≤ last <;> constructor <;>
      simp [UpdateCall.hostCall, hostCall, mmuMarkChangedVrange, Mmu.markChangedVrange, Mmu.refreshAccessors, *]
  | endUpdate =>
    change e.mmuEndUpdate.Translates
    unfold mmuEndUpdate
    split
    · exact ⟨hacc, hid, hon, hcb, htlb, hempty⟩
    · next hn =>
      have hp : e.mmu.updatePending = true := by simpa [hon] using hn
      have hempty' : ∀ p, (e.mmu.endUpdate.tlb p).valid = false := by
        intro p
        cases hall : e.mmu.changedAll <;> cases hpage : e.mmu.changedVpage p <;>
          simp [Mmu.endUpdate, Mmu.flushChanged, Mmu.tlbFlush, Mmu.refreshAccessors, TlbEntry.zero, *]
      cases hall : e.mmu.changedAll <;> refine ⟨?_, ?_, ?_, ?_, ?_, hempty'⟩ <;>
        simp [Mmu.endUpdate, Mmu.flushChanged, Mmu.tlbFlush, Mmu.refreshAccessors, *]

theorem updates_of (h : e.Translates) (cs : List UpdateCall) : ∃ s, e.Updates cs s ∧ s.Translates := by
  induction cs with
  | nil => exact ⟨e, .start, h⟩
  | cons c cs ih =>
    obtain ⟨s, hs, ht⟩ := ih
    exact ⟨_, .call hs c, ht.call c⟩

theorem physRead1_quiet (tr : Translate) (e : Emu Unit) (a : PAddr) : (e.physRead1 (quietHost tr) a).2 = e := by
  have hdev : ∀ l, (e.deviceRead1 (quietHost tr) l).2 = e := by
    intro l
    unfold deviceRead1
    split
    · rfl
    · split <;> rfl
  unfold physRead1 busRead1Phys busRead1
  split
  · exact hdev _
  · exact hdev _

/-- A guest that reads a page has its entry of the TLB filled. -/
theorem Translates.read {e : Emu Unit} (h : e.Translates) (a : Addr) : ∃ x t,
    e.memRead1 (quietHost identity) a .read = .ok x { e with mmu := { e.mmu with tlb := t } } ∧
    (t (page a)).valid = true := by
  have hmiss : tlbHit e.mmu a = false := by simp [tlbHit, h.empty]
  have hout : identity.outcome a .read = .ok (a.setWidth 32) := by
    have hlt : (a.setWidth 32).toNat < physMax := by
      rw [BitVec.toNat_setWidth, physMax]
      omega
    unfold Translate.outcome checkResult identity
    dsimp only
    rw [if_neg (by decide), if_neg (by decide), if_neg (Nat.not_le.2 hlt)]
  have hfill : tlbFill e.mmu a (identity a .read) = { e.mmu with
      tlb := Function.update e.mmu.tlb (page a)
        ⟨true, page a, a.setWidth 32 &&& 0xFFFFFF00, 7, e.mmu.epoch⟩ } := by
    simp [tlbFill, identity, h.tlb]
  have htr : e.mmuTranslateAddr (quietHost identity) a .read =
      (.ok (a.setWidth 32), { e with mmu := tlbFill e.mmu a (identity a .read) }) := by
    unfold mmuTranslateAddr
    rw [Mmu.translateAddr_miss hmiss h.callback]
    change (identity.outcome a .read, { e with mmu := if (identity.outcome a .read).isOk then _ else _ }) = _
    rw [hout]
    rfl
  rw [hfill] at htr
  have hread : ∃ x, e.memRead1 (quietHost identity) a .read = .ok x { e with mmu := { e.mmu with
      tlb := Function.update e.mmu.tlb (page a)
        ⟨true, page a, a.setWidth 32 &&& 0xFFFFFF00, 7, e.mmu.epoch⟩ } } := by
    unfold memRead1 memReadMmu
    rw [if_pos h.accessors, htr]
    exact ⟨_, congrArg (Resumption.Out.ok _) (physRead1_quiet identity _ _)⟩
  obtain ⟨x, hx⟩ := hread
  exact ⟨x, _, hx, congrArg TlbEntry.valid (Function.update_self (page a) _ e.mmu.tlb)⟩

end Emu

/-- A page that no mark stands for keeps its entry of the TLB, if the guest reads it before the batch
is applied. -/
theorem kept_after_read {cs : List UpdateCall} {a : Addr} (hn : UpdateCall.standing cs (page a) = false) :
    ∃ (e s s' : Emu Unit) (x : Byte), e.Settles ∧ e.Updates cs s ∧
      s.memRead1 (quietHost identity) a .read = .ok x s' ∧ s.Between s' ∧ ¬s'.mmuEndUpdate.Forgets (page a) := by
  let e : Emu Unit := (init (ramBus fun _ => 0) () ⟨0, 0, 0, 0, 0, 0⟩).mmuSet (some 0) none true false
  have he : e.Settles := ⟨rfl, ⟨rfl, rfl, fun _ => rfl⟩, rfl, nofun⟩
  obtain ⟨s, hs, ht⟩ := Emu.updates_of (e := e) ⟨rfl, rfl, rfl, rfl, rfl, fun _ => rfl⟩ cs
  obtain ⟨x, t, hx, hv⟩ := ht.read a
  have hm := hs.marked he
  have hb : s.Between { s with mmu := { s.mmu with tlb := t } } := ⟨rfl, rfl, rfl, rfl, hm.idle, hm.cache⟩
  refine ⟨e, s, _, x, he, hs, hx, hb, fun hf => ?_⟩
  have hkept := hf.1
  rw [(hm.between hb).tlb_kept hn] at hkept
  exact Bool.false_ne_true (hkept.symm.trans hv)

theorem exists_page (v : Byte) : ∃ a : Addr, page a = v := by
  refine ⟨v.setWidth 16 <<< 8, BitVec.eq_of_toNat_eq ?_⟩
  have hv := v.isLt
  rw [toNat_page, BitVec.toNat_shiftLeft, BitVec.toNat_setWidth, Nat.shiftLeft_eq]
  omega

/-- Every `endUpdate` forgets the pages reported since the last one, exactly if each of them
has been marked after the last `beginUpdate`. -/
theorem reported_pages_forgotten_iff (cs : List UpdateCall) :
    (∀ (H : Type) (e e' : Emu H), e.Settles → e.Updates cs e' →
      ∀ v, UpdateCall.reported cs v = true → e'.mmuEndUpdate.Forgets v) ↔
    ∀ v, UpdateCall.reported cs v = true → UpdateCall.standing cs v = true := by
  constructor
  · intro h v hv
    by_contra hn
    obtain ⟨a, rfl⟩ := exists_page v
    obtain ⟨e, s, s', x, he, hs, -, hb, hkept⟩ := kept_after_read (Bool.eq_false_iff.2 hn)
    exact hkept (h Unit e s' he (.between hs hb) _ hv)
  · intro h H e e' he hu v hv
    exact (hu.marked he).forgets (h v hv)

/-- A page is compiled, reported, and a batch is begun: the report is lost. -/
theorem begin_discards_report : ∃ b e, lastPageEmu.jitCompileBlock (quietHost identity)
    0x0200 = .ok b e ∧ e.Settles ∧
    UpdateCall.reported [.beginUpdate, .markVpage 2] 2 = true ∧
    ¬((e.hostCall (.mmuMarkChangedVpage 2)).hostCall .mmuBeginUpdate).mmuEndUpdate.Forgets 2 := by
  have hany : ((lastPageEmu.jitCompileBlock (quietHost identity) 0x0200).state?.any fun e =>
      e.mmu.enabled && !e.mmu.updatePending && !e.mmu.changedAll && !e.inJitRun &&
        Emu.vpages.all (fun p => !e.mmu.changedVpage p) &&
        ((((e.hostCall (.mmuMarkChangedVpage 2)).hostCall .mmuBeginUpdate).mmuEndUpdate).mmu.tlb 2).valid) =
          true := by
    decide +kernel
  cases hc : lastPageEmu.jitCompileBlock (quietHost identity) 0x0200 with
  | ok b e =>
    rw [hc] at hany
    simp only [Resumption.Out.state?, Option.any_some, Bool.and_eq_true, Bool.not_eq_true',
      List.all_eq_true] at hany
    obtain ⟨⟨⟨⟨⟨hon, hp⟩, hall⟩, hidle⟩, hpage⟩, htlb⟩ := hany
    refine ⟨b, e, rfl, ⟨hon, ⟨hp, hall, fun p => hpage p (Emu.mem_vpages p)⟩, hidle, fun j hj => ?_⟩,
      rfl, fun hf => ?_⟩
    · exact .compile .create rfl hc hj
    · exact Bool.false_ne_true (hf.1.symm.trans htlb)
  | exit e =>
    rw [hc] at hany
    cases hany
  | stuck =>
    rw [hc] at hany
    cases hany

end Rk65c02
