import Rk65c02.CodeCoherence
import Rk65c02.Updates

/-! Sessions in which the host changes its mapping between runs. A batch that marks every page it
changes leaves the TLB and the cache in agreement with the new mapping. -/

namespace Rk65c02

variable {H : Type} {hc : HostCode H} {tr tr' : Translate}

/-- The mappings agree on the pages that are not marked. -/
def Translate.AgreesOff (tr tr' : Translate) (marked : Byte → Bool) : Prop :=
  ∀ v c, marked (page v) = false → tr'.outcome v c = tr.outcome v c

/-- A report of changed pages, as the host makes it inside a batch. -/
inductive PageMark
  | vpage (p : Byte)
  | vrange (first last : Addr)
  deriving DecidableEq

namespace PageMark

def call : PageMark → UpdateCall
  | vpage p => .markVpage p
  | vrange first last => .markVrange first last

/-- The pages for which the reports are made. -/
def covers (marks : List PageMark) (p : Byte) : Bool := marks.any fun m => m.call.marks p

end PageMark

namespace Emu

/-- A batch in which the host goes to the state `h` and reports pages. -/
def remap (e : Emu H) (h : H) (marks : List PageMark) : Emu H :=
  (marks.foldl (fun (s : Emu H) m => s.hostCall m.call.hostCall) { e.mmuBeginUpdate with host := h }).mmuEndUpdate

/-- The emulator inside the batch. -/
def inBatch (e : Emu H) (h : H) (all : Bool) (vpage : Byte → Bool) : Emu H :=
  { e with
    host := h
    mmu := { e.mmu with updatePending := true, changedAll := all, changedVpage := vpage } }

section Batch

variable {wt : Watch tr} {e : Emu H} (h : e.Coherent hc wt) (s : H)

include h

theorem inBatch_begin : { e.mmuBeginUpdate with host := s } = e.inBatch s false fun _ => false := by
  simp [mmuBeginUpdate, Mmu.beginUpdate, inBatch, h.maps.enabled]

theorem inBatch_mark (all : Bool) (vpage : Byte → Bool) (m : PageMark) : ∃ all' vpage',
    (e.inBatch s all vpage).hostCall m.call.hostCall = e.inBatch s all' vpage' ∧
      ∀ p, (all' || vpage' p) = (m.call.marks p || (all || vpage p)) := by
  have hen := h.maps.enabled
  have hid := h.maps.identity
  have hacc := h.accessors
  cases m with
  | vpage v =>
    refine ⟨all, Function.update vpage v true, ?_, fun p => ?_⟩
    · simp [PageMark.call, UpdateCall.hostCall, hostCall, mmuMarkChangedVpage, Mmu.markChangedVpage,
        Mmu.refreshAccessors,
        inBatch, hen, hid, hacc]
    · by_cases hpv : p = v <;> simp [PageMark.call, UpdateCall.marks, UpdateCall.reports, hpv]
  | vrange first last =>
    by_cases hle : first ≤ last
    · refine ⟨all, fun p => vpage p || (decide (page first ≤ p) && decide (p ≤ page last)), ?_, fun p => ?_⟩
      · simp [PageMark.call, UpdateCall.hostCall, hostCall, mmuMarkChangedVrange, Mmu.markChangedVrange,
          Mmu.refreshAccessors, inBatch, hen, hid, hacc, hle]
      · simp [PageMark.call, UpdateCall.marks, hle, Bool.or_comm, Bool.or_assoc]
    · refine ⟨true, vpage, ?_, fun p => ?_⟩
      · simp [PageMark.call, UpdateCall.hostCall, hostCall, mmuMarkChangedVrange, Mmu.markChangedVrange,
          Mmu.refreshAccessors, inBatch, hen, hid, hacc, hle]
      · simp [PageMark.call, UpdateCall.marks, hle]

theorem inBatch_foldl (marks : List PageMark) (all : Bool) (vpage : Byte → Bool) : ∃ all' vpage',
    marks.foldl (fun (s : Emu H) m => s.hostCall m.call.hostCall) (e.inBatch s all vpage) =
    e.inBatch s all' vpage' ∧
      ∀ p, (all' || vpage' p) = (PageMark.covers marks p || (all || vpage p)) := by
  induction marks generalizing all vpage with
  | nil => exact ⟨all, vpage, rfl, fun _ => rfl⟩
  | cons m ms ih =>
    obtain ⟨all₁, vpage₁, h₁, hm₁⟩ := inBatch_mark h s all vpage m
    obtain ⟨all₂, vpage₂, h₂, hm₂⟩ := ih all₁ vpage₁
    refine ⟨all₂, vpage₂, ?_, fun p => ?_⟩
    · rw [List.foldl_cons, h₁, h₂]
    · rw [hm₂, hm₁, PageMark.covers, PageMark.covers, List.any_cons, ← Bool.or_assoc, Bool.or_comm (List.any _ _)]

/-- A batch applies the reports of its pages, all at once. -/
theorem remap_eq (marks : List PageMark) : ∃ all vpage, e.remap s marks = (e.inBatch s all vpage).mmuEndUpdate ∧
    ∀ p, (all || vpage p) = PageMark.covers marks p := by
  obtain ⟨all, vpage, hb, hm⟩ := inBatch_foldl h s marks false fun _ => false
  refine ⟨all, vpage, ?_, fun p => (hm p).trans (Bool.or_false _)⟩
  rw [remap, inBatch_begin h, hb]

end Batch

end Emu

namespace Jit

theorem Coheres.retag {T T' : Prop} {bus : Bus} {j : Jit} (h : j.Coheres T tr bus) (hT : T' → T) (hs : j.Settled)
    (ha : ∀ b ∈ j.blocks, ∀ insns, b.fn = some insns → ∀ c, ∀ v, page v = page b.startPc →
      tr'.outcome v c = tr.outcome v c) :
    j.Coheres T' tr' bus := by
  refine ⟨h.exact, ⟨h.exact.keyed, fun b hb insns hfn => .inr ?_⟩, fun hT' b hb insns hfn => .inl fun hbk => ?_⟩
  · have hsh := (h.formed hb hfn).1
    obtain ⟨hsome, hnone⟩ := ((h.tagged.2 b hb insns hfn).resolve_left nofun).2
    have hp : tr'.paddr b.startPc .fetch = tr.paddr b.startPc .fetch := by
      rw [Translate.paddr, Translate.paddr, ha b hb insns hfn .fetch _ rfl]
    exact ⟨hsh, hp ▸ hsome, hp ▸ hnone⟩
  · have hsh := (h.formed hb hfn).1
    have heq : ∀ y ∈ b.addrs, tr'.outcome y .fetch = tr.outcome y .fetch := fun y hy =>
      ha b hb insns hfn .fetch y (hsh.onPage y hy)
    refine (h.current (hT hT') hs hb hfn fun y hy p hp => hbk y hy p ((heq y hy).trans hp)).congr fun y hy => ?_
    rw [Translate.fetchByte, Translate.fetchByte, heq y (hsh.bytes ▸ hy)]

/-- What a batch leaves of the cache starts on no page of the batch. -/
theorem Exact.mem_foldl_codePage {j : Jit} (h : j.Exact) {ps : List Byte} {b : Block}
    (hb : b ∈ (ps.foldl jitInvalidateBlocksForCodePage j).blocks) (ha : b.active = true) :
    b ∈ j.blocks ∧ Rk65c02.page b.startPc ∉ ps := by
  induction ps generalizing j with
  | nil => exact ⟨hb, List.not_mem_nil⟩
  | cons p ps ih =>
    obtain ⟨hmem, hps⟩ := ih (stable_exact.moves h (moves_forCodePage h.keyed p)) hb
    rw [h.codePage_eq] at hmem
    obtain ⟨hj, hp⟩ := where_active h.keyed hmem ha
    exact ⟨hj, fun hmem => (List.mem_cons.1 hmem).elim (of_decide_eq_false hp) hps⟩

theorem moves_foldl_codePage {j : Jit} (h : j.Keyed) (ps : List Byte) :
    Moves j (ps.foldl jitInvalidateBlocksForCodePage j) := by
  induction ps generalizing j with
  | nil => exact .refl
  | cons p ps ih =>
    have hm := moves_forCodePage h p
    exact hm.trans (ih (Moves.keyed hm h))

theorem moves_applied {j : Jit} (h : j.Keyed) (m : Mmu) : Moves j (Emu.applied m j) := by
  unfold Emu.applied
  split
  · exact .single .flush
  · exact moves_foldl_codePage h _

theorem Exact.applied_unmarked {j : Jit} (h : j.Exact) {m : Mmu} {b : Block} (hb : b ∈ (Emu.applied m j).blocks)
    (ha : b.active = true) : (m.changedAll || m.changedVpage (Rk65c02.page b.startPc)) = false := by
  unfold Emu.applied at hb
  split at hb
  · cases (flush_inactive hb).symm.trans ha
  · next hall =>
    have hn := (h.mem_foldl_codePage hb ha).2
    rw [Bool.or_eq_false_iff, Bool.eq_false_iff, Bool.eq_false_iff]
    exact ⟨hall, fun hp => hn (List.mem_filter.2 ⟨Emu.mem_vpages _, hp⟩)⟩

end Jit

/-- What the TLB holds after a batch it held before, for a page that was not marked. -/
theorem Mmu.endUpdate_hit {m : Mmu} (hen : m.enabled = true) (hp : m.updatePending = true) {v : Addr}
    (hv : tlbHit m.endUpdate v = true) : (m.changedAll || m.changedVpage (page v)) = false ∧ tlbHit m v = true ∧
      m.endUpdate.tlb (page v) = m.tlb (page v) := by
  unfold Mmu.endUpdate Mmu.flushChanged at hv ⊢
  rw [hen, hp] at hv ⊢
  cases hall : m.changedAll with
  | true => simp [hall, tlbHit, Mmu.refreshAccessors, Mmu.tlbFlush, TlbEntry.zero] at hv
  | false =>
    cases hpg : m.changedVpage (page v) with
    | true => simp [hall, hpg, tlbHit, Mmu.refreshAccessors] at hv
    | false =>
      refine ⟨rfl, ?_, by simp [hpg, Mmu.refreshAccessors]⟩
      simpa [hall, hpg, tlbHit, Mmu.refreshAccessors] using hv

theorem Mmu.endUpdate_fields {m : Mmu} (hen : m.enabled = true) (hid : m.identityActive = false)
    (hacc : m.accessors = true) : m.endUpdate.enabled = true ∧ m.endUpdate.identityActive = false ∧
      m.endUpdate.accessors = true ∧ m.endUpdate.translate = m.translate := by
  unfold Mmu.endUpdate Mmu.flushChanged
  split
  · exact ⟨hen, hid, hacc, rfl⟩
  split
  · exact ⟨hen, hid, hacc, rfl⟩
  split <;> simp [Mmu.refreshAccessors, Mmu.tlbFlush, hen, hid]

namespace Emu

variable {e : Emu H}

theorem endUpdate_idle (hin : e.inJitRun = false) (s : H) (all : Bool) (vpage : Byte → Bool)
    (hen : e.mmu.enabled = true) : (e.inBatch s all vpage).mmuEndUpdate =
      { e.inBatch s all vpage with
        jit := e.jit.map (applied (e.inBatch s all vpage).mmu), mmu :=
  (e.inBatch s all vpage).mmu.endUpdate } := by
  unfold mmuEndUpdate
  rw [show (e.inBatch s all vpage).mmu.enabled = true from hen,
    show (e.inBatch s all vpage).mmu.updatePending = true from rfl, jitApplyChanged_idle
      (e := e.inBatch s all vpage) hin]
  rfl

/-- A batch that reports every page it changes leaves everything in agreement with the new mapping. -/
theorem Ready.remap {wt : Watch tr} {wt' : Watch tr'} (h : e.Ready hc wt) {s : H} {marks : List PageMark}
    (htr : hc.callback e.mmu s = tr') (hagree : tr.AgreesOff tr' (PageMark.covers marks))
    (hcode : wt'.code → wt.code)
    (hmem : ∀ bus, wt.memory bus → wt'.memory bus) : (e.remap s marks).Ready hc wt' := by
  obtain ⟨all, vpage, hr, hm⟩ := remap_eq h.coherent s marks
  obtain ⟨hmaps, hacc, hsep, hbus, hcache⟩ := h.coherent
  have hen := hmaps.enabled
  have hbatch : (e.inBatch s all vpage).Fit ∧ (e.inBatch s all vpage).CacheSettled :=
    ⟨⟨h.fit.cache, h.fit.outside⟩, h.settled⟩
  have hset : (e.inBatch s all vpage).mmuEndUpdate.CacheSettled := hbatch.2.hostCall .mmuEndUpdate
  have hfit : (e.inBatch s all vpage).mmuEndUpdate.Fit :=
    ⟨hbatch.1.cache.hostCall Jit.stable_filled .mmuEndUpdate,
      by rw [endUpdate_idle h.fit.outside _ _ _ hen]; exact h.fit.outside⟩
  rw [hr]
  refine ⟨hfit, hset, ?_⟩
  rw [endUpdate_idle h.fit.outside _ _ _ hen] at hset ⊢
  have hf := Mmu.endUpdate_fields (m := (e.inBatch s all vpage).mmu) hen hmaps.identity hacc
  refine ⟨⟨hf.1, hf.2.1, ?_, ?_, fun v c hv => ?_⟩, hf.2.2.1, hsep, hmem _ hbus, fun k hk => ?_⟩
  · exact hf.2.2.2 ▸ hmaps.translate
  · rw [← htr, HostCode.callback, HostCode.callback, hf.2.2.2]
    rfl
  · obtain ⟨hu, hhit, hsame⟩ := Mmu.endUpdate_hit (m := (e.inBatch s all vpage).mmu) hen rfl hv
    rw [hagree v c ((hm (page v)).symm.trans hu)]
    exact (congrArg (fun t : TlbEntry => t.outcome v c) hsame).trans (hmaps.entries v c hhit)
  · obtain ⟨j, hj, rfl⟩ := Option.map_eq_some_iff.1 hk
    have hcj := hcache j hj
    have hk' : (applied (e.inBatch s all vpage).mmu j).Coheres wt.code tr e.bus :=
      hcj.moves (Jit.moves_applied hcj.exact.keyed _) fun b _ _ _ _ _ hc =>
        .inl (hc.resolve_right ((h.settled j hj).not_unsure b))
    refine hk'.retag hcode (hset _ hk) fun b hb insns hfn c v hv => hagree v c ?_
    have ha : b.active = true := Option.isSome_iff_exists.2 ⟨insns, hfn⟩
    rw [hv, ← hm]
    exact hcj.exact.applied_unmarked hb ha

/-- Setting the MMU up flushes everything. -/
theorem Ready.set (hfit : e.Fit) (hx : e.Cached Jit.Exact) (hsep : AddressedStore.Separate e.bus.locate) (cb : Cb)
    (f : Option Cb) {wt : Watch (hc.translate e.host cb)} (hmem : wt.memory e.bus) :
    (e.mmuSet (some cb) f true false).Ready hc wt := by
  have hset : e.mmuSet (some cb) f true false = { e with
      mmu := (e.mmu.set (some cb) f true false).refreshAccessors.tlbFlush, jit := e.jit.map jitBackendFlush } :=
    jitInvalidate_idle (e := { e with mmu := (e.mmu.set (some cb) f true false).refreshAccessors.tlbFlush })
      hfit.outside _
  refine ⟨⟨hfit.cache.hostCall Jit.stable_filled (.mmuSet (some cb) f true false),
    by rw [hset]; exact hfit.outside⟩, ?_, ?_⟩
  · rw [hset]
    rintro k hk
    obtain ⟨j, -, rfl⟩ := Option.map_eq_some_iff.1 hk
    exact ⟨rfl, rfl⟩
  · rw [hset]
    refine ⟨⟨rfl, rfl, rfl, rfl, fun v c hv => ?_⟩, rfl, hsep, hmem, fun k hk => ?_⟩
    · simp [tlbHit, Mmu.tlbFlush, TlbEntry.zero] at hv
    · obtain ⟨j, hj, rfl⟩ := Option.map_eq_some_iff.1 hk
      rw [Cached, hj] at hx
      exact Jit.coheres_flush hx _ _ _

theorem Ready.call {wt : Watch tr} (h : e.Ready hc wt) {c : HostCall}
    (hcall : c.remaps = false ∨ c = .jitEnable true) :
    (e.hostCall c).Ready hc wt := by
  refine ⟨⟨h.fit.cache.hostCall Jit.stable_filled c, (hostCall_frame e c).inJitRun.trans h.fit.outside⟩,
    h.settled.hostCall c, ?_⟩
  obtain hcall | rfl := hcall
  · exact h.coherent.hostCall hcall
  · obtain ⟨hm, hacc, hsep, hmem, hcache⟩ := h.coherent
    refine ⟨hm.frame rfl rfl, hacc, hsep, hmem, fun j hj => ?_⟩
    cases hj
    cases hk : e.jit with
    | none => exact Jit.coheres_create _ tr e.bus
    | some k => exact hcache k hk

theorem Ready.done {wt : Watch tr} (hk : hc.KeepsMap) (h : e.Ready hc wt) {n : Nat}
    (hd : (e.start.steps hc n).phase = .done) : (e.start.steps hc n).emu.Ready hc wt :=
  have hn := h.steps hk n
  ⟨h.fit.done n hd, hn.1.settled, hn.2⟩

end Emu

/-- A session begun with a memory: the mapping in force and the emulator between two calls of the
library. The host sets the MMU up, then runs the guest, changes the mapping in batches and makes other
calls, in any order; all mappings are among `M`. -/
inductive Session (hc : HostCode H) (M : Translate → Prop) (bus : Bus) : Translate → Emu H → Prop
  | set {e : Emu H} {cb : Cb} {f : Option Cb} (hfit : e.Fit) (hx : e.Cached Jit.Exact)
    (hsep : AddressedStore.Separate e.bus.locate) (hbus : e.bus = bus) (hM : M (hc.translate e.host cb)) :
    Session hc M bus (hc.translate e.host cb) (e.mmuSet (some cb) f true false)
  | run {tr : Translate} {e : Emu H} (h : Session hc M bus tr e) {n : Nat}
      (hd : (e.start.steps hc n).phase = .done) :
    Session hc M bus tr (e.start.steps hc n).emu
  | remap {tr : Translate} {e : Emu H} (h : Session hc M bus tr e) {s : H} {marks : List PageMark}
    (hagree : tr.AgreesOff (hc.callback e.mmu s) (PageMark.covers marks)) (hM : M (hc.callback e.mmu s)) :
    Session hc M bus (hc.callback e.mmu s) (e.remap s marks)
  | call {tr : Translate} {e : Emu H} (h : Session hc M bus tr e) {c : HostCall}
    (hcall : c.remaps = false ∨ c = .jitEnable true) : Session hc M bus tr (e.hostCall c)
  | regs {tr : Translate} {e : Emu H} (h : Session hc M bus tr e) (r : Regs) :
      Session hc M bus tr { e with regs := r }

theorem Session.separate {M : Translate → Prop} {bus : Bus} {e : Emu H} (h : Session hc M bus tr e) :
    AddressedStore.Separate bus.locate := by
  induction h with
  | set _ _ hsep hbus _ => exact hbus ▸ hsep
  | run _ _ ih => exact ih
  | remap _ _ _ ih => exact ih
  | call _ _ ih => exact ih
  | regs _ _ ih => exact ih

theorem Session.ready {M : Translate → Prop} {bus : Bus} {T : Prop} {Q : Bus → Prop} (hp : ∀ tr, M tr → tr.Paged)
    (ht : ∀ tr, M tr → T → tr.Tracked) (hs : ∀ tr, M tr → tr.Keeps Q) (hk : hc.KeepsMap) (hQ : Q bus) {e : Emu H}
    (h : Session hc M bus tr e) : ∃ hM : M tr, e.Ready hc ⟨T, Q, hp tr hM, ht tr hM, hs tr hM⟩ := by
  induction h with
  | set hfit hx hsep hbus hM => exact ⟨hM, .set hfit hx hsep _ _ (hbus ▸ hQ)⟩
  | run _ hd ih => exact ih.imp fun _ hr => hr.done hk hd
  | remap _ hagree hM ih =>
    obtain ⟨_, hr⟩ := ih
    exact ⟨hM, hr.remap rfl hagree id fun _ => id⟩
  | call _ hcall ih => exact ih.imp fun _ hr => hr.call hcall
  | regs _ r ih =>
    obtain ⟨hM, hfit, hset, hco⟩ := ih
    exact ⟨hM, ⟨hfit.cache, hfit.outside⟩, hset, hco.frame rfl rfl rfl rfl⟩

/-- In a session whose mappings are paged and tracked, under callbacks that leave the mapping alone, at
every step of every run each compiled block is the code that the guest's memory holds at its addresses
under the mapping in force. -/
theorem compiled_code_current (hk : hc.KeepsMap) {bus : Bus} {e : Emu H}
    (h : Session hc (fun tr => tr.Paged ∧ tr.Tracked) bus tr e) (n : Nat) {j : Jit}
    (hj : (e.start.steps hc n).emu.jit = some j) {b : Block} (hb : b ∈ j.blocks) {insns : List Instruction}
    (hfn : b.fn = some insns) : b.Current tr (e.start.steps hc n).emu.bus insns := by
  obtain ⟨_, hr⟩ := h.ready (T := True) (Q := fun _ => True) (fun _ h => h.1) (fun _ h _ => h.2)
    (fun _ _ _ _ _ _ _ _ _ _ => trivial) hk trivial
  obtain ⟨hcl, hco⟩ := hr.steps hk n
  exact (hco.cache j hj).current trivial (hcl.settled j hj) hb hfn

theorem pageTable_tracked {frame perms : Byte → Byte} (h : ∀ p q, frame p = 0xFF → frame q = 0xFF → p = q) :
    (pageTable frame perms).Tracked := by
  intro v w p hv hw
  have hp : ∀ v c, (pageTable frame perms).outcome v c = .ok p → 0xFF00 ≤ p.toNat → frame (page v) = 0xFF := by
    intro v c hv hge
    have hf := (frame (page v)).isLt
    rw [(pageTable_ok.1 hv).2, toNat_frame_or] at hge
    exact BitVec.eq_of_toNat_eq (by change _ = 255; omega)
  by_cases hge : 0xFF00 ≤ p.toNat
  · exact .inl ((pageTable_paged frame perms).injective hv hw (h _ _ (hp v _ hv hge) (hp w _ hw hge)))
  · exact .inr (Nat.not_le.1 hge)

/-- Page 2 in the bank the host has selected. -/
def bankTable (bank : Bool) : Translate := pageTable (fun p => if bank && p == 2 then 3 else p) fun _ => permRWX

theorem bankTable_tracked (bank : Bool) : (bankTable bank).Paged ∧ (bankTable bank).Tracked := by
  have hlast : ∀ bank : Bool, ∀ p : Byte, (if bank && p == 2 then 3 else p) = 0xFF → p = 0xFF := by decide +kernel
  exact ⟨pageTable_paged _ _, pageTable_tracked fun p q hp hq => (hlast bank p hp).trans (hlast bank q hq).symm⟩

theorem bankTable_agrees : (bankTable false).AgreesOff (bankTable true) (PageMark.covers [.vpage 2]) := by
  intro v c hv
  have hp : (page v == 2) = false := by
    have hv : (page v == 2 || false) = false := hv
    rwa [Bool.or_false] at hv
  unfold bankTable Translate.outcome pageTable
  dsimp only
  rw [hp]
  rfl

theorem keepsMap_mapHost (tr : H → Translate) : (mapHost tr).KeepsMap := by
  refine ⟨fun h c x hx => ?_, fun h c cb => ?_⟩
  · cases c <;> cases hx
  · cases c <;> rfl

theorem Session.switch {M : Translate → Prop} {bus : Bus} {tr : H → Translate} {e : Emu H} {s t : H}
    (h : Session (mapHost tr) M bus (tr s) e) {marks : List PageMark}
    (hagree : (tr s).AgreesOff (tr t) (PageMark.covers marks)) (hM : M (tr t)) :
    Session (mapHost tr) M bus (tr t) (e.remap t marks) := .remap h hagree hM

theorem separate_ramBus (f : Addr → Byte) : AddressedStore.Separate (ramBus f).locate := by
  have hl : (ramBus f).locate = (Bus.built (fun _ => ⟨0x8000, true⟩) [.add 0 0, .add 1 0x8000]).locate := rfl
  rw [hl]
  exact Bus.locate_separate (by decide)

/-- `LDA #$01; STP` in one bank and `LDA #$02; STP` in the other. -/
def bankCode (a : Addr) : Byte := [0xA9, if page a = 2 then 0x01 else 0x02].getD (a.toNat % 256) 0xDB

def unbankedEmu : Emu Bool := (init (ramBus bankCode) false ⟨0, 0, 0, 0x0200, 0xFF, 0x20⟩).jitEnable true

def bankedEmu : Emu Bool := unbankedEmu.mmuSet (some 0) none true false

/-- The host runs the first bank, selects the second and sets the program counter back. -/
def bankSwitched : Emu Bool :=
  { (bankedEmu.start.steps (mapHost bankTable) 5).emu.remap true
    [.vpage 2] with regs := ⟨0, 0, 0, 0x0200, 0xFF, 0x20⟩ }

theorem bankSwitched_session {M : Translate → Prop} (hM : ∀ bank, M (bankTable bank)) :
    Session (mapHost bankTable) M (ramBus bankCode) (bankTable true) bankSwitched := by
  have hs : Session (mapHost bankTable) M (ramBus bankCode) (bankTable false) bankedEmu :=
    .set (e := unbankedEmu) ⟨Jit.filled_create, rfl⟩ Jit.exact_create (separate_ramBus bankCode) rfl (hM false)
  have hd : (bankedEmu.start.steps (mapHost bankTable) 5).phase = .done := by decide +kernel
  exact ((hs.run hd).switch bankTable_agrees (hM true)).regs _

/-- The block that the second bank is compiled to. -/
theorem bankSwitched_block : ∃ j b, (bankSwitched.start.steps (mapHost bankTable) 1).emu.jit = some j ∧
    b ∈ j.blocks ∧
    b.fn = some [⟨0xA9, 0x02, 0⟩, ⟨0xDB, 0, 0⟩] := by
  have hfn : ((bankSwitched.start.steps (mapHost bankTable) 1).emu.jit.map fun j => j.blocks.map Block.fn) =
      some [some [⟨0xA9, 0x02, 0⟩, ⟨0xDB, 0, 0⟩]] := by decide +kernel
  obtain ⟨j, hj, hbs⟩ := Option.map_eq_some_iff.1 hfn
  obtain ⟨b, bs, hb, hf, -⟩ := List.map_eq_cons_iff.1 hbs
  exact ⟨j, b, hj, hb ▸ List.mem_cons_self, hf⟩

/-- After the switch the address of the first program is compiled again, to the second. -/
theorem compiled_code_after_switch :
    ((bankedEmu.start.steps (mapHost bankTable) 5).emu.jit.map fun j => j.blocks.map Block.fn) =
      some [some [⟨0xA9, 0x01, 0⟩, ⟨0xDB, 0, 0⟩]] ∧
    ∃ j b, (bankSwitched.start.steps (mapHost bankTable) 1).emu.jit = some j ∧ b ∈ j.blocks ∧
      b.fn = some [⟨0xA9, 0x02, 0⟩, ⟨0xDB, 0, 0⟩] ∧
      b.Current (bankTable true) (bankSwitched.start.steps (mapHost bankTable) 1).emu.bus
        [⟨0xA9, 0x02, 0⟩, ⟨0xDB, 0, 0⟩] := by
  obtain ⟨j, b, hj, hb, hfn⟩ := bankSwitched_block
  exact ⟨by decide +kernel, j, b, hj, hb, hfn,
    compiled_code_current (keepsMap_mapHost _) (bankSwitched_session bankTable_tracked) 1 hj hb hfn⟩

/-- Whatever pages share a frame in a session of paged mappings: the report of a store leaves no
block compiled from the byte, unless the byte lies above 64K, or the block ends with the last byte
below, and the store did not go to an address of the block. -/
theorem alias_store_drops_iff (hk : hc.KeepsMap) {bus : Bus} {e : Emu H}
    (h : Session hc Translate.Paged bus tr e) (n : Nat) {j : Jit}
    (hj : (e.start.steps hc n).emu.jit = some j) {a : Addr} {p : PAddr} (hw : tr.outcome a .write = .ok p) :
    (∃ k, (e.start.steps hc n).emu.reported hc a = some k ∧ k.Clear tr p) ↔
      ∀ b ∈ j.blocks, b.active = true → b.FetchesFrom tr p →
        a ∈ b.addrs ∨ p.toNat < busSize ∧ ¬b.FetchesFrom tr 0xFFFF := by
  obtain ⟨hp, hr⟩ := h.ready (T := False) (Q := fun _ => True) (fun _ h => h) (fun _ _ h => h.elim)
    (fun _ _ _ _ _ _ _ _ _ _ => trivial) hk trivial
  obtain ⟨hcl, hco⟩ := hr.steps hk n
  have hcj := hco.cache j hj
  exact Emu.reported_clears_iff hp hj hcj.exact hcj.tagged (hcl.settled j hj) hco.maps hw

/-- The block at `$0200` is dropped by a store to `$0301`, which goes to the same bank. -/
theorem alias_store_drops_block : ∃ j k, (bankSwitched.start.steps (mapHost bankTable) 1).emu.jit = some j ∧
    ¬j.Clear (bankTable true) 0x0301 ∧
    (bankSwitched.start.steps (mapHost bankTable) 1).emu.reported (mapHost bankTable) 0x0301 = some k ∧
    k.Clear (bankTable true) 0x0301 := by
  have hany : (bankSwitched.start.steps (mapHost bankTable) 1).emu.jit.any (fun j =>
      j.blocks.all (fun b => b.addrs.all fun y => page y = 2) &&
        j.blocks.any fun b => b.active && b.addrs.contains 0x0201) = true := by decide +kernel
  obtain ⟨j, hj, hall⟩ := (Option.any_eq_true _ _).1 hany
  simp only [Bool.and_eq_true, List.all_eq_true, List.any_eq_true, decide_eq_true_eq,
    List.contains_iff_mem] at hall
  obtain ⟨hpage, b, hb, ha, hmem⟩ := hall
  have hs := bankSwitched_session (M := Translate.Paged) fun bank => (bankTable_tracked bank).1
  obtain ⟨k, hk, hcl⟩ := (alias_store_drops_iff (keepsMap_mapHost _) hs 1 hj (a := 0x0301) (p := 0x0301)
    (pageTable_ok.2 ⟨by decide, by decide⟩)).2 fun x hx _ _ => .inr ⟨by decide, by
      rintro ⟨y, hy, hf⟩
      have hn := congrArg BitVec.toNat (pageTable_ok.1 hf).2
      rw [hpage x hx y hy, toNat_frame_or] at hn
      change 65535 = 3 * 256 + _ at hn
      omega⟩
  exact ⟨j, k, hj, fun hclear => hclear b hb ha ⟨_, hmem, pageTable_ok.2 ⟨by decide, by decide⟩⟩, hk, hcl⟩

/-- A byte that none of the mappings of a session lets the guest write keeps its value, if the mappings
are the same for all accesses to a page. -/
theorem protected_byte_kept (hk : hc.KeepsMap) {bus : Bus} {p : PAddr} {e : Emu H}
    (h : Session hc (fun tr => tr.Paged ∧ ∀ v, tr.outcome v .write ≠ .ok p) bus tr e) (n : Nat) :
    (e.start.steps hc n).emu.bus.physByte p = bus.physByte p := by
  have hkeeps : ∀ tr : Translate, tr.Paged ∧ (∀ v, tr.outcome v .write ≠ .ok p) →
      tr.Keeps fun b => AddressedStore.Separate b.locate ∧ b.physByte p = bus.physByte p := by
    rintro tr ⟨-, hn⟩ b a q l v hw hl ⟨hs, hv⟩
    refine ⟨hs, (Bus.physByte_ramWrite1 hs hl (fun hpq => hn a ?_) v).trans hv⟩
    rw [hpq]
    exact hw
  obtain ⟨_, hr⟩ := h.ready (T := False) (fun _ h => h.1) (fun _ _ h => h.elim) hkeeps hk ⟨h.separate, rfl⟩
  exact (hr.steps hk n).2.memory.2

/-- Page 3 is read-only. -/
def guardedTable (_ : Unit) : Translate := pageTable id fun p => if p = 3 then permR ||| permX else permRWX

/-- `LDA #$55; STA $0300; STP`, which may not store there. -/
def guardedCode (a : Addr) : Byte := [0xA9, 0x55, 0x8D, 0x00, 0x03, 0xDB].getD (a.toNat - 0x0200) 0x00

def guardedEmu : Emu Unit := (init (ramBus guardedCode) () ⟨0, 0, 0, 0x0200, 0xFF, 0x20⟩).jitEnable true

theorem guardedTable_guards (u : Unit) : (guardedTable u).Paged ∧
    ∀ v, (guardedTable u).outcome v .write ≠ .ok 0x0300 := by
  refine ⟨pageTable_paged _ _, fun v hv => ?_⟩
  obtain ⟨hperm, hp⟩ := pageTable_ok.1 hv
  have hpage : page v = 3 := by
    have hn := congrArg BitVec.toNat hp
    rw [toNat_frame_or, id] at hn
    change 768 = _ at hn
    refine BitVec.eq_of_toNat_eq ?_
    change _ = 3
    omega
  rw [hpage] at hperm
  cases hperm

theorem protected_byte_after_fault :
    let c := (guardedEmu.mmuSet (some 0) none true false).start.steps (mapHost guardedTable) 9
    c.phase = .done ∧ c.emu.stopreason = .emuerror ∧ c.emu.mmuLastFaultAddr = 0x0300 ∧
      c.emu.bus.physByte 0x0300 = (ramBus guardedCode).physByte 0x0300 := by
  have hs : Session (mapHost guardedTable) (fun tr => tr.Paged ∧ ∀ v, tr.outcome v .write ≠ .ok 0x0300)
      (ramBus guardedCode) (guardedTable ()) (guardedEmu.mmuSet (some 0) none true false) :=
    .set (e := guardedEmu) ⟨Jit.filled_create, rfl⟩ Jit.exact_create (separate_ramBus guardedCode) rfl
      (guardedTable_guards ())
  intro c
  exact ⟨by decide +kernel, by decide +kernel, by decide +kernel, protected_byte_kept (keepsMap_mapHost _) hs 9⟩

end Rk65c02
