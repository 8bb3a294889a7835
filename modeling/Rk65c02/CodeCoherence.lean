import Rk65c02.Aliases
import Rk65c02.BusMemory
import Rk65c02.PendingWrites

/-! Compiled code under a mapping. While the mapping stands, the code of every active block is what
the memory holds where the block is fetched from, however the guest writes to it. -/

namespace Rk65c02

open Resumption

variable {H : Type} {hc : HostCode H} {tr : Translate}

/-- The call may change what is mapped, or switches the JIT on. -/
def HostCall.remaps : HostCall → Bool
  | .mmuSet _ _ _ _ | .mmuClear | .mmuBeginUpdate | .mmuMarkChangedVpage _ | .mmuMarkChangedVrange _ _
  | .mmuEndUpdate | .mmuTlbSet _ | .jitEnable true => true
  | _ => false

/-- Callbacks leave the mapping alone. -/
structure HostCode.KeepsMap (hc : HostCode H) : Prop where
  calls : ∀ h c x, x ∈ (hc.invoke h c).2 → x.remaps = false
  host : ∀ h c cb, hc.translate (hc.invoke h c).1 cb = hc.translate h cb

theorem HostCode.KeepsMap.neverEnables (h : hc.KeepsMap) : hc.NeverEnables := by
  intro s c hm
  cases h.calls s c _ hm

namespace Bus

variable {b : Bus} {p q : PAddr} {l : DevId × Addr}

/-- The byte that RAM holds at a physical address. -/
def physByte (b : Bus) (p : PAddr) : Byte := AddressedStore.load b.locate 0xFF b.cells p

/-- No handler answers for the address. -/
def Backed (b : Bus) (p : PAddr) : Prop := ∀ l, b.locate p = some l → (b.dev l.1).ram = true

theorem locate_ramWrite1 (b : Bus) (d : DevId) (off : Addr) (v : Byte) :
    (b.ramWrite1 d off v).locate = b.locate := rfl

theorem physByte_ramWrite1 (hs : AddressedStore.Separate b.locate) (hl : b.locate p = some l)
    (hne : q ≠ p) (v : Byte) :
    (b.ramWrite1 l.1 l.2 v).physByte q = b.physByte q := by
  have h : AddressedStore.load b.locate (0xFF : Byte) (AddressedStore.store b.locate b.cells (p, v)) q = _ :=
    AddressedStore.load_store_other hs (Ne.symm hne)
  rw [physByte, physByte, ← h, locate_ramWrite1, cells_ramWrite1, AddressedStore.store, hl]
  rfl

end Bus

/-- The byte that a fetch gives under the mapping. -/
def Translate.fetchByte (tr : Translate) (b : Bus) (v : Addr) : Byte :=
  (tr.outcome v .fetch).toOption.elim 0xFF b.physByte

/-- The instructions are what memory holds, if memory is RAM where they are fetched from. -/
def Block.Current (tr : Translate) (bus : Bus) (b : Block) (insns : List Instruction) : Prop :=
  (∀ y ∈ b.addrs, ∀ p, tr.outcome y .fetch = .ok p → bus.Backed p) → Reads (tr.fetchByte bus) b.startPc insns

/-- Fetched and written through different addresses are only bytes below the last page of 64K. -/
def Translate.Tracked (tr : Translate) : Prop :=
  ∀ v w p, tr.outcome v .fetch = .ok p → tr.outcome w .write = .ok p → v = w ∨ p.toNat < 0xFF00

theorem Block.Current.store {bus : Bus} {b : Block} {insns : List Instruction} {p : PAddr} {l : DevId × Addr}
    (h : b.Current tr bus insns) (hs : b.Shaped insns) (hsep : AddressedStore.Separate bus.locate)
    (hl : bus.locate p = some l) (hf : ¬b.FetchesFrom tr p) (v : Byte) :
    b.Current tr (bus.ramWrite1 l.1 l.2 v) insns := by
  intro hb
  refine (h hb).congr fun y hy => ?_
  unfold Translate.fetchByte
  cases ho : tr.outcome y .fetch with
  | error c => rfl
  | ok q =>
    refine Bus.physByte_ramWrite1 hsep hl (fun hq => hf ⟨y, hs.bytes ▸ hy, ?_⟩) v
    rw [ho, hq]

namespace Jit

/-- A recorded write may have changed code of the block. -/
def Unsure (j : Jit) (b : Block) : Prop := j.pendingWriteOverflow = true ∨ ∃ w ∈ j.pendingWrites, Hits w b

theorem Settled.not_unsure {j : Jit} (h : j.Settled) (b : Block) : ¬j.Unsure b := by
  rintro (ho | ⟨w, hw, -⟩)
  · exact Bool.false_ne_true (h.2.symm.trans ho)
  · rw [h.1] at hw
    cases hw

theorem unsure_pend {j : Jit} {w : PendingWrite} {b : Block} (h : j.Unsure b ∨ Hits w b) :
    (Emu.jitPendWrite j w).Unsure b := by
  unfold Emu.jitPendWrite
  split
  · refine h.elim (Or.imp_right fun ⟨w', hw, hd⟩ => ⟨w', List.mem_append_left _ hw, hd⟩) fun hh =>
      .inr ⟨w, ?_, hh⟩
    exact List.mem_append_right _ (List.mem_singleton_self w)
  · exact .inl rfl

theorem unsure_congr {j k : Jit} (hp : k.pendingWrites = j.pendingWrites)
    (ho : k.pendingWriteOverflow = j.pendingWriteOverflow) (b : Block) : k.Unsure b ↔ j.Unsure b := by
  unfold Unsure
  rw [hp, ho]

/-- Apart from recorded writes the code of the cache is current. -/
structure Coheres (T : Prop) (tr : Translate) (bus : Bus) (j : Jit) : Prop where
  exact : j.Exact
  tagged : j.Tagged tr
  code : T → ∀ b ∈ j.blocks, ∀ insns, b.fn = some insns → b.Current tr bus insns ∨ j.Unsure b

section Coheres

variable {T : Prop} {bus bus' : Bus} {j k : Jit}

theorem coheres_create (T : Prop) (tr : Translate) (bus : Bus) : jitBackendCreate.Coheres T tr bus :=
  ⟨exact_create, ⟨List.nodup_nil, nofun⟩, fun _ => nofun⟩

theorem coheres_of_moves (hx : j.Exact) (ht : j.Tagged tr) (hm : Moves j k)
    (hk : T → ∀ b ∈ k.blocks, b ∈ j.blocks → b.active = true → ∀ insns, b.fn = some insns →
      b.Current tr bus insns ∨ k.Unsure b) :
    k.Coheres T tr bus := by
  refine ⟨stable_exact.moves hx hm, stable_adds.moves ht hm, fun hT b hb insns hfn => ?_⟩
  have ha : b.active = true := Option.isSome_iff_exists.2 ⟨insns, hfn⟩
  exact hk hT b hb (hm.active_mem hx.keyed hb ha) ha insns hfn

/-- What is left of the cache after moves is current if it was so before. -/
theorem Coheres.moves (h : j.Coheres T tr bus) (hm : Moves j k)
    (hk : ∀ b ∈ k.blocks, b ∈ j.blocks → b.active = true → ∀ insns, b.fn = some insns →
      b.Current tr bus insns ∨ j.Unsure b →
      b.Current tr bus' insns ∨ k.Unsure b) : k.Coheres T tr bus' :=
  coheres_of_moves h.exact h.tagged hm fun hT b hb hbj ha insns hfn =>
    hk b hb hbj ha insns hfn (h.code hT b hbj insns hfn)

theorem Coheres.quiet (h : j.Coheres T tr bus) (hm : Moves j k) (hp : k.pendingWrites = j.pendingWrites)
    (ho : k.pendingWriteOverflow = j.pendingWriteOverflow) : k.Coheres T tr bus := by
  exact h.moves hm fun b _ _ _ _ _ hc => hc.imp_right (unsure_congr hp ho b).2

/-- A flushed cache holds no code. -/
theorem coheres_flush (h : j.Exact) (T : Prop) (tr : Translate) (bus : Bus) :
    (jitBackendFlush j).Coheres T tr bus := by
  have hx : (jitBackendFlush j).Exact := stable_exact.move j _ h .flush
  have hnone : ∀ b ∈ (jitBackendFlush j).blocks, ∀ insns, b.fn ≠ some insns := by
    rintro b hb insns hfn
    have ha : b.active = true := Option.isSome_iff_exists.2 ⟨insns, hfn⟩
    cases (flush_inactive hb).symm.trans ha
  exact ⟨hx, ⟨hx.keyed, fun b hb insns hfn => absurd hfn (hnone b hb insns)⟩,
    fun _ b hb insns hfn => absurd hfn (hnone b hb insns)⟩

theorem Coheres.flush (h : j.Coheres T tr bus) (bus' : Bus) : (jitBackendFlush j).Coheres T tr bus' :=
  coheres_flush h.exact T tr bus'

/-- Processing the records leaves no doubt. -/
theorem Coheres.process (h : j.Coheres T tr bus) : (jitProcessPendingWrites j).1.Coheres T tr bus := by
  refine h.moves (moves_process h.exact.keyed) fun b hb hbj ha insns hfn hc => .inl (hc.resolve_right ?_)
  obtain ⟨-, ho, hw⟩ := process_clear h.exact.keyed hb ha
  rintro (hu | ⟨w, hm, hu⟩)
  · exact Bool.false_ne_true (ho.symm.trans hu)
  · exact hw w hm hu

theorem Coheres.current (h : j.Coheres T tr bus) (hT : T) (hs : j.Settled) {b : Block} (hb : b ∈ j.blocks)
    {insns : List Instruction} (hfn : b.fn = some insns) : b.Current tr bus insns :=
  (h.code hT b hb insns hfn).resolve_right (hs.not_unsure b)

theorem Coheres.formed (h : j.Coheres T tr bus) {b : Block} (hb : b ∈ j.blocks) {insns : List Instruction}
    (hfn : b.fn = some insns) : b.Formed insns ∧ b.TaggedBy tr := by
  refine (h.tagged.2 b hb insns hfn).resolve_left fun hold => ?_
  cases hold

end Coheres

end Jit

/-- The tables find every block that a store reaches through another address. -/
theorem Translate.Tracked.sees (ht : tr.Paged) (hk : tr.Tracked) {j : Jit} (hj : j.Tagged tr)
    {a : Addr} {p : PAddr} (hw : tr.outcome a .write = .ok p) : j.Sees tr a p := by
  rintro b hb ha ⟨y, hy, ho⟩
  obtain ⟨insns, hsh, -⟩ := hj.block hb ha
  rcases hk y a p ho hw with rfl | hlt
  · exact .inl hy
  · refine .inr ⟨?_, ?_⟩
    · change p.toNat < 65536
      omega
    · rintro ⟨z, hz, hoz⟩
      have hpage : page y = page z := (hsh.onPage y hy).trans (hsh.onPage z hz).symm
      have hn := ht.same_page ho hoz hpage
      rw [show (0xFFFF : PAddr).toNat = 65535 from rfl] at hn
      omega

theorem Mmu.translateAddr_accessors (m : Mmu) (tr : Translate) (v : Addr) (x : Access) (req : Byte) :
    (m.translateAddr tr v x req).2.accessors = m.accessors := by
  unfold Mmu.translateAddr
  split
  · dsimp only
    split <;> rfl
  · split
    · rfl
    · dsimp only
      split
      · rfl
      · unfold tlbFill
        split <;> rfl

/-- No store that the mapping lets through breaks the property. -/
def Translate.Keeps (tr : Translate) (Q : Bus → Prop) : Prop :=
  ∀ (bus : Bus) (a : Addr) (p : PAddr) (l : DevId × Addr) (v : Byte), tr.outcome a .write = .ok p →
    bus.locate p = some l → Q bus → Q (bus.ramWrite1 l.1 l.2 v)

/-- What is followed along the runs under a mapping: the code of the blocks, if `code`, and a property
of the memory. -/
structure Watch (tr : Translate) where
  code : Prop
  memory : Bus → Prop
  paged : tr.Paged
  tracked : code → tr.Tracked
  keeps : tr.Keeps memory

namespace Emu

variable {wt : Watch tr}

/-- The mapping is in force, and the cache agrees with memory under it. -/
structure Coherent (hc : HostCode H) (wt : Watch tr) (e : Emu H) : Prop where
  maps : e.Maps hc tr
  accessors : e.mmu.accessors = true
  separate : AddressedStore.Separate e.bus.locate
  memory : wt.memory e.bus
  cache : ∀ j, e.jit = some j → j.Coheres wt.code tr e.bus

section Coherent

variable {e : Emu H} (h : e.Coherent hc wt)

include h

theorem Coherent.frame {e' : Emu H} (hm : e'.mmu = e.mmu) (hh : e'.host = e.host) (hb : e'.bus = e.bus)
    (hj : e'.jit = e.jit) : e'.Coherent hc wt := by
  obtain ⟨h1, h2, h3, h4, h5⟩ := h
  rw [← hm] at h2
  rw [← hb] at h3 h4 h5
  rw [← hj] at h5
  exact ⟨h1.frame hm hh, h2, h3, h4, h5⟩

theorem Coherent.recache {e' : Emu H} (hm : e'.mmu = e.mmu) (hh : e'.host = e.host) (hb : e'.bus = e.bus)
    (hj : ∀ k, e'.jit = some k → ∃ j, e.jit = some j ∧
      (j.Coheres wt.code tr e.bus → k.Coheres wt.code tr e.bus)) :
    e'.Coherent hc wt := by
  refine ⟨h.maps.frame hm hh, hm ▸ h.accessors, hb ▸ h.separate, hb ▸ h.memory, fun k hk => ?_⟩
  obtain ⟨j, hj, hjk⟩ := hj k hk
  exact hb ▸ hjk (h.cache j hj)

theorem Coherent.jitInvalidate {f : Jit → Jit} (hf : ∀ j, j.Coheres wt.code tr e.bus →
    (f j).Coheres wt.code tr e.bus) :
    (e.jitInvalidate f).Coherent hc wt := by
  cases hj : e.jit with
  | none => rwa [jitInvalidate_none hj]
  | some j =>
    rw [jitInvalidate_some hj]
    split
    · refine h.recache rfl rfl rfl ?_
      rintro k ⟨⟩
      exact ⟨j, hj, fun hc => hc.quiet (.single (.note rfl)) rfl rfl⟩
    · refine h.recache rfl rfl rfl ?_
      rintro k ⟨⟩
      exact ⟨j, hj, hf j⟩

/-- Entries of the TLB may be dropped. -/
theorem Coherent.forget {t : Byte → TlbEntry} (ht : ∀ p, (t p).valid = true → t p = e.mmu.tlb p) :
    Coherent hc wt { e with mmu := { e.mmu with tlb := t } } := by
  have hm := h.maps
  refine ⟨⟨hm.enabled, hm.identity, hm.translate, hm.callback, fun v c hv => ?_⟩, h.accessors,
    h.separate, h.memory, h.cache⟩
  have hval : (t (page v)).valid = true := by
    unfold tlbHit at hv
    simp only [Bool.and_eq_true] at hv
    exact hv.1.1.2
  unfold tlbHit at hv
  dsimp only at hv ⊢
  rw [ht (page v) hval] at hv ⊢
  exact hm.entries v c hv

theorem Coherent.hostCall {c : HostCall} (hc' : c.remaps = false) : (e.hostCall c).Coherent hc wt := by
  cases c with
  | assertIrq =>
    change Coherent hc wt (if _ then _ else _ : Emu H)
    split <;> exact h.frame rfl rfl rfl rfl
  | mmuTlbFlush => exact h.forget nofun
  | mmuTlbFlushVpage p =>
    refine h.forget fun q hq => ?_
    by_cases hqp : q = p
    · rw [hqp, Function.update_self] at hq
      cases hq
    · rw [Function.update_of_ne hqp]
  | jitEnable b =>
    cases b with
    | true => cases hc'
    | false => exact h.frame rfl rfl rfl rfl
  | jitFlush => exact h.jitInvalidate fun j hj => hj.flush _
  | mmuSet | mmuClear | mmuTlbSet | mmuBeginUpdate | mmuMarkChangedVpage | mmuMarkChangedVrange | mmuEndUpdate =>
    cases hc'
  | _ => exact h.frame rfl rfl rfl rfl

theorem Coherent.foldl {cs : List HostCall} (hcs : ∀ c ∈ cs, c.remaps = false) :
    (cs.foldl Emu.hostCall e).Coherent hc wt :=
  List.foldlRecOn (motive := Coherent hc wt) cs _ h fun _ hs c hm => hs.hostCall (hcs c hm)

theorem Coherent.asked (r : Regs) : (e.asked hc r).Coherent hc wt := by
  unfold Emu.asked
  rw [arrive_eq]
  refine Coherent.foldl (e := { e with regs := r, clock := e.clock + 1 }) (h.frame rfl rfl rfl rfl) fun c hm => ?_
  obtain ⟨a, -, rfl⟩ := List.mem_map.1 hm
  cases a <;> rfl

theorem Coherent.callback (hk : hc.KeepsMap) (c : Callback) :
    (e.hostReturns (hc.invoke e.host c)).Coherent hc wt := by
  refine Coherent.foldl (e := { e with host := (hc.invoke e.host c).1 }) ?_ (hk.calls e.host c)
  have hm := h.maps
  exact ⟨⟨hm.enabled, hm.identity, hm.translate, (hk.host e.host c _).trans hm.callback, hm.entries⟩, h.accessors,
    h.separate, h.memory, h.cache⟩

theorem Coherent.translated (v : Addr) (c : Access) : (e.mmuTranslateAddr hc v c).2.Coherent hc wt :=
  ⟨h.maps.translated wt.paged v c, (Mmu.translateAddr_accessors ..).trans h.accessors,
    h.separate, h.memory, h.cache⟩

theorem Coherent.reexec (b : Bool) : Coherent hc wt { e with mmu := { e.mmu with faultReexec := b } } :=
  ⟨⟨h.maps.enabled, h.maps.identity, h.maps.translate, h.maps.callback, h.maps.entries⟩, h.accessors, h.separate,
    h.memory, h.cache⟩

theorem Coherent.deviceRead1 (hk : hc.KeepsMap) (d : Option (DevId × Addr)) :
    (e.deviceRead1 hc d).2.Coherent hc wt := by
  match d with
  | none => exact h
  | some (d, off) =>
    unfold Emu.deviceRead1
    dsimp only
    split
    · exact h
    · exact h.callback hk (.devRead d off)

theorem Coherent.notify (hk : hc.KeepsMap) : (e.maybeCallOnStop hc).Coherent hc wt := by
  unfold maybeCallOnStop
  split
  · exact h
  · next cb _ => exact h.callback hk (.onStop cb e.stopreason)

theorem Coherent.stopError (hk : hc.KeepsMap) : (e.emuStopError hc).Ends (Coherent hc wt) := by
  have hs : Coherent hc wt { e with state := .stopped, stopreason := .emuerror, stopRequested := false } :=
    h.frame rfl rfl rfl rfl
  unfold Emu.emuStopError
  dsimp only
  split
  · exact h.frame rfl rfl rfl rfl
  split
  · exact hs.notify hk
  · exact hs

theorem Coherent.fault (hk : hc.KeepsMap) (a : Addr) (x : Access) (c : BitVec 16) :
    (e.mmuFault hc a x c).Ends (Coherent hc wt) := by
  have hf : (e.faulted a x c).Coherent hc wt := (h.reexec true).frame rfl rfl rfl rfl
  rw [mmuFault_eq]
  refine Coherent.stopError ?_ hk
  cases e.mmu.fault with
  | none => exact hf
  | some cb => exact hf.callback hk (.mmuFault cb a x c)

end Coherent

/-- Accesses at a physical address go to the device that `locate` finds. -/
theorem physRead1_eq (e : Emu H) (hc : HostCode H) (p : PAddr) :
    e.physRead1 hc p = e.deviceRead1 hc (e.bus.locate p) := by
  unfold Emu.physRead1
  split
  · next hp =>
    rw [busRead1, Bus.locate, if_pos hp]
  · exact busRead1Phys_eq e hc p

theorem physWrite1_eq (e : Emu H) (hc : HostCode H) (p : PAddr) (v : Byte) :
    e.physWrite1 hc p v = e.deviceWrite1 hc v (e.bus.locate p) := by
  unfold Emu.physWrite1
  split
  · next hp =>
    rw [busWrite1, Bus.locate, if_pos hp]
  · exact busWrite_eq e hc (.phys p v)

/-- A read under the mapping. -/
theorem Coherent.read {e : Emu H} (hk : hc.KeepsMap) (h : e.Coherent hc wt) (a : Addr) (x : Access) :
    (e.memRead1 hc a x).Ends (Coherent hc wt) := by
  unfold Emu.memRead1
  rw [if_pos h.accessors]
  unfold Emu.memReadMmu
  have ht := h.translated a x
  generalize e.mmuTranslateAddr hc a x = t at ht ⊢
  obtain ⟨code | p, e'⟩ := t
  · exact (ht.fault hk a x code).bind (fun _ hs => hs) fun _ _ hs => hs
  · dsimp only
    rw [physRead1_eq]
    exact ht.deviceRead1 hk _

/-- The report of a store leaves no block in the cache that the store may have changed, or it is recorded. -/
theorem note_coheres {T : Prop} {e : Emu H} {j k : Jit} {bus : Bus} {a : Addr} {S : Block → Prop}
    (hj : e.jit = some j) (hx : j.Exact) (ht : j.Tagged tr)
    (hcode : T → ∀ b ∈ j.blocks, ∀ insns, b.fn = some insns → b.Current tr bus insns ∨ j.Unsure b ∨ S b)
    (hS : T → ∀ b ∈ j.blocks, b.active = true → S b → Jit.Hits ⟨a, (e.jitPhysHit hc j a).1⟩ b ∧
      (j.contains a = true ∨ (e.jitPhysHit hc j a).1 ≠ none))
    (hk : (e.jitNoteGuestWrite hc a).jit = some k) : k.Coheres T tr bus := by
  rcases note_jit hc hj hx a with ⟨hc0, hp0, hn⟩ | ⟨k', hcore, hpw, hpo, ⟨-, -, hn⟩ | ⟨-, hn⟩⟩
  · cases hn.symm.trans hk
    refine Jit.coheres_of_moves hx ht .refl fun hT b hb _ ha insns hfn => ?_
    rcases hcode hT b hb insns hfn with h | h | h
    · exact .inl h
    · exact .inr h
    · rcases (hS hT b hb ha h).2 with h | h
      · cases hc0.symm.trans h
      · exact absurd hp0 h
  · cases hn.symm.trans hk
    have hm : Jit.Moves j (jitPendWrite k' ⟨a, (e.jitPhysHit hc j a).1⟩) :=
      (Relation.ReflTransGen.single (.note hcore)).trans (Jit.moves_pend k' _)
    refine Jit.coheres_of_moves hx ht hm fun hT b _ hbj ha insns hfn => ?_
    rcases hcode hT b hbj insns hfn with h | h | h
    · exact .inl h
    · exact .inr (Jit.unsure_pend (.inl ((Jit.unsure_congr hpw hpo b).2 h)))
    · exact .inr (Jit.unsure_pend (.inr (hS hT b hbj ha h).1))
  · cases hn.symm.trans hk
    have hkey : k'.Keyed := by
      rw [Jit.Keyed, Jit.blocks_of_core hcore]
      exact hx.keyed
    obtain ⟨hp, ho⟩ := Jit.pending_writeEvent k' ⟨a, (e.jitPhysHit hc j a).1⟩
    have hm : Jit.Moves j (jitWriteEvent k' ⟨a, (e.jitPhysHit hc j a).1⟩) :=
      (Relation.ReflTransGen.single (.note hcore)).trans (Jit.moves_writeEvent hkey _)
    refine Jit.coheres_of_moves hx ht hm fun hT b hb hbj ha insns hfn => ?_
    rcases hcode hT b hbj insns hfn with h | h | h
    · exact .inl h
    · exact .inr ((Jit.unsure_congr (hp.trans hpw) (ho.trans hpo) b).2 h)
    · exact absurd (hS hT b hbj ha h).1 (Jit.writeEvent_clear hkey _ hb ha).2

theorem translatePaddr_accessors (hc : HostCode H) (e : Emu H) (a : Addr) (x : Access) :
    (e.jitTranslatePaddr hc a x).2.mmu.accessors = e.mmu.accessors := by
  have h : (e.mmuTranslateCached hc a x).2.mmu.accessors = e.mmu.accessors := by
    unfold mmuTranslateCached
    split
    · rfl
    · exact Mmu.translateAddr_accessors ..
  exact h

theorem note_mmu (hc : HostCode H) (e : Emu H) (a : Addr) : (e.jitNoteGuestWrite hc a).mmu = e.mmu ∨
    ∃ j, (e.jitNoteGuestWrite hc a).mmu = (e.jitPhysHit hc j a).2.mmu := by
  unfold jitNoteGuestWrite
  split
  · exact .inl rfl
  next j _ =>
    split
    · exact .inl rfl
    dsimp only
    refine .inr ⟨j, ?_⟩
    split
    · rfl
    split <;> rfl

/-- What a store leaves before it is reported: the blocks fetched from its byte may be out of date. -/
theorem Coherent.note {e : Emu H} {a : Addr} {S : Block → Prop} (hm : e.Maps hc tr)
    (hacc : e.mmu.accessors = true) (hsep : AddressedStore.Separate e.bus.locate) (hmem : wt.memory e.bus)
    (hcache : ∀ j, e.jit = some j → j.Exact ∧ j.Tagged tr ∧
      (wt.code → ∀ b ∈ j.blocks, ∀ insns, b.fn = some insns →
      b.Current tr e.bus insns ∨ j.Unsure b ∨ S b) ∧ (wt.code → ∀ b ∈ j.blocks, b.active = true → S b →
        Jit.Hits ⟨a, (e.jitPhysHit hc j a).1⟩ b ∧ (j.contains a = true ∨ (e.jitPhysHit hc j a).1 ≠ none))) :
    (e.jitNoteGuestWrite hc a).Coherent hc wt := by
  obtain ⟨j, u, m, hn⟩ := noteGuestWrite_frame hc e a
  have hmmu := note_mmu hc e a
  have hc' : ∀ k, (e.jitNoteGuestWrite hc a).jit = some k → k.Coheres wt.code tr e.bus := by
    intro k hk
    cases hj : e.jit with
    | none =>
      rw [jitNoteGuestWrite, hj] at hk
      cases hj.symm.trans hk
    | some j =>
      obtain ⟨hx, htag, hcode, hS⟩ := hcache j hj
      exact note_coheres hj hx htag hcode hS hk
  have hmm : (e.jitNoteGuestWrite hc a).Maps hc tr ∧ (e.jitNoteGuestWrite hc a).mmu.accessors = true := by
    have hh : (e.jitNoteGuestWrite hc a).host = e.host := by rw [hn]
    rcases hmmu with hmmu | ⟨j, hmmu⟩
    · exact ⟨hm.frame hmmu hh, hmmu ▸ hacc⟩
    · obtain ⟨m', hp⟩ := physHit_state hc e j a
      have hpm : (e.jitPhysHit hc j a).2.Maps hc tr ∧ (e.jitPhysHit hc j a).2.mmu.accessors = true := by
        unfold jitPhysHit
        split
        · exact ⟨hm, hacc⟩
        · exact ⟨hm.translatedPaddr wt.paged a .write, (translatePaddr_accessors hc e a .write).trans hacc⟩
      exact ⟨hpm.1.frame hmmu (by rw [hh, hp]), hmmu ▸ hpm.2⟩
  exact ⟨hmm.1, hmm.2, by rw [hn]; exact hsep, by rw [hn]; exact hmem, fun k hk => by
    have := hc' k hk
    rw [hn]
    exact this⟩

theorem Coherent.noted {e : Emu H} (h : e.Coherent hc wt) (a : Addr) :
    (e.jitNoteGuestWrite hc a).Coherent hc wt :=
  Coherent.note (S := fun _ => False) h.maps h.accessors h.separate h.memory fun j hj =>
    ⟨(h.cache j hj).exact, (h.cache j hj).tagged,
      fun hT b hb insns hfn => ((h.cache j hj).code hT b hb insns hfn).imp_right .inl, fun _ _ _ _ hf => hf.elim⟩

/-- A store to RAM, reported. -/
theorem Coherent.stored {e : Emu H} {a : Addr} {p : PAddr} {l : DevId × Addr}
    (h : e.Coherent hc wt) (hw : tr.outcome a .write = .ok p) (hl : e.bus.locate p = some l) (v : Byte) :
    (Emu.jitNoteGuestWrite hc { e with bus := e.bus.ramWrite1 l.1 l.2 v } a).Coherent hc wt := by
  have hm : Maps hc tr { e with bus := e.bus.ramWrite1 l.1 l.2 v } := h.maps.frame rfl rfl
  have hmem := wt.keeps _ _ _ _ v hw hl h.memory
  refine Coherent.note (S := fun b => b.FetchesFrom tr p) hm h.accessors h.separate hmem fun j hj => ?_
  have hco := h.cache j hj
  refine ⟨hco.exact, hco.tagged, fun hT b hb insns hfn => ?_, fun hT b hb ha hf => ?_⟩
  · by_cases hf : b.FetchesFrom tr p
    · exact .inr (.inr hf)
    · exact (hco.code hT b hb insns hfn).imp
        (fun hcur => hcur.store (hco.formed hb hfn).1.toShaped h.separate hl hf v) .inl
  · exact hits_of_seen wt.paged hco.exact hco.tagged hm hw hb ha hf
      ((wt.tracked hT).sees wt.paged hco.tagged hw b hb ha hf)

theorem Coherent.write {e : Emu H} (hk : hc.KeepsMap) (h : e.Coherent hc wt) (a : Addr)
    (v : Byte) : (e.memWrite1 hc a v).Ends (Coherent hc wt) := by
  unfold Emu.memWrite1
  rw [if_pos h.accessors]
  unfold Emu.memWriteMmu
  have htr := h.translated a .write
  have ho := h.maps.outcome a .write
  generalize e.mmuTranslateAddr hc a .write = t at htr ho ⊢
  obtain ⟨code | p, e'⟩ := t
  · exact (htr.fault hk a .write code).bind (fun _ hs => hs) fun _ _ hs => hs.noted a
  · change (Emu.jitNoteGuestWrite hc (e'.physWrite1 hc p v) a).Coherent hc wt
    rw [physWrite1_eq]
    cases hl : e'.bus.locate p with
    | none => exact htr.noted a
    | some l =>
      unfold Emu.deviceWrite1
      dsimp only
      split
      · exact htr.stored ho.symm hl v
      · exact (htr.callback hk (.devWrite l.1 l.2 v)).noted a

/-- Whatever code asks of the emulator. -/
theorem Coherent.handle {e : Emu H} (hk : hc.KeepsMap) (h : e.Coherent hc wt) (o : Op)
    (r : Regs) : (Emu.handle hc o r e).Ends (Coherent hc wt) := by
  change ((e.asked hc r).answer hc o).Ends (Coherent hc wt)
  have h := h.asked r
  generalize e.asked hc r = s at h ⊢
  cases o with
  | fetch a => exact h.read hk a .fetch
  | read a => exact h.read hk a .read
  | write a v => exact h.write hk a v
  | panic => exact h.stopError hk
  | disassemble pc => exact disassembled_keeps (I := Coherent hc wt) (fun _ _ h => h.deviceRead1 hk _) h pc
  | reexec =>
    unfold Emu.answer
    split
    · exact h.reexec false
    · exact h
  | trace tpc i r =>
    change (s.tracePush ⟨tpc, i, r⟩).Coherent hc wt
    unfold Emu.tracePush
    split
    · exact h.frame rfl rfl rfl rfl
    · exact h
  | _ => exact h.frame rfl rfl rfl rfl

theorem Coherent.runCpu {e : Emu H} (hk : hc.KeepsMap) (h : e.Coherent hc wt) {α : Type}
    (x : Cpu α) : (e.runCpu hc x).Ends (Coherent hc wt) :=
  Closed.putRegs (fun _ _ h => h.frame rfl rfl rfl rfl)
    (Tree.run_ends (fun o r _ hs => hs.handle hk o r) (x.run e.regs) h)

theorem Coherent.runNative {e : Emu H} (hk : hc.KeepsMap) (h : e.Coherent hc wt) {α : Type}
    (x : NCpu α) : (e.runNative hc x).Ends (Coherent hc wt) := by
  refine Closed.putRegs (fun _ _ h => h.frame rfl rfl rfl rfl)
    (Tree.run_ends (fun o r s hs => ?_) (x.run e.regs) h)
  have ha := hs.asked r
  cases o with
  | base o => exact hs.handle hk o r
  | countInsns n =>
    refine ha.recache rfl rfl rfl fun k hk => ?_
    obtain ⟨j, hj, rfl⟩ := Option.map_eq_some_iff.1 hk
    exact ⟨j, hj, fun hc => hc.quiet (.single (.note rfl)) rfl rfl⟩
  | _ => exact ha.frame rfl rfl rfl rfl

section Fetches

/-- What a read outside of a block leaves alone. -/
structure Looked (e s : Emu H) : Prop where
  bus : s.bus = e.bus
  outside : s.inJitRun = false

theorem Looked.trans {e s t : Emu H} (h : e.Looked s) (h' : s.Looked t) : e.Looked t :=
  ⟨h'.bus.trans h.bus, h'.outside⟩

theorem looked_hostReturns {e e' : Emu H} (hb : e'.bus = e.bus) (hin : e'.inJitRun = false)
    (x : H × List HostCall) :
    e.Looked (e'.hostReturns x) := ⟨(foldl_bus _ _).trans hb, (foldl_inJitRun _ _).trans hin⟩

theorem looked_stopError {e : Emu H} (hin : e.inJitRun = false) (hc : HostCode H) :
    ∃ s, e.emuStopError hc = .ok () s ∧ e.Looked s := by
  unfold emuStopError
  dsimp only
  split
  · next h => cases hin.symm.trans h
  split
  · refine ⟨_, rfl, ?_⟩
    unfold maybeCallOnStop
    split
    · exact ⟨rfl, hin⟩
    · refine looked_hostReturns ?_ ?_ _
      exacts [rfl, hin]
  · exact ⟨_, rfl, rfl, hin⟩

theorem looked_fault {e : Emu H} (hin : e.inJitRun = false) (hc : HostCode H) (a : Addr)
    (x : Access) (c : BitVec 16) :
    ∃ s, e.mmuFault hc a x c = .ok () s ∧ e.Looked s := by
  rw [mmuFault_eq]
  have hf : e.Looked (e.mmu.fault.elim (e.faulted a x c) fun cb =>
      (e.faulted a x c).hostReturns (hc.mmuFault e.host cb a x c)) := by
    cases e.mmu.fault with
    | none => exact ⟨rfl, hin⟩
    | some cb =>
      refine looked_hostReturns ?_ ?_ _
      exacts [rfl, hin]
  obtain ⟨s, hs, hl⟩ := looked_stopError hf.outside hc
  exact ⟨s, hs, hf.trans hl⟩

/-- A fetch outside of a block gives the byte of the mapping. -/
theorem Coherent.fetch {e : Emu H} (hk : hc.KeepsMap) (h : e.Coherent hc wt)
    (hin : e.inJitRun = false) (a : Addr) (r : Regs) : ∃ v s, Emu.handle hc (.fetch a) r e = .ok v s ∧
    s.Coherent hc wt ∧
      e.Looked s ∧ ((∀ p, tr.outcome a .fetch = .ok p → e.bus.Backed p) → v = tr.fetchByte e.bus a) := by
  have hends := h.handle hk (.fetch a) r
  obtain ⟨i, st, q, hfr⟩ := arrive_frame hc { e with regs := r }
  have hasked : (e.asked hc r).Coherent hc wt := h.asked r
  have hl₀ : e.Looked (e.asked hc r) := by
    unfold Emu.asked
    rw [hfr]
    exact ⟨rfl, hin⟩
  suffices hgoal : ∃ v s, (e.asked hc r).memRead1 hc a .fetch = .ok v s ∧ (e.asked hc r).Looked s ∧
      ((∀ p, tr.outcome a .fetch = .ok p → e.bus.Backed p) → v = tr.fetchByte e.bus a) by
    obtain ⟨v, s, hx, hl, hv⟩ := hgoal
    exact ⟨v, s, hx, hends.ok hx, hl₀.trans hl, hv⟩
  rw [← hl₀.bus]
  generalize e.asked hc r = e at hasked hl₀ ⊢
  have htr := hasked.translated a .fetch
  have ho := hasked.maps.outcome a .fetch
  have hl₁ : e.Looked (e.mmuTranslateAddr hc a .fetch).2 := ⟨rfl, hl₀.outside⟩
  unfold Emu.memRead1
  rw [if_pos hasked.accessors]
  unfold Emu.memReadMmu
  generalize e.mmuTranslateAddr hc a .fetch = t at htr ho hl₁ ⊢
  obtain ⟨code | p, e'⟩ := t
  · obtain ⟨s, hs, hl⟩ := looked_fault hl₁.outside hc a .fetch code
    refine ⟨0xFF, s, ?_, hl₁.trans hl, fun _ => ?_⟩
    · change (e'.mmuFault hc a .fetch code).bind _ = _
      rw [hs]
      rfl
    · rw [Translate.fetchByte, ← ho]
      rfl
  · change ∃ v s, Out.ok (e'.physRead1 hc p).1 (e'.physRead1 hc p).2 = .ok v s ∧ _
    have hbus : e'.bus = e.bus := hl₁.bus
    have hf : tr.fetchByte e.bus a = e.bus.physByte p := by
      rw [Translate.fetchByte, ← ho]
      rfl
    rw [physRead1_eq, hf, ← hbus]
    refine ⟨_, _, rfl, ?_⟩
    cases hloc : e'.bus.locate p with
    | none =>
      refine ⟨hl₁, fun _ => ?_⟩
      rw [Bus.physByte, AddressedStore.load_none hloc]
      rfl
    | some l =>
      unfold Emu.deviceRead1
      dsimp only
      split
      · refine ⟨hl₁, fun _ => ?_⟩
        rw [Bus.physByte, AddressedStore.load, hloc]
        rfl
      · next hnr =>
        exact ⟨hl₁.trans (looked_hostReturns rfl hl₁.outside _), fun hb => absurd (hb p ho.symm l hloc) hnr⟩

/-- An instruction fetched byte by byte, each byte known where `Q` holds. -/
theorem fetchEmu_run {S : Type} {h : CpuHandler S} {I : S → Prop} {Q : Addr → Prop} {f : Addr → Byte}
    (hf : ∀ a r s, I s → ∃ v s', h (.fetch a) r s = .ok v s' ∧ I s' ∧ (Q a → v = f a))
    (pc : Addr) (r : Regs) {s : S}
    (hs : I s) : ∃ i s', ((instructionFetchEmu pc).run r).run h s = .ok (i, r) s' ∧ I s' ∧
      ((∀ k < i.bytes, Q (pc + BitVec.ofNat 16 k)) → Image.insnAt f pc = i) := by
  obtain ⟨op, s₁, h₁, hi₁, hv₁⟩ := hf pc r s hs
  have h0 : pc + BitVec.ofNat 16 0 = pc := BitVec.add_zero pc
  have hlt := operands_lt_size op
  unfold instructionFetchEmu
  simp only [StateT.run_bind, memFetch1_run, Tree.op_bind, Tree.done_bind, Tree.run_op, h₁, Out.ok_bind]
  cases hn : (instructionDecode op).mode.operands with
  | zero =>
    refine ⟨⟨op, 0, 0⟩, s₁, rfl, hi₁, fun hq => ?_⟩
    have hop := hv₁ (h0 ▸ hq 0 (Nat.zero_lt_of_lt hlt))
    rw [Image.insnAt, ← hop, hn]
    rfl
  | succ n =>
    cases n with
    | zero =>
      obtain ⟨x, s₂, h₂, hi₂, hv₂⟩ := hf (pc + 1) r s₁ hi₁
      refine ⟨⟨op, x, 0⟩, s₂, ?_, hi₂, fun hq => ?_⟩
      · simp only [StateT.run_bind, memFetch1_run, Tree.op_bind, Tree.done_bind, Tree.run_op, h₂, Out.ok_bind]
        rfl
      · have hlt : 1 < (instructionDecode op).size := by omega
        have hop := hv₁ (h0 ▸ hq 0 (Nat.zero_lt_of_lt hlt))
        have hx := hv₂ (hq 1 hlt)
        rw [Image.insnAt, ← hop, hn, ← hx]
        rfl
    | succ n =>
      obtain ⟨x, s₂, h₂, hi₂, hv₂⟩ := hf (pc + 1) r s₁ hi₁
      obtain ⟨y, s₃, h₃, hi₃, hv₃⟩ := hf (pc + 2) r s₂ hi₂
      refine ⟨⟨op, x, y⟩, s₃, ?_, hi₃, fun hq => ?_⟩
      · simp only [StateT.run_bind, memFetch1_run, Tree.op_bind, Tree.done_bind, Tree.run_op, h₂, h₃, Out.ok_bind]
        rfl
      · have hlt : 2 < (instructionDecode op).size := by omega
        have hop := hv₁ (h0 ▸ hq 0 (Nat.zero_lt_of_lt hlt))
        have hx := hv₂ (hq 1 (Nat.lt_of_succ_lt hlt))
        have hy := hv₃ (hq 2 hlt)
        rw [Image.insnAt, ← hop, hn, ← hx, ← hy]
        rfl

theorem Coherent.build {e : Emu H} (hk : hc.KeepsMap) (h : e.Coherent hc wt)
    (hin : e.inJitRun = false) (startPc : Addr) (n : Nat) (pc : Addr) :
    ∃ is s, e.jitBuildBlockInsns hc startPc n pc = .ok is s ∧ s.Coherent hc wt ∧ e.Looked s ∧
      ((∀ y ∈ insnBytes pc is, ∀ p, tr.outcome y .fetch = .ok p → e.bus.Backed p) →
        Reads (tr.fetchByte e.bus) pc is) := by
  induction n generalizing e pc with
  | zero => exact ⟨[], e, rfl, h, ⟨rfl, hin⟩, fun _ => trivial⟩
  | succ n ih =>
    unfold jitBuildBlockInsns
    split
    · exact ⟨[], e, rfl, h, ⟨rfl, hin⟩, fun _ => trivial⟩
    obtain ⟨i, s, hr, ⟨hs, hl⟩, hi⟩ := fetchEmu_run (I := fun s => s.Coherent hc wt ∧ e.Looked s)
      (Q := fun a => ∀ p, tr.outcome a .fetch = .ok p → e.bus.Backed p) (f := tr.fetchByte e.bus)
        (h := Emu.handle hc)
      (fun a r s hs => by
        obtain ⟨v, s', hx, hs', hl', hv⟩ := hs.1.fetch hk hs.2.outside a r
        exact ⟨v, s', hx, ⟨hs', hs.2.trans hl'⟩, hs.2.bus ▸ hv⟩) pc e.regs ⟨h, rfl, hin⟩
    have hrun : e.runCpu hc (instructionFetchEmu pc) = .ok i { s with regs := e.regs } := by
      unfold Emu.runCpu
      rw [hr]
      rfl
    have hs' : Coherent hc wt { s with regs := e.regs } := hs.frame rfl rfl rfl rfl
    have hl' : e.Looked { s with regs := e.regs } := ⟨hl.bus, hl.outside⟩
    rw [hrun, Out.ok_bind]
    split
    · exact ⟨[], _, rfl, hs', hl', fun _ => trivial⟩
    split
    · exact ⟨[], _, rfl, hs', hl', fun _ => trivial⟩
    split
    · refine ⟨[i], _, rfl, hs', hl', fun hb => ⟨hi fun k hk => hb _ ?_, trivial⟩⟩
      exact List.mem_append_left _ (List.mem_map.2 ⟨k, List.mem_range.2 hk, rfl⟩)
    · obtain ⟨is, s₂, hr₂, hs₂, hl₂, hreads⟩ := ih hs' hl'.outside (pc + i.size)
      rw [hr₂, Out.ok_bind]
      refine ⟨i :: is, s₂, rfl, hs₂, hl'.trans hl₂, fun hb => ⟨hi fun k hk => hb _ ?_, ?_⟩⟩
      · exact List.mem_append_left _ (List.mem_map.2 ⟨k, List.mem_range.2 hk, rfl⟩)
      · rw [← hl'.bus]
        exact hreads fun y hy => hl'.bus ▸ hb y (List.mem_append_right _ hy)

end Fetches

theorem Maps.physTags {e : Emu H} (ht : tr.Paged) (h : e.Maps hc tr) (b : Block) :
    (e.jitPhysTags hc b).2.Maps hc tr ∧
    (e.jitPhysTags hc b).2.mmu.accessors = e.mmu.accessors := by
  have h₁ := h.translatedPaddr ht b.startPc .fetch
  have a₁ := translatePaddr_accessors hc e b.startPc .fetch
  unfold jitPhysTags
  dsimp only
  split
  · generalize e.jitTranslatePaddr hc b.startPc .fetch = t at h₁ a₁ ⊢
    obtain ⟨_ | p, e₁⟩ := t
    · exact ⟨h₁, a₁⟩
    · dsimp only
      split
      · have h₂ := Maps.translatedPaddr h₁ ht (b.endPcExclusive - 1) .fetch
        have a₂ := (translatePaddr_accessors hc e₁ (b.endPcExclusive - 1) .fetch).trans a₁
        generalize e₁.jitTranslatePaddr hc (b.endPcExclusive - 1) .fetch = t at h₂ a₂ ⊢
        obtain ⟨_ | q, e₂⟩ := t <;> exact ⟨h₂, a₂⟩
      · exact ⟨h₁, a₁⟩
  · exact ⟨h, rfl⟩

theorem Coherent.record {e : Emu H} {j : Jit} (h : e.Coherent hc wt) (hj : e.jit = some j) (pc : Addr) :
    Coherent hc wt { e with jit := some (jitRecord j pc) } := by
  refine h.recache rfl rfl rfl ?_
  rintro k ⟨⟩
  refine ⟨j, hj, fun hco => ?_⟩
  unfold jitRecord
  split
  · next hf =>
    have hold : ∀ x ∈ j.blocks ++ [.empty pc], x.fn.isSome = true → x ∈ j.blocks := by
      intro x hx ha
      refine (List.mem_append.1 hx).resolve_right fun hx => ?_
      rw [List.mem_singleton.1 hx] at ha
      cases ha
    have hex := hco.exact.append (Option.isNone_iff_eq_none.1 hf)
    refine ⟨hex, ⟨hex.keyed, fun x hx insns hfn => ?_⟩, fun hT x hx insns hfn => ?_⟩
    · exact hco.tagged.2 x (hold x hx (by rw [hfn]; rfl)) insns hfn
    · exact hco.code hT x (hold x hx (by rw [hfn]; rfl)) insns hfn
  · exact hco

/-- A compilation keeps the mapping and the memory. -/
theorem Coherent.compile_frame {e : Emu H} {j : Jit} (hk : hc.KeepsMap)
    (h : e.Coherent hc wt) (hin : e.inJitRun = false) (hj : e.jit = some j) (pc : Addr) :
    (e.jitCompileBlock hc pc).Ends fun s => s.Maps hc tr ∧ s.mmu.accessors = true ∧ s.bus = e.bus := by
  have hs := h.record hj pc
  obtain ⟨is, s, hb, hsc, hl, -⟩ := hs.build hk hin pc jitBlockMaxInsns pc
  rw [compileBlock_some hj]
  split
  · exact ⟨hs.maps, h.accessors, rfl⟩
  rw [hb, Out.ok_bind]
  unfold compileEnd
  split
  · exact ⟨hsc.maps, hsc.accessors, hl.bus⟩
  obtain ⟨hm, ha⟩ := hsc.maps.physTags wt.paged { recordAt j pc with endPcExclusive := blockEnd pc is }
  obtain ⟨m, hf⟩ := physTags_mmu hc s { recordAt j pc with endPcExclusive := blockEnd pc is }
  generalize s.jitPhysTags hc { recordAt j pc with endPcExclusive := blockEnd pc is } = t at hm ha hf ⊢
  refine ⟨hm.frame rfl rfl, ha.trans hsc.accessors, ?_⟩
  change t.2.bus = e.bus
  rw [hf]
  exact hl.bus

/-- A compilation adds a block that is current. -/
theorem Coherent.compile {e : Emu H} {j : Jit} (hk : hc.KeepsMap) (h : e.Coherent hc wt)
    (ho : e.Outside) (hj : e.jit = some j) (hlt : j.activeBlocks < jitMaxActiveBlocks) (pc : Addr) :
    (e.jitCompileBlock hc pc).Ends (Coherent hc wt) := by
  have hco := h.cache j hj
  obtain ⟨is, s, hb, hsc, -, hreads⟩ := (h.record hj pc).build hk ho.outside pc jitBlockMaxInsns pc
  have hadds : (e.jitCompileBlock hc pc).Ends _ := compile_adds hj hco.exact.keyed pc
  refine ((((compile_exact hc hj hco.exact hlt pc).and hadds).and (ho.compile hc pc)).and
    (h.compile_frame hk ho.outside hj pc)).mono ?_
  rintro s' ⟨⟨⟨hx, ha⟩, hset⟩, hm, hacc, hbus⟩
  refine ⟨hm, hacc, hbus ▸ h.separate, hbus ▸ h.memory, fun k hk' => ?_⟩
  rw [Cached, hk'] at hx ha
  have hnew : ∀ b ∈ k.blocks, ∀ insns, b.fn = some insns → b ∈ j.blocks ∨
      b.Formed insns ∧ b.TaggedBy tr ∧ b.Current tr e.bus insns := by
    intro b hbm insns hfn
    refine (ha.2 b hbm insns hfn).imp_right fun hc' => ?_
    refine ⟨hc'.1.formed, Jit.tags_of_build wt.paged (fun is' s' hb' => ?_) hc'.1 hc'.2, fun hram => ?_⟩
    · cases hb.symm.trans hb'
      exact hsc.maps
    · obtain ⟨s₂, hb₂⟩ := hc'.1.built
      cases hb.symm.trans hb₂
      rw [hc'.1.startPc]
      exact hreads fun y hy => hram y (hc'.1.shaped.bytes ▸ hc'.1.startPc ▸ hy)
  rw [hbus]
  refine ⟨hx, ⟨hx.keyed, fun b hbm insns hfn => ?_⟩, fun hT b hbm insns hfn => .inl ?_⟩
  · rcases hnew b hbm insns hfn with hold | ⟨h1, h2, -⟩
    · exact hco.tagged.2 b hold insns hfn
    · exact .inr ⟨h1, h2⟩
  · rcases hnew b hbm insns hfn with hold | ⟨-, -, h3⟩
    · exact hco.current hT (ho.settled j hj) hold hfn
    · exact h3

section Polls

variable {e : Emu H} (hk : hc.KeepsMap) (h : e.Coherent hc wt)

include h

theorem Coherent.stopRequest : e.applyHostStopRequest.Coherent hc wt := by
  unfold applyHostStopRequest
  split
  · exact h
  · exact h.frame rfl rfl rfl rfl

include hk

theorem Coherent.poll : (e.pollHostControls hc).Coherent hc wt := by
  have hs : (e.arrive hc).applyHostStopRequest.Coherent hc wt := (h.asked e.regs).stopRequest
  refine Coherent.stopRequest ?_
  generalize (e.arrive hc).applyHostStopRequest = s at hs ⊢
  obtain ⟨n, hn⟩ | ⟨-, cb, n, n', hn⟩ := maybeTick_cases hc s
  · rw [hn]
    exact hs.frame rfl rfl rfl rfl
  · have hs' : Coherent hc wt { s with tickCountdown := n } := hs.frame rfl rfl rfl rfl
    rw [hn]
    exact (hs'.callback hk (.tick cb)).frame rfl rfl rfl rfl

theorem Coherent.idle : (e.maybeWaitOnIdle hc).2.Coherent hc wt := by
  unfold maybeWaitOnIdle
  split
  · exact h
  · next cb _ =>
    split
    · exact h
    · exact (h.callback hk (.idleWait cb)).stopRequest

theorem Coherent.finish : (e.finish hc).Coherent hc wt := by
  unfold Emu.finish
  dsimp only
  split
  · exact (h.poll hk).notify hk
  · exact h.poll hk

end Polls

end Emu

namespace Run

variable {wt : Watch tr} {c : Run H} (hk : hc.KeepsMap)

theorem processPendingWrites_coherent {c : Run H} (h : c.emu.Coherent hc wt) :
    c.processPendingWrites.emu.Coherent hc wt := by
  unfold processPendingWrites
  split
  · exact h
  next j hj =>
    split
    · exact h
    refine h.recache rfl rfl rfl ?_
    have hp : (j.Coheres wt.code tr c.emu.bus → (jitProcessPendingWrites j).1.Coheres wt.code tr c.emu.bus) :=
      fun hco => hco.process
    generalize jitProcessPendingWrites j = t at hp ⊢
    rintro k hk
    cases hk
    refine ⟨j, hj, fun hco => ?_⟩
    split
    · exact (hp hco).quiet (.single (.note rfl)) rfl rfl
    · exact hp hco

theorem processNeedsFlush_coherent {c : Run H} (h : c.emu.Coherent hc wt) :
    c.processNeedsFlush.emu.Coherent hc wt := by
  unfold processNeedsFlush
  split
  · exact h
  next j hj =>
    split
    · refine h.recache rfl rfl rfl ?_
      rintro k ⟨⟩
      exact ⟨j, hj, fun hco => hco.flush _⟩
    · exact h

theorem enterBlock_coherent {c : Run H} (h : c.emu.Coherent hc wt) (b : Block) :
    (c.enterBlock b).emu.Coherent hc wt := by
  refine h.recache rfl rfl rfl fun k hk => ?_
  obtain ⟨j, hj, rfl⟩ := Option.map_eq_some_iff.1 hk
  exact ⟨j, hj, fun hco => hco.quiet (.single (.note rfl)) rfl rfl⟩

include hk in
theorem afterPoll_coherent {c : Run H} (h : c.emu.Coherent hc wt) : (c.afterPoll hc).emu.Coherent hc wt := by
  unfold afterPoll
  split
  · exact h
  · dsimp only
    split
    · exact h.idle hk
    · exact (h.idle hk).finish hk

include hk in
theorem polled_coherent {e : Emu H} (h : c.emu.Coherent hc wt) (hpo : c.polled hc = some e) : e.Coherent hc wt :=
  (polled_eq hpo).2.2 ▸ h.poll hk

include hk in
theorem Compiles.coherent {e : Emu H} (hi : c.Compiles hc e) (h : c.emu.Coherent hc wt) : e.Coherent hc wt ∧
    ∃ j, e.jit = some j ∧ j.activeBlocks < jitMaxActiveBlocks := by
  cases hi with
  | @mk e j hd hirq hmut hfind =>
    have hp := polled_coherent hk h hd.polled
    refine ⟨hp.recache rfl rfl rfl ?_, _, rfl, (hp.cache j hd.jit).exact.makeRoom.2⟩
    rintro k ⟨⟩
    refine ⟨j, hd.jit, fun hco => ?_⟩
    unfold jitMakeRoom
    split
    · exact hco.flush _
    · exact hco

theorem translatePaddr_coherent {e : Emu H} (h : e.Coherent hc wt) (a : Addr) (x : Access) :
    (e.jitTranslatePaddr hc a x).2.Coherent hc wt := by
  obtain ⟨m, hm⟩ := Emu.translatePaddr_mmu hc e a x
  have hmaps := h.maps.translatedPaddr wt.paged a x
  have hacc := (Emu.translatePaddr_accessors hc e a x).trans h.accessors
  rw [hm] at hmaps hacc ⊢
  exact ⟨hmaps, hacc, h.separate, h.memory, h.cache⟩

include hk

theorem Compiles.compiled {e e' : Emu H} {b : Option Block} (hi : c.Compiles hc e) (h : c.emu.Coherent hc wt)
    (ho : c.emu.Outside) (hb : e.jitCompileBlock hc e.regs.PC = .ok b e') : e'.Coherent hc wt := by
  obtain ⟨he, j, hj, hlt⟩ := Compiles.coherent hk hi h
  exact (he.compile hk (Compiles.outside hi ho) hj hlt _).ok hb

theorem Interprets.coherent {e : Emu H} (hi : c.Interprets hc e) (h : c.emu.Coherent hc wt) (ho : c.emu.Outside) :
    e.Coherent hc wt := by
  cases hi with
  | irq hd hirq => exact polled_coherent hk h hd.polled
  | mutable hd hirq hmut => exact polled_coherent hk h hd.polled
  | uncompiled hd hb hs => exact Compiles.compiled hk hd h ho hb

theorem Offers.coherent {e : Emu H} {b : Block} (hi : c.Offers hc e b) (h : c.emu.Coherent hc wt)
    (ho : c.emu.Outside) :
    e.Coherent hc wt := by
  cases hi with
  | found hd hirq hmut hb => exact polled_coherent hk h hd.polled
  | compiled hd hb hs => exact Compiles.compiled hk hd h ho hb

/-- One step of a run keeps the code of the cache current. -/
theorem step_coherent (hcl : c.Clean) (h : c.emu.Coherent hc wt) : (c.step hc).emu.Coherent hc wt := by
  have hout : c.phase = .dispatch ∨ c.phase = .interp → c.emu.Outside :=
    fun hp => ⟨Fits.of_running hp hcl.sound.fits, hcl.settled⟩
  have hsound := step_sound hc hcl.sound
  have ho := c.step_outcome hc
  generalize c.step hc = c' at ho hsound ⊢
  cases ho with
  | finished hp => exact h
  | stopped hp hs => exact h.finish hk
  | waits hp hs hw => exact (h.poll hk).idle hk
  | polled hp hs hs' hw => exact (h.poll hk).finish hk
  | debugs hp hpo hd => exact (polled_coherent hk h hpo).finish hk
  | handsOver hp hpo hd hj => exact polled_coherent hk h hpo
  | interprets hi hx =>
    exact ((Interprets.coherent hk hi h (hout (.inl hi.phase))).runCpu hk _).ok hx
  | interpretsLast hi hx hs =>
    exact (((Interprets.coherent hk hi h (hout (.inl hi.phase))).runCpu hk _).ok hx).finish hk
  | round hp hpo hx =>
    exact afterPoll_coherent hk ((((polled_coherent hk h hpo).runCpu hk _).ok hx).poll hk)
  | compileStops hi hx hs => exact (Compiles.compiled hk hi h (hout (.inl hi.phase)) hx).finish hk
  | enters hb htag =>
    exact enterBlock_coherent (c := { c with emu := _ }) (Offers.coherent hk hb h (hout (.inl hb.phase))) _
  | entersTagged hb htag hm =>
    exact enterBlock_coherent (c := { c with emu := _ }) (translatePaddr_coherent
      (Offers.coherent hk hb h (hout (.inl hb.phase))) _ _) _
  | @drops e e' b hb htag hm he =>
    subst he
    have hp := translatePaddr_coherent (Offers.coherent hk hb h (hout (.inl hb.phase))) e.regs.PC .fetch
    refine hp.recache rfl rfl rfl fun k hk => ?_
    obtain ⟨j, hj, rfl⟩ := Option.map_eq_some_iff.1 hk
    refine ⟨j, hj, fun hco => ?_⟩
    obtain ⟨h1, h2⟩ := Jit.pending_where j fun b =>
      jitBlockOverlapsPage b (page (e.jitTranslatePaddr hc e.regs.PC .fetch).2.regs.PC)
    exact hco.quiet (Jit.moves_forPage hco.exact.keyed _) h1 h2
  | goesOn he hx hn => exact (h.runNative hk _).ok hx
  | returns he hx hn =>
    have he := (h.runNative hk _).ok hx
    refine afterPoll_coherent hk (Emu.Coherent.poll hk ?_)
    refine processNeedsFlush_coherent (processPendingWrites_coherent ?_)
    exact he.frame rfl rfl rfl rfl
  | @exits b k i e he hx =>
    have he := h.runNative hk (nativeInsn ⟨insnAddrs b.startPc (b.fn.getD [])⟩ k i)
    rw [hx] at he
    exact processPendingWrites_coherent he
  | roundFails hp hpo hx => exact absurd rfl hsound.ne_stuck
  | execFails hi hx => exact absurd rfl hsound.ne_stuck
  | compileFails hi hx hpo => exact absurd rfl hsound.ne_stuck
  | nativeFails he hx => exact absurd rfl hsound.ne_stuck
  | offBlock hp hk => exact absurd rfl hsound.ne_stuck

end Run

namespace Emu

variable {wt : Watch tr}

/-- Between runs: the cache agrees with memory, and no write waits in it. -/
structure Ready (hc : HostCode H) (wt : Watch tr) (e : Emu H) : Prop where
  fit : e.Fit
  settled : e.CacheSettled
  coherent : e.Coherent hc wt

theorem Ready.start {e : Emu H} (h : e.Ready hc wt) : e.start.Clean ∧ e.start.emu.Coherent hc wt := by
  refine ⟨h.fit.clean h.settled, ?_⟩
  have hm := h.coherent.maps
  have hs : Coherent hc wt { e with
      useJit := e.jitRequested
      stopRequested := false
      tickCountdown := e.tickInterval
      mmu := Mmu.refreshAccessors { e.mmu with faultReexec := false }
      state := .running } := by
    refine ⟨⟨hm.enabled, hm.identity, hm.translate, hm.callback, hm.entries⟩, ?_, h.coherent.separate,
      h.coherent.memory,
      h.coherent.cache⟩
    change (e.mmu.enabled && !e.mmu.identityActive) = true
    rw [hm.enabled, hm.identity]
    rfl
  unfold Emu.start
  dsimp only
  split
  · refine hs.recache rfl rfl rfl fun k hk => ?_
    obtain ⟨j, hj, rfl⟩ := Option.map_eq_some_iff.1 hk
    exact ⟨j, hj, fun hco => hco.quiet (.single (.note rfl)) rfl rfl⟩
  · exact hs

theorem Ready.steps {e : Emu H} (hk : hc.KeepsMap) (h : e.Ready hc wt) (n : Nat) :
    (e.start.steps hc n).Clean ∧ (e.start.steps hc n).emu.Coherent hc wt := by
  induction n with
  | zero => exact h.start
  | succ n ih =>
    rw [Run.steps_succ]
    exact ⟨Run.step_clean hk.neverEnables ih.1, Run.step_coherent hk ih.1 ih.2⟩

end Emu

end Rk65c02
