import Rk65c02.JitReachable

/-! Guest stores whose translation fails, and the bookkeeping of compiled code. Inside a block
the fault leaves the store at once; elsewhere it returns, and the store is reported to the JIT
as if it had been made. -/

namespace Rk65c02

open Resumption

variable {H : Type}

/-- The blocks, the coverage counters, the pending write events, the demotion of pages and the
statistics are the same. -/
structure Jit.SameCode (j j' : Jit) : Prop where
  blocks : j'.blocks = j.blocks
  activeBlocks : j'.activeBlocks = j.activeBlocks
  coveredAddr : j'.coveredAddrRefcnt = j.coveredAddrRefcnt
  compiledPage : j'.compiledPageRefcnt = j.compiledPageRefcnt
  compiledCodePage : j'.compiledCodePageRefcnt = j.compiledCodePageRefcnt
  coveredPhysAddr : j'.coveredPhysAddrRefcnt = j.coveredPhysAddrRefcnt
  compiledPhysPage : j'.compiledPhysPageRefcnt = j.compiledPhysPageRefcnt
  compiledPhysRefs : j'.compiledPhysRefsTotal = j.compiledPhysRefsTotal
  pendingWrites : j'.pendingWrites = j.pendingWrites
  pendingWriteOverflow : j'.pendingWriteOverflow = j.pendingWriteOverflow
  pageEvents : j'.pageInvalidationEvents = j.pageInvalidationEvents
  mutableCodePage : j'.mutableCodePage = j.mutableCodePage
  eventsThisRun : j'.invalidationEventsThisRun = j.invalidationEventsThisRun
  stats : j'.stats = j.stats

/-- An active block covers the address, by its virtual or by its physical span. -/
def Jit.Watches (j : Jit) (a : Addr) (phys : Option Addr) : Prop :=
  j.activeBlocks ≠ 0 ∧
    (j.compiledPageRefcnt (page a) ≠ 0 ∧ j.coveredAddrRefcnt a ≠ 0 ∨
      j.compiledPhysRefsTotal ≠ 0 ∧ ∃ p, phys = some p ∧
        (j.coveredPhysAddrRefcnt p ≠ 0 ∨ j.compiledPhysPageRefcnt (page p) ≠ 0))

namespace Emu

variable {hc : HostCode H} {e s : Emu H} {a : Addr}

/-- Memory and the bookkeeping of compiled code are as they were. -/
structure Untouched (e s : Emu H) : Prop where
  bus : s.bus = e.bus
  jit : ∀ j, e.jit = some j → ∃ j', s.jit = some j' ∧ j.SameCode j'

/-- The emulator when `rk65c02_mmu_fault` is done, with what its callbacks did. -/
def afterFault (hc : HostCode H) (e : Emu H) (a : Addr) (x : Access) (code : BitVec 16) : Emu H :=
  match e.mmuFault hc a x code with
  | .ok _ s | .exit s => s
  | .stuck => e

theorem mmuTranslateAddr_fst (e : Emu H) (hc : HostCode H) (a : Addr) (x : Access) :
    (e.mmuTranslateAddr hc a x).1 = (e.mmu.translateAddr (hc.callback e.mmu e.host) a x x.reqPerm).1 := rfl

theorem mmuTranslateAddr_error {x : Access} {code : BitVec 16} (h : (e.mmuTranslateAddr hc a x).1 = .error code) :
    e.mmuTranslateAddr hc a x = (.error code, e) := by
  have hm : ∀ (m : Mmu) (tr : Translate), (m.translateAddr tr a x x.reqPerm).1 = .error code →
      m.translateAddr tr a x x.reqPerm = (.error code, m) := by
    intro m tr h
    unfold Mmu.translateAddr at h ⊢
    dsimp only at h ⊢
    split
    · next ht =>
      rw [if_pos ht] at h
      split
      · next hp =>
        rw [if_pos hp] at h
        cases h
        rfl
      · next hp =>
        rw [if_neg hp] at h
        cases h
    · next ht =>
      rw [if_neg ht] at h
      cases htr : m.translate with
      | none =>
        rw [htr] at h
        cases h
        rfl
      | some cb =>
        rw [htr] at h
        dsimp only at h ⊢
        cases hr : checkResult (tr a x) x.reqPerm with
        | error c =>
          rw [hr] at h
          cases h
          rfl
        | ok p =>
          rw [hr] at h
          cases h
  unfold mmuTranslateAddr at h ⊢
  dsimp only at h ⊢
  rw [hm _ _ h]

section WriteEvents

theorem jitInvalidate_writeEvents (e : Emu H) {f : Jit → Jit}
    (hf : ∀ j, (f j).stats.writeEvents = j.stats.writeEvents) :
    (e.jitInvalidate f).writeEvents = e.writeEvents := by
  unfold jitInvalidate jitInvalidateDeferred
  cases hj : e.jit with
  | none => rfl
  | some j => cases hr : e.inJitRun <;> simp [writeEvents, hj, hf]

theorem jitApplyChanged_writeEvents (e : Emu H) : e.jitApplyChanged.writeEvents = e.writeEvents := by
  unfold jitApplyChanged
  split
  · exact jitInvalidate_writeEvents e fun _ => rfl
  · refine List.foldlRecOn (motive := fun s : Emu H => s.writeEvents = e.writeEvents) _ _ rfl fun s hs p _ => ?_
    refine (jitInvalidate_writeEvents s fun j => ?_).trans hs
    unfold jitInvalidateBlocksForCodePage
    split
    · rfl
    · exact Jit.writeEvents_where _ _

theorem hostCall_writeEvents (e : Emu H) (c : HostCall) : (e.hostCall c).writeEvents = e.writeEvents := by
  cases c with
  | assertIrq =>
    change e.assertIrq.writeEvents = _
    unfold assertIrq
    dsimp only
    split <;> rfl
  | mmuSet t f en id =>
    change (e.mmuSet t f en id).writeEvents = _
    unfold mmuSet
    split
    · rfl
    · exact jitInvalidate_writeEvents _ fun _ => rfl
  | mmuEndUpdate =>
    change e.mmuEndUpdate.writeEvents = _
    unfold mmuEndUpdate
    split
    · rfl
    · exact jitApplyChanged_writeEvents e
  | jitEnable en =>
    change (e.jitEnable en).writeEvents = _
    unfold jitEnable
    cases hj : e.jit <;> cases en <;> simp [writeEvents, hj, jitBackendCreate, JitStats.zero]
  | jitFlush => exact jitInvalidate_writeEvents e fun _ => rfl
  | _ => rfl

theorem hostReturns_writeEvents (e : Emu H) (x : H × List HostCall) :
    (e.hostReturns x).writeEvents = e.writeEvents :=
  foldl_kept hostCall_writeEvents { e with host := x.1 } x.2

end WriteEvents

/-- The error stop leaves the block it is in, or returns. -/
theorem emuStopError_cases (hc : HostCode H) (e : Emu H) :
    ∃ s, (e.inJitRun = true ∧ e.emuStopError hc = .exit s ∨
        e.inJitRun = false ∧ e.emuStopError hc = .ok () s ∧ s.inJitRun = false) ∧
      s.bus = e.bus ∧ s.writeEvents = e.writeEvents := by
  unfold emuStopError
  dsimp only
  split
  · next hr => exact ⟨_, .inl ⟨hr, rfl⟩, rfl, rfl⟩
  · next hr =>
    have hr : e.inJitRun = false := Bool.eq_false_iff.2 hr
    split
    · refine ⟨_, .inr ⟨hr, rfl, ?_⟩, ?_, ?_⟩
      all_goals
        unfold maybeCallOnStop
        split
      · exact hr
      · exact (foldl_inJitRun _ _).trans hr
      · rfl
      · exact foldl_bus _ _
      · rfl
      · exact hostReturns_writeEvents _ _
    · exact ⟨_, .inr ⟨hr, rfl, hr⟩, rfl, rfl⟩

/-- A fault leaves memory alone and records no write. -/
theorem mmuFault_cases (hc : HostCode H) (e : Emu H) (a : Addr) (x : Access) (code : BitVec 16) :
    (e.afterFault hc a x code).bus = e.bus ∧ (e.afterFault hc a x code).writeEvents = e.writeEvents ∧
      (e.inJitRun = true ∧ e.mmuFault hc a x code = .exit (e.afterFault hc a x code) ∨
        e.inJitRun = false ∧ e.mmuFault hc a x code = .ok () (e.afterFault hc a x code) ∧
          (e.afterFault hc a x code).inJitRun = false) := by
  obtain ⟨t, ht, htb, htw, htr⟩ : ∃ t, e.mmuFault hc a x code = emuStopError hc t ∧ t.bus = e.bus ∧
      t.writeEvents = e.writeEvents ∧ t.inJitRun = e.inJitRun := by
    refine ⟨_, mmuFault_eq hc e a x code, ?_⟩
    cases e.mmu.fault with
    | none => exact ⟨rfl, rfl, rfl⟩
    | some cb => exact ⟨foldl_bus _ _, hostReturns_writeEvents _ _, foldl_inJitRun _ _⟩
  obtain ⟨s, hs, hb, hw⟩ := emuStopError_cases hc t
  rw [htr] at hs
  have ha : e.afterFault hc a x code = s := by
    unfold afterFault
    rw [ht]
    rcases hs with ⟨-, hs⟩ | ⟨-, hs, -⟩ <;> rw [hs]
  rw [ha, ht]
  exact ⟨hb.trans htb, hw.trans htw, hs⟩

theorem physHit_state (hc : HostCode H) (s : Emu H) (j : Jit) (a : Addr) :
    ∃ m, (s.jitPhysHit hc j a).2 = { s with mmu := m } := by
  unfold jitPhysHit jitTranslatePaddr mmuTranslateCached
  split
  · exact ⟨s.mmu, rfl⟩
  · dsimp only
    split
    · exact ⟨s.mmu, rfl⟩
    · exact ⟨_, rfl⟩

theorem physHit_isNone (hc : HostCode H) (s : Emu H) (j : Jit) (a : Addr) :
    (s.jitPhysHit hc j a).1.isNone = true ↔ ¬(j.compiledPhysRefsTotal ≠ 0 ∧
      ∃ p, (s.jitTranslatePaddr hc a .write).1 = some p ∧
        (j.coveredPhysAddrRefcnt p ≠ 0 ∨ j.compiledPhysPageRefcnt (page p) ≠ 0)) := by
  unfold jitPhysHit
  by_cases ht : j.compiledPhysRefsTotal = 0
  · simp [ht]
  · rw [if_neg ht]
    dsimp only
    cases (s.jitTranslatePaddr hc a .write).1 with
    | none => simp
    | some p =>
      have ht : j.compiledPhysRefsTotal ≠ 0#32 := ht
      simp [ht]

/-- The report of a store outside of a block: nothing, or one write event. -/
theorem note_cases (hc : HostCode H) {s : Emu H} {j : Jit} (hj : s.jit = some j)
    (hr : s.inJitRun = false) (a : Addr) :
    (s.jitNoteGuestWrite hc a).bus = s.bus ∧
      (j.Watches a (s.jitTranslatePaddr hc a .write).1 ∧ (s.jitNoteGuestWrite hc a).writeEvents =
        s.writeEvents + 1 ∨
        ¬j.Watches a (s.jitTranslatePaddr hc a .write).1 ∧ (s.jitNoteGuestWrite hc a).jit = some j) := by
  obtain ⟨m, hm⟩ := physHit_state hc s j a
  have hp := physHit_isNone hc s j a
  have hv : (!(j.compiledPageRefcnt (page a) != 0 && j.coveredAddrRefcnt a != 0)) = true ↔
      ¬(j.compiledPageRefcnt (page a) ≠ 0 ∧ j.coveredAddrRefcnt a ≠ 0) := by
    rw [Bool.not_eq_true', ← Bool.not_eq_true, Bool.and_eq_true, bne_iff_ne, bne_iff_ne]
  have hw : s.writeEvents = j.stats.writeEvents := by
    rw [writeEvents, hj]
    rfl
  unfold jitNoteGuestWrite Jit.Watches
  rw [hj]
  dsimp only
  by_cases hact : j.activeBlocks = 0
  · rw [if_pos hact]
    exact ⟨rfl, .inr ⟨fun h => h.1 hact, hj⟩⟩
  rw [if_neg hact, hm]
  by_cases hcov : (!(j.compiledPageRefcnt (page a) != 0 && j.coveredAddrRefcnt a != 0) &&
    (s.jitPhysHit hc j a).1.isNone) = true
  · rw [if_pos hcov]
    rw [Bool.and_eq_true, hv, hp] at hcov
    exact ⟨rfl, .inr ⟨fun h => h.2.elim hcov.1 hcov.2, hj⟩⟩
  · rw [if_neg hcov, hr, if_neg (by decide), hw]
    refine ⟨rfl, .inl ⟨⟨hact, ?_⟩, Jit.writeEvents_writeEvent _ _⟩⟩
    rw [Bool.and_eq_true, hv, hp, ← not_or] at hcov
    exact Decidable.not_not.1 hcov

theorem Untouched.writeEvents {j : Jit} (hj : e.jit = some j) (h : e.Untouched s) :
    s.writeEvents = e.writeEvents := by
  obtain ⟨j', hj', hs⟩ := h.jit j hj
  rw [Emu.writeEvents, Emu.writeEvents, hj, hj']
  exact congrArg JitStats.writeEvents hs.stats

end Emu

theorem Jit.SameCode.watches {j j' : Jit} (h : j.SameCode j') {a : Addr} {phys : Option Addr} :
    j'.Watches a phys ↔ j.Watches a phys := by
  rw [Watches, Watches, h.activeBlocks, h.compiledPage, h.coveredAddr, h.compiledPhysRefs,
    h.coveredPhysAddr, h.compiledPhysPage]

/-- The callbacks called for a fault make no library calls. -/
structure HostCode.FaultsQuietly (hc : HostCode H) : Prop where
  mmuFault : ∀ h cb a x code, (hc.mmuFault h cb a x code).2 = []
  onStop : ∀ h cb q, (hc.onStop h cb q).2 = []

namespace HostCode.FaultsQuietly

variable {hc : HostCode H} (h : hc.FaultsQuietly)

include h

theorem callOnStop (t : Emu H) : (t.maybeCallOnStop hc).bus = t.bus ∧ (t.maybeCallOnStop hc).jit = t.jit := by
  unfold Emu.maybeCallOnStop
  split
  · exact ⟨rfl, rfl⟩
  · rw [Emu.hostReturns, h.onStop]
    exact ⟨rfl, rfl⟩

theorem stopError (t : Emu H) : (t.emuStopError hc).Ends fun s => s.bus = t.bus ∧ s.jit = t.jit := by
  unfold Emu.emuStopError
  dsimp only
  split
  · exact ⟨rfl, rfl⟩
  · split
    · exact h.callOnStop _
    · exact ⟨rfl, rfl⟩

theorem mmuFault_ends (e : Emu H) (a : Addr) (x : Access) (code : BitVec 16) :
    (e.mmuFault hc a x code).Ends fun s => s.bus = e.bus ∧ s.jit = e.jit := by
  rw [Emu.mmuFault_eq]
  cases e.mmu.fault with
  | none => exact h.stopError _
  | some cb =>
    rw [Option.elim_some, Emu.hostReturns, h.mmuFault]
    exact h.stopError _

theorem untouched (e : Emu H) (a : Addr) (x : Access) (code : BitVec 16) :
    e.Untouched (e.afterFault hc a x code) := by
  have hs : (e.afterFault hc a x code).bus = e.bus ∧ (e.afterFault hc a x code).jit = e.jit := by
    have hends := h.mmuFault_ends e a x code
    unfold Emu.afterFault
    cases hx : e.mmuFault hc a x code with
    | ok v s =>
      rw [hx] at hends
      exact hends
    | exit s =>
      rw [hx] at hends
      exact hends
    | stuck => exact ⟨rfl, rfl⟩
  refine ⟨hs.1, fun j hj => ⟨j, hs.2.trans hj, ?_⟩⟩
  constructor <;> rfl

end HostCode.FaultsQuietly

/-- A store whose translation fails does what the callbacks do and, outside of a block, what is
done for a store that was made. -/
theorem Emu.faulted_store_iff (hc : HostCode H) (e : Emu H) (j : Jit) (hj : e.jit = some j) (a : Addr) (v : Byte)
    (code : BitVec 16) (hacc : e.mmu.accessors = true) (hf : (e.mmuTranslateAddr hc a .write).1 = .error code) :
    (e.memWrite1 hc a v).Leads e.Untouched e.Untouched ↔
      e.Untouched (e.afterFault hc a .write code) ∧
        (e.inJitRun = true ∨ ¬j.Watches a ((e.afterFault hc a .write code).jitTranslatePaddr hc a .write).1) := by
  obtain ⟨hb, hw, hs⟩ := Emu.mmuFault_cases hc e a .write code
  have hstore : e.memWrite1 hc a v = (e.mmuFault hc a .write code).bind fun _ s =>
    .ok () (s.jitNoteGuestWrite hc a) := by
    unfold Emu.memWrite1 Emu.memWriteMmu
    rw [if_pos hacc, Emu.mmuTranslateAddr_error hf]
  rw [hstore]
  generalize e.afterFault hc a .write code = s at hb hw hs ⊢
  rcases hs with ⟨hr, hs⟩ | ⟨hr, hs, hr'⟩
  · rw [hs]
    exact ⟨fun h => ⟨h, .inl hr⟩, fun h => h.1⟩
  · rw [hs, hr]
    change e.Untouched (s.jitNoteGuestWrite hc a) ↔ _
    constructor
    · intro h
      cases hj' : s.jit with
      | none =>
        have hn : s.jitNoteGuestWrite hc a = s := by
          unfold Emu.jitNoteGuestWrite
          rw [hj']
        obtain ⟨j', he, -⟩ := h.jit j hj
        rw [hn, hj'] at he
        cases he
      | some j' =>
        obtain ⟨-, ⟨-, hn⟩ | ⟨hn, he⟩⟩ := Emu.note_cases hc hj' hr' a
        · have hu := h.writeEvents hj
          omega
        · have hsame : j.SameCode j' := by
            obtain ⟨j'', he', hsame⟩ := h.jit j hj
            rw [he] at he'
            cases he'
            exact hsame
          refine ⟨⟨hb, fun k hk => ?_⟩, .inr (mt hsame.watches.mpr hn)⟩
          cases hj.symm.trans hk
          exact ⟨j', hj', hsame⟩
    · rintro ⟨h, hn⟩
      obtain ⟨j', hj', hsame⟩ := h.jit j hj
      have hn := hn.resolve_left Bool.false_ne_true
      obtain ⟨hnb, ⟨hw', -⟩ | ⟨-, he⟩⟩ := Emu.note_cases hc hj' hr' a
      · exact absurd (hsame.watches.mp hw') hn
      · refine ⟨hnb.trans hb, fun k hk => ?_⟩
        cases hj.symm.trans hk
        exact ⟨j', he, hsame⟩

/-- A store whose translation fails leaves memory and the bookkeeping of compiled code alone
exactly if the callbacks it leads to do, and it is made inside of a block or at an address that no
active block covers. Callbacks that make no library calls do. -/
theorem faulting_store_untouched_iff (hc : HostCode H) (e : Emu H) (j : Jit) (hj : e.jit = some j)
    (a : Addr) (v : Byte)
    (code : BitVec 16) (hacc : e.mmu.accessors = true) (hf : (e.mmuTranslateAddr hc a .write).1 = .error code) :
    ((e.memWrite1 hc a v).Leads e.Untouched e.Untouched ↔
      e.Untouched (e.afterFault hc a .write code) ∧
        (e.inJitRun = true ∨ ¬j.Watches a ((e.afterFault hc a .write code).jitTranslatePaddr hc a .write).1)) ∧
      (hc.FaultsQuietly → ((e.memWrite1 hc a v).Leads e.Untouched e.Untouched ↔
        e.inJitRun = true ∨ ¬j.Watches a ((e.afterFault hc a .write code).jitTranslatePaddr hc a .write).1)) := by
  have hiff := e.faulted_store_iff hc j hj a v code hacc hf
  exact ⟨hiff, fun hq => hiff.trans (and_iff_right (hq.untouched e a .write code))⟩

/-- Every page maps to itself, for reading and execution only. -/
def readOnly : Translate := fun a _ => ⟨true, a.setWidth 32, permR ||| permX, 0, false⟩

/-- Memory full of `RTS` under that mapping, with the JIT switched on. -/
def readOnlyEmu : Emu Unit := rtsEmu.mmuSet (some 0) none true false

/-- The same with the given cache, inside or outside of a block. -/
def readOnlyWith (j : Jit) (inside : Bool) : Emu Unit := { readOnlyEmu with jit := some j, inJitRun := inside }

/-- Inside of a block, a store to the block's own code. -/
theorem faulting_store_leaves_block : ∃ j : Jit, cacheAfter (quietHost readOnly) readOnlyEmu 0x0200 = some j ∧
    j.contains 0x0200 = true ∧ ((readOnlyWith j true).memWrite1 (quietHost readOnly) 0x0200 0).Leads
      (readOnlyWith j true).Untouched (readOnlyWith j true).Untouched := by
  have hany : (cacheAfter (quietHost readOnly) readOnlyEmu 0x0200).any (fun j => j.contains 0x0200) = true := by
    decide +kernel
  have ht : (readOnlyEmu.mmu.translateAddr ((quietHost readOnly).callback readOnlyEmu.mmu ())
    0x0200 .write permW).1 =
      .error 0xFFFE := by
    decide +kernel
  obtain ⟨j, hj, hin⟩ := (Option.any_eq_true _ _).1 hany
  refine ⟨j, hj, hin, (faulting_store_untouched_iff (quietHost readOnly) (readOnlyWith j true)
    j rfl 0x0200 0 0xFFFE rfl ((readOnlyWith j true).mmuTranslateAddr_fst _ _ _ |>.trans ht)).2
    ⟨fun _ _ _ _ _ => rfl, fun _ _ _ => rfl⟩ |>.mpr (.inl rfl)⟩

/-- Outside of a block, a store that was not made drops the code at its address. -/
theorem faulting_store_drops_block :
    readOnlyEmu.mmu.accessors = true ∧
    (readOnlyEmu.mmuTranslateAddr (quietHost readOnly) 0x0200 .write).1 = .error 0xFFFE ∧
      (cacheAfter (quietHost readOnly) readOnlyEmu 0x0200).any (fun j =>
        j.activeBlocks = 1 ∧ j.contains 0x0200 ∧ j.stats.writeEvents = 0 ∧
          ((readOnlyWith j false).memWrite1 (quietHost readOnly) 0x0200 0).state?.any fun s =>
            s.bus.ram 0 0x0200 = 0x60 ∧ s.jit.any fun k => k.activeBlocks = 0 ∧ !k.contains 0x0200 ∧
            k.stats.writeEvents = 1) = true := by
  decide +kernel

end Rk65c02
