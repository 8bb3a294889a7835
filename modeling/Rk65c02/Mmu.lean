import Rk65c02.JitCache

/-! Address translation with the software TLB, and the host calls that change the
mapping, the interrupt line or the run. -/

namespace Rk65c02

variable {H : Type}

namespace Mmu

def refreshAccessors (m : Mmu) : Mmu := { m with accessors := m.enabled && !m.identityActive }

def tlbFlush (m : Mmu) : Mmu := { m with tlb := fun _ => .zero }

def tlbFlushVpage (m : Mmu) (vpage : Byte) : Mmu :=
  { m with tlb := Function.update m.tlb vpage { m.tlb vpage with valid := false } }

def tlbSet (m : Mmu) (enabled : Bool) : Mmu :=
  let m := { m with tlbEnabled := enabled }
  if enabled then m else m.tlbFlush

/-- The fields `rk65c02_mmu_set` writes before it refreshes and flushes. -/
def set (m : Mmu) (translate fault : Option Cb) (enabled identityFastpath : Bool) : Mmu :=
  { m with
    translate := translate
    fault := fault
    enabled := enabled
    identityFastpath := identityFastpath
    identityActive := if enabled then identityFastpath else false
    updatePending := false
    changedAll := false
    changedVpage := fun _ => false
    epoch := m.epoch + 1 }

def clear (m : Mmu) : Mmu :=
  tlbFlush <| refreshAccessors
    { m with
      enabled := false
      identityFastpath := false
      identityActive := false
      updatePending := false
      translate := none
      fault := none
      epoch := m.epoch + 1
      changedAll := false
      changedVpage := fun _ => false }

def beginUpdate (m : Mmu) : Mmu :=
  if !m.enabled then m
  else { m with updatePending := true, changedAll := false, changedVpage := fun _ => false }

def markChangedVpage (m : Mmu) (vpage : Byte) : Mmu :=
  if !m.enabled then m
  else
    refreshAccessors
      { m with
        updatePending := true
        changedVpage := Function.update m.changedVpage vpage true
        identityActive := false }

def markChangedVrange (m : Mmu) (first last : Addr) : Mmu :=
  if !m.enabled then m
  else
    let m := { m with updatePending := true }
    let m :=
      if first ≤ last then
        { m with changedVpage := fun p =>
          m.changedVpage p || (decide (page first ≤ p) && decide (p ≤ page last)) }
      else { m with changedAll := true }
    refreshAccessors { m with identityActive := false }

/-- The TLB part of applying a batch: all entries, or those of the marked pages. -/
def flushChanged (m : Mmu) : Mmu :=
  if m.changedAll then tlbFlush { m with epoch := m.epoch + 1 }
  else { m with tlb := fun p => if m.changedVpage p then { m.tlb p with valid := false } else m.tlb p }

def endUpdate (m : Mmu) : Mmu :=
  if !m.enabled then m
  else if !m.updatePending then m
  else
    refreshAccessors
      { flushChanged { m with updatePending := false } with changedAll := false, changedVpage := fun _ => false }

end Mmu

/-- A translate callback under a fixed host map. -/
abbrev Translate := Addr → Access → MmuResult

def Access.reqPerm : Access → Byte
  | .fetch => permX
  | .read => permR
  | .write => permW

def permits (perms req : Byte) : Bool := perms &&& req == req

/-- What the callback's answer means for an access, without the TLB. -/
def checkResult (r : MmuResult) (reqPerm : Byte) : Except (BitVec 16) PAddr :=
  if !r.ok then .error r.faultCode
  else if !permits r.perms reqPerm then .error 0xFFFE
  else if physMax ≤ r.paddr.toNat then .error 0xFFFF
  else .ok r.paddr

def tlbHit (m : Mmu) (vaddr : Addr) : Bool :=
  let te := m.tlb (page vaddr)
  m.tlbEnabled && te.valid && te.vpage == page vaddr && te.epoch == m.epoch

def tlbFill (m : Mmu) (vaddr : Addr) (r : MmuResult) : Mmu :=
  if m.tlbEnabled && !r.noFillTlb && r.paddr &&& 0xFF == vaddr.setWidth 32 &&& 0xFF then
    let te : TlbEntry :=
      { valid := true, vpage := page vaddr, ppageBase := r.paddr &&& 0xFFFFFF00, perms := r.perms,
        epoch := m.epoch }
    { m with tlb := Function.update m.tlb (page vaddr) te }
  else m

/-- `rk65c02_mmu_translate_addr`, with `tr` the callback in force. -/
def Mmu.translateAddr (m : Mmu) (tr : Translate) (vaddr : Addr) (access : Access)
    (reqPerm : Byte) : Except (BitVec 16) PAddr × Mmu :=
  if tlbHit m vaddr then
    let te := m.tlb (page vaddr)
    if !permits te.perms reqPerm then (.error 0xFFFE, m)
    else (.ok (te.ppageBase ||| (vaddr.setWidth 32 &&& 0xFF)), m)
  else
    match m.translate with
    | none => (.error 0xFFFD, m)
    | some _ =>
      let r := tr vaddr access
      match checkResult r reqPerm with
      | .error c => (.error c, m)
      | .ok p => (.ok p, tlbFill m vaddr r)

/-- The translate callback in force. -/
def HostCode.callback (hc : HostCode H) (m : Mmu) (h : H) : Translate :=
  hc.translate h (m.translate.getD 0)

namespace Emu

def mmuTranslateAddr (hc : HostCode H) (e : Emu H) (vaddr : Addr) (access : Access) :
    Except (BitVec 16) PAddr × Emu H :=
  let (r, m) := e.mmu.translateAddr (hc.callback e.mmu e.host) vaddr access access.reqPerm
  (r, { e with mmu := m })

/-- Translation for lookups of the JIT: no fault is raised. -/
def mmuTranslateCached (hc : HostCode H) (e : Emu H) (vaddr : Addr) (access : Access) :
    Option PAddr × Emu H :=
  if !e.mmu.enabled || e.mmu.identityActive then (some (vaddr.setWidth 32), e)
  else
    let (r, e) := e.mmuTranslateAddr hc vaddr access
    (r.toOption, e)

def assertIrq (e : Emu H) : Emu H :=
  let e := { e with irq := true }
  if e.state = .stopped ∧ e.stopreason = .wai then { e with state := .running } else e

def deassertIrq (e : Emu H) : Emu H := { e with irq := false }

def requestStop (e : Emu H) : Emu H := { e with stopRequested := true }

/-- Inside a running block, invalidation waits for the block to return: `some` is the
deferred state. -/
def jitInvalidateDeferred (e : Emu H) (j : Jit) : Option (Emu H) :=
  if e.inJitRun then some { e with jit := some { j with needsFlush := true }, useJit := false }
  else none

/-- The public invalidation entry points share the check for a running block. -/
def jitInvalidate (e : Emu H) (f : Jit → Jit) : Emu H :=
  match e.jit with
  | none => e
  | some j => (e.jitInvalidateDeferred j).getD { e with jit := some (f j) }

def jitFlush (e : Emu H) : Emu H := e.jitInvalidate jitBackendFlush

def jitInvalidateAll (e : Emu H) : Emu H := e.jitInvalidate jitBackendFlush

def jitInvalidateVpage (e : Emu H) (vpage : Byte) : Emu H :=
  e.jitInvalidate fun j => jitInvalidateBlocksForPage j vpage

def jitInvalidateCodeVpage (e : Emu H) (vpage : Byte) : Emu H :=
  e.jitInvalidate fun j => jitInvalidateBlocksForCodePage j vpage

def jitEnable (e : Emu H) (enable : Bool) : Emu H :=
  if enable then
    { e with jit := some (e.jit.getD jitBackendCreate), jitRequested := true, useJit := true }
  else { e with jitRequested := false, useJit := false }

def mmuSet (e : Emu H) (translate fault : Option Cb) (enabled identityFastpath : Bool) : Emu H :=
  if enabled && translate.isNone then e
  else
    let m := e.mmu.set translate fault enabled identityFastpath
    jitFlush { e with mmu := m.refreshAccessors.tlbFlush }

def mmuClear (e : Emu H) : Emu H := { e with mmu := e.mmu.clear }

def mmuBeginUpdate (e : Emu H) : Emu H := { e with mmu := e.mmu.beginUpdate }

def mmuMarkChangedVpage (e : Emu H) (vpage : Byte) : Emu H :=
  { e with mmu := e.mmu.markChangedVpage vpage }

def mmuMarkChangedVrange (e : Emu H) (first last : Addr) : Emu H :=
  { e with mmu := e.mmu.markChangedVrange first last }

/-- The 256 virtual pages, in the order of the loop of `rk65c02_mmu_end_update`. -/
def vpages : List Byte := (List.range 256).map (BitVec.ofNat 8)

/-- The JIT part of applying a batch. -/
def jitApplyChanged (e : Emu H) : Emu H :=
  if e.mmu.changedAll then e.jitInvalidateAll
  else (vpages.filter e.mmu.changedVpage).foldl jitInvalidateCodeVpage e

def mmuEndUpdate (e : Emu H) : Emu H :=
  if !e.mmu.enabled || !e.mmu.updatePending then e
  else { e.jitApplyChanged with mmu := e.mmu.endUpdate }

def mmuTlbSet (e : Emu H) (enabled : Bool) : Emu H := { e with mmu := e.mmu.tlbSet enabled }

def mmuTlbFlush (e : Emu H) : Emu H := { e with mmu := e.mmu.tlbFlush }

def mmuTlbFlushVpage (e : Emu H) (vpage : Byte) : Emu H := { e with mmu := e.mmu.tlbFlushVpage vpage }

def hostCall (e : Emu H) : HostCall → Emu H
  | .assertIrq => e.assertIrq
  | .deassertIrq => e.deassertIrq
  | .requestStop => e.requestStop
  | .mmuSet translate fault enabled identity => e.mmuSet translate fault enabled identity
  | .mmuClear => e.mmuClear
  | .mmuBeginUpdate => e.mmuBeginUpdate
  | .mmuMarkChangedVpage vpage => e.mmuMarkChangedVpage vpage
  | .mmuMarkChangedVrange first last => e.mmuMarkChangedVrange first last
  | .mmuEndUpdate => e.mmuEndUpdate
  | .mmuTlbSet enabled => e.mmuTlbSet enabled
  | .mmuTlbFlush => e.mmuTlbFlush
  | .mmuTlbFlushVpage vpage => e.mmuTlbFlushVpage vpage
  | .jitEnable enable => e.jitEnable enable
  | .jitFlush => e.jitFlush
  | .breakpointAdd a => { e with bps := e.bps ++ [a] }
  | .breakpointRemove a => { e with bps := e.bps.erase a }
  | .traceSet on => { e with trace := on }
  | .runtimeDisassemblySet on => { e with runtimeDisassembly := on }

/-- A host callback: the host's new state, then its library calls. -/
def hostReturns (e : Emu H) (r : H × List HostCall) : Emu H :=
  r.2.foldl hostCall { e with host := r.1 }

def asyncCall (e : Emu H) : AsyncCall → Emu H
  | .assertIrq => e.assertIrq
  | .deassertIrq => e.deassertIrq
  | .requestStop => e.requestStop

/-- A point at which asynchronous calls may arrive. -/
def arrive (hc : HostCode H) (e : Emu H) : Emu H :=
  (hc.async e.clock).foldl asyncCall { e with clock := e.clock + 1 }

end Emu

end Rk65c02
