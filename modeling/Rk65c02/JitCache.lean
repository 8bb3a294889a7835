import Rk65c02.State
import Mathlib.Logic.Function.Basic

/-! The JIT cache: coverage counters, invalidation and flush. -/

namespace Rk65c02

def jitBlockMaxInsns : Nat := 64
def jitMaxActiveBlocks : Nat := 1024
def jitMaxInvalidationsPerRun : Nat := 128
def jitPageInvalidationThreshold : BitVec 16 := 4
def jitLoopBudget : BitVec 32 := 256
def jitWriteEventSlots : Nat := 4

def JitStats.zero : JitStats := ⟨0, 0, 0, 0, 0, 0, 0⟩

def jitBackendCreate : Jit where
  activeBlocks := 0
  needsFlush := false
  pendingWrites := []
  pendingWriteOverflow := false
  invalidationEventsThisRun := 0
  stats := .zero
  compiledPageRefcnt := fun _ => 0
  compiledPhysPageRefcnt := fun _ => 0
  coveredPhysAddrRefcnt := fun _ => 0
  compiledPhysRefsTotal := 0
  compiledCodePageRefcnt := fun _ => 0
  coveredAddrRefcnt := fun _ => 0
  pageInvalidationEvents := fun _ => 0
  mutableCodePage := fun _ => false
  blocks := []

namespace Block

def active (b : Block) : Bool := b.fn.isSome

/-- The addresses a walk from `startPc` to `endPcExclusive` visits; all 64K if they are
equal. -/
def addrs (b : Block) : List Addr :=
  let len := if b.startPc = b.endPcExclusive then 65536 else (b.endPcExclusive - b.startPc).toNat
  (List.range len).map fun k => b.startPc + BitVec.ofNat 16 k

/-- The physical addresses of a byte-precise block, in 32-bit arithmetic. -/
def physAddrs (b : Block) : List Nat :=
  (List.range (b.endPcExclusive - b.startPc).toNat).map fun k => b.mmuPhysStart.toNat + k

end Block

/-- One step of a reference counter: up, or down but not below zero. -/
def bump (add : Bool) (c : BitVec 16) : BitVec 16 :=
  if add then c + 1 else if c = 0 then 0 else c - 1

/-- The block has a byte on the page. -/
def Block.coversPage (b : Block) (p : Byte) : Bool := (b.addrs.map page).contains p

def jitBlockPageRefsUpdate (j : Jit) (b : Block) (add : Bool) : Jit :=
  let coarse := b.mmuPhysPageValid && !b.mmuPhysByteCov
  let precise := b.mmuPhysPageValid && b.mmuPhysByteCov
  { j with
    coveredAddrRefcnt := fun a =>
      if a ∈ b.addrs then bump add (j.coveredAddrRefcnt a) else j.coveredAddrRefcnt a
    compiledPageRefcnt := fun p =>
      if b.coversPage p then bump add (j.compiledPageRefcnt p) else j.compiledPageRefcnt p
    coveredPhysAddrRefcnt := fun a =>
      if precise ∧ a.toNat ∈ b.physAddrs then bump add (j.coveredPhysAddrRefcnt a)
      else j.coveredPhysAddrRefcnt a
    compiledPhysPageRefcnt := fun p =>
      if coarse ∧ p = b.mmuPhysPage then bump add (j.compiledPhysPageRefcnt p)
      else j.compiledPhysPageRefcnt p
    compiledPhysRefsTotal :=
      if !b.mmuPhysPageValid then j.compiledPhysRefsTotal
      else if add then j.compiledPhysRefsTotal + 1
      else if j.compiledPhysRefsTotal = 0 then 0 else j.compiledPhysRefsTotal - 1
    compiledCodePageRefcnt := fun p =>
      if p = page b.startPc then bump add (j.compiledCodePageRefcnt p) else j.compiledCodePageRefcnt p }

def jitBackendFlush (j : Jit) : Jit :=
  { j with
    blocks := j.blocks.map fun b => { b with fn := none }
    activeBlocks := 0
    needsFlush := false
    pendingWrites := []
    pendingWriteOverflow := false
    compiledPageRefcnt := fun _ => 0
    compiledPhysPageRefcnt := fun _ => 0
    coveredPhysAddrRefcnt := fun _ => 0
    compiledPhysRefsTotal := 0
    compiledCodePageRefcnt := fun _ => 0
    coveredAddrRefcnt := fun _ => 0
    pageInvalidationEvents := fun _ => 0
    mutableCodePage := fun _ => false }

def jitFindBlock (j : Jit) (pc : Addr) : Option Block := j.blocks.find? fun b => b.startPc = pc

/-- Put back the record of the block that starts where `b` does. -/
def Jit.setBlock (j : Jit) (b : Block) : Jit :=
  { j with blocks := j.blocks.map fun c => if c.startPc = b.startPc then b else c }

/-- Drop the native code of one active block. -/
def jitInvalidateBlock (j : Jit) (b : Block) : Jit :=
  let j := (jitBlockPageRefsUpdate j b false).setBlock { b with fn := none }
  { j with
    activeBlocks := if j.activeBlocks > 0 then j.activeBlocks - 1 else j.activeBlocks
    stats := { j.stats with blocksInvalidated := j.stats.blocksInvalidated + 1 } }

/-- The loop shared by all invalidations: every active block that matches is dropped. -/
def jitInvalidateWhere (j : Jit) (hit : Block → Bool) : Jit :=
  (j.blocks.filter fun b => b.active && hit b).foldl jitInvalidateBlock j

def jitBlockContainsAddr (b : Block) (addr : Addr) : Bool :=
  if b.startPc < b.endPcExclusive then decide (b.startPc ≤ addr) && decide (addr < b.endPcExclusive)
  else if b.endPcExclusive < b.startPc then decide (b.startPc ≤ addr) || decide (addr < b.endPcExclusive)
  else true

def jitInvalidateBlocksForAddr (j : Jit) (addr : Addr) : Jit :=
  jitInvalidateWhere { j with invalidationEventsThisRun := j.invalidationEventsThisRun + 1 }
    fun b => jitBlockContainsAddr b addr

def jitBlockOverlapsPage (b : Block) (p : Byte) : Bool :=
  let pageStart : Addr := p.setWidth 16 <<< 8
  let pageEnd : Addr := pageStart + 0xFF
  if b.startPc = b.endPcExclusive then true
  else if b.startPc < b.endPcExclusive then
    !(decide (b.endPcExclusive ≤ pageStart) || decide (pageEnd < b.startPc))
  else decide (b.startPc ≤ pageEnd) || decide (pageStart < b.endPcExclusive)

def jitInvalidateBlocksForPage (j : Jit) (p : Byte) : Jit :=
  jitInvalidateWhere j fun b => jitBlockOverlapsPage b p

def jitInvalidateBlocksForCodePage (j : Jit) (vpage : Byte) : Jit :=
  if j.compiledCodePageRefcnt vpage = 0 then j
  else jitInvalidateWhere j fun b => page b.startPc = vpage

/-- The end of the physical span is computed in 16 bits. -/
def jitBlockMatchesPhys (b : Block) (paddr : Addr) : Bool :=
  b.mmuPhysPageValid &&
    if b.mmuPhysByteCov then
      !(decide (paddr < b.mmuPhysStart) ||
        decide (b.mmuPhysStart + (b.endPcExclusive - b.startPc) ≤ paddr))
    else page paddr = b.mmuPhysPage

def jitInvalidateBlocksForPhysAddr (j : Jit) (paddr : Addr) : Jit :=
  jitInvalidateWhere j fun b => jitBlockMatchesPhys b paddr

/-- Count a write event against the page and demote the page at the threshold. -/
def jitCountPageEvent (j : Jit) (p : Byte) : Jit :=
  let n := j.pageInvalidationEvents p + 1
  let j := { j with pageInvalidationEvents := Function.update j.pageInvalidationEvents p n }
  if !j.mutableCodePage p && decide (jitPageInvalidationThreshold ≤ n) then
    jitInvalidateBlocksForPage
      { j with
        mutableCodePage := Function.update j.mutableCodePage p true
        stats := { j.stats with pagesDemoted := j.stats.pagesDemoted + 1 } } p
  else j

/-- What a write event does to the cache, at once or when it is processed. -/
def jitWriteEvent (j : Jit) (w : PendingWrite) : Jit :=
  let j := jitInvalidateBlocksForAddr j w.addr
  let j := w.phys.elim j (jitInvalidateBlocksForPhysAddr j)
  jitCountPageEvent j (page w.addr)

def jitRunStateReset (j : Jit) : Jit :=
  { j with
    invalidationEventsThisRun := 0
    pageInvalidationEvents := fun _ => 0
    mutableCodePage := fun _ => false }

/-- The cache part of `jit_process_pending_writes`. -/
def jitProcessPendingWrites (j : Jit) : Jit × Bool :=
  let j :=
    if j.pendingWriteOverflow then
      let j := jitBackendFlush j
      { j with invalidationEventsThisRun := j.invalidationEventsThisRun + 1 }
    else j
  let j := j.pendingWrites.foldl jitWriteEvent j
  let j := { j with pendingWrites := [], pendingWriteOverflow := false }
  (j, jitMaxInvalidationsPerRun ≤ j.invalidationEventsThisRun)

end Rk65c02
