import Rk65c02.JitReachable
import Rk65c02.Straight

/-! The shape of compiled blocks: consecutive instructions on one page of which only the last
leaves the line. So a block belongs to one page, however it is looked for. -/

namespace Rk65c02

open Resumption

variable {H : Type} {hc : HostCode H}

/-- The instruction goes on with the next one, unless a fault stops it where it is. -/
def Instruction.Straight (i : Instruction) : Prop :=
  ∀ tpc r, ((execInsn tpc i).run r).Sat (fun _ _ => True) fun v => v.2.PC = r.PC + i.size ∨ v.2.PC = r.PC

theorem Instruction.straight_of {i : Instruction} (hd : i.emul.diverts = false)
    (hm : (instructionDecode i.opcode).modifyPc = false) : i.Straight := by
  intro tpc r
  unfold execInsn
  rw [StateT.run_bind]
  refine (Emul.leavesPc hd (instructionDecode i.opcode) i r).bind fun v hv => ⟨trivial, fun b : Bool => ?_⟩
  cases b with
  | true => exact ⟨trivial, fun _ => .inr hv⟩
  | false =>
    simp only [hm]
    exact ⟨trivial, fun _ => .inl (congrArg (· + i.size) hv)⟩

theorem endsBlock_table {i : Instruction} (h : jitEndsBlock i = false)
    (hb : jitOpcodeIsCondBranch i.opcode = false) :
    i.emul.diverts = false ∧ (instructionDecode i.opcode).modifyPc = false ∧ i.emul ≠ .stp ∧ i.emul ≠ .wai :=
  forall_opcode (p := fun op id =>
    (!jitOpcodeIsCondBranch op && (id.modifyPc || op == 0x60 || op == 0xDB || op == 0xCB)) = false →
      jitOpcodeIsCondBranch op = false → id.emul.diverts = false ∧ id.modifyPc = false ∧
        id.emul ≠ .stp ∧ id.emul ≠ .wai)
    (by decide +kernel) i.opcode h hb

/-- The bytes that an instruction takes. -/
def Instruction.bytes (i : Instruction) : Nat := (instructionDecode i.opcode).size

/-- The addresses of the bytes of consecutive instructions, operands included. -/
def insnBytes : Addr → List Instruction → List Addr
  | _, [] => []
  | pc, i :: is => (List.range i.bytes).map (fun k => pc + BitVec.ofNat 16 k) ++ insnBytes (pc + i.size) is

/-- How many bytes they take. -/
def insnSpan : List Instruction → Nat
  | [] => 0
  | i :: is => i.bytes + insnSpan is

theorem blockEnd_eq (pc : Addr) (is : List Instruction) : blockEnd pc is = pc + BitVec.ofNat 16
    (insnSpan is) := by
  induction is generalizing pc with
  | nil => exact (BitVec.add_zero pc).symm
  | cons i is ih =>
    rw [blockEnd, ih, insnSpan, BitVec.ofNat_add, BitVec.add_assoc]
    rfl

theorem insnBytes_eq (pc : Addr) (is : List Instruction) :
    insnBytes pc is = (List.range (insnSpan is)).map fun k => pc + BitVec.ofNat 16 k := by
  induction is generalizing pc with
  | nil => rfl
  | cons i is ih =>
    rw [insnBytes, ih, insnSpan, List.range_add, List.map_append, List.map_map]
    refine congrArg _ (List.map_congr_left fun k _ => ?_)
    rw [Function.comp_apply, BitVec.ofNat_add, BitVec.add_assoc]
    rfl

theorem length_le_span (is : List Instruction) : is.length ≤ insnSpan is := by
  induction is with
  | nil => exact Nat.le_refl 0
  | cons i is ih =>
    have hi : 0 < i.bytes := Nat.zero_lt_of_lt (instructionDecode_size i.opcode).1
    rw [List.length_cons, insnSpan]
    omega

theorem page_eq_iff {a b : Addr} : page a = page b ↔ a.toNat / 256 = b.toNat / 256 := by
  rw [← BitVec.toNat_inj, toNat_page, toNat_page]

/-- Consecutive decoding from `pc`, without a fault. -/
inductive Decodes (hc : HostCode H) : Addr → Emu H → List Instruction → Prop
  | nil {pc : Addr} {e : Emu H} : Decodes hc pc e []
  | cons {pc : Addr} {e e' : Emu H} {i : Instruction} {is : List Instruction}
      (hi : e.runCpu hc (instructionFetchEmu pc) = .ok i e') (hs : e'.state = .running)
      (h : Decodes hc (pc + i.size) e' is) : Decodes hc pc e (i :: is)

/-- What the build of a block gives from `pc` on. -/
structure Line (startPc pc : Addr) (n : Nat) (is : List Instruction) : Prop where
  length : is.length ≤ n
  line : ∀ i ∈ is.dropLast, jitEndsBlock i = false
  fits : is ≠ [] → page pc = page startPc ∧ pc.toNat % 256 + insnSpan is ≤ 256

theorem Line.nil {startPc pc : Addr} {n : Nat} : Line startPc pc n [] :=
  ⟨Nat.zero_le n, nofun, fun h => absurd rfl h⟩

/-- An instruction whose first and last byte are on a page is on it. -/
theorem fits_insn {startPc pc : Addr} {i : Instruction} (h : page pc = page startPc)
    (hl : page (pc + i.size - 1) = page startPc) :
    pc.toNat % 256 + i.bytes ≤ 256 := by
  obtain ⟨h1, h3⟩ := instructionDecode_size i.opcode
  have hs : i.size = BitVec.ofNat 16 i.bytes := rfl
  have hb : i.bytes = (instructionDecode i.opcode).size := rfl
  rw [page_eq_iff] at h hl
  rw [hs] at hl
  have hp := pc.isLt
  generalize i.bytes = n at *
  have hv : (pc + BitVec.ofNat 16 n - 1).toNat = (pc.toNat + (n - 1)) % 65536 := by
    simp only [BitVec.toNat_sub, BitVec.toNat_add, BitVec.toNat_ofNat, show (1 : Addr).toNat = 1 from rfl]
    omega
  rw [hv] at hl
  omega

theorem Line.cons {startPc pc : Addr} {n : Nat} {i : Instruction} {is : List Instruction}
    (h : page pc = page startPc) (hl : page (pc + i.size - 1) = page startPc)
    (hi : is ≠ [] → jitEndsBlock i = false) (his : Line startPc (pc + i.size) n is) :
    Line startPc pc (n + 1) (i :: is) := by
  have hfit := fits_insn h hl
  refine ⟨Nat.succ_le_succ his.length, ?_, fun _ => ⟨h, ?_⟩⟩
  · cases is with
    | nil => nofun
    | cons k ks =>
      intro x hx
      rw [List.dropLast_cons_cons, List.mem_cons] at hx
      rcases hx with rfl | hx
      · exact hi (List.cons_ne_nil k ks)
      · exact his.line x hx
  · rw [insnSpan]
    by_cases he : is = []
    · subst he
      exact hfit
    · obtain ⟨hp, hs⟩ := his.fits he
      rw [page_eq_iff] at h hp
      have hv : (pc + i.size).toNat = (pc.toNat + i.bytes) % 65536 := by
        rw [BitVec.toNat_add, show i.size = BitVec.ofNat 16 i.bytes from rfl, BitVec.toNat_ofNat]
        omega
      have hpc := pc.isLt
      rw [hv] at hp hs
      omega

theorem build_line {startPc : Addr} (n : Nat) {pc : Addr} {e s : Emu H} {is : List Instruction}
    (hb : e.jitBuildBlockInsns hc startPc n pc = .ok is s) : Line startPc pc n is ∧ Decodes hc pc e is := by
  induction n generalizing pc e s is with
  | zero =>
    cases hb
    exact ⟨.nil, .nil⟩
  | succ n ih =>
    unfold Emu.jitBuildBlockInsns at hb
    split at hb
    · cases hb
      exact ⟨.nil, .nil⟩
    · next hp =>
      obtain ⟨i, e₁, hi, hb⟩ := Out.of_bind_ok hb
      split at hb
      · cases hb
        exact ⟨.nil, .nil⟩
      · next hrun =>
        split at hb
        · cases hb
          exact ⟨.nil, .nil⟩
        · next hl =>
          have hrun := Decidable.not_not.1 hrun
          have hp := Decidable.not_not.1 hp
          have hl := Decidable.not_not.1 hl
          split at hb
          · cases hb
            exact ⟨.cons hp hl (fun h => absurd rfl h) .nil, .cons hi hrun .nil⟩
          · next hend =>
            obtain ⟨is', s', hb', hs⟩ := Out.of_bind_ok hb
            cases hs
            obtain ⟨hline, hdec⟩ := ih hb'
            exact ⟨.cons hp hl (fun _ => Bool.eq_false_iff.2 hend) hline, .cons hi hrun hdec⟩

/-- The shape of a block with its instructions. -/
structure Block.Shaped (b : Block) (insns : List Instruction) : Prop where
  count : 0 < insns.length ∧ insns.length ≤ jitBlockMaxInsns ∧ b.numInsns = insns.length
  bytes : insnBytes b.startPc insns = b.addrs
  onPage : ∀ a ∈ b.addrs, page a = page b.startPc
  line : ∀ i ∈ insns.dropLast, jitOpcodeIsCondBranch i.opcode = true ∨ i.Straight ∧ i.emul ≠ .stp ∧ i.emul ≠ .wai
  fits : b.endPcExclusive = b.startPc + BitVec.ofNat 16 (insnSpan insns) ∧
    b.startPc.toNat % 256 + insnSpan insns ≤ 256

theorem Emu.Compiled.shaped {e : Emu H} {pc : Addr} {insns : List Instruction} {b : Block}
    (h : e.Compiled hc pc insns b) :
    b.Shaped insns := by
  obtain ⟨s, hb⟩ := h.built
  obtain ⟨hline, -⟩ := build_line _ hb
  have hpos := List.length_pos_iff.2 h.nonempty
  have hspan := Nat.lt_of_lt_of_le hpos (length_le_span insns)
  have hfits := (hline.fits h.nonempty).2
  have hend : b.endPcExclusive = b.startPc + BitVec.ofNat 16 (insnSpan insns) := by
    rw [h.endPc, blockEnd_eq, h.startPc]
  rw [← h.startPc] at hfits
  have hlen : (b.endPcExclusive - b.startPc).toNat = insnSpan insns := by
    rw [hend]
    bv_omega
  have hne : b.startPc ≠ b.endPcExclusive := fun hh => by
    rw [← hh, BitVec.sub_self] at hlen
    exact absurd hlen.symm (Nat.ne_of_gt hspan)
  refine ⟨⟨hpos, hline.length, h.numInsns⟩, ?_, fun a ha => ?_, fun i hi => ?_, hend, hfits⟩
  · rw [insnBytes_eq, Block.addrs, if_neg hne, hlen]
  · rw [Block.mem_addrs_iff, if_neg hne, hlen] at ha
    rw [page_eq_iff]
    bv_omega
  · have hi := hline.line i hi
    cases hc : jitOpcodeIsCondBranch i.opcode with
    | true => exact .inl rfl
    | false =>
      obtain ⟨hd, hm, hs⟩ := endsBlock_table hi hc
      exact .inr ⟨Instruction.straight_of hd hm, hs⟩

/-- A block with code is one of the old blocks or one with the property. -/
def Jit.Adds (old : Jit) (P : List Instruction → Block → Prop) (j : Jit) : Prop :=
  j.Keyed ∧ ∀ b ∈ j.blocks, ∀ insns, b.fn = some insns → b ∈ old.blocks ∨ P insns b

namespace Jit

variable {old j k : Jit} {P Q : List Instruction → Block → Prop}

theorem Adds.move (hj : old.Adds P j) (h : Move j k) : old.Adds P k := by
  refine ⟨Moves.keyed (.single h) hj.1, ?_⟩
  cases h with
  | drop hb ha =>
    intro x hx insns hfn
    rcases (mem_drop hb).1 hx with rfl | ⟨hx, -⟩
    · cases hfn
    · exact hj.2 x hx insns hfn
  | flush =>
    intro x hx insns hfn
    obtain ⟨b, -, rfl⟩ := List.mem_map.1 hx
    cases hfn
  | note h =>
    rw [blocks_of_core h]
    exact hj.2

theorem stable_adds : Stable (Adds old P) := ⟨fun _ h => h.1, fun _ _ => Adds.move⟩

theorem Adds.record (hj : old.Adds P j) (pc : Addr) : old.Adds P (Emu.jitRecord j pc) := by
  unfold Emu.jitRecord
  split
  · next hf =>
    refine ⟨hj.1.append (Option.isNone_iff_eq_none.1 hf), fun b hb insns hfn => ?_⟩
    rcases List.mem_append.1 hb with hb | hb
    · exact hj.2 b hb insns hfn
    · cases List.mem_singleton.1 hb
      cases hfn
  · exact hj

theorem Adds.install (hj : old.Adds P j) {b : Block} {insns : List Instruction} (hfn : b.fn = some insns)
    (hb : P insns b) : old.Adds P (Emu.jitInstall j b) := by
  refine ⟨(congrArg List.Nodup (Records.keys_put Block.startPc b j.blocks)).mpr hj.1, fun x hx is hx' => ?_⟩
  obtain ⟨c, hc, rfl⟩ := List.mem_map.1 hx
  split at hx'
  · next he =>
    cases hfn.symm.trans hx'
    exact .inr (by rwa [if_pos he])
  · next he =>
    rw [if_neg he]
    exact hj.2 c hc is hx'

end Jit

/-- A compilation adds nothing but the block it has built. -/
theorem compile_adds {e : Emu H} {j : Jit} (hj : e.jit = some j) (hk : j.Keyed) (pc : Addr) :
    (e.jitCompileBlock hc pc).Ends (Emu.Cached (j.Adds fun insns b =>
      Emu.Compiled hc { e with jit := some (Emu.jitRecord j pc) } pc insns b ∧
        Emu.TagsOf hc { e with jit := some (Emu.jitRecord j pc) } pc insns b)) := by
  have hold : j.Adds (fun insns b => Emu.Compiled hc { e with jit := some (Emu.jitRecord j pc) } pc insns b ∧
      Emu.TagsOf hc { e with jit := some (Emu.jitRecord j pc) } pc insns b) (Emu.jitRecord j pc) :=
    Jit.Adds.record ⟨hk, fun b hb _ _ => .inl hb⟩ pc
  exact Emu.compile_cached hc Jit.stable_adds (fun _ h => h) hj hold (fun _ => hold)
    fun k b insns hk hb ht => hk.install hb.fn ⟨hb, ht⟩

theorem Jit.Reachable.shaped {j : Jit} (h : j.Reachable) :
    ∀ b ∈ j.blocks, ∀ insns, b.fn = some insns → b.Shaped insns := by
  have hr : jitBackendCreate.Adds (fun insns b => b.Shaped insns) j :=
    h.stable Jit.stable_adds ⟨List.nodup_nil, nofun⟩ fun hc e j hj he pc => by
      have hroom : jitBackendCreate.Adds (fun insns b => b.Shaped insns) (jitMakeRoom j) := by
        unfold jitMakeRoom
        split
        · exact hj.move .flush
        · exact hj
      refine (compile_adds he hroom.1 pc).mono fun s hs => ⟨hs.1, fun b hb insns hfn => ?_⟩
      rcases hs.2 b hb insns hfn with hb | hb
      · exact hroom.2 b hb insns hfn
      · exact .inr hb.1.shaped
  intro b hb insns hfn
  exact (hr.2 b hb insns hfn).resolve_left nofun

theorem pageStart_toNat (v : Byte) : (v.setWidth 16 <<< 8 : Addr).toNat = v.toNat * 256 := by
  have hv := v.isLt
  simp only [BitVec.toNat_shiftLeft, BitVec.toNat_setWidth, Nat.shiftLeft_eq]
  omega

/-- A shaped block overlaps its own page and no other. -/
theorem Block.Shaped.overlaps {b : Block} {insns : List Instruction} (h : b.Shaped insns) (v : Byte) :
    jitBlockOverlapsPage b v = decide (page b.startPc = v) := by
  obtain ⟨hend, hfit⟩ := h.fits
  have hspan := Nat.lt_of_lt_of_le h.count.1 (length_le_span insns)
  generalize insnSpan insns = n at *
  have hv := v.isLt
  have hs := b.startPc.isLt
  have he : b.endPcExclusive.toNat = (b.startPc.toNat + n) % 65536 := by
    rw [hend, BitVec.toNat_add, BitVec.toNat_ofNat]
    omega
  have hlast : (v.setWidth 16 <<< 8 + 0xFF : Addr).toNat = v.toNat * 256 + 255 := by
    rw [BitVec.toNat_add, pageStart_toNat, show (0xFF : Addr).toNat = 255 from rfl]
    omega
  rw [Bool.eq_iff_iff, decide_eq_true_iff, ← BitVec.toNat_inj, toNat_page]
  unfold jitBlockOverlapsPage
  simp only [BitVec.lt_def, BitVec.le_def, ← BitVec.toNat_inj, pageStart_toNat, hlast, he]
  split
  · omega
  · split
    · simp only [Bool.not_eq_true', Bool.or_eq_false_iff, decide_eq_false_iff_not]
      omega
    · simp only [Bool.or_eq_true, decide_eq_true_iff]
      omega

namespace Jit

theorem where_congr {j : Jit} {hit hit' : Block → Bool} (h : ∀ b ∈ j.blocks, b.active = true → hit b = hit' b) :
    jitInvalidateWhere j hit = jitInvalidateWhere j hit' := by
  unfold jitInvalidateWhere
  refine congrArg (List.foldl jitInvalidateBlock j) (List.filter_congr fun b hb => ?_)
  cases ha : b.active with
  | false => rfl
  | true => exact h b hb ha

/-- The test of the counter before the loop only saves a loop that finds nothing. -/
theorem Exact.codePage_eq {j : Jit} (hj : j.Exact) (v : Byte) :
    jitInvalidateBlocksForCodePage j v = jitInvalidateWhere j fun b => Rk65c02.page b.startPc = v := by
  unfold jitInvalidateBlocksForCodePage
  split
  · next hz =>
    have hnone : j.blocks.filter (fun b => b.active && decide (Rk65c02.page b.startPc = v)) = [] := by
      refine List.filter_eq_nil_iff.2 fun b hb hh => ?_
      rw [Bool.and_eq_true, decide_eq_true_iff] at hh
      exact ne_zero_of_count (hj.code v) hb hh.1 (decide_eq_true hh.2.symm) hz
    rw [jitInvalidateWhere, hnone, List.foldl_nil]
  · rfl

theorem Reachable.overlaps {j : Jit} (h : j.Reachable) {b : Block} (hb : b ∈ j.blocks)
    (ha : b.active = true) (v : Byte) :
    jitBlockOverlapsPage b v = decide (page b.startPc = v) := by
  obtain ⟨insns, hfn⟩ := Option.isSome_iff_exists.1 ha
  exact (h.shaped b hb insns hfn).overlaps v

theorem Reachable.forPage_clear {j : Jit} (h : j.Reachable) (v : Byte) {b : Block}
    (hb : b ∈ (jitInvalidateBlocksForPage j v).blocks) (ha : b.active = true) {a : Addr} (hm : a ∈ b.addrs) :
    page a ≠ v := by
  rw [jitInvalidateBlocksForPage, where_blocks h.exact.keyed] at hb
  obtain ⟨c, hc, rfl⟩ := List.mem_map.1 hb
  split at ha
  · cases ha
  · next hn =>
    rw [if_neg hn] at hm
    obtain ⟨insns, hfn⟩ := Option.isSome_iff_exists.1 ha
    rw [(h.shaped c hc insns hfn).onPage a hm]
    rw [ha, Bool.true_and, h.overlaps hc ha, decide_eq_true_iff] at hn
    exact hn

end Jit

/-- In a reachable cache every block has its shape, a compilation adds a block decoded from
its entry, and both invalidations of a page drop the same blocks and leave none on it. -/
theorem blocks_belong_to_pages {j : Jit} (h : j.Reachable) :
    (∀ b ∈ j.blocks, ∀ insns, b.fn = some insns → b.Shaped insns) ∧
    (∀ (H : Type) (hc : HostCode H) (e e' : Emu H) (pc : Addr) (r : Option Block) (k : Jit), e.jit = some j →
      e.jitCompileBlock hc pc = .ok r e' → e'.jit = some k → ∀ b ∈ k.blocks, ∀ insns, b.fn = some insns →
        b ∈ j.blocks ∨ b.startPc = pc ∧ b.Shaped insns ∧
          Decodes hc pc { e with jit := some (Emu.jitRecord j pc) } insns) ∧
    ∀ v, jitInvalidateBlocksForCodePage j v = jitInvalidateBlocksForPage j v ∧
      ∀ b ∈ (jitInvalidateBlocksForPage j v).blocks, b.active = true → ∀ a ∈ b.addrs, page a ≠ v := by
  refine ⟨h.shaped, fun H hc e e' pc r k hj hr hk b hb insns hfn => ?_, fun v =>
    ⟨?_, fun b hb ha a => h.forPage_clear v hb ha⟩⟩
  · have hadds := (compile_adds hj h.exact.keyed pc).ok hr
    rw [Emu.Cached, hk] at hadds
    refine (hadds.2 b hb insns hfn).imp_right fun hcomp => ⟨hcomp.1.startPc, hcomp.1.shaped, ?_⟩
    obtain ⟨s, hs⟩ := hcomp.1.built
    exact (build_line _ hs).2
  · rw [h.exact.codePage_eq, jitInvalidateBlocksForPage]
    exact (Jit.where_congr fun b hb ha => h.overlaps hb ha v).symm

/-- The last byte of memory is a block that ends at address zero. -/
theorem blocks_belong_to_pages_wrapped : ∃ j : Jit, j.Reachable ∧ j.activeBlocks = 1 ∧
    (j.blocks.map fun b => (b.startPc, b.endPcExclusive)) = [(0xFFFF, 0)] ∧
    jitInvalidateBlocksForCodePage j 0xFF = jitInvalidateBlocksForPage j 0xFF := by
  have hany : (cacheAfter (quietHost identity) rtsEmu 0xFFFF).any (fun j => j.activeBlocks = 1 ∧
      (j.blocks.map fun b => (b.startPc, b.endPcExclusive)) = [(0xFFFF, 0)]) = true := by
    decide +kernel
  obtain ⟨j, hj, hb⟩ := (Option.any_eq_true _ _).1 hany
  obtain ⟨hone, hspan⟩ := of_decide_eq_true hb
  have hr : j.Reachable := cacheAfter_reachable rfl hj
  exact ⟨j, hr, hone, hspan, ((blocks_belong_to_pages hr).2.2 0xFF).1⟩

end Rk65c02
