import Rk65c02.Image
import Rk65c02.RingStack
import Mathlib.Data.List.Induction

/-! The assembler helpers and the decoder of the disassembler agree: a list of requests that
is assembled into RAM is read back instruction by instruction. -/

namespace Rk65c02

open Resumption

variable {H : Type}

structure AsmRequest where
  mnemonic : String
  mode : Addressing
  op1 : Byte
  op2 : Byte

/-- `assembler_t`, with the emulator that owns the bus. -/
structure Assembler (H : Type) where
  emu : Emu H
  pc : Addr

/-- The first opcode of the table with the mnemonic and the mode. -/
def instructionOpcodeByMnemonic (mnemonic : String) (mode : Addressing) : Option (Byte × InstrDef) :=
  (List.range 256).findSome? fun o =>
    let id := instructionDecode (BitVec.ofNat 8 o)
    if id.mnemonic = mnemonic ∧ id.mode = mode then some (BitVec.ofNat 8 o, id) else none

/-- Operands are emitted according to the size in the table. -/
def assembleSingleBuf (q : AsmRequest) : Option (List Byte) :=
  (instructionOpcodeByMnemonic q.mnemonic q.mode).map fun (opcode, id) =>
    let buf := (List.replicate id.size (0 : Byte)).set 0 opcode
    let buf := if 1 < id.size then buf.set 1 q.op1 else buf
    if 2 < id.size then buf.set 2 q.op2 else buf

namespace Emu

variable (hc : HostCode H)

/-- The loop of `bus_load_buf`. -/
def busWriteBuf (e : Emu H) (addr : Addr) : List Byte → Emu H
  | [] => e
  | v :: buf => (e.busWrite1 hc addr v).busWriteBuf (addr + 1) buf

def busLoadBuf (e : Emu H) (addr : Addr) (buf : List Byte) : Bool × Emu H :=
  if busSize < addr.toNat + buf.length then (false, e) else (true, e.busWriteBuf hc addr buf)

/-- Fetch and decode `n` instructions, each advancing by its size. -/
def decodeFrom (e : Emu H) (addr : Addr) : Nat → List Instruction × Addr
  | 0 => ([], addr)
  | n + 1 =>
    let (i, e) := e.instructionFetch hc addr
    let (is, addr) := e.decodeFrom (addr + BitVec.ofNat 16 (instructionDecode i.opcode).size) n
    (i :: is, addr)

end Emu

/-- `pc` moves on even when the load fails. -/
def assembleSingle (hc : HostCode H) (a : Assembler H) (q : AsmRequest) : Bool × Assembler H :=
  match assembleSingleBuf q with
  | none => (false, a)
  | some buf =>
    let (rv, e) := a.emu.busLoadBuf hc a.pc buf
    (rv, { emu := e, pc := a.pc + BitVec.ofNat 16 buf.length })

/-- Requests issued in order, with their results. -/
def assembleAll (hc : HostCode H) (a : Assembler H) : List AsmRequest → List Bool × Assembler H
  | [] => ([], a)
  | q :: qs =>
    let (rv, a) := assembleSingle hc a q
    let (rvs, a) := assembleAll hc a qs
    (rv :: rvs, a)

/-- A decoded instruction is the one that was asked for. -/
def AsmRequest.Decoded (q : AsmRequest) (i : Instruction) : Prop :=
  let id := instructionDecode i.opcode
  id.mnemonic = q.mnemonic ∧ id.mode = q.mode ∧ (1 ≤ q.mode.operands → i.op1 = q.op1) ∧
    (2 ≤ q.mode.operands → i.op2 = q.op2)

/-- The bytes of a request, none if there is no such instruction. -/
def AsmRequest.bytes (q : AsmRequest) : List Byte := (assembleSingleBuf q).getD []

section Table

theorem opcodeByMnemonic_some {mnemonic : String} {mode : Addressing} {o : Byte} {id : InstrDef}
    (h : instructionOpcodeByMnemonic mnemonic mode = some (o, id)) :
    id = instructionDecode o ∧ id.mnemonic = mnemonic ∧ id.mode = mode := by
  obtain ⟨k, -, hk⟩ := List.exists_of_findSome?_eq_some h
  dsimp only at hk
  split at hk
  · next hm =>
    cases hk
    exact ⟨rfl, hm⟩
  · cases hk

/-- What is emitted: the opcode and the operand bytes that the mode has. -/
theorem assembleSingleBuf_some {q : AsmRequest} {buf : List Byte} (h : assembleSingleBuf q = some buf) :
    ∃ o, buf.length = (instructionDecode o).size ∧ (instructionDecode o).mnemonic = q.mnemonic ∧
      (instructionDecode o).mode = q.mode ∧ buf[0]? = some o ∧ (1 ≤ q.mode.operands → buf[1]? = some q.op1) ∧
      (2 ≤ q.mode.operands → buf[2]? = some q.op2) := by
  obtain ⟨⟨o, id⟩, ho, rfl⟩ := Option.map_eq_some_iff.mp h
  obtain ⟨rfl, hn, hm⟩ := opcodeByMnemonic_some ho
  obtain ⟨hlt, hle⟩ := instructionDecode_size o
  rw [← hm]
  refine ⟨o, ?_, hn, rfl, ?_, ?_, ?_⟩
  all_goals
    dsimp only
    generalize (instructionDecode o).size = n at hlt hle
    generalize (instructionDecode o).mode.operands = k at hlt
    obtain rfl | rfl | rfl : n = 1 ∨ n = 2 ∨ n = 3 := by omega
    all_goals simp
    all_goals omega

end Table

/-- The addresses of `n` bytes from `a` on, modulo the size of the bus. -/
def span (a : Addr) (n : Nat) : List Addr := (List.range n).map fun k => a + BitVec.ofNat 16 k

theorem mem_span {a x : Addr} {n : Nat} : x ∈ span a n ↔ ∃ k < n, x = a + BitVec.ofNat 16 k := by
  simp [span, eq_comm]

theorem span_add (a : Addr) (n k : Nat) : span (a + BitVec.ofNat 16 n) k ⊆ span a (n + k) := by
  intro x hx
  obtain ⟨j, hj, rfl⟩ := mem_span.mp hx
  exact mem_span.mpr ⟨n + j, by omega, by rw [BitVec.ofNat_add, BitVec.add_assoc]⟩

theorem not_mem_span_succ {a : Addr} {n : Nat} (h : n < 65536) : a ∉ span (a + 1) n := by
  intro hm
  obtain ⟨k, hk, he⟩ := mem_span.mp hm
  rw [← RingStack.add_ofNat_succ] at he
  have hz := congrArg BitVec.toNat he
  rw [BitVec.toNat_add, BitVec.toNat_ofNat] at hz
  have ha := a.isLt
  omega

section Load

variable {hc : HostCode H} {e : Emu H} {S : Addr → Prop}

variable (hc) in
theorem busWriteBuf_holds {buf : List Byte} {a : Addr} (hn : buf.length ≤ 65536)
    (hcell : ∀ x ∈ span a buf.length, S x ∧ e.bus.Cell S x) :
    (∀ x, e.bus.Cell S x → (e.busWriteBuf hc a buf).bus.Cell S x) ∧
    (∀ x w, S x → x ∉ span a buf.length → e.bus.Holds hc x w → (e.busWriteBuf hc a buf).bus.Holds hc x w) ∧
    ∀ k v, buf[k]? = some v → (e.busWriteBuf hc a buf).bus.Holds hc (a + BitVec.ofNat 16 k) v := by
  induction buf generalizing e a with
  | nil => exact ⟨fun _ h => h, fun _ _ _ _ h => h, fun k v h => nomatch h⟩
  | cons v buf ih =>
    rw [List.length_cons] at hn hcell
    obtain ⟨hS, d, off, ha, hd, hu⟩ := hcell a (mem_span.mpr ⟨0, by omega, by simp⟩)
    have hw : e.busWrite1 hc a v = { e with bus := e.bus.ramWrite1 d off v } := by
      unfold Emu.busWrite1 Emu.deviceWrite1
      rw [ha]
      simp only [if_pos hd]
    have hsub : ∀ x ∈ span (a + 1) buf.length, x ∈ span a (buf.length + 1) := fun x hx => by
      have hh := span_add a 1 buf.length hx
      rwa [Nat.add_comm] at hh
    obtain ⟨hc₁, hk₁, hb₁⟩ := ih (e := { e with bus := e.bus.ramWrite1 d off v }) (a := a + 1) (by omega)
      fun x hx => hcell x (hsub x hx)
    have hself := (Emu.Shows.holds_self v ha hd : Bus.Holds hc _ a v)
    have hout := not_mem_span_succ (a := a) (n := buf.length) (by omega)
    simp only [Emu.busWriteBuf, hw]
    refine ⟨hc₁, fun x w hx hn hh => ?_, fun k w hk => ?_⟩
    · rw [List.length_cons] at hn
      have hne : x ≠ a := fun he => hn (he ▸ mem_span.mpr ⟨0, by omega, by simp⟩)
      exact hk₁ x w hx (fun hm => hn (hsub x hm)) (Emu.Shows.holds_other v hh (hu x hx hne))
    · cases k with
      | zero =>
        obtain rfl : v = w := Option.some.inj hk
        simpa using hk₁ a v hS hout hself
      | succ k =>
        have hh := hb₁ k w hk
        rwa [← RingStack.add_ofNat_succ] at hh

theorem busWriteBuf_append (b₁ b₂ : List Byte) (a : Addr) :
    e.busWriteBuf hc a (b₁ ++ b₂) = (e.busWriteBuf hc a b₁).busWriteBuf hc
    (a + BitVec.ofNat 16 b₁.length) b₂ := by
  induction b₁ generalizing e a with
  | nil => simp [Emu.busWriteBuf]
  | cons v b₁ ih =>
    rw [List.cons_append, Emu.busWriteBuf, Emu.busWriteBuf, ih, ← RingStack.add_ofNat_succ]
    rfl

/-- Requests that all succeed write their bytes one after the other. -/
theorem assembleAll_eq {a : Assembler H} {qs : List AsmRequest} (h : ∀ rv ∈ (assembleAll hc a qs).1, rv = true) :
    (assembleAll hc a qs).2 =
        ⟨a.emu.busWriteBuf hc a.pc (qs.flatMap AsmRequest.bytes), a.pc + BitVec.ofNat 16
          (qs.flatMap AsmRequest.bytes).length⟩ ∧
      ∀ q ∈ qs, assembleSingleBuf q = some q.bytes := by
  induction qs generalizing a with
  | nil => exact ⟨by simp [assembleAll, Emu.busWriteBuf], by simp⟩
  | cons q qs ih =>
    have hq : (assembleSingle hc a q).1 = true := h _ (by simp [assembleAll])
    obtain ⟨he, hs⟩ := ih (a := (assembleSingle hc a q).2) fun rv hm => h rv (by simp [assembleAll, hm])
    cases hb : assembleSingleBuf q with
    | none => simp [assembleSingle, hb] at hq
    | some buf =>
      have hbytes : q.bytes = buf := by rw [AsmRequest.bytes, hb]; rfl
      have hload : assembleSingle hc a q =
          (true, ⟨a.emu.busWriteBuf hc a.pc buf, a.pc + BitVec.ofNat 16 buf.length⟩) := by
        simp only [assembleSingle, hb, Emu.busLoadBuf] at hq ⊢
        split at hq
        · cases hq
        · next hle => rw [if_neg hle]
      refine ⟨?_, fun q' hm => ?_⟩
      · rw [assembleAll, he, hload, List.flatMap_cons, hbytes, busWriteBuf_append, List.length_append,
          BitVec.ofNat_add,
          BitVec.add_assoc]
      · rcases List.mem_cons.mp hm with rfl | hm
        · rw [hb, hbytes]
        · exact hs q' hm

/-- A fetch from the bytes of a request. -/
theorem instructionFetch_decoded {q : AsmRequest} {a : Addr} (hq : assembleSingleBuf q = some q.bytes)
    (hb : ∀ k v, q.bytes[k]? = some v → e.bus.Holds hc (a + BitVec.ofNat 16 k) v) :
    ∃ i, e.instructionFetch hc a = (i, e) ∧ q.Decoded i ∧ (instructionDecode i.opcode).size = q.bytes.length := by
  obtain ⟨o, hl, hn, hm, h0, h1, h2⟩ := assembleSingleBuf_some hq
  have r0 : e.busRead1 hc a = (o, e) := by simpa using Emu.Shows.busRead1 (hb 0 o h0)
  have r1 : 1 ≤ q.mode.operands → e.busRead1 hc (a + 1) = (q.op1, e) :=
    fun hk => Emu.Shows.busRead1 (hb 1 _ (h1 hk))
  have r2 : 2 ≤ q.mode.operands → e.busRead1 hc (a + 2) = (q.op2, e) :=
    fun hk => Emu.Shows.busRead1 (hb 2 _ (h2 hk))
  have hle : q.mode.operands ≤ 2 := by cases q.mode <;> decide
  unfold Emu.instructionFetch AsmRequest.Decoded
  rw [r0]
  dsimp only
  rw [hm]
  generalize q.mode.operands = n at r1 r2 hle
  match n, hle with
  | 0, _ => exact ⟨⟨o, 0, 0⟩, rfl, ⟨hn, hm, by simp, by simp⟩, hl.symm⟩
  | 1, _ => exact ⟨⟨o, q.op1, 0⟩, by simp only [r1 (by omega)], ⟨hn, hm, by simp, by simp⟩, hl.symm⟩
  | 2, _ =>
    exact ⟨⟨o, q.op1, q.op2⟩, by simp only [r1 (by omega), r2 (by omega)], ⟨hn, hm, by simp, by simp⟩, hl.symm⟩

theorem decodeFrom_decoded {qs : List AsmRequest} {a : Addr} (hq : ∀ q ∈ qs, assembleSingleBuf q = some q.bytes)
    (hb : ∀ k v, (qs.flatMap AsmRequest.bytes)[k]? = some v → e.bus.Holds hc (a + BitVec.ofNat 16 k) v) :
    ∃ is, e.decodeFrom hc a qs.length = (is, a + BitVec.ofNat 16 (qs.flatMap AsmRequest.bytes).length) ∧
      List.Forall₂ AsmRequest.Decoded qs is := by
  induction qs generalizing a with
  | nil => exact ⟨[], by simp [Emu.decodeFrom], .nil⟩
  | cons q qs ih =>
    rw [List.flatMap_cons] at hb
    obtain ⟨i, hi, hd, hl⟩ := instructionFetch_decoded (hq q (by simp)) fun k v hk => hb k v (by
      rw [List.getElem?_append_left (List.getElem?_eq_some_iff.mp hk).1]
      exact hk)
    obtain ⟨is, hr, hf⟩ := ih (a := a + BitVec.ofNat 16 q.bytes.length) (fun q' hm => hq q' (by simp [hm]))
      fun k v hk => by
      have hh := hb (q.bytes.length + k) v (by
        rw [List.getElem?_append_right (by omega), Nat.add_sub_cancel_left]
        exact hk)
      rwa [BitVec.ofNat_add, ← BitVec.add_assoc] at hh
    refine ⟨i :: is, ?_, .cons hd hf⟩
    rw [List.length_cons, Emu.decodeFrom, hi]
    dsimp only
    rw [hl, hr, List.flatMap_cons, List.length_append, BitVec.ofNat_add, BitVec.add_assoc]

end Load

/-- What is assembled into RAM is decoded again, from any start address. -/
theorem assembler_round_trip (hc : HostCode H) (a : Assembler H) (qs : List AsmRequest)
    (hok : ∀ rv ∈ (assembleAll hc a qs).1, rv = true) (hn : (qs.flatMap AsmRequest.bytes).length ≤ 65536)
    (hram : ∀ x ∈ span a.pc (qs.flatMap AsmRequest.bytes).length,
      a.emu.bus.Cell (· ∈ span a.pc (qs.flatMap AsmRequest.bytes).length) x) :
    ∃ is, (assembleAll hc a qs).2.emu.decodeFrom hc a.pc qs.length = (is, (assembleAll hc a qs).2.pc) ∧
      List.Forall₂ AsmRequest.Decoded qs is := by
  obtain ⟨he, hq⟩ := assembleAll_eq hok
  obtain ⟨-, -, hb⟩ := busWriteBuf_holds hc hn fun x hx => ⟨hx, hram x hx⟩
  rw [he]
  exact decodeFrom_decoded hq hb

/-- A list that wraps at the end of the address space. -/
def wrappingRequests : List AsmRequest :=
  [⟨"brk", .implied, 0, 0⟩, ⟨"lda", .immediate, 0x12, 0⟩, ⟨"ldx", .zp, 0x34, 0⟩, ⟨"jmp", .absolute, 0x78, 0x56⟩]

def wrappingAssembler : Assembler Unit := ⟨init (ramBus fun _ => 0) () ⟨0, 0, 0, 0, 0, 0⟩, 0xFFFA⟩

theorem assembler_round_trip_wraps :
    ∃ is, (assembleAll (quietHost identity) wrappingAssembler wrappingRequests).2.emu.decodeFrom
    (quietHost identity) 0xFFFA 4 =
        (is, (assembleAll (quietHost identity) wrappingAssembler wrappingRequests).2.pc) ∧
      List.Forall₂ AsmRequest.Decoded wrappingRequests is :=
  assembler_round_trip (quietHost identity) wrappingAssembler wrappingRequests (by decide +kernel)
    (by decide +kernel) fun x _ => by
    obtain ⟨d, off, ha, hd, hu⟩ := ramBus_ram (fun _ => 0) x
    exact ⟨d, off, ha, hd, fun y _ hne => hu y trivial hne⟩

/-- The requests of a list that returned true. -/
def accepted (hc : HostCode H) (a : Assembler H) (qs : List AsmRequest) : List AsmRequest :=
  ((qs.zip (assembleAll hc a qs).1).filter Prod.snd).map Prod.fst

section Failures

variable {hc : HostCode H} {a : Assembler H} {q : AsmRequest}

theorem assembleAll_concat (hc : HostCode H) (a : Assembler H) (qs : List AsmRequest) (q : AsmRequest) :
    assembleAll hc a (qs ++ [q]) = ((assembleAll hc a qs).1 ++ [(assembleSingle hc (assembleAll hc a qs).2 q).1],
      (assembleSingle hc (assembleAll hc a qs).2 q).2) := by
  induction qs generalizing a with
  | nil => rfl
  | cons p qs ih => simp only [List.cons_append, assembleAll, ih]

theorem assembleAll_length (hc : HostCode H) (a : Assembler H) (qs : List AsmRequest) :
    (assembleAll hc a qs).1.length = qs.length := by
  induction qs generalizing a with
  | nil => rfl
  | cons q qs ih => simp only [assembleAll, List.length_cons, ih]

theorem accepted_concat (hc : HostCode H) (a : Assembler H) (qs : List AsmRequest) (q : AsmRequest) :
    accepted hc a (qs ++ [q]) =
      accepted hc a qs ++ if (assembleSingle hc (assembleAll hc a qs).2 q).1 = true then [q] else [] := by
  unfold accepted
  rw [assembleAll_concat, List.zip_append (assembleAll_length hc a qs).symm, List.filter_append, List.map_append]
  cases h : (assembleSingle hc (assembleAll hc a qs).2 q).1 <;> simp

/-- A request for an instruction there is, with room for it below 64K, succeeds. -/
theorem assembleSingle_fits {buf : List Byte} (hb : assembleSingleBuf q = some buf)
    (hf : a.pc.toNat + buf.length ≤ busSize) : (assembleSingle hc a q).1 = true := by
  simp only [assembleSingle, hb, Emu.busLoadBuf, if_neg (Nat.not_lt.mpr hf)]

variable (hc) in
/-- Without room it fails and moves `pc` all the same. -/
theorem assembleSingle_overflows {buf : List Byte} (hb : assembleSingleBuf q = some buf)
    (hf : busSize < a.pc.toNat + buf.length) : (assembleSingle hc a q).1 = false ∧
    (assembleSingle hc a q).2 ≠ a := by
  obtain ⟨o, hl, -⟩ := assembleSingleBuf_some hb
  have hs := instructionDecode_size o
  have he : assembleSingle hc a q = (false, { a with pc := a.pc + BitVec.ofNat 16 buf.length }) := by
    simp only [assembleSingle, hb, Emu.busLoadBuf, if_pos hf]
  rw [he]
  refine ⟨rfl, fun h => ?_⟩
  have hpc : (a.pc + BitVec.ofNat 16 buf.length).toNat = a.pc.toNat := congrArg (fun a => a.pc.toNat) h
  rw [BitVec.toNat_add, BitVec.toNat_ofNat] at hpc
  have := a.pc.isLt
  omega

end Failures

/-- Throughout a list, what failed requests leave behind is as if they had not been made,
exactly if every request for an instruction there is finds room for it below 64K. -/
theorem failed_requests_skipped_iff (hc : HostCode H) (a : Assembler H) (qs : List AsmRequest) :
    (∀ ps, ps <+: qs → (assembleAll hc a ps).2 = (assembleAll hc a (accepted hc a ps)).2) ↔
      ∀ ps q buf, ps ++ [q] <+: qs → assembleSingleBuf q = some buf →
        (assembleAll hc a ps).2.pc.toNat + buf.length ≤ busSize := by
  constructor
  · intro h ps q buf hp hb
    by_contra hf
    obtain ⟨hrv, hne⟩ := assembleSingle_overflows hc hb (Nat.not_le.mp hf)
    have hq := h _ hp
    rw [accepted_concat, hrv, assembleAll_concat, if_neg (by decide), List.append_nil,
      ← h ps ((List.prefix_append ps [q]).trans hp)] at hq
    exact hne hq
  · intro h ps hp
    induction ps using List.reverseRecOn with
    | nil => rfl
    | append_singleton ps q ih =>
      have hps := ih ((List.prefix_append ps [q]).trans hp)
      rw [accepted_concat, assembleAll_concat]
      cases hb : assembleSingleBuf q with
      | none =>
        have hs : ∀ a : Assembler H, assembleSingle hc a q = (false, a) :=
          fun a => by simp only [assembleSingle, hb]
        rw [hs, if_neg Bool.false_ne_true, List.append_nil]
        exact hps
      | some buf =>
        rw [assembleSingle_fits hb (h ps q buf hp hb), if_pos rfl, assembleAll_concat, ← hps]

/-- An instruction that does not fit at the end of memory misplaces the next one. -/
theorem failed_request_moves_pc :
    (assembleAll (quietHost identity) { wrappingAssembler with pc := 0xFFFF }
        [⟨"lda", .immediate, 0x12, 0⟩, ⟨"nop", .implied, 0, 0⟩]).1 = [false, true] ∧
      (assembleAll (quietHost identity) { wrappingAssembler with pc := 0xFFFF }
        [⟨"lda", .immediate, 0x12, 0⟩, ⟨"nop", .implied, 0, 0⟩]).2.pc = 2 ∧
      (assembleAll (quietHost identity) { wrappingAssembler with pc := 0xFFFF }
        [⟨"nop", .implied, 0, 0⟩]).2.pc = 0 ∧
      (assembleAll (quietHost identity) { wrappingAssembler with pc := 0xFFFF }
        [⟨"lda", .immediate, 0x12, 0⟩, ⟨"nop", .implied, 0, 0⟩]).2.emu.bus.peek 0x0001 = 0xEA ∧
      (assembleAll (quietHost identity) { wrappingAssembler with pc := 0xFFFF }
        [⟨"nop", .implied, 0, 0⟩]).2.emu.bus.peek 0x0001 = 0 := by
  decide +kernel

end Rk65c02
