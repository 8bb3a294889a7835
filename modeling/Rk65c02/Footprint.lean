import Rk65c02.Image

/-! The footprint of an instruction: which bytes it reads and writes, and what it does to the
stack pointer, computed from the state before it. -/

namespace Rk65c02

open Resumption Cpu

variable {H α β : Type}

/-- The zero-page bytes that hold the pointer of an indirect mode. -/
def Addressing.pointers (mode : Addressing) (i : Instruction) (r : Regs) : List Addr :=
  match mode with
  | .izp | .izpy => [i.op1.setWidth 16, (i.op1 + 1).setWidth 16]
  | .izpx => [(i.op1 + r.X).setWidth 16, (i.op1 + r.X + 1).setWidth 16]
  | _ => []

/-- The effective address, with `b` the bytes in memory. -/
def Addressing.effAddr (mode : Addressing) (i : Instruction) (r : Regs) (b : Addr → Byte) : Option Addr :=
  match mode with
  | .zp | .zpr => some (i.op1.setWidth 16)
  | .zpx => some ((i.op1 + r.X).setWidth 16)
  | .zpy => some ((i.op1 + r.Y).setWidth 16)
  | .izp => some (word (b (i.op1.setWidth 16)) (b ((i.op1 + 1).setWidth 16)))
  | .izpx => some (word (b ((i.op1 + r.X).setWidth 16)) (b ((i.op1 + r.X + 1).setWidth 16)))
  | .izpy => some (word (b (i.op1.setWidth 16)) (b ((i.op1 + 1).setWidth 16)) + r.Y.setWidth 16)
  | .absolute => some (i.op1.setWidth 16 + (i.op2.setWidth 16 <<< 8))
  | .absolutex => some (i.op1.setWidth 16 + (i.op2.setWidth 16 <<< 8) + r.X.setWidth 16)
  | .absolutey => some (i.op1.setWidth 16 + (i.op2.setWidth 16 <<< 8) + r.Y.setWidth 16)
  | .iabsolute | .iabsolutex | .relative | .implied | .immediate | .accumulator => none

/-- Modes whose operand lies in page zero. -/
def Addressing.zeroPage : Addressing → Bool
  | .zp | .zpr | .zpx | .zpy => true
  | _ => false

theorem page_setWidth (v : Byte) : page (v.setWidth 16) = 0 := by
  have hv := v.isLt
  apply BitVec.eq_of_toNat_eq
  rw [page, BitVec.toNat_setWidth, BitVec.toNat_ushiftRight, BitVec.toNat_setWidth, Nat.shiftRight_eq_div_pow]
  change _ = 0
  omega

theorem Addressing.page_zero (mode : Addressing) (i : Instruction) (r : Regs) (b : Addr → Byte) :
    (∀ a ∈ mode.pointers i r, page a = 0) ∧
    (mode.zeroPage = true → ∀ a, mode.effAddr i r b = some a → page a = 0) := by
  constructor
  · cases mode <;> simp only [pointers, List.not_mem_nil, List.mem_cons, or_false, false_implies,
      implies_true] <;>
      rintro a (rfl | rfl) <;> exact page_setWidth _
  · cases mode <;> rintro ⟨⟩ a ⟨⟩ <;> exact page_setWidth _

/-- The bytes that hold the target of an indirect jump. -/
def Addressing.targets (mode : Addressing) (i : Instruction) (r : Regs) : List Addr :=
  match mode with
  | .iabsolute =>
    [i.op1.setWidth 16 + (i.op2.setWidth 16 <<< 8), i.op1.setWidth 16 + (i.op2.setWidth 16 <<< 8) + 1]
  | .iabsolutex =>
    [i.op1.setWidth 16 + (i.op2.setWidth 16 <<< 8) + r.X.setWidth 16,
      i.op1.setWidth 16 + (i.op2.setWidth 16 <<< 8) + r.X.setWidth 16 + 1]
  | _ => []

namespace Emul

/-- Stores and read-modify-write instructions. -/
def stores : Emul → Bool
  | sta | stx | sty | stz | asl | dec | inc | lsr | rmb _ | rol | ror | smb _ | trb | tsb => true
  | _ => false

def pushes : Emul → Nat
  | pha | php | phx | phy => 1
  | jsr => 2
  | brk => 3
  | _ => 0

def pulls : Emul → Nat
  | pla | plp | plx | ply => 1
  | rts => 2
  | rti => 3
  | _ => 0

/-- The bytes an instruction may write. -/
def writeSet (m : Emul) (mode : Addressing) (i : Instruction) (r : Regs) (b : Addr → Byte) : List Addr :=
  (if m.stores then (mode.effAddr i r b).toList else []) ++
    (List.range m.pushes).map fun k => stackAddr (r.SP - BitVec.ofNat 8 k)

/-- The bytes an instruction may read after it is fetched. -/
def readSet (m : Emul) (mode : Addressing) (i : Instruction) (r : Regs) (b : Addr → Byte) : List Addr :=
  mode.pointers i r ++ (mode.effAddr i r b).toList ++ mode.targets i r ++
    ((List.range m.pulls).map fun k => stackAddr (r.SP + BitVec.ofNat 8 (k + 1))) ++
    if m = .brk then [vectorIrq, vectorIrq + 1] else []

end Emul

/-- Code that runs from the registers and the image, makes only accesses in `F` and ends
with `Q`. -/
def Within (async : Nat → List AsyncCall) (F : Access × Addr → Prop) (x : Cpu α) (r : Regs) (m : Image)
    (Q : α → Regs → Image → Prop) : Prop :=
  ∃ a r' m' l, (x.run r).run (Image.handle async) m = .ok (a, r') m' ∧ m'.log = m.log ++ l ∧
    (∀ p ∈ l, F p) ∧ Q a r' m'

namespace Within

variable {async : Nat → List AsyncCall} {F : Access × Addr → Prop} {x : Cpu α} {f : α → Cpu β}
    {r : Regs} {m : Image}
  {P Q : α → Regs → Image → Prop} {Q' : β → Regs → Image → Prop}

theorem bind (hx : Within async F x r m P) (hf : ∀ a r' m', P a r' m' → Within async F (f a) r' m' Q') :
    Within async F (x >>= f) r m Q' := by
  obtain ⟨a, r₁, m₁, l₁, h₁, hl₁, hF₁, hp⟩ := hx
  obtain ⟨c, r₂, m₂, l₂, h₂, hl₂, hF₂, hq⟩ := hf a r₁ m₁ hp
  refine ⟨c, r₂, m₂, l₁ ++ l₂, (Image.run_bind h₁).trans h₂, by rw [hl₂, hl₁,
    List.append_assoc], fun p hm => ?_, hq⟩
  exact (List.mem_append.mp hm).elim (hF₁ p) (hF₂ p)

theorem mono (hx : Within async F x r m P) (hpq : ∀ a r' m', P a r' m' → Q a r' m') : Within async F x r m Q := by
  obtain ⟨a, r', m', l, h, hl, hF, hp⟩ := hx
  exact ⟨a, r', m', l, h, hl, hF, hpq _ _ _ hp⟩

/-- Code that asks for nothing. -/
theorem done {a : α} {r' : Regs} (h : x.run r = .done (a, r')) (hq : Q a r' m) : Within async F x r m Q :=
  ⟨a, r', m, [], by rw [h]; rfl, by simp, by simp, hq⟩

theorem get_bind {f : Regs → Cpu β} (h : Within async F (f r) r m Q') : Within async F (get >>= f) r m Q' := h

theorem modify_bind {g : Regs → Regs} {f : PUnit → Cpu β} (h : Within async F (f ⟨⟩) (g r) m Q') :
    Within async F (modify g >>= f) r m Q' := h

theorem write {a : Addr} {v : Byte} {Q : Unit → Regs → Image → Prop} (hm : (m.mem a).isRam = true)
    (hF : F (.write, a))
    (hq : ∀ m', m'.mem = Function.update m.mem a (.ram v) → Q () r m') : Within async F (memWrite1 a v) r m Q :=
  ⟨(), r, _, [(.write, a)], Image.write_run hm, by simp, by simpa using hF, hq _ (by simp)⟩

theorem stop {reason : StopReason} {Q : Unit → Regs → Image → Prop} (hq : ∀ m', m'.mem = m.mem → Q () r m') :
    Within async F (request (.stop reason)) r m Q :=
  ⟨(), r, _, [], rfl, by simp, by simp, hq _ (by simp)⟩

theorem ackIrq {Q : Unit → Regs → Image → Prop} (hq : ∀ m', m'.mem = m.mem → Q () r m') :
    Within async F (request .ackIrq) r m Q :=
  ⟨(), r, _, [], rfl, by simp, by simp, hq _ (by simp)⟩

end Within

/-- All of memory is RAM, with the given bytes. -/
def Image.Full (m : Image) (b : Addr → Byte) : Prop := ∀ a, m.mem a = .ram (b a)

def Image.Writable (m : Image) : Prop := ∀ a, (m.mem a).isRam = true

namespace Within

variable {async : Nat → List AsyncCall} {F : Access × Addr → Prop} {id : InstrDef} {i : Instruction}
    {b : Addr → Byte}
  {r : Regs} {m : Image}

theorem read (hb : m.Full b) {a : Addr} (hF : F (.read, a)) :
    Within async F (memRead1 a) r m fun v r' m' => v = b a ∧ r' = r ∧ m'.mem = m.mem :=
  ⟨b a, r, _, [(.read, a)], Image.read_run (by rw [hb]; rfl), by simp, by simpa using hF, rfl, rfl, by simp⟩

theorem dataAddress (hm : id.mode.addresses = true) (hb : m.Full b)
    (hF : ∀ a ∈ id.mode.pointers i r, F (.read, a)) :
    Within async F (instructionDataAddress id i) r m fun a r' m' =>
      id.mode.effAddr i r b = some a ∧ r' = r ∧ m'.mem = m.mem := by
  refine get_bind ?_
  cases h : id.mode with
  | zp | zpr | zpx | zpy | absolute | absolutex | absolutey => exact done rfl ⟨rfl, rfl, rfl⟩
  | izp | izpx | izpy =>
    rw [h] at hF
    refine bind (read hb (hF _ (by simp [Addressing.pointers]))) fun lo r₁ m₁ h₁ => ?_
    obtain ⟨rfl, rfl, hm₁⟩ := h₁
    have hb₁ : m₁.Full b := fun a => by rw [hm₁, hb]
    refine bind (read hb₁ (hF _ (by simp [Addressing.pointers]))) fun hi r₂ m₂ h₂ => ?_
    obtain ⟨rfl, rfl, hm₂⟩ := h₂
    exact done rfl ⟨rfl, rfl, hm₂.trans hm₁⟩
  | iabsolute | iabsolutex | relative | implied | immediate | accumulator =>
    rw [h] at hm
    cases hm

/-- The accesses of reading an operand. -/
def Reads (F : Access × Addr → Prop) (mode : Addressing) (i : Instruction) (r : Regs) (b : Addr → Byte) : Prop :=
  ∀ a ∈ mode.pointers i r ++ (mode.effAddr i r b).toList, F (.read, a)

theorem dataRead1 (hm : id.mode.reads = true) (hb : m.Full b) (hF : Reads F id.mode i r b) :
    Within async F (instructionDataRead1 id i) r m fun _ r' m' => r' = r ∧ m'.mem = m.mem := by
  unfold instructionDataRead1
  split
  · exact done rfl ⟨rfl, rfl⟩
  · split
    · exact done rfl ⟨rfl, rfl⟩
    · next ha hi =>
      have hm' : id.mode.addresses = true := by simpa [Addressing.reads, ha, hi] using hm
      refine bind (dataAddress hm' hb fun a h => hF a (List.mem_append_left _ h)) fun a r₁ m₁ h₁ => ?_
      obtain ⟨he, rfl, hm₁⟩ := h₁
      have hb₁ : m₁.Full b := fun a => by rw [hm₁, hb]
      exact (read hb₁ (hF a (by simp [he]))).mono fun _ _ _ h => ⟨h.2.1, h.2.2.trans hm₁⟩

theorem dataWrite1 (hm : id.mode.writes = true) (hb : m.Full b) (hF : Reads F id.mode i r b)
    (hW : ∀ a, id.mode.effAddr i r b = some a → F (.write, a)) (v : Byte) :
    Within async F (instructionDataWrite1 id i v) r m fun _ r' _ => r'.SP = r.SP := by
  unfold instructionDataWrite1
  split
  · exact done rfl rfl
  · next ha =>
    have hm' : id.mode.addresses = true := by simpa [Addressing.writes, ha] using hm
    have hi : id.mode ≠ .immediate := by
      intro he
      rw [he] at hm'
      cases hm'
    rw [if_neg hi]
    refine bind (dataAddress hm' hb fun a h => hF a (List.mem_append_left _ h)) fun a r₁ m₁ h₁ => ?_
    obtain ⟨he, rfl, hm₁⟩ := h₁
    exact write (by rw [hm₁, hb]; rfl) (hW a he) fun _ _ => rfl

/-- An operand, then code on the registers. -/
theorem operand {k : Byte → Cpu Unit} (hm : id.mode.reads = true) (hb : m.Full b) (hF : Reads F id.mode i r b)
    (hk : ∀ v, ∃ r', (k v).run r = .done ((), r') ∧ r'.SP = r.SP) :
    Within async F (instructionDataRead1 id i >>= k) r m fun _ r' _ => r'.SP = r.SP := by
  refine bind (dataRead1 hm hb hF) fun v r₁ m₁ h₁ => ?_
  obtain ⟨rfl, -⟩ := h₁
  obtain ⟨r', hr, hs⟩ := hk v
  exact done hr hs

/-- An operand, a change of the flags and a store. -/
theorem modifyOperand {k : Byte → Cpu Unit} (hm : id.mode.writes = true) (hb : m.Full b)
    (hF : Reads F id.mode i r b) (hW : ∀ a, id.mode.effAddr i r b = some a → F (.write, a))
    (hk : ∀ v, ∃ p w, ∀ (m : Image) (Q : Unit → Regs → Image → Prop),
      Within async F (instructionDataWrite1 id i w) { r with P := p } m Q → Within async F (k v) r m Q) :
    Within async F (instructionDataRead1 id i >>= k) r m fun _ r' _ => r'.SP = r.SP := by
  refine bind (dataRead1 (Addressing.reads_of_writes hm) hb hF) fun v r₁ m₁ h₁ => ?_
  obtain ⟨rfl, hm₁⟩ := h₁
  obtain ⟨p, w, hk⟩ := hk v
  exact hk m₁ _ (dataWrite1 (r := { r₁ with P := p }) hm (fun a => by rw [hm₁, hb]) hF hW w)

theorem modifyMem {f : Byte → Byte} (hm : id.mode.writes = true) (hb : m.Full b) (hF : Reads F id.mode i r b)
    (hW : ∀ a, id.mode.effAddr i r b = some a → F (.write, a)) :
    Within async F (modifyMem f id i) r m fun _ r' _ => r'.SP = r.SP := by
  refine bind (dataRead1 (Addressing.reads_of_writes hm) hb hF) fun v r₁ m₁ h₁ => ?_
  obtain ⟨rfl, hm₁⟩ := h₁
  refine bind (dataWrite1 hm (fun a => by rw [hm₁, hb]) hF hW _) fun _ r₂ m₂ h₂ => ?_
  exact done (adjustZN_run _ _) h₂

theorem bit (hm : id.mode.reads = true) (hb : m.Full b) (hF : Reads F id.mode i r b) :
    Within async F (emulBit id i) r m fun _ r' _ => r'.SP = r.SP := by
  refine bind (dataRead1 hm hb hF) fun v r₁ m₁ h₁ => ?_
  obtain ⟨rfl, hm₁⟩ := h₁
  refine modify_bind ?_
  split
  · refine bind (dataRead1 (r := { r₁ with P := setFlag pZero (r₁.A &&& v == 0) r₁.P }) hm
      (fun a => by rw [hm₁, hb]) hF)
      fun w r₂ m₂ h₂ => ?_
    obtain ⟨rfl, -⟩ := h₂
    exact done rfl rfl
  · exact done rfl rfl

theorem writable_byte (hm : m.Writable) (a : Addr) : ∃ v, (m.mem a).byte = some v := by
  have hh := hm a
  cases hs : m.mem a with
  | unknown =>
    rw [hs] at hh
    cases hh
  | rom v => exact ⟨v, rfl⟩
  | ram v => exact ⟨v, rfl⟩

theorem readAny (hm : m.Writable) {a : Addr} (hF : F (.read, a)) :
    Within async F (memRead1 a) r m fun _ r' m' => r' = r ∧ m'.Writable := by
  obtain ⟨v, hv⟩ := writable_byte hm a
  exact ⟨v, r, _, [(.read, a)], Image.read_run hv, by simp, by simpa using hF, rfl, fun a => by simpa using hm a⟩

theorem push {v : Byte} (hm : m.Writable) (hF : F (.write, stackAddr r.SP)) :
    Within async F (stackPush v) r m fun _ r' m' => r' = { r with SP := r.SP - 1 } ∧ m'.Writable := by
  refine ⟨(), _, _, [(.write, stackAddr r.SP)], Image.stackPush_run
    (hm _), by simp, by simpa using hF, rfl, fun a => ?_⟩
  simp only [Image.write_mem, Image.arrive_mem]
  by_cases ha : a = stackAddr r.SP
  · rw [ha, Function.update_self]
    rfl
  · rw [Function.update_of_ne ha]
    exact hm a

theorem pop (hm : m.Writable) (hF : F (.read, stackAddr (r.SP + 1))) :
    Within async F stackPop r m fun _ r' m' => r' = { r with SP := r.SP + 1 } ∧ m'.Writable := by
  obtain ⟨v, hv⟩ := writable_byte hm (stackAddr (r.SP + 1))
  refine ⟨v, _, _, [(.read, stackAddr (r.SP + 1))], Image.stackPop_run
    hv, by simp, by simpa using hF, rfl, fun a => ?_⟩
  simpa using hm a

end Within

/-- The accesses of an instruction. -/
def Emul.Access (mm : Emul) (mode : Addressing) (i : Instruction) (r : Regs) (b : Addr → Byte)
    (p : Rk65c02.Access × Addr) : Prop :=
  p.1 = .read ∧ p.2 ∈ mm.readSet mode i r b ∨ p.1 = .write ∧ p.2 ∈ mm.writeSet mode i r b

section Emul

variable {async : Nat → List AsyncCall} {id : InstrDef} {i : Instruction} {b : Addr → Byte} {r : Regs} {m : Image}

theorem Emul.reads (mm : Emul) : Within.Reads (mm.Access id.mode i r b) id.mode i r b := fun a ha =>
  .inl ⟨rfl, by simp only [Emul.readSet, List.mem_append] at ha ⊢; exact .inl (.inl (.inl ha))⟩

theorem Emul.effWrite {mm : Emul} (hs : mm.stores = true) (a : Addr) (ha : id.mode.effAddr i r b = some a) :
    mm.Access id.mode i r b (.write, a) :=
  .inr ⟨rfl, by simp [Emul.writeSet, hs, ha]⟩

theorem within_adcWith (v : Byte) (r : Regs) : ∃ r', (adcWith v).run r = .done ((), r') ∧ r'.SP = r.SP := by
  by_cases hd : r.P &&& pDecimal = 0#8
  · exact ⟨_, adcWith_binary r v hd, rfl⟩
  · exact ⟨_, (adcWith_decimal r v hd).trans rfl, rfl⟩

theorem within_sbcWith (v : Byte) (r : Regs) : ∃ r', (sbcWith v).run r = .done ((), r') ∧ r'.SP = r.SP := by
  by_cases hd : r.P &&& pDecimal = 0#8
  · exact ⟨_, sbcWith_binary r v hd, rfl⟩
  · exact ⟨_, (sbcWith_decimal r v hd).trans rfl, rfl⟩

theorem bitBranch_done (taken : Bool) (r : Regs) : ∃ r', (bitBranch id i taken).run r = .done ((), r') ∧
    r'.SP = r.SP := by
  cases taken <;> exact ⟨_, rfl, rfl⟩

theorem branchIf_done (id : InstrDef) (i : Instruction) (f : Byte) (value : Bool) (r : Regs) :
    ∃ r', (branchIf f value id i).run r = .done ((), r') ∧ r'.SP = r.SP := by
  by_cases h : r.flag f = value
  · refine ⟨{ r with PC := r.PC + (i.op1.signExtend 16 + 2) }, ?_, rfl⟩
    simp [branchIf, programCounterBranch, h]
  · refine ⟨{ r with PC := r.PC + BitVec.ofNat 16 id.size }, ?_, rfl⟩
    simp [branchIf, h]

theorem Emul.pushAccess {mm : Emul} {k : Nat} {s : Byte} (hk : k < mm.pushes) (hs : s = r.SP - BitVec.ofNat 8 k) :
    mm.Access id.mode i r b (.write, stackAddr s) := by
  refine .inr ⟨rfl, List.mem_append_right _ (List.mem_map.mpr ⟨k, List.mem_range.mpr hk, ?_⟩)⟩
  rw [hs]

theorem Emul.pullAccess {mm : Emul} {k : Nat} {s : Byte} (hk : k < mm.pulls)
    (hs : s = r.SP + BitVec.ofNat 8 (k + 1)) :
    mm.Access id.mode i r b (.read, stackAddr s) := by
  refine .inl ⟨rfl, List.mem_append_left _
    (List.mem_append_right _ (List.mem_map.mpr ⟨k, List.mem_range.mpr hk, ?_⟩))⟩
  rw [hs]

/-- What an instruction leaves in the stack pointer. -/
def Emul.stackAfter (mm : Emul) (r r' : Regs) : Prop :=
  mm ≠ .txs → r'.SP = r.SP - BitVec.ofNat 8 mm.pushes + BitVec.ofNat 8 mm.pulls

theorem Emul.stackAfter_of_keeps {mm : Emul} {r r' : Regs} (hp : mm.pushes = 0) (hq : mm.pulls = 0)
    (h : r'.SP = r.SP) :
    mm.stackAfter r r' := by
  intro _
  simp [hp, hq, h]

open Within

theorem within_push_only {mm : Emul} {v : Regs → Byte} (hm : m.Writable) (hp : mm.pushes = 1)
    (hq : mm.pulls = 0) :
    Within async (mm.Access id.mode i r b) (do stackPush (v (← get))) r m fun _ r' _ => mm.stackAfter r r' := by
  refine get_bind ((push hm (Emul.pushAccess (k := 0) (by omega) (by simp))).mono fun _ r' _ h => ?_)
  intro _
  rw [h.1, hp, hq]
  simp

theorem within_pop {mm : Emul} {k : Byte → Cpu Unit} (hm : m.Writable) (hp : mm.pushes = 0) (hq : mm.pulls = 1)
    (hk : ∀ v r, ∃ r', (k v).run r = .done ((), r') ∧ r'.SP = r.SP) :
    Within async (mm.Access id.mode i r b) (stackPop >>= k) r m fun _ r' _ => mm.stackAfter r r' := by
  refine bind (pop hm (Emul.pullAccess (k := 0) (by omega) (by simp))) fun v r₁ m₁ h₁ => ?_
  obtain ⟨r', hr, hs⟩ := hk v r₁
  refine done hr fun _ => ?_
  rw [hs, h₁.1, hp, hq]
  simp

theorem within_jsr (hm : m.Writable) :
    Within async (Emul.jsr.Access id.mode i r b) (emulJsr i) r m fun _ r' _ => Emul.jsr.stackAfter r r' := by
  refine get_bind (bind (push hm (Emul.pushAccess (k := 0) (by decide) (by simp))) fun _ r₁ m₁ h₁ => ?_)
  obtain ⟨rfl, hm₁⟩ := h₁
  refine bind (push hm₁ (Emul.pushAccess (k := 1) (by decide) rfl)) fun _ r₂ m₂ h₂ => ?_
  obtain ⟨rfl, -⟩ := h₂
  refine done rfl fun _ => ?_
  change r.SP - 1 - 1 = r.SP - 2 + 0
  bv_omega

theorem within_rts (hm : m.Writable) :
    Within async (Emul.rts.Access id.mode i r b) emulRts r m fun _ r' _ => Emul.rts.stackAfter r r' := by
  refine bind (pop hm (Emul.pullAccess (k := 0) (by decide) rfl)) fun _ r₁ m₁ h₁ => ?_
  obtain ⟨rfl, hm₁⟩ := h₁
  refine bind (pop hm₁ (Emul.pullAccess (k := 1) (by decide) (by bv_omega))) fun _ r₂ m₂ h₂ => ?_
  obtain ⟨rfl, -⟩ := h₂
  refine done rfl fun _ => ?_
  change r.SP + 1 + 1 = r.SP - 0 + 2
  bv_omega

theorem within_rti (hm : m.Writable) :
    Within async (Emul.rti.Access id.mode i r b) emulRti r m fun _ r' _ => Emul.rti.stackAfter r r' := by
  refine bind (pop hm (Emul.pullAccess (k := 0) (by decide) rfl)) fun _ r₁ m₁ h₁ => ?_
  obtain ⟨rfl, hm₁⟩ := h₁
  refine modify_bind (bind (pop hm₁ (Emul.pullAccess (k := 1) (by decide) (by bv_omega))) fun _ r₂ m₂ h₂ => ?_)
  obtain ⟨rfl, hm₂⟩ := h₂
  refine bind (pop hm₂ (Emul.pullAccess (k := 2) (by decide) (by bv_omega))) fun _ r₃ m₃ h₃ => ?_
  obtain ⟨rfl, -⟩ := h₃
  refine done rfl fun _ => ?_
  change r.SP + 1 + 1 + 1 = r.SP - 0 + 3
  bv_omega

theorem within_brk (hm : m.Writable) :
    Within async (Emul.brk.Access id.mode i r b) emulBrk r m fun _ r' _ => Emul.brk.stackAfter r r' := by
  have hv : ∀ a ∈ [vectorIrq, vectorIrq + 1], Emul.brk.Access id.mode i r b (.read, a) := fun a ha =>
    .inl ⟨rfl, List.mem_append_right _ ha⟩
  refine modify_bind (modify_bind (get_bind ?_))
  refine bind (push hm (Emul.pushAccess (k := 0) (by decide) (by simp))) fun _ r₁ m₁ h₁ => ?_
  obtain ⟨rfl, hm₁⟩ := h₁
  refine get_bind (bind (push hm₁ (Emul.pushAccess (k := 1) (by decide) rfl)) fun _ r₂ m₂ h₂ => ?_)
  obtain ⟨rfl, hm₂⟩ := h₂
  refine get_bind (bind (push hm₂ (Emul.pushAccess (k := 2) (by decide) (by bv_omega))) fun _ r₃ m₃ h₃ => ?_)
  obtain ⟨rfl, hm₃⟩ := h₃
  refine modify_bind (modify_bind (modify_bind ?_))
  refine bind (readAny hm₃ (hv _ (by simp))) fun _ r₄ m₄ h₄ => modify_bind ?_
  obtain ⟨rfl, hm₄⟩ := h₄
  refine bind (readAny hm₄ (hv _ (by simp))) fun _ r₅ m₅ h₅ => modify_bind (ackIrq fun _ _ _ => ?_)
  obtain ⟨rfl, -⟩ := h₅
  change r.SP - 1 - 1 - 1 = r.SP - 3 + 0
  bv_omega

theorem within_jmp (h : Emul.jmp.fits id.mode = true) (hm : m.Writable) :
    Within async (Emul.jmp.Access id.mode i r b) (emulJmp id i) r m fun _ r' _ => Emul.jmp.stackAfter r r' := by
  have ht : ∀ a ∈ id.mode.targets i r, Emul.jmp.Access id.mode i r b (.read, a) := fun a ha =>
    .inl ⟨rfl, by simp only [Emul.readSet, List.mem_append]; exact .inl (.inl (.inr ha))⟩
  have hk : ∀ r' : Regs, r'.SP = r.SP → Emul.jmp.stackAfter r r' := fun r' hs =>
    Emul.stackAfter_of_keeps rfl rfl hs
  unfold emulJmp
  cases hmode : id.mode with
  | absolute => exact done rfl (hk _ rfl)
  | iabsolute =>
    rw [hmode] at ht
    refine bind (readAny hm (ht _ (by simp [Addressing.targets]))) fun _ r₁ m₁ h₁ => ?_
    obtain ⟨rfl, hm₁⟩ := h₁
    refine bind (readAny hm₁ (ht _ (by simp [Addressing.targets]))) fun _ r₂ m₂ h₂ => ?_
    obtain ⟨rfl, -⟩ := h₂
    exact done rfl (hk _ rfl)
  | iabsolutex =>
    rw [hmode] at ht
    refine get_bind (bind (readAny hm (ht _ (by simp [Addressing.targets]))) fun _ r₁ m₁ h₁ => ?_)
    obtain ⟨rfl, hm₁⟩ := h₁
    refine bind (readAny hm₁ (ht _ (by simp [Addressing.targets]))) fun _ r₂ m₂ h₂ => ?_
    obtain ⟨rfl, -⟩ := h₂
    exact done rfl (hk _ rfl)
  | _ =>
    rw [hmode] at h
    cases h

variable (async) in
/-- The accesses of every instruction and what it does to the stack pointer. -/
theorem Emul.within (mm : Emul) (h : mm.fits id.mode = true) (hb : m.Full b) :
    Within async (mm.Access id.mode i r b) (mm.exec id i) r m fun _ r' _ => mm.stackAfter r r' := by
  have hw : m.Writable := fun a => by rw [hb]; rfl
  have hkeep : mm.pushes = 0 → mm.pulls = 0 → Within async (mm.Access id.mode i r b) (mm.exec id i) r m
      (fun _ r' _ => r'.SP = r.SP) → Within async (mm.Access id.mode i r b) (mm.exec id i) r m fun _ r' _ =>
        mm.stackAfter r r' :=
    fun hp hq hx => hx.mono fun _ _ _ hs => Emul.stackAfter_of_keeps hp hq hs
  cases mm with
  | adc => exact hkeep rfl rfl (operand h hb (Emul.reads _) fun v => within_adcWith v r)
  | sbc => exact hkeep rfl rfl (operand h hb (Emul.reads _) fun v => within_sbcWith v r)
  | and | eor | ora | cmp | cpx | cpy | lda | ldx | ldy =>
    exact hkeep rfl rfl (operand h hb (Emul.reads _) fun v => ⟨_, rfl, rfl⟩)
  | bbr n | bbs n => exact hkeep rfl rfl (operand h hb (Emul.reads _) fun v => bitBranch_done _ r)
  | bit => exact hkeep rfl rfl (Within.bit h hb (Emul.reads _))
  | asl | lsr | rol | ror | rmb n | smb n | trb | tsb =>
    exact hkeep rfl rfl (modifyOperand h hb (Emul.reads _) (Emul.effWrite rfl) fun v => ⟨_, _, fun _ _ hx => hx⟩)
  | dec | inc => exact hkeep rfl rfl (Within.modifyMem h hb (Emul.reads _) (Emul.effWrite rfl))
  | sta | stx | sty | stz =>
    exact hkeep rfl rfl (get_bind (dataWrite1 h hb (Emul.reads _) (Emul.effWrite rfl) _))
  | bcc | bcs | beq | bmi | bne | bpl | bvc | bvs =>
    obtain ⟨r', hr, hs⟩ := branchIf_done id i _ _ r
    exact hkeep rfl rfl (done hr hs)
  | bra | clc | cld | cli | clv | sec | sed | sei | invalid | nop => exact hkeep rfl rfl (done rfl rfl)
  | dex | dey | inx | iny | tax | tay | tsx | txa | tya => exact hkeep rfl rfl (done rfl rfl)
  | brk => exact within_brk hw
  | jmp => exact within_jmp h hw
  | jsr => exact within_jsr hw
  | pha | php | phx | phy => exact within_push_only hw rfl rfl
  | pla | plx | ply | plp => exact within_pop hw rfl rfl fun v r => ⟨_, rfl, rfl⟩
  | rti => exact within_rti hw
  | rts => exact within_rts hw
  | stp | wai => exact hkeep rfl rfl (stop fun _ _ => rfl)
  | txs => exact done rfl fun hn => (hn rfl).elim

/-- The instruction at `PC` reads and writes within its sets. -/
theorem exec_within (hirq : ((m.arrive async).irq && !r.flag pIrqDisable) = false) (hbp : r.PC ∉ m.bps)
    (hb : m.Full b) :
    ∃ r' m' l, (exec.run r).run (Image.handle async) m = .ok ((), r') m' ∧
      m'.log = m.log ++ Image.fetches b r.PC ++ l ∧
      (∀ p ∈ l, (instructionDecode (b r.PC)).emul.Access (instructionDecode (b r.PC)).mode
        (Image.insnAt b r.PC) r b p) ∧
      (instructionDecode (b r.PC)).emul.stackAfter r r' := by
  obtain ⟨m₁, hx, hm₁, hl₁⟩ := Image.exec_run b hirq hbp fun k _ => by rw [hb]; rfl
  have hin := Emul.within async (i := Image.insnAt b r.PC) (b := b) (r := r) (m := m₁) _
    (instructionDecode_fits (b r.PC)) fun a => by rw [hm₁, hb]
  obtain ⟨⟨⟩, r₂, m₂, l, hr, hl, hF, hs⟩ := hin
  rw [← Image.insnAt_opcode b r.PC] at hr
  obtain ⟨pc, m₃, he, -, hl₃, -⟩ := Image.execInsn_run r.PC hr
  exact ⟨{ r₂ with PC := pc }, m₃, l, hx.trans he, by rw [hl₃, hl, hl₁], hF, hs⟩

end Emul

/-- The bytes a fetch reads are no data accesses. -/
theorem Image.fetches_fetch {b : Addr → Byte} {pc : Addr} {p : Access × Addr} (h : p ∈ Image.fetches b pc) :
    p.1 = .fetch := by
  obtain ⟨k, -, rfl⟩ := List.mem_map.mp h
  rfl

/-- With no interrupt taken, one instruction changes memory only at the bytes it stores to or
pushes, reads only its pointers, operand and pulls, and moves the stack pointer by its pushes
and pulls; a breakpoint changes nothing. -/
theorem instruction_frame (hc : HostCode H) (e : Emu H) (hram : e.bus.Ram) (hoff : e.MmuOff)
    (hirq : ((e.arrive hc).irq && !e.regs.flag pIrqDisable) = false) :
    let b := e.bus.peek
    let i := Image.insnAt b e.regs.PC
    let id := instructionDecode (b e.regs.PC)
    (e.regs.PC ∉ e.bps → ∃ e', e.runCpu hc exec = .ok () e' ∧
      e.ChangesAt e' (id.emul.writeSet id.mode i e.regs b) ∧
      (∀ a r s, Tree.Visit (Emu.handle hc) (exec.run e.regs) e (.read a) r s →
        a ∈ id.emul.readSet id.mode i e.regs b) ∧
      (∀ a ∈ id.mode.pointers i e.regs, page a = 0) ∧
      (id.mode.zeroPage = true → ∀ a, id.mode.effAddr i e.regs b = some a → page a = 0) ∧
      id.emul.stackAfter e.regs e'.regs) ∧
    (e.regs.PC ∈ e.bps → ∃ e', e.runCpu hc exec = .ok () e' ∧ e.ChangesAt e' [] ∧ e'.regs = e.regs) := by
  intro b i id
  have hs := hram.shows hc hoff
  have hidle : (((e.image fun a => .ram (b a)).arrive hc.async).irq && !e.regs.flag pIrqDisable) = false := by
    rw [← (hs.arrive e.regs).irq]
    exact hirq
  constructor
  · intro hbp
    obtain ⟨r', m', l, hr, hl, hF, hsp⟩ := exec_within (b := b) hidle hbp fun _ => rfl
    obtain ⟨e', hx, hregs, hs'⟩ := hs.runCpu hr
    have hzero := Addressing.page_zero id.mode i e.regs b
    refine ⟨e', hx, fun d off hd => ?_, fun a n s hv => ?_, hzero.1, hzero.2, by rw [hregs]; exact hsp⟩
    · obtain ⟨a, ha, he⟩ := hs'.frame d off hd
      rw [hl] at ha
      rcases List.mem_append.mp ha with hf | hf
      · have hn : Access.write = .fetch := Image.fetches_fetch (p := (.write, a)) (by simpa [Emu.image] using hf)
        cases hn
      · exact ⟨a, ((hF _ hf).resolve_left fun h => nomatch h.1).2, he⟩
    · obtain ⟨m₁, hv', -⟩ := hs.visit hr hv
      have hm := Image.visit_read hr hv'
      rw [hl] at hm
      rcases List.mem_append.mp hm with hf | hf
      · have hn : Access.read = .fetch := Image.fetches_fetch (p := (.read, a)) (by simpa [Emu.image] using hf)
        cases hn
      · exact ((hF _ hf).resolve_right fun h => nomatch h.1).2
  · intro hbp
    obtain ⟨m', hr, hl⟩ := Image.exec_breakpoint (m := e.image fun a => .ram (b a)) hidle hbp
    obtain ⟨e', hx, hregs, hs'⟩ := hs.runCpu hr
    refine ⟨e', hx, fun d off hd => ?_, hregs⟩
    obtain ⟨a, ha, -⟩ := hs'.frame d off hd
    rw [hl] at ha
    cases ha

/-- A machine about to execute `PHA` with the stack pointer at the bottom of the page. -/
def pushEmu : Emu Unit := init (ramBus fun _ => 0x48) () ⟨0, 0, 0, 0x0200, 0x00, 0⟩

theorem instruction_frame_pha :
    ∃ e', pushEmu.runCpu (quietHost identity) exec = .ok () e' ∧ pushEmu.ChangesAt e' [0x0100] ∧
    e'.regs.SP = 0xFF := by
  obtain ⟨e', hx, hch, -, -, -, hsp⟩ :=
    (instruction_frame (quietHost identity) pushEmu (ramBus_ram _) ⟨rfl, rfl⟩ (by decide)).1 (by decide)
  exact ⟨e', hx, hch, hsp (by decide)⟩

end Rk65c02
