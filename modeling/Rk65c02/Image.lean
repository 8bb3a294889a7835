import Rk65c02.Loops
import Rk65c02.Run

/-! With the MMU off, code sees the emulator as an image of its memory: bytes, some of them
writable. What code does on the image it does on the emulator. -/

namespace Rk65c02

open Resumption Cpu

variable {H : Type}

/-- What is known of an address: nothing, as where a device answers, a byte, or a byte that
can be written. -/
inductive Slot
  | unknown
  | rom (v : Byte)
  | ram (v : Byte)
  deriving DecidableEq

namespace Slot

def byte : Slot → Option Byte
  | unknown => none
  | rom v | ram v => some v

def isRam : Slot → Bool
  | ram _ => true
  | unknown | rom _ => false

end Slot

/-- A memory image with the rest of what an instruction can see; `log` holds the accesses
made through the accessors, in order. -/
structure Image where
  mem : Addr → Slot
  irq : Bool
  bps : List Addr
  state : EmuState
  stopreason : StopReason
  reexec : Bool
  clock : Nat
  log : List (Access × Addr)

namespace Image

def asyncCall (m : Image) : AsyncCall → Image
  | .assertIrq =>
    let m := { m with irq := true }
    if m.state = .stopped ∧ m.stopreason = .wai then { m with state := .running } else m
  | .deassertIrq => { m with irq := false }
  | .requestStop => m

def arrive (async : Nat → List AsyncCall) (m : Image) : Image :=
  (async m.clock).foldl asyncCall { m with clock := m.clock + 1 }

def saw (m : Image) (x : Access) (a : Addr) : Image := { m with log := m.log ++ [(x, a)] }

def write (m : Image) (a : Addr) (v : Byte) : Image :=
  { m with mem := Function.update m.mem a (.ram v), log := m.log ++ [(.write, a)] }

def load (m : Image) (x : Access) (a : Addr) : Out Image Byte :=
  match (m.mem a).byte with
  | none => .stuck
  | some v => .ok v (m.saw x a)

/-- The bytes of the instruction at an address are known. -/
def knows (m : Image) (pc : Addr) : Bool :=
  (m.mem pc).byte.any fun op =>
    (List.range ((instructionDecode op).mode.operands + 1)).all fun k =>
      (m.mem (pc + BitVec.ofNat 16 k)).byte.isSome

def answer (m : Image) : (o : Op) → Out Image o.Ret
  | .fetch a => m.load .fetch a
  | .read a => m.load .read a
  | .write a v => if (m.mem a).isRam then .ok () (m.write a v) else .stuck
  | .irq => .ok m.irq m
  | .ackIrq => .ok () { m with irq := false }
  | .stop reason => .ok () { m with state := .stopped, stopreason := reason }
  | .panic => .stuck
  | .isBreakpoint pc => .ok (m.bps.contains pc) m
  | .disassemble pc => if m.knows pc then .ok () m else .stuck
  | .reexec => if m.state = .stopped ∧ m.reexec then .ok true { m with reexec := false } else .ok false m
  | .trace _ _ _ => .ok () m

def handle (async : Nat → List AsyncCall) : CpuHandler Image := fun o _ m => (m.arrive async).answer o

section Fields

variable {async : Nat → List AsyncCall} {m : Image} {x : Access} {a : Addr} {v : Byte}

theorem asyncCalls_eq (cs : List AsyncCall) (m : Image) :
    ∃ i s, cs.foldl asyncCall m = { m with irq := i, state := s } := by
  induction cs generalizing m with
  | nil => exact ⟨m.irq, m.state, rfl⟩
  | cons c cs ih =>
    obtain ⟨i, s, h⟩ : ∃ i s, m.asyncCall c = { m with irq := i, state := s } := by
      cases c with
      | assertIrq =>
        simp only [asyncCall]
        split
        · exact ⟨_, _, rfl⟩
        · exact ⟨_, m.state, rfl⟩
      | deassertIrq => exact ⟨_, m.state, rfl⟩
      | requestStop => exact ⟨m.irq, m.state, rfl⟩
    obtain ⟨i', s', h'⟩ := ih (m.asyncCall c)
    exact ⟨i', s', by rw [List.foldl_cons, h', h]⟩

theorem arrive_eq (async : Nat → List AsyncCall) (m : Image) :
    ∃ i s, m.arrive async = { m with irq := i, state := s, clock := m.clock + 1 } :=
  asyncCalls_eq (async m.clock) { m with clock := m.clock + 1 }

@[simp] theorem arrive_mem : (m.arrive async).mem = m.mem := by
  obtain ⟨i, s, h⟩ := arrive_eq async m
  rw [h]

@[simp] theorem arrive_log : (m.arrive async).log = m.log := by
  obtain ⟨i, s, h⟩ := arrive_eq async m
  rw [h]

@[simp] theorem arrive_bps : (m.arrive async).bps = m.bps := by
  obtain ⟨i, s, h⟩ := arrive_eq async m
  rw [h]

@[simp] theorem saw_mem : (m.saw x a).mem = m.mem := rfl

@[simp] theorem saw_irq : (m.saw x a).irq = m.irq := rfl

@[simp] theorem saw_bps : (m.saw x a).bps = m.bps := rfl

@[simp] theorem saw_log : (m.saw x a).log = m.log ++ [(x, a)] := rfl

@[simp] theorem write_mem : (m.write a v).mem = Function.update m.mem a (.ram v) := rfl

@[simp] theorem write_irq : (m.write a v).irq = m.irq := rfl

@[simp] theorem write_bps : (m.write a v).bps = m.bps := rfl

@[simp] theorem write_log : (m.write a v).log = m.log ++ [(.write, a)] := rfl

@[simp] theorem answer_write (h : (m.mem a).isRam = true) : m.answer (.write a v) = .ok
    () (m.write a v) := if_pos h

theorem load_known (h : (m.mem a).byte = some v) : m.load x a = .ok v (m.saw x a) := by
  rw [load, h]

end Fields

end Image

/-- Reading the address has no effect and gives the byte, in every state of the host. -/
def Bus.Holds (hc : HostCode H) (b : Bus) (a : Addr) (v : Byte) : Prop :=
  match b.accessDevice a with
  | none => v = 0xFF
  | some (d, off) => if (b.dev d).ram then b.ram d off = v else ∀ h, hc.devRead h d off = (v, h, [])

/-- The address is a cell of RAM that no other address in `S` shares. -/
def Bus.Cell (b : Bus) (S : Addr → Prop) (a : Addr) : Prop :=
  ∃ d off, b.accessDevice a = some (d, off) ∧ (b.dev d).ram = true ∧
    ∀ a', S a' → a' ≠ a → b.accessDevice a' ≠ some (d, off)

/-- The emulator, with the MMU off, shows the image; `b` is the bus it started with. -/
structure Emu.Shows (hc : HostCode H) (b : Bus) (e : Emu H) (m : Image) : Prop where
  direct : e.mmu.accessors = false
  off : e.mmu.enabled = false
  irq : e.irq = m.irq
  bps : e.bps = m.bps
  state : e.state = m.state
  stopreason : e.stopreason = m.stopreason
  reexec : e.mmu.faultReexec = m.reexec
  clock : e.clock = m.clock
  mapping : e.bus = { b with ram := e.bus.ram }
  holds : ∀ a v, (m.mem a).byte = some v → e.bus.Holds hc a v
  cell : ∀ a, (m.mem a).isRam = true → b.Cell (fun a' => (m.mem a').byte ≠ none) a
  frame : ∀ d off, e.bus.ram d off ≠ b.ram d off → ∃ a, (.write, a) ∈ m.log ∧ b.accessDevice a = some (d, off)

namespace Emu.Shows

variable {hc : HostCode H} {b : Bus} {e : Emu H} {m : Image}

theorem asyncCall (h : e.Shows hc b m) (c : AsyncCall) : (e.asyncCall c).Shows hc b (m.asyncCall c) := by
  have hs : (e.state = .stopped ∧ e.stopreason = .wai) ↔ m.state = .stopped ∧ m.stopreason = .wai := by
    rw [h.state, h.stopreason]
  cases c with
  | assertIrq =>
    by_cases hw : m.state = .stopped ∧ m.stopreason = .wai
    · simp only [Emu.asyncCall, Emu.assertIrq, Image.asyncCall, if_pos hw, if_pos (hs.mpr hw)]
      exact { h with irq := rfl, state := rfl }
    · simp only [Emu.asyncCall, Emu.assertIrq, Image.asyncCall, if_neg hw, if_neg (mt hs.mp hw)]
      exact { h with irq := rfl }
  | deassertIrq => exact { h with irq := rfl }
  | requestStop => exact { h with }

theorem asyncCalls (h : e.Shows hc b m) (cs : List AsyncCall) :
    (cs.foldl Emu.asyncCall e).Shows hc b (cs.foldl Image.asyncCall m) := by
  induction cs generalizing e m with
  | nil => exact h
  | cons c cs ih => exact ih (h.asyncCall c)

theorem arrive (h : e.Shows hc b m) (r : Regs) :
    (({ e with regs := r } : Emu H).arrive hc).Shows hc b (m.arrive hc.async) := by
  have hc' : ({ e with regs := r, clock := e.clock + 1 } : Emu H).Shows hc b { m with clock := m.clock + 1 } :=
    { h with clock := congrArg (· + 1) h.clock }
  have hh := hc'.asyncCalls (hc.async e.clock)
  unfold Image.arrive
  rw [← h.clock] at hh ⊢
  exact hh

theorem busRead1 {a : Addr} {v : Byte} (h : e.bus.Holds hc a v) : e.busRead1 hc a = (v, e) := by
  unfold Emu.busRead1
  unfold Bus.Holds at h
  cases he : e.bus.accessDevice a with
  | none =>
    rw [he] at h
    rw [h]
    rfl
  | some p =>
    rw [he] at h
    by_cases hr : (e.bus.dev p.1).ram = true
    · have hd : e.bus.ram p.1 p.2 = v := by simpa only [if_pos hr] using h
      simp only [deviceRead1, if_pos hr, hd]
    · have hd : ∀ h, hc.devRead h p.1 p.2 = (v, h, []) := by simpa only [if_neg hr] using h
      simp only [deviceRead1, if_neg hr, hd]
      rfl

theorem load (h : e.Shows hc b m) {a : Addr} {x : Access} {v : Byte} {m' : Image} (hl : m.load x a = .ok v m') :
    e.memRead1 hc a x = .ok v e ∧ e.Shows hc b m' := by
  unfold Image.load at hl
  split at hl
  · cases hl
  · next w hw =>
    cases hl
    refine ⟨?_, { h with frame := fun d off hd => ?_ }⟩
    · unfold memRead1 memReadDirect
      rw [h.direct, busRead1 (h.holds a v hw)]
      rfl
    · obtain ⟨a', ha, he⟩ := h.frame d off hd
      exact ⟨a', List.mem_append_left _ ha, he⟩

/-- Disassembling known bytes has no effect. -/
theorem disassembled (h : e.Shows hc b m) {pc : Addr} (hk : m.knows pc = true) : e.disassembled hc pc = e := by
  obtain ⟨op, hop, hall⟩ : ∃ op, (m.mem pc).byte = some op ∧ ∀ k ≤ (instructionDecode op).mode.operands,
      ∃ v, (m.mem (pc + BitVec.ofNat 16 k)).byte = some v := by
    unfold Image.knows at hk
    cases hop : (m.mem pc).byte with
    | none => simp [hop] at hk
    | some op =>
      simp only [hop, Option.any_some, List.all_eq_true, List.mem_range, Option.isSome_iff_exists] at hk
      exact ⟨op, rfl, fun k hle => hk k (by omega)⟩
  have hd : e.disassemble hc pc = e := by
    unfold disassemble instructionFetch
    rw [busRead1 (h.holds pc op hop)]
    dsimp only
    generalize (instructionDecode op).mode.operands = n at hall
    match n with
    | 0 => rfl
    | 1 =>
      obtain ⟨v, hv⟩ := hall 1 (by omega)
      simp only [busRead1 (h.holds (pc + 1) v hv)]
    | n + 2 =>
      obtain ⟨v, hv⟩ := hall 1 (by omega)
      obtain ⟨w, hw⟩ := hall 2 (by omega)
      simp only [busRead1 (h.holds (pc + 1) v hv), busRead1 (h.holds (pc + 2) w hw)]
  rw [Emu.disassembled, hd, ite_self]

variable (hc) in
/-- With the MMU off a store leaves the mapping alone. -/
theorem noteGuestWrite (hoff : e.mmu.enabled = false) (a : Addr) :
    ∃ j u, e.jitNoteGuestWrite hc a = { e with jit := j, useJit := u } := by
  have ht : ∀ j : Jit, (e.jitPhysHit hc j a).2 = e := by
    intro j
    simp only [jitPhysHit, jitTranslatePaddr, mmuTranslateCached, hoff]
    split <;> rfl
  unfold jitNoteGuestWrite
  split
  · exact ⟨e.jit, e.useJit, rfl⟩
  · next j hj =>
    split
    · exact ⟨e.jit, e.useJit, rfl⟩
    · dsimp only
      rw [ht j]
      split
      · exact ⟨e.jit, e.useJit, rfl⟩
      · split
        · exact ⟨_, _, rfl⟩
        · exact ⟨_, e.useJit, rfl⟩

theorem ramWrite1_other {b : Bus} {d d' : DevId} {off off' : Addr} (v : Byte) (hne : (d', off') ≠ (d, off)) :
    (b.ramWrite1 d off v).ram d' off' = b.ram d' off' := by
  unfold Bus.ramWrite1
  dsimp only
  by_cases hp : d' = d
  · have ho : off' ≠ off := fun ho => hne (by rw [hp, ho])
    rw [hp, Function.update_self, Function.update_of_ne ho]
  · rw [Function.update_of_ne hp]

theorem holds_other {bus : Bus} {d : DevId} {off a : Addr} {v : Byte} (w : Byte) (h : bus.Holds hc a v)
    (hne : bus.accessDevice a ≠ some (d, off)) : (bus.ramWrite1 d off w).Holds hc a v := by
  unfold Bus.Holds at h ⊢
  have hm : (bus.ramWrite1 d off w).accessDevice a = bus.accessDevice a := rfl
  rw [hm]
  cases he : bus.accessDevice a with
  | none =>
    rw [he] at h
    exact h
  | some p =>
    rw [he] at h hne
    have hr := ramWrite1_other (b := bus) w fun hp : (p.1, p.2) = (d, off) => hne (congrArg some hp)
    have hd : (bus.ramWrite1 d off w).dev p.1 = bus.dev p.1 := rfl
    simp only [hd, hr]
    exact h

theorem holds_self {bus : Bus} {d : DevId} {off a : Addr} (v : Byte) (ha : bus.accessDevice a = some (d, off))
    (hd : (bus.dev d).ram = true) : (bus.ramWrite1 d off v).Holds hc a v := by
  have hm : (bus.ramWrite1 d off v).accessDevice a = some (d, off) := ha
  unfold Bus.Holds
  rw [hm]
  simp only [Bus.ramWrite1, if_pos hd, Function.update_self]

theorem store (h : e.Shows hc b m) {a : Addr} {v : Byte} {m' : Image} (hs : m.answer (.write a v) = .ok () m') :
    ∃ e', e.memWrite1 hc a v = .ok () e' ∧ e'.Shows hc b m' := by
  unfold Image.answer at hs
  dsimp only at hs
  split at hs
  · next hram =>
    cases hs
    obtain ⟨d, off, ha, hd, hu⟩ := h.cell a hram
    have hacc : ∀ a, e.bus.accessDevice a = b.accessDevice a := fun a => by rw [h.mapping]; rfl
    have hdev : (e.bus.dev d).ram = true := by rw [h.mapping]; exact hd
    have hw : e.busWrite1 hc a v = { e with bus := e.bus.ramWrite1 d off v } := by
      unfold busWrite1 deviceWrite1
      rw [hacc, ha]
      simp only [if_pos hdev]
    obtain ⟨j, u, hn⟩ := noteGuestWrite hc (e := { e with bus := e.bus.ramWrite1 d off v }) h.off a
    refine ⟨{ e with bus := e.bus.ramWrite1 d off v, jit := j, useJit := u }, ?_, ?_⟩
    · simp only [memWrite1, memWriteDirect, h.direct, hw, hn, Bool.false_eq_true, if_false, Out.ok_bind]
    -- The store makes no address known that was not known before.
    have hk : ∀ a', (Function.update m.mem a (.ram v) a').byte ≠ none ↔ (m.mem a').byte ≠ none := by
      intro a'
      by_cases hne : a' = a
      · subst hne
        cases hm : m.mem a' <;> simp_all [Slot.byte, Slot.isRam]
      · rw [Function.update_of_ne hne]
    refine { h with mapping := ?_, holds := ?_, cell := ?_, frame := ?_ }
    · exact congrArg (fun x : Bus => x.ramWrite1 d off v) h.mapping
    · intro a' w hw'
      by_cases hne : a' = a
      · subst hne
        obtain rfl : v = w := by simpa [Slot.byte] using hw'
        exact holds_self v ((hacc a').trans ha) hdev
      · have hm : (m.mem a').byte = some w := by simpa [Function.update_of_ne hne] using hw'
        refine holds_other v (h.holds a' w hm) ?_
        rw [hacc]
        exact hu a' (fun he => nomatch hm.symm.trans he) hne
    · intro a' hr
      have hr' : (m.mem a').isRam = true := by
        by_cases hne : a' = a
        · rw [hne]
          exact hram
        · simpa [Function.update_of_ne hne] using hr
      obtain ⟨d', off', ha', hd', hu'⟩ := h.cell a' hr'
      exact ⟨d', off', ha', hd', fun a'' hm hne => hu' a'' ((hk a'').mp hm) hne⟩
    · intro d' off' hne
      by_cases hc : (d', off') = (d, off)
      · cases hc
        exact ⟨a, by simp, ha⟩
      · obtain ⟨a', hl, he⟩ := h.frame d' off' fun heq => hne ((ramWrite1_other v hc).trans heq)
        exact ⟨a', List.mem_append_left _ hl, he⟩
  · cases hs

theorem answer (h : e.Shows hc b m) {o : Op} {v : o.Ret} {m' : Image} (ha : m.answer o = .ok v m') :
    ∃ e', e.answer hc o = .ok v e' ∧ e'.Shows hc b m' := by
  cases o with
  | fetch a => exact ⟨e, h.load ha⟩
  | read a => exact ⟨e, h.load ha⟩
  | write a w => exact h.store ha
  | irq =>
    cases ha
    exact ⟨e, by rw [← h.irq]; rfl, h⟩
  | ackIrq =>
    cases ha
    exact ⟨_, rfl, { h with irq := rfl }⟩
  | stop reason =>
    cases ha
    exact ⟨_, rfl, { h with state := rfl, stopreason := rfl }⟩
  | panic => cases ha
  | isBreakpoint pc =>
    cases ha
    exact ⟨e, by rw [← h.bps]; rfl, h⟩
  | disassemble pc =>
    unfold Image.answer at ha
    dsimp only at ha
    split at ha
    · next hk =>
      cases ha
      exact ⟨e, congrArg (Out.ok ()) (h.disassembled hk), h⟩
    · cases ha
  | reexec =>
    simp only [Image.answer, Emu.answer, h.state, h.reexec] at ha ⊢
    split at ha
    · next hs =>
      cases ha
      rw [if_pos hs]
      exact ⟨_, rfl, { h with state := rfl, reexec := rfl }⟩
    · next hs =>
      cases ha
      rw [if_neg hs]
      exact ⟨_, rfl, h⟩
  | trace tpc i r =>
    cases ha
    refine ⟨_, rfl, ?_⟩
    unfold tracePush
    split
    · exact { h with }
    · exact h

/-- Code that runs on the image runs on the emulator with the same answer. -/
theorem run (h : e.Shows hc b m) {α : Type} {t : CpuTree α} {a : α} {m' : Image}
    (hr : t.run (Image.handle hc.async) m = .ok a m') :
    ∃ e', t.run (Emu.handle hc) e = .ok a e' ∧ e'.Shows hc b m' :=
  t.run_simulates (fun _ n _ _ _ _ hs ho => (hs.arrive n).answer ho) h hr

/-- The requests of the emulator are those of the image. -/
theorem visit (h : e.Shows hc b m) {α : Type} {t : CpuTree α} {a : α} {m' : Image}
    (hr : t.run (Image.handle hc.async) m = .ok a m') {o : Op} {n : Regs} {s : Emu H}
    (hv : Tree.Visit (Emu.handle hc) t e o n s) : ∃ m₁, Tree.Visit (Image.handle hc.async) t m o n m₁ ∧
    s.Shows hc b m₁ :=
  Tree.Visit.simulates (fun _ n _ _ _ _ hs ho => (hs.arrive n).answer ho) h hr hv

theorem runCpu (h : e.Shows hc b m) {α : Type} {x : Cpu α} {a : α} {r' : Regs} {m' : Image}
    (hr : (x.run e.regs).run (Image.handle hc.async) m = .ok (a, r') m') :
    ∃ e', e.runCpu hc x = .ok a e' ∧ e'.regs = r' ∧ e'.Shows hc b m' := by
  obtain ⟨e', hx, hs⟩ := h.run hr
  refine ⟨{ e' with regs := r' }, ?_, rfl, { hs with }⟩
  simp only [Emu.runCpu, putRegs, hx, Out.ok_bind]

end Emu.Shows

/-- The address a stack pointer points to. -/
def stackAddr (SP : Byte) : Addr := stackStart + SP.setWidth 16

namespace Image

variable {async : Nat → List AsyncCall} {m : Image} {r : Regs} {a : Addr} {v : Byte}

variable (async) in
theorem fetch_run (h : (m.mem a).byte = some v) :
    ((memFetch1 a).run r).run (handle async) m = .ok (v, r) ((m.arrive async).saw .fetch a) := by
  simp [handle, answer, load_known (m := m.arrive async) (v := v) (by simpa using h)]

theorem read_run (h : (m.mem a).byte = some v) :
    ((memRead1 a).run r).run (handle async) m = .ok (v, r) ((m.arrive async).saw .read a) := by
  simp [handle, answer, load_known (m := m.arrive async) (v := v) (by simpa using h)]

theorem write_run (h : (m.mem a).isRam = true) :
    ((memWrite1 a v).run r).run (handle async) m = .ok ((), r) ((m.arrive async).write a v) := by
  simp [handle, h]

theorem stackPush_run (h : (m.mem (stackAddr r.SP)).isRam = true) :
    ((stackPush v).run r).run (handle async) m =
      .ok ((), { r with SP := r.SP - 1 }) ((m.arrive async).write (stackAddr r.SP) v) := by
  unfold stackAddr at h ⊢
  simp [stackPush, handle, h]

theorem stackPop_run (h : (m.mem (stackAddr (r.SP + 1))).byte = some v) :
    (stackPop.run r).run (handle async) m =
      .ok (v, { r with SP := r.SP + 1 }) ((m.arrive async).saw .read (stackAddr (r.SP + 1))) := by
  have hh : ((m.arrive async).mem (stackAddr (r.SP + 1))).byte = some v := by simpa using h
  exact congrArg (fun x => x.bind fun (v : Byte) s => Out.ok (v, { r with SP := r.SP + 1 }) s) (load_known hh)

theorem run_bind {α β : Type} {x : Cpu α} {f : α → Cpu β} {a : α} {r' : Regs} {m' : Image}
    (h : (x.run r).run (handle async) m = .ok (a, r') m') :
    ((x >>= f).run r).run (handle async) m = ((f a).run r').run (handle async) m' := by
  rw [StateT.run_bind, Tree.run_bind, h]
  rfl

theorem get_bind_run {α : Type} (f : Regs → Cpu α) :
    ((get >>= f).run r).run (handle async) m = ((f r).run r).run (handle async) m := rfl

theorem modify_bind_run {α : Type} (g : Regs → Regs) (f : PUnit → Cpu α) :
    ((modify g >>= f).run r).run (handle async) m = ((f ⟨⟩).run (g r)).run (handle async) m := rfl

theorem modifyP_bind_run {α : Type} (g : Byte → Byte) (f : PUnit → Cpu α) :
    ((modifyP g >>= f).run r).run (handle async) m = ((f ⟨⟩).run { r with P := g r.P }).run
    (handle async) m := rfl

theorem hardwareEntry_run : (hardwareEntry.run r).run (handle async) m =
    (StateT.run (if ((m.arrive async).irq && !r.flag pIrqDisable) = true then Rk65c02.irq else pure ()) r).run
      (handle async) (m.arrive async) := rfl

/-- The instruction that a fetch finds. -/
def insnAt (byte : Addr → Byte) (pc : Addr) : Instruction :=
  match (instructionDecode (byte pc)).mode.operands with
  | 0 => ⟨byte pc, 0, 0⟩
  | 1 => ⟨byte pc, byte (pc + 1), 0⟩
  | _ => ⟨byte pc, byte (pc + 1), byte (pc + 2)⟩

theorem insnAt_opcode (byte : Addr → Byte) (pc : Addr) : (insnAt byte pc).opcode = byte pc := by
  unfold insnAt
  split <;> rfl

/-- The addresses a fetch reads. -/
def fetches (byte : Addr → Byte) (pc : Addr) : List (Access × Addr) :=
  (List.range ((instructionDecode (byte pc)).mode.operands + 1)).map fun k => (.fetch, pc + BitVec.ofNat 16 k)

variable (async) in
theorem fetch_insnAt {byte : Addr → Byte} (pc : Addr)
    (h : ∀ k ≤ (instructionDecode (byte pc)).mode.operands,
      (m.mem (pc + BitVec.ofNat 16 k)).byte = some (byte (pc + BitVec.ofNat 16 k))) :
    ∃ m', ((instructionFetchEmu pc).run r).run (handle async) m = .ok (insnAt byte pc, r) m' ∧ m'.mem = m.mem ∧
      m'.log = m.log ++ fetches byte pc := by
  have h0 := h 0 (Nat.zero_le _)
  rw [BitVec.add_zero] at h0
  unfold instructionFetchEmu insnAt fetches
  rw [run_bind (fetch_run async h0)]
  have hle : (instructionDecode (byte pc)).mode.operands ≤ 2 := by
    cases (instructionDecode (byte pc)).mode <;> decide
  generalize (instructionDecode (byte pc)).mode.operands = n at h hle
  have h1 : 1 ≤ n → ((memFetch1 (pc + 1)).run r).run (handle async) ((m.arrive async).saw .fetch pc) =
      .ok (byte (pc + 1), r) ((((m.arrive async).saw .fetch pc).arrive async).saw .fetch (pc + 1)) := fun hn =>
    fetch_run async (by simpa using h 1 hn)
  match n, hle with
  | 0, _ => exact ⟨_, rfl, by simp, by simp⟩
  | 1, _ =>
    refine ⟨(((m.arrive async).saw .fetch pc).arrive async).saw .fetch (pc + 1),
      ?_, by simp, by simp [List.range_succ]⟩
    exact run_bind (f := fun op1 => (pure (Instruction.mk (byte pc) op1 0) : Cpu Instruction)) (h1 (by omega))
  | 2, _ =>
    have h2 := fetch_run async (m := (((m.arrive async).saw .fetch pc).arrive async).saw .fetch (pc + 1)) (r := r)
      (v := byte (pc + 2)) (by simpa using h 2 (by omega))
    refine ⟨((((((m.arrive async).saw .fetch pc).arrive async).saw .fetch (pc + 1))).arrive async).saw
      .fetch (pc + 2),
      ?_, by simp, by simp [List.range_succ]⟩
    exact (run_bind (f := fun op1 => memFetch1 (pc + 2) >>= fun op2 =>
      (pure (Instruction.mk (byte pc) op1 op2) : Cpu Instruction)) (h1 (by omega))).trans (run_bind h2)

variable (async) in
theorem fetchHere_run (byte : Addr → Byte) (hbp : r.PC ∉ m.bps)
    (h : ∀ k ≤ (instructionDecode (byte r.PC)).mode.operands,
      (m.mem (r.PC + BitVec.ofNat 16 k)).byte = some (byte (r.PC + BitVec.ofNat 16 k))) :
    ∃ m', (fetchHere.run r).run (handle async) m = .ok (some (insnAt byte r.PC), r) m' ∧ m'.mem = m.mem ∧
      m'.log = m.log ++ fetches byte r.PC := by
  have hb : (debugPCIsBreakpoint.run r).run (handle async) m = .ok (false, r) (m.arrive async) := by
    have hf : ((m.arrive async).bps.contains r.PC) = false := by simpa using hbp
    exact congrArg (fun b => Out.ok (b, r) (m.arrive async)) hf
  have hk : ((m.arrive async).arrive async).knows r.PC = true := by
    have h0 := h 0 (Nat.zero_le _)
    rw [BitVec.add_zero] at h0
    simp only [knows, arrive_mem, h0, Option.any_some, List.all_eq_true, List.mem_range]
    exact fun k hk => by rw [h k (by omega)]; rfl
  have hd : (runtimeDisassemble.run r).run (handle async) (m.arrive async) =
      .ok ((), r) ((m.arrive async).arrive async) := by
    have ha : ((m.arrive async).arrive async).answer (.disassemble r.PC) = .ok ()
      ((m.arrive async).arrive async) :=
      if_pos hk
    change (((m.arrive async).arrive async).answer (.disassemble r.PC)).bind (fun _ s => .ok ((), r) s) = _
    rw [ha]
    rfl
  obtain ⟨m', hr, hm, hl⟩ := fetch_insnAt async (m := (m.arrive async).arrive async) (r := r) r.PC
    (by simpa using h)
  refine ⟨m', ?_, by simpa using hm, by simpa using hl⟩
  unfold fetchHere
  rw [run_bind hb, if_neg (by decide), run_bind hd, get_bind_run, run_bind hr]
  rfl

/-- No interrupt is pending and no breakpoint set at `PC`: the instruction there runs. -/
theorem exec_run (byte : Addr → Byte) (hirq : ((m.arrive async).irq && !r.flag pIrqDisable) = false)
    (hbp : r.PC ∉ m.bps)
    (h : ∀ k ≤ (instructionDecode (byte r.PC)).mode.operands,
      (m.mem (r.PC + BitVec.ofNat 16 k)).byte = some (byte (r.PC + BitVec.ofNat 16 k))) :
    ∃ m', (exec.run r).run (handle async) m = ((execInsn r.PC (insnAt byte r.PC)).run r).run (handle async) m' ∧
      m'.mem = m.mem ∧ m'.log = m.log ++ fetches byte r.PC := by
  have he : (hardwareEntry.run r).run (handle async) m = .ok ((), r) (m.arrive async) := by
    rw [hardwareEntry_run, hirq]
    rfl
  obtain ⟨m', hf, hm, hl⟩ := fetchHere_run async (m := m.arrive async) (r := r) byte
    (by simpa using hbp) (by simpa using h)
  refine ⟨m', ?_, by simpa using hm, by simpa using hl⟩
  rw [exec_eq, get_bind_run]
  unfold execFetch
  rw [bind_assoc, run_bind he, run_bind hf]
  rfl

theorem fetchHere_breakpoint (hbp : r.PC ∈ m.bps) :
    (fetchHere.run r).run (handle async) m = .ok (none, r) (m.arrive async) := by
  have hb : (debugPCIsBreakpoint.run r).run (handle async) m = .ok (true, r) (m.arrive async) := by
    have ht : ((m.arrive async).bps.contains r.PC) = true := by simpa using hbp
    exact congrArg (fun b => Out.ok (b, r) (m.arrive async)) ht
  unfold fetchHere
  rw [run_bind hb, if_pos rfl]
  rfl

/-- A breakpoint at `PC` stops before the fetch. -/
theorem exec_breakpoint (hirq : ((m.arrive async).irq && !r.flag pIrqDisable) = false) (hbp : r.PC ∈ m.bps) :
    ∃ m', (exec.run r).run (handle async) m = .ok ((), r) m' ∧ m'.log = m.log := by
  have he : (hardwareEntry.run r).run (handle async) m = .ok ((), r) (m.arrive async) := by
    rw [hardwareEntry_run, hirq]
    rfl
  have hf : (fetchHere.run r).run (handle async) (m.arrive async) = .ok (none, r)
    ((m.arrive async).arrive async) :=
    fetchHere_breakpoint (by simpa using hbp)
  rw [exec_eq, get_bind_run]
  unfold execFetch
  rw [bind_assoc, run_bind he, run_bind hf]
  exact ⟨_, rfl, by simp⟩

/-- The end of an instruction moves nothing but `PC`, and `PC` only if the emulation function
has not. -/
theorem execInsn_run (tpc : Addr) {i : Instruction} {r' : Regs} {m' : Image}
    (h : (((instructionDecode i.opcode).emul.exec (instructionDecode i.opcode) i).run r).run
      (handle async) m = .ok ((), r') m') :
    ∃ pc m'', ((execInsn tpc i).run r).run (handle async) m = .ok ((), { r' with PC := pc }) m'' ∧
      m''.mem = m'.mem ∧
      m''.log = m'.log ∧ ((instructionDecode i.opcode).modifyPc = true → pc = r'.PC) := by
  unfold execInsn
  rw [run_bind h]
  obtain ⟨b, m₁, hb, hm, hl⟩ : ∃ b m₁, (faultReexec.run r').run (handle async) m' = .ok (b, r') m₁ ∧
    m₁.mem = m'.mem ∧
      m₁.log = m'.log := by
    by_cases hs : (m'.arrive async).state = .stopped ∧ (m'.arrive async).reexec
    · refine ⟨true, { m'.arrive async with reexec := false }, ?_, arrive_mem, arrive_log⟩
      have ha : (m'.arrive async).answer .reexec = .ok true { m'.arrive async with reexec := false } := if_pos hs
      change ((m'.arrive async).answer .reexec).bind (fun (b : Bool) s => .ok (b, r') s) = _
      rw [ha]
      rfl
    · refine ⟨false, m'.arrive async, ?_, arrive_mem, arrive_log⟩
      have ha : (m'.arrive async).answer .reexec = .ok false (m'.arrive async) := if_neg hs
      change ((m'.arrive async).answer .reexec).bind (fun (b : Bool) s => .ok (b, r') s) = _
      rw [ha]
      rfl
  rw [run_bind hb]
  have htrace : ∀ r : Regs, ((get >>= fun r => request (.trace tpc i r)).run r).run (handle async) m₁ =
      .ok ((), r) (m₁.arrive async) := fun _ => rfl
  cases b with
  | true => exact ⟨r'.PC, _, htrace r', by simpa using hm, by simpa using hl, fun _ => rfl⟩
  | false =>
    cases hp : (instructionDecode i.opcode).modifyPc with
    | true => exact ⟨r'.PC, _, htrace r', by simpa using hm, by simpa using hl, fun _ => rfl⟩
    | false => exact ⟨_, _, htrace _, by simpa using hm, by simpa using hl, fun h => nomatch h⟩

end Image

namespace Image

variable {async : Nat → List AsyncCall} {m : Image}

theorem answer_log (m : Image) (o : Op) : (m.answer o).Ends fun m' => m.log <+: m'.log := by
  cases o <;> simp only [answer, load] <;> (try split) <;>
    first | exact List.prefix_refl _ | exact List.prefix_append _ _ | trivial

theorem run_log {α : Type} {t : CpuTree α} {a : α} {m' : Image} (h : t.run (handle async) m = .ok a m') :
    m.log <+: m'.log :=
  (t.run_ends (I := fun s => m.log <+: s.log)
    (fun o _ s hs => ((s.arrive async).answer_log o).mono fun _ hh => hs.trans (arrive_log ▸ hh))
      (List.prefix_refl _)).ok h

/-- The writes of a log. -/
def writes (l : List (Access × Addr)) : List Addr := l.filterMap fun p => if p.1 = .write then some p.2 else none

/-- A read that is made is in the log. -/
theorem visit_read {α : Type} {t : CpuTree α} {a : α} {m' m₁ : Image} {x : Addr} {n : Regs}
    (h : t.run (handle async) m = .ok a m') (hv : Tree.Visit (handle async) t m (.read x) n m₁) :
    (.read, x) ∈ m'.log := by
  generalize ho : Op.read x = o at hv
  induction hv with
  | here =>
    subst ho
    obtain ⟨v, m₂, hh, hk⟩ := Out.of_bind_ok h
    have hl : (Rk65c02.Access.read, x) ∈ m₂.log := by
      unfold handle answer load at hh
      dsimp only at hh
      split at hh
      · cases hh
      · cases hh
        simp
    exact (run_log hk).subset hl
  | later hh _ ih =>
    obtain ⟨v, m₂, hh', hk⟩ := Out.of_bind_ok h
    rw [hh] at hh'
    cases hh'
    exact ih hk ho

end Image

/-- Every address is a RAM cell of its own. -/
def Bus.Ram (b : Bus) : Prop := ∀ a, b.Cell (fun _ => True) a

/-- The byte of the RAM cell behind the address. -/
def Bus.peek (b : Bus) (a : Addr) : Byte := (b.accessDevice a).elim 0xFF fun p => b.ram p.1 p.2

/-- The emulator as an image with the given memory. -/
def Emu.image (e : Emu H) (mem : Addr → Slot) : Image where
  mem := mem
  irq := e.irq
  bps := e.bps
  state := e.state
  stopreason := e.stopreason
  reexec := e.mmu.faultReexec
  clock := e.clock
  log := []

/-- The memory accessors go straight to the bus. -/
def Emu.MmuOff (e : Emu H) : Prop := e.mmu.enabled = false ∧ e.mmu.accessors = false

theorem Emu.MmuOff.shows {hc : HostCode H} {e : Emu H} {mem : Addr → Slot} (hoff : e.MmuOff)
    (hh : ∀ a v, (mem a).byte = some v → e.bus.Holds hc a v)
    (hcell : ∀ a, (mem a).isRam = true → e.bus.Cell (fun a' => (mem a').byte ≠ none) a) :
    e.Shows hc e.bus (e.image mem) where
  direct := hoff.2
  off := hoff.1
  irq := rfl
  bps := rfl
  state := rfl
  stopreason := rfl
  reexec := rfl
  clock := rfl
  mapping := rfl
  holds := hh
  cell := hcell
  frame _ _ hd := (hd rfl).elim

namespace Emu

variable {hc : HostCode H} {e : Emu H}

/-- The only RAM cells that differ are those of the given addresses. -/
def ChangesAt (e e' : Emu H) (as : List Addr) : Prop :=
  ∀ d off, e'.bus.ram d off ≠ e.bus.ram d off → ∃ a ∈ as, e.bus.accessDevice a = some (d, off)

theorem Shows.changesAt {e' : Emu H} {m : Image} (h : e'.Shows hc e.bus m) :
    e.ChangesAt e' (Image.writes m.log) := by
  intro d off hd
  obtain ⟨a, ha, he⟩ := h.frame d off hd
  exact ⟨a, List.mem_filterMap.mpr ⟨_, ha, rfl⟩, he⟩

end Emu

theorem Bus.Ram.holds {b : Bus} (hr : b.Ram) (hc : HostCode H) (a : Addr) : b.Holds hc a (b.peek a) := by
  obtain ⟨d, off, ha, hd, -⟩ := hr a
  simp only [Bus.Holds, Bus.peek, ha, if_pos hd, Option.elim]

theorem Bus.Ram.shows (hc : HostCode H) {e : Emu H} (hr : e.bus.Ram) (hoff : e.MmuOff) :
    e.Shows hc e.bus (e.image fun a => .ram (e.bus.peek a)) := by
  refine hoff.shows (fun a v hv => ?_) fun a _ => ?_
  · obtain rfl : e.bus.peek a = v := Option.some.inj hv
    exact hr.holds hc a
  · obtain ⟨d, off, ha, hd, hu⟩ := hr a
    exact ⟨d, off, ha, hd, fun a' _ hne => hu a' trivial hne⟩

theorem ramBus_accessDevice (mem : Addr → Byte) (a : Addr) :
    (ramBus mem).accessDevice a = some (if a.toNat < 0x8000 then (0, a) else (1, a - 0x8000)) := by
  have ha := a.isLt
  simp only [Bus.accessDevice, ramBus, List.foldl_cons, List.foldl_nil]
  by_cases h : a.toNat < 32768
  · have h' : ¬32768 ≤ a.toNat := by omega
    simp [h, h']
  · have h' : 32768 ≤ a.toNat := by omega
    simp [h, h']
    omega

theorem ramBus_ram (mem : Addr → Byte) : (ramBus mem).Ram := by
  intro a
  by_cases h : a.toNat < 0x8000
  · refine ⟨0, a, by rw [ramBus_accessDevice, if_pos h], rfl, fun a' _ hne h' => hne ?_⟩
    rw [ramBus_accessDevice] at h'
    by_cases h2 : a'.toNat < 0x8000
    · simpa [h2] using h'
    · simp [h2] at h'
  · refine ⟨1, a - 0x8000, by rw [ramBus_accessDevice, if_neg h], rfl, fun a' _ hne h' => hne ?_⟩
    rw [ramBus_accessDevice] at h'
    by_cases h2 : a'.toNat < 0x8000
    · simp [h2] at h'
    · simpa [h2] using h'

theorem ramBus_peek (mem : Addr → Byte) (a : Addr) : (ramBus mem).peek a = mem a := by
  rw [Bus.peek, ramBus_accessDevice]
  by_cases h : a.toNat < 0x8000
  · simp [h, ramBus]
  · simp only [if_neg h, Option.elim, ramBus]
    exact congrArg mem (by bv_omega)

theorem ramBus_holds (hc : HostCode H) (mem : Addr → Byte) (a : Addr) : (ramBus mem).Holds hc a (mem a) := by
  have hh := (ramBus_ram mem).holds hc a
  rwa [ramBus_peek] at hh

end Rk65c02
