import Rk65c02.NativeInsn
import Rk65c02.Returns
import Rk65c02.RingStack

/-! Well-nested use of the stack. A tree of brackets, each a push with its pull, is run on any
emulator whose page one is RAM; what is pulled is what was pushed, however `SP` wraps. -/

namespace Rk65c02

open Resumption Cpu RingStack

variable {H : Type}

/-- The registers that are pushed and pulled alone. -/
inductive StackReg
  | A | X | Y

namespace StackReg

def value : StackReg → Regs → Byte
  | A => Regs.A
  | X => Regs.X
  | Y => Regs.Y

def push : StackReg → Cpu Unit
  | A => emulPha
  | X => emulPhx
  | Y => emulPhy

def pull : StackReg → Cpu Unit
  | A => emulPla
  | X => emulPlx
  | Y => emulPly

end StackReg

/-- A well-nested sequence: code that leaves the stack alone, and brackets around such sequences. -/
inductive Nest
  | done
  | other (f : Regs → Regs) (next : Nest)
  | byte (v : Byte) (body next : Nest)
  | saved (pushed pulled : StackReg) (body next : Nest)
  | call (i : Instruction) (body next : Nest)
  | interrupt (body next : Nest)

/-- A bracket as it closes: what was to come back, and what came. -/
inductive Closing
  | byte (pushed pulled : Byte)
  | pc (next reached : Addr)
  deriving DecidableEq

def Closing.Agrees : Closing → Prop
  | byte v x => x = v
  | pc n x => x = n

namespace Nest

/-- The most bytes that are on the stack at once. -/
def depth : Nest → Nat
  | done => 0
  | other _ next => next.depth
  | byte _ body next => max (1 + body.depth) next.depth
  | saved _ _ body next => max (1 + body.depth) next.depth
  | call _ body next => max (2 + body.depth) next.depth
  | interrupt body next => max (3 + body.depth) next.depth

/-- How many values come back. -/
def closings : Nest → Nat
  | done => 0
  | other _ next => next.closings
  | byte _ body next => body.closings + 1 + next.closings
  | saved _ _ body next => body.closings + 1 + next.closings
  | call _ body next => body.closings + 1 + next.closings
  | interrupt body next => body.closings + 2 + next.closings

/-- Subroutines that call one another, each as its only instruction before the `RTS`. -/
def calls (is : List Instruction) : Nest := is.foldr (fun i n => call i n done) done

/-- The code of a sequence, with a record of the brackets as they close. -/
def code : Nest → Cpu (List Closing)
  | done => return []
  | other f next => do
    modify fun r => { f r with SP := r.SP }
    next.code
  | byte v body next => do
    stackPush v
    let inner ← body.code
    let x ← stackPop
    let rest ← next.code
    return inner ++ .byte v x :: rest
  | saved s t body next => do
    let r ← get
    s.push
    let inner ← body.code
    t.pull
    let r' ← get
    let rest ← next.code
    return inner ++ .byte (s.value r) (t.value r') :: rest
  | call i body next => do
    let r ← get
    emulJsr i
    let inner ← body.code
    withNext (instructionDecode 0x60) emulRts
    let r' ← get
    let rest ← next.code
    return inner ++ .pc (r.PC + 3) r'.PC :: rest
  | interrupt body next => do
    let r ← get
    irq
    let inner ← body.code
    emulRti
    let r' ← get
    let rest ← next.code
    return inner ++ .pc r.PC r'.PC :: .byte ((r.P ||| pUndefined) &&& ~~~pBreak) r'.P :: rest

theorem calls_depth (is : List Instruction) : (calls is).depth = 2 * is.length := by
  induction is with
  | nil => rfl
  | cons i is ih =>
    change max (2 + (calls is).depth) 0 = _
    rw [ih, List.length_cons]
    omega

theorem calls_closings (is : List Instruction) : (calls is).closings = is.length := by
  induction is with
  | nil => rfl
  | cons i is ih =>
    change (calls is).closings + 1 + 0 = _
    rw [ih, List.length_cons]

end Nest

/-- All that was to come back did. -/
def AllReturned (n : Nest) (l : List Closing) : Prop := l.length = n.closings ∧ ∀ c ∈ l, c.Agrees

theorem allReturned_done : AllReturned .done [] := ⟨rfl, fun _ h => nomatch h⟩

theorem AllReturned.join {body next : Nest} {l l' : List Closing} (h : AllReturned body l) (cs : List Closing)
    (hcs : ∀ c ∈ cs, c.Agrees) (h' : AllReturned next l') :
    (l ++ (cs ++ l')).length = body.closings + cs.length + next.closings ∧ ∀ c ∈ l ++ (cs ++ l'), c.Agrees := by
  refine ⟨?_, fun c hc => ?_⟩
  · rw [List.length_append, List.length_append, h.1, h'.1, Nat.add_assoc]
  · rcases List.mem_append.mp hc with hl | hl
    · exact h.2 c hl
    · exact (List.mem_append.mp hl).elim (hcs c) (h'.2 c)

namespace Emu

/-- Page one is RAM: in every state of `I` its bytes are the cells `cell`, a store changes one
of them and a read none, and `I` is kept. The interrupt vector can be read. -/
structure StackRam (hc : HostCode H) (cell : Byte → DevId × Addr) (I : Emu H → Prop) : Prop where
  inj : Function.Injective cell
  write : ∀ e r s v, I e → ∃ e', handle hc (.write (stackAddr s) v) r e = .ok () e' ∧ I e' ∧
    e'.bus = e.bus.ramWrite1 (cell s).1 (cell s).2 v
  read : ∀ e r s, I e → ∃ e', handle hc (.read (stackAddr s)) r e = .ok
    (e.bus.ram (cell s).1 (cell s).2) e' ∧ I e' ∧
    e'.bus = e.bus
  vector : ∀ e r a, a = vectorIrq ∨ a = vectorIrq + 1 → I e →
    ∃ v e', handle hc (.read a) r e = .ok v e' ∧ I e' ∧ e'.bus = e.bus
  ack : ∀ e r, I e → ∃ e', handle hc .ackIrq r e = .ok () e' ∧ I e' ∧ e'.bus = e.bus

/-- The bytes of page one, by stack pointer. -/
def stackBytes (cell : Byte → DevId × Addr) (e : Emu H) (s : Byte) : Byte := e.bus.ram (cell s).1 (cell s).2

/-- The only memory that differs is in page one. -/
def OnlyStack (cell : Byte → DevId × Addr) (e e' : Emu H) : Prop :=
  ∀ d off, e'.bus.ram d off ≠ e.bus.ram d off → ∃ s, cell s = (d, off)

theorem OnlyStack.refl (cell : Byte → DevId × Addr) (e : Emu H) : e.OnlyStack cell e := fun _ _ h => absurd rfl h

theorem OnlyStack.trans {cell : Byte → DevId × Addr} {e e' e'' : Emu H} (h : e.OnlyStack cell e')
    (h' : e'.OnlyStack cell e'') :
    e.OnlyStack cell e'' := by
  intro d off hne
  by_cases he : e''.bus.ram d off = e'.bus.ram d off
  · exact h d off (he ▸ hne)
  · exact h' d off he

theorem onlyStack_of_bus {cell : Byte → DevId × Addr} {e e' : Emu H} (h : e'.bus = e.bus) :
    e.OnlyStack cell e' := by
  intro d off hne
  rw [h] at hne
  exact absurd rfl hne

/-- The stack holds the bytes, top first, and `SP` is where so many of them put it. -/
structure Stacked (cell : Byte → DevId × Addr) (I : Emu H → Prop) (base : Byte) (st : List Byte)
    (r : Regs) (e : Emu H) :
    Prop where
  inv : I e
  live : Live (e.stackBytes cell) r.SP st
  sp : r.SP = base - BitVec.ofNat 8 st.length

/-- The code ends, whatever else the emulator holds, and takes the stack to one that satisfies `q`. -/
def StackRuns (hc : HostCode H) (cell : Byte → DevId × Addr) (I : Emu H → Prop) (base : Byte)
    {α : Type} (x : Cpu α) (st : List Byte) (r : Regs) (q : α → List Byte → Regs → Prop) : Prop :=
  ∀ e, Stacked cell I base st r e → ∃ a st' r' e', (x.run r).run (handle hc) e = .ok (a, r') e' ∧
    Stacked cell I base st' r' e' ∧ e.OnlyStack cell e' ∧ q a st' r'

namespace StackRuns

variable {hc : HostCode H} {cell : Byte → DevId × Addr} {I : Emu H → Prop} {base : Byte} {α β : Type} {x : Cpu α}
  {st : List Byte} {r : Regs} {q : α → List Byte → Regs → Prop}

theorem bind {f : α → Cpu β} {q' : β → List Byte → Regs → Prop} (hx : StackRuns hc cell I base x st r q)
    (hf : ∀ a st' r', q a st' r' → StackRuns hc cell I base (f a) st' r' q') :
    StackRuns hc cell I base (x >>= f) st r q' := by
  intro e he
  obtain ⟨a, st₁, r₁, e₁, hr, he₁, ho, hq⟩ := hx e he
  obtain ⟨b, st₂, r₂, e₂, hr₂, he₂, ho₂, hq₂⟩ := hf a st₁ r₁ hq e₁ he₁
  refine ⟨b, st₂, r₂, e₂, ?_, he₂, ho.trans ho₂, hq₂⟩
  rw [StateT.run_bind, Tree.run_bind, hr]
  exact hr₂

theorem mono {q' : α → List Byte → Regs → Prop} (hx : StackRuns hc cell I base x st r q)
    (hq : ∀ a st' r', q a st' r' → q' a st' r') : StackRuns hc cell I base x st r q' := by
  intro e he
  obtain ⟨a, st', r', e', hr, he', ho, h⟩ := hx e he
  exact ⟨a, st', r', e', hr, he', ho, hq _ _ _ h⟩

theorem pure (a : α) (h : q a st r) : StackRuns hc cell I base (pure a) st r q :=
  fun e he => ⟨a, st, r, e, rfl, he, .refl _ _, h⟩

theorem get_bind {f : Regs → Cpu β} {q' : β → List Byte → Regs → Prop}
    (h : StackRuns hc cell I base (f r) st r q') :
    StackRuns hc cell I base (get >>= f) st r q' := h

theorem modify_bind {f : Regs → Regs} {k : PUnit → Cpu β} {q' : β → List Byte → Regs → Prop}
    (hf : (f r).SP = r.SP)
    (h : StackRuns hc cell I base (k ⟨⟩) st (f r) q') : StackRuns hc cell I base (modify f >>= k) st r q' :=
  fun e he => h e ⟨he.inv, hf ▸ he.live, hf ▸ he.sp⟩

theorem modify {f : Regs → Regs} {q' : PUnit → List Byte → Regs → Prop} (hf : (f r).SP = r.SP)
    (h : q' ⟨⟩ st (f r)) :
    StackRuns hc cell I base (modify f) st r q' :=
  fun e he => ⟨⟨⟩, st, f r, e, rfl, ⟨he.inv, hf ▸ he.live, hf ▸ he.sp⟩, .refl _ _, h⟩

/-- A request that changes no memory. -/
theorem request {o : Op} (ho : ∀ e, I e → ∃ v e', handle hc o r e = .ok v e' ∧ I e' ∧ e'.bus = e.bus) :
    StackRuns hc cell I base (Cpu.request o) st r fun _ st' r' => st' = st ∧ r' = r := by
  intro e he
  obtain ⟨v, e', hr, hi, hb⟩ := ho e he.inv
  have hs : e'.stackBytes cell = e.stackBytes cell := by
    unfold stackBytes
    rw [hb]
  refine ⟨v, st, r, e', ?_, ⟨hi, hs ▸ he.live, he.sp⟩, onlyStack_of_bus hb, rfl, rfl⟩
  rw [run_request, Tree.run_op, hr]
  rfl

variable (hR : StackRam hc cell I)

include hR

theorem push (v : Byte) (hl : st.length < 256) :
    StackRuns hc cell I base (stackPush v) st r fun _ st' r' => st' = v :: st ∧
    r' = { r with SP := r.SP - 1 } := by
  intro e he
  obtain ⟨e', hr, hi, hb⟩ := hR.write e r r.SP v he.inv
  have hs : e'.stackBytes cell = Function.update (e.stackBytes cell) r.SP v := by
    funext s
    unfold stackBytes
    rw [hb]
    by_cases h : s = r.SP
    · rw [h, Function.update_self]
      simp [Bus.ramWrite1]
    · rw [Function.update_of_ne h]
      exact Shows.ramWrite1_other v fun hh => h (hR.inj hh)
  refine ⟨(), v :: st, { r with SP := r.SP - 1 }, e', ?_, ⟨hi, ?_, ?_⟩, ?_, rfl, rfl⟩
  · change (handle hc (.write (stackAddr r.SP) v) r e).bind (fun _ s => .ok ((), { r with SP := r.SP - 1 }) s) = _
    rw [hr]
    rfl
  · rw [hs]
    exact he.live.push hl v
  · rw [he.sp, List.length_cons, BitVec.ofNat_add, BitVec.sub_sub]
    rfl
  · intro d off hne
    refine ⟨r.SP, ?_⟩
    by_contra hc
    rw [hb] at hne
    exact hne (Shows.ramWrite1_other v fun hh => hc hh.symm)

theorem pop (v : Byte) :
    StackRuns hc cell I base stackPop (v :: st) r fun a st' r' => a = v ∧ st' = st ∧
    r' = { r with SP := r.SP + 1 } := by
  intro e he
  obtain ⟨e', hr, hi, hb⟩ := hR.read e { r with SP := r.SP + 1 } (r.SP + 1) he.inv
  have hs : e'.stackBytes cell = e.stackBytes cell := by
    unfold stackBytes
    rw [hb]
  refine ⟨v, st, { r with SP := r.SP + 1 }, e', ?_, ⟨hi, hs ▸ he.live.pop, ?_⟩, onlyStack_of_bus hb,
    rfl, rfl, rfl⟩
  · change (handle hc (.read (stackAddr (r.SP + 1))) { r with SP := r.SP + 1 } e).bind
      (fun (v : Byte) s => .ok (v, { r with SP := r.SP + 1 }) s) = _
    rw [hr, show e.bus.ram (cell (r.SP + 1)).1 (cell (r.SP + 1)).2 = v from he.live.top]
    rfl
  · rw [he.sp, List.length_cons, BitVec.ofNat_add]
    generalize BitVec.ofNat 8 st.length = n
    bv_omega

theorem push_bind {v : Byte} {k : Unit → Cpu β} {q' : β → List Byte → Regs → Prop} (hl : st.length < 256)
    (h : StackRuns hc cell I base (k ()) (v :: st) { r with SP := r.SP - 1 } q') :
    StackRuns hc cell I base (stackPush v >>= k) st r q' :=
  bind (push hR v hl) fun _ _ _ ⟨hs, hr⟩ => hs ▸ hr ▸ h

theorem pop_bind {v : Byte} {k : Byte → Cpu β} {q' : β → List Byte → Regs → Prop}
    (h : StackRuns hc cell I base (k v) st { r with SP := r.SP + 1 } q') :
    StackRuns hc cell I base (stackPop >>= k) (v :: st) r q' :=
  bind (pop hR v) fun _ _ _ ⟨ha, hs, hr⟩ => ha ▸ hs ▸ hr ▸ h

theorem vector_bind {a : Addr} {k : Byte → Cpu β} {q' : β → List Byte → Regs → Prop}
    (ha : a = vectorIrq ∨ a = vectorIrq + 1) (h : ∀ v, StackRuns hc cell I base (k v) st r q') :
    StackRuns hc cell I base (Rk65c02.memRead1 a >>= k) st r q' :=
  bind (request fun e he => hR.vector e r a ha he) fun v _ _ ⟨hs, hr⟩ => hs ▸ hr ▸ h v

theorem pushReg (s : StackReg) (hl : st.length < 256) :
    StackRuns hc cell I base s.push st r fun _ st' _ => st' = s.value r :: st := by
  cases s <;> exact get_bind ((push hR _ hl).mono fun _ _ _ h => h.1)

theorem pullReg (s : StackReg) (v : Byte) :
    StackRuns hc cell I base s.pull (v :: st) r fun _ st' r' => st' = st ∧ s.value r' = v := by
  cases s <;> exact pop_bind hR (modify_bind rfl (modify_bind rfl (modify rfl ⟨rfl, rfl⟩)))

theorem jsr (i : Instruction) (hl : st.length + 2 ≤ 256) :
    StackRuns hc cell I base (emulJsr i) st r fun _ st' _ =>
      st' = ((r.PC + 2) &&& 0xFF).setWidth 8 :: ((r.PC + 2) >>> 8).setWidth 8 :: st := by
  refine get_bind (push_bind hR (by omega) (push_bind hR ?_ (modify rfl rfl)))
  rw [List.length_cons]
  omega

theorem rts (lo hi : Byte) :
    StackRuns hc cell I base (withNext (instructionDecode 0x60) emulRts) (lo :: hi :: st) r fun _ st' r' =>
      st' = st ∧ r'.PC = word lo hi + 1 := by
  refine bind (q := fun _ st' r' => st' = st ∧ r'.PC = word lo hi)
    (pop_bind hR (pop_bind hR (modify rfl ⟨rfl, rfl⟩))) fun _ _ r' ⟨hs, hp⟩ => modify rfl ⟨hs, ?_⟩
  exact congrArg (· + 1) hp

theorem irqEntry (hl : st.length + 3 ≤ 256) :
    StackRuns hc cell I base Rk65c02.irq st r fun _ st' _ =>
      st' = r.P :: (r.PC &&& 0xFF).setWidth 8 :: (r.PC >>> 8).setWidth 8 :: st := by
  refine get_bind (push_bind hR (by omega) (get_bind (push_bind hR ?_ (get_bind (push_bind hR ?_ ?_)))))
  · rw [List.length_cons]
    omega
  · rw [List.length_cons, List.length_cons]
    omega
  · refine modify_bind rfl (modify_bind rfl (modify_bind rfl (vector_bind hR (.inl rfl) fun lo => ?_)))
    refine modify_bind rfl (vector_bind hR (.inr rfl) fun hi => modify_bind rfl ?_)
    exact (request fun e he => ⟨(), hR.ack e _ he⟩).mono fun _ _ _ h => h.1

theorem rti (p lo hi : Byte) :
    StackRuns hc cell I base emulRti (p :: lo :: hi :: st) r fun _ st' r' =>
      st' = st ∧ r'.PC = word lo hi ∧ r'.P = (p ||| pUndefined) &&& ~~~pBreak :=
  pop_bind hR (modify_bind rfl (pop_bind hR (pop_bind hR (modify rfl ⟨rfl, rfl, rfl⟩))))

end StackRuns

/-- The induction over the brackets: a sequence that fits on top of what is there leaves it there. -/
theorem StackRam.nest {hc : HostCode H} {cell : Byte → DevId × Addr} {I : Emu H → Prop}
    (hR : StackRam hc cell I) {base : Byte}
    (n : Nest) (st : List Byte) (r : Regs) (hd : st.length + n.depth ≤ 256) :
    StackRuns hc cell I base n.code st r fun l st' _ => st' = st ∧ AllReturned n l := by
  induction n generalizing st r with
  | done => exact .pure _ ⟨rfl, allReturned_done⟩
  | other f next ih => exact .modify_bind rfl (ih st _ hd)
  | byte v body next ihb ihn =>
    rw [Nest.depth] at hd
    refine .push_bind hR (by omega) (.bind (ihb _ _ (by rw [List.length_cons]; omega)) fun l _ _ ⟨hs, hl⟩ => ?_)
    subst hs
    refine .pop_bind hR (.bind (ihn _ _ (by omega)) fun l' _ _ ⟨hs, hl'⟩ => .pure _ ⟨hs, ?_⟩)
    exact hl.join [_] (List.forall_mem_singleton.mpr rfl) hl'
  | saved s t body next ihb ihn =>
    rw [Nest.depth] at hd
    refine .get_bind (.bind (.pushReg hR s (by omega)) fun _ _ _ hs => ?_)
    subst hs
    refine .bind (ihb _ _ (by rw [List.length_cons]; omega)) fun l _ _ ⟨hs, hl⟩ => ?_
    subst hs
    refine .bind (.pullReg hR t _) fun _ _ r' ⟨hs, hv⟩ => .get_bind ?_
    subst hs
    refine .bind (ihn _ _ (by omega)) fun l' _ _ ⟨hs, hl'⟩ => .pure _ ⟨hs, ?_⟩
    exact hl.join [_] (List.forall_mem_singleton.mpr hv) hl'
  | call i body next ihb ihn =>
    rw [Nest.depth] at hd
    refine .get_bind (.bind (.jsr hR i (by omega)) fun _ _ _ hs => ?_)
    subst hs
    refine .bind (ihb _ _ (by rw [List.length_cons, List.length_cons]; omega)) fun l _ _ ⟨hs, hl⟩ => ?_
    subst hs
    refine .bind (.rts hR _ _) fun _ _ r' ⟨hs, hp⟩ => .get_bind ?_
    subst hs
    refine .bind (ihn _ _ (by omega)) fun l' _ _ ⟨hs, hl'⟩ => .pure _ ⟨hs, ?_⟩
    rw [word_halves, BitVec.add_assoc] at hp
    exact hl.join [_] (List.forall_mem_singleton.mpr hp) hl'
  | interrupt body next ihb ihn =>
    rw [Nest.depth] at hd
    refine .get_bind (.bind (.irqEntry hR (by omega)) fun _ _ _ hs => ?_)
    subst hs
    refine .bind (ihb _ _ (by rw [List.length_cons, List.length_cons, List.length_cons]; omega))
      fun l _ _ ⟨hs, hl⟩ => ?_
    subst hs
    refine .bind (.rti hR _ _ _) fun _ _ r' ⟨hs, hp, hf⟩ => .get_bind ?_
    subst hs
    refine .bind (ihn _ _ (by omega)) fun l' _ _ ⟨hs, hl'⟩ => .pure _ ⟨hs, ?_⟩
    rw [word_halves] at hp
    exact hl.join [_, _] (List.forall_mem_cons.mpr ⟨hp, List.forall_mem_singleton.mpr hf⟩) hl'

theorem StackRam.calls {hc : HostCode H} {cell : Byte → DevId × Addr} {I : Emu H → Prop}
    (hR : StackRam hc cell I) {base : Byte}
    (i : Instruction) (is : List Instruction) (r : Regs) (h : (i :: is).length ≤ 128) :
    StackRuns hc cell I base (Nest.calls (i :: is)).code [] r fun l st' r' =>
      st' = [] ∧ AllReturned (Nest.calls (i :: is)) l ∧ r'.PC = r.PC + 3 := by
  have hd : (Nest.calls is).depth ≤ 254 := by
    rw [List.length_cons] at h
    rw [Nest.calls_depth]
    omega
  refine .get_bind (.bind (.jsr hR i (by decide)) fun _ _ _ hs => ?_)
  subst hs
  refine .bind (hR.nest (Nest.calls is) _ _ (by change 2 + _ ≤ _; omega)) fun l _ _ ⟨hs, hl⟩ => ?_
  subst hs
  refine .bind (.rts hR _ _) fun _ _ r' ⟨hs, hp⟩ => .get_bind (.pure _ ⟨hs, ?_, ?_⟩)
  · rw [word_halves, BitVec.add_assoc] at hp
    exact hl.join [_] (List.forall_mem_singleton.mpr hp) allReturned_done
  · rw [hp, word_halves, BitVec.add_assoc]
    rfl

/-- On a RAM page that nothing else writes, a well-nested sequence of at most 256 bytes returns
what was pushed from any `SP`, leaves `SP` where it was and changes only the page; up to 128
nested subroutines return to their callers. -/
theorem stack_discipline {hc : HostCode H} {cell : Byte → DevId × Addr} {I : Emu H → Prop}
    (hR : StackRam hc cell I) (r : Regs) (e : Emu H) (he : I e) :
    (∀ n : Nest, n.depth ≤ 256 → ∃ l r' e', (n.code.run r).run (handle hc) e = .ok (l, r') e' ∧ AllReturned n l ∧
      r'.SP = r.SP ∧ e.OnlyStack cell e') ∧
    ∀ is : List Instruction, is.length ≤ 128 → ∃ l r' e', ((Nest.calls is).code.run r).run
    (handle hc) e = .ok (l, r') e' ∧
      AllReturned (Nest.calls is) l ∧ l.length = is.length ∧ (is ≠ [] → r'.PC = r.PC + 3) ∧ r'.SP = r.SP ∧
      e.OnlyStack cell e' := by
  have hst : Stacked cell I r.SP [] r e := ⟨he, live_nil _ _, by simp⟩
  have hsp : ∀ {r' : Regs} {e' : Emu H}, Stacked cell I r.SP [] r' e' → r'.SP = r.SP :=
    fun h => by simpa using h.sp
  have hn : ∀ n : Nest, n.depth ≤ 256 → ∃ l r' e', (n.code.run r).run (handle hc) e = .ok (l, r') e' ∧
    AllReturned n l ∧
      r'.SP = r.SP ∧ e.OnlyStack cell e' := by
    intro n hd
    obtain ⟨l, st, r', e', hr, hs, ho, rfl, hl⟩ := hR.nest n [] r (by simpa using hd) e hst
    exact ⟨l, r', e', hr, hl, hsp hs, ho⟩
  refine ⟨hn, fun is hlen => ?_⟩
  cases is with
  | nil =>
    obtain ⟨l, r', e', hr, hl, hs, ho⟩ := hn (Nest.calls []) (Nat.zero_le _)
    exact ⟨l, r', e', hr, hl, hl.1, fun h => absurd rfl h, hs, ho⟩
  | cons i is =>
    obtain ⟨l, st, r', e', hr, hs, ho, rfl, hl, hp⟩ := hR.calls i is r hlen e hst
    exact ⟨l, r', e', hr, hl, hl.1.trans (Nest.calls_closings _), fun _ => hp, hsp hs, ho⟩

/-- The MMU is off, page one is RAM and the interrupt vector can be read. -/
structure DirectStack (hc : HostCode H) (cell : Byte → DevId × Addr) (e : Emu H) : Prop where
  off : e.MmuOff
  stack : ∀ s, e.bus.accessDevice (stackAddr s) = some (cell s) ∧ (e.bus.dev (cell s).1).ram = true
  apart : ∀ a, a = vectorIrq ∨ a = vectorIrq + 1 → (∃ v, e.bus.Holds hc a v) ∧
    ∀ s, e.bus.accessDevice a ≠ some (cell s)

theorem arrive_bus_mmu (hc : HostCode H) (e : Emu H) : (e.arrive hc).bus = e.bus ∧ (e.arrive hc).mmu = e.mmu := by
  obtain ⟨i, s, q, h⟩ := arrive_frame hc e
  rw [h]
  exact ⟨rfl, rfl⟩

namespace DirectStack

variable {hc : HostCode H} {cell : Byte → DevId × Addr} {e : Emu H}

theorem congr {e' : Emu H} (h : e.DirectStack hc cell) (hb : e'.bus = e.bus) (hm : e'.mmu = e.mmu) :
    e'.DirectStack hc cell := by
  obtain ⟨ho, hs, hv⟩ := h
  unfold MmuOff at ho
  rw [← hm] at ho
  rw [← hb] at hs hv
  exact ⟨ho, hs, hv⟩

theorem asked (h : e.DirectStack hc cell) (r : Regs) :
    (e.asked hc r).DirectStack hc cell ∧ (e.asked hc r).bus = e.bus := by
  obtain ⟨hb, hm⟩ := arrive_bus_mmu hc { e with regs := r }
  exact ⟨h.congr hb hm, hb⟩

theorem write (h : e.DirectStack hc cell) (s v : Byte) :
    ∃ e', e.memWrite1 hc (stackAddr s) v = .ok () e' ∧ e'.DirectStack hc cell ∧
      e'.bus = e.bus.ramWrite1 (cell s).1 (cell s).2 v := by
  have hw : e.busWrite1 hc (stackAddr s) v = { e with bus := e.bus.ramWrite1 (cell s).1 (cell s).2 v } := by
    unfold busWrite1 deviceWrite1
    rw [(h.stack s).1]
    simp only [if_pos (h.stack s).2]
  obtain ⟨j, u, hn⟩ :=
    Shows.noteGuestWrite hc (e := { e with bus := e.bus.ramWrite1 (cell s).1 (cell s).2 v }) h.off.1
    (stackAddr s)
  refine ⟨{ e with bus := e.bus.ramWrite1 (cell s).1 (cell s).2 v, jit := j, useJit := u },
    ?_, ⟨h.off, h.stack, ?_⟩, rfl⟩
  · simp only [memWrite1, memWriteDirect, h.off.2, hw, hn, Bool.false_eq_true, if_false, Out.ok_bind]
  · intro a ha
    obtain ⟨⟨w, hw⟩, hne⟩ := h.apart a ha
    exact ⟨⟨w, Shows.holds_other v hw (hne s)⟩, hne⟩

theorem read (h : e.DirectStack hc cell) {a : Addr} {v : Byte} (hv : e.bus.Holds hc a v) :
    e.memRead1 hc a .read = .ok v e := by
  unfold memRead1 memReadDirect
  rw [h.off.2, Shows.busRead1 hv]
  rfl

/-- With the MMU off the stack page is the RAM it is mapped to. -/
theorem stackRam (hinj : Function.Injective cell) : StackRam hc cell (DirectStack hc cell) where
  inj := hinj
  write e r s v h := by
    obtain ⟨ha, hb⟩ := h.asked r
    rw [← hb]
    exact ha.write s v
  read e r s h := by
    obtain ⟨ha, hb⟩ := h.asked r
    refine ⟨_, ha.read ?_, ha, hb⟩
    rw [← hb]
    simp only [Bus.Holds, (ha.stack s).1, if_pos (ha.stack s).2]
  vector e r a hv h := by
    obtain ⟨ha, hb⟩ := h.asked r
    obtain ⟨⟨v, hh⟩, -⟩ := ha.apart a hv
    exact ⟨v, _, ha.read hh, ha, hb⟩
  ack e r h := by
    obtain ⟨ha, hb⟩ := h.asked r
    exact ⟨_, rfl, ha.congr rfl rfl, hb⟩

end DirectStack

theorem ramBus_stack (mem : Addr → Byte) (s : Byte) : (ramBus mem).accessDevice
    (stackAddr s) = some (0, stackAddr s) := by
  have hs := s.isLt
  rw [ramBus_accessDevice, if_pos (by rw [toNat_stackAddr]; omega)]

theorem directStack_ramBus (hc : HostCode H) (mem : Addr → Byte) (host : H) (regs : Regs) :
    (init (ramBus mem) host regs).DirectStack hc fun s => (0, stackAddr s) where
  off := ⟨rfl, rfl⟩
  stack s := ⟨ramBus_stack mem s, rfl⟩
  apart a ha := by
    refine ⟨⟨_, (ramBus_ram mem).holds hc a⟩, fun s hs => ?_⟩
    change (ramBus mem).accessDevice a = _ at hs
    rw [ramBus_accessDevice] at hs
    rcases ha with rfl | rfl <;> exact absurd hs (by simp [vectorIrq])

/-- An interrupt at `SP = 1` whose handler calls a subroutine that saves `A`: the stack wraps. -/
theorem stack_discipline_wrapped :
    ∃ l r' e', ((Nest.interrupt (.call ⟨0x20, 0, 3⟩ (.saved .A .X .done .done) .done) .done).code.run
        ⟨7, 0, 0, 0x0200, 1, 0x20⟩).run (handle (quietHost identity))
        (init (ramBus fun _ => 0) () ⟨7, 0, 0, 0x0200, 1, 0x20⟩) =
          .ok (l, r') e' ∧
      AllReturned (.interrupt (.call ⟨0x20, 0, 3⟩ (.saved .A .X .done .done) .done) .done) l ∧ r'.SP = 1 ∧
      (init (ramBus fun _ => 0) () ⟨7, 0, 0, 0x0200, 1, 0x20⟩).OnlyStack (fun s => (0, stackAddr s)) e' :=
  (stack_discipline (DirectStack.stackRam fun _ _ h => stackAddr_inj (congrArg Prod.snd h)) _ _
    (directStack_ramBus (quietHost identity) _ _ _)).1 _ (by decide)

end Emu

end Rk65c02
