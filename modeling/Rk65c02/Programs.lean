import Rk65c02.GuestCode
import Rk65c02.Leads
import Rk65c02.Loader
import Mathlib.Data.BitVec
import Mathlib.Tactic.Ring

/-! The example programs `mul_8bit_to_8bits.s` and `min3.s`: what they compute on the programmer's
model, and so what their hosts get from the emulator. -/

namespace Rk65c02

open Iteration

namespace Model

/-- `mul_8bit_to_8bits.s`, assembled at `0xC000`. -/
def mulCode : List Byte :=
  [0x20, 0x04, 0xC0, 0xDB, 0x68, 0x85, 0x12, 0x68, 0x85, 0x13, 0x68, 0x85, 0x10, 0x68, 0x85, 0x11,
    0xA9, 0x00, 0xF0, 0x05, 0x18, 0x65, 0x10, 0x06, 0x10, 0x46, 0x11, 0xB0, 0xF7, 0xD0, 0xF8, 0x48,
    0xA5, 0x13, 0x48, 0xA5, 0x12, 0x48, 0x60]

section MulLoop

variable {s₀ : Model} {sp p : Byte} {m₀ : Addr → Byte}

/-- The memory is `m₀` but for the two numbers. -/
def ButNumbers (m₀ m : Addr → Byte) : Prop := ∀ x, x ≠ zp 0x10 → x ≠ zp 0x11 → m x = m₀ x

theorem ButNumbers.update {m : Addr → Byte} (h : ButNumbers m₀ m) {z : Byte}
    (hz : z = 0x10 ∨ z = 0x11) (v : Byte) :
    ButNumbers m₀ (Function.update m (zp z) v) := by
  intro x h1 h2
  have hx : x ≠ zp z := by
    rintro rfl
    rcases hz with rfl | rfl
    · exact h1 rfl
    · exact h2 rfl
  rw [Function.update_of_ne hx]
  exact h x h1 h2

/-- At `enterl`: the sum so far and the product of what is left make `p`. -/
def AtEnter (s₀ : Model) (sp p : Byte) (m₀ : Addr → Byte) (s : Model) : Prop :=
  ∃ a m, Point s₀ 0xC000 25 a sp m s ∧ a + m (zp 0x10) * m (zp 0x11) = p ∧ ButNumbers m₀ m

theorem double_byte (n : Byte) : BitVec.ofNat 8 (2 * n.toNat) = n + n := by bv_omega

theorem odd_byte {n : Byte} (h : n.toNat % 2 = 1) :
    n = BitVec.ofNat 8 (n.toNat / 2) + BitVec.ofNat 8 (n.toNat / 2) + 1 := by bv_omega

theorem even_byte {n : Byte} (h : ¬n.toNat % 2 = 1) : n = BitVec.ofNat 8 (n.toNat / 2) + BitVec.ofNat 8
    (n.toNat / 2) := by
  bv_omega

/-- From `loop`, with the second number halved, back to `enterl`. -/
theorem Point.enter {s : Model} {a q : Byte} {m : Addr → Byte} (g : Guest 0xC000 mulCode s₀)
    (h : Point s₀ 0xC000 23 a sp (Function.update m (zp 0x11) q) s) (hm : ButNumbers m₀ m)
    (hp : a + (m (zp 0x10) + m (zp 0x10)) * q = p) :
    AtEnter s₀ sp p m₀ (s.step false) ∧ (s.step false).mem (zp 0x11) = q := by
  have hne : zp 0x10 ≠ zp 0x11 := by decide
  have h1 := h.asl g (z := 0x10) (by decide)
  rw [Function.update_of_ne hne, double_byte] at h1
  refine ⟨⟨a, _, h1, ?_, (hm.update (.inr rfl) _).update (.inl rfl) _⟩, ?_⟩
  · rw [Function.update_self, Function.update_of_ne hne.symm, Function.update_self, hp]
  · rw [h1.mem, Function.update_of_ne hne.symm, Function.update_self]

/-- Once round the loop of the multiplication. -/
theorem mul_round (g : Guest 0xC000 mulCode s₀) (k : Nat) :
    Reaches (step false) (fun s => AtEnter s₀ sp p m₀ s ∧ (s.mem (zp 0x11)).toNat = k) fun s =>
      (∃ m, Point s₀ 0xC000 31 p sp m s ∧ ButNumbers m₀ m) ∨ AtEnter s₀ sp p m₀ s ∧
      (s.mem (zp 0x11)).toNat < k := by
  rintro s ⟨⟨a, m, h, hp, hm⟩, hk⟩
  rw [h.mem] at hk
  obtain ⟨h1, hc, hz⟩ := h.lsr g (z := 0x11) (by decide)
  obtain ⟨h2, hf⟩ := h1.bcs g (d := 0xF7) (t := 20) (by decide) (by decide)
  have hhalf : (BitVec.ofNat 8 ((m (zp 0x11)).toNat / 2)).toNat = (m (zp 0x11)).toNat / 2 := by bv_omega
  by_cases hodd : (m (zp 0x11)).toNat % 2 = 1
  · rw [hc, decide_eq_true hodd, if_pos rfl] at h2
    obtain ⟨h3, hc3⟩ := h2.clc g (by decide)
    have h4 := h3.adc g (z := 0x10) (by decide) hc3
    rw [Function.update_of_ne (by decide)] at h4
    have hn := odd_byte hodd
    obtain ⟨h5, hv⟩ := h4.enter g hm (p := p) (by
      generalize BitVec.ofNat 8 ((m (zp 0x11)).toNat / 2) = q at hn ⊢
      rw [← hp, hn]
      ring)
    refine ⟨5, .inr ⟨h5, ?_⟩⟩
    change ((s.step false |>.step false |>.step false |>.step false |>.step false).mem (zp 0x11)).toNat < k
    rw [hv, hhalf]
    omega
  · rw [hc, decide_eq_false hodd, if_neg Bool.false_ne_true] at h2
    have h3 := h2.bne g (d := 0xF8) (t := 23) (by decide) (by decide)
    have hn := even_byte hodd
    rw [hf, hz] at h3
    by_cases hzero : BitVec.ofNat 8 ((m (zp 0x11)).toNat / 2) = 0
    · rw [decide_eq_true hzero] at h3
      have ha : a = p := by
        rw [← hp, hn, hzero]
        ring
      exact ⟨3, .inl ⟨_, ha ▸ h3, hm.update (.inr rfl) _⟩⟩
    · rw [decide_eq_false hzero] at h3
      obtain ⟨h4, hv⟩ := Point.enter g h3 hm (p := p) (by
        generalize BitVec.ofNat 8 ((m (zp 0x11)).toNat / 2) = q at hn ⊢
        rw [← hp, hn]
        ring)
      refine ⟨4, .inr ⟨h4, ?_⟩⟩
      change ((s.step false |>.step false |>.step false |>.step false).mem (zp 0x11)).toNat < k
      have hpos : (m (zp 0x11)).toNat / 2 ≠ 0 := fun h0 => hzero (by rw [h0]; rfl)
      rw [hv, hhalf]
      omega

theorem mul_loop (g : Guest 0xC000 mulCode s₀) :
    Reaches (step false) (AtEnter s₀ sp p m₀) fun s => ∃ m, Point s₀ 0xC000 31 p sp m s ∧ ButNumbers m₀ m :=
  .loop (fun s => (s.mem (zp 0x11)).toNat) (mul_round g)

end MulLoop

section Mul

variable {s₀ s : Model} {a sp : Byte} {m₀ : Addr → Byte}

/-- From the call to the first test. -/
theorem mul_begins (g : Guest 0xC000 mulCode s₀) (h : Point s₀ 0xC000 0 a sp m₀ s) :
    ∃ m, AtEnter s₀ (sp + 1 + 1) (m₀ (cell (sp + 1)) * m₀ (cell (sp + 1 + 1))) m ((step false)^[11] s) ∧
      m (zp 0x12) = 0x02 ∧ m (zp 0x13) = 0xC0 ∧
      ∀ x, x ≠ zp 0x10 → x ≠ zp 0x11 → x ≠ zp 0x12 → x ≠ zp 0x13 → x ≠ cell sp → x ≠ cell (sp - 1) →
      m x = m₀ x := by
  obtain ⟨m, h1, hlo, hhi, hm⟩ := h.called g (by decide)
  have hb : sp - 1 - 1 + 1 = sp - 1 ∧ sp - 1 + 1 = sp := ⟨BitVec.sub_add_cancel _ _, BitVec.sub_add_cancel _ _⟩
  have hs : sp + 1 ≠ sp ∧ sp + 1 ≠ sp - 1 ∧ sp + 1 + 1 ≠ sp ∧ sp + 1 + 1 ≠ sp - 1 := by
    refine ⟨?_, ?_, ?_, ?_⟩ <;> bv_omega
  have h2 := h1.pullTo g (z := 0x12) (by decide) (by decide) (by rw [hb.1, hlo])
  rw [hb.1] at h2
  have h3 := h2.pullTo g (z := 0x13) (by decide) (by decide) (by rw [hb.2, update_zp_cell, hhi])
  rw [hb.2] at h3
  have h4 := h3.pullTo g (z := 0x10) (w := m₀ (cell (sp + 1))) (by decide) (by decide) (by
    rw [update_zp_cell, update_zp_cell, hm _ (mt cell_inj.1 hs.1) (mt cell_inj.1 hs.2.1)])
  have h5 := h4.pullTo g (z := 0x11) (w := m₀ (cell (sp + 1 + 1))) (by decide) (by decide) (by
    rw [update_zp_cell, update_zp_cell, update_zp_cell, hm _ (mt cell_inj.1 hs.2.2.1) (mt cell_inj.1 hs.2.2.2)])
  obtain ⟨h6, hzero⟩ := h5.ldaImm g (v := 0) (by decide)
  have h7 := h6.beq g (d := 0x05) (t := 25) (by decide) (by decide)
  rw [hzero] at h7
  refine ⟨_, ⟨0, _, h7, ?_, fun _ _ _ => rfl⟩, ?_, ?_, fun x h10 h11 h12 h13 hsp hsp' => ?_⟩
  · simp
  · simp
  · simp
  · rw [Function.update_of_ne h11, Function.update_of_ne h10, Function.update_of_ne h13,
      Function.update_of_ne h12,
      hm x hsp hsp']

/-- The multiplication ends with the product of the two numbers in their place on the stack. -/
theorem mul_returns (g : Guest 0xC000 mulCode s₀) (h : Point s₀ 0xC000 0 a sp s₀.mem s) :
    ∃ n, Returns s₀ (sp + 1) (s₀.mem (cell (sp + 1)) * s₀.mem (cell (sp + 1 + 1)))
      (fun x => x ∉ [0x10, 0x11, 0x12, 0x13].map zp ∧ x ∉ [sp - 1, sp, sp + 1, sp + 1 + 1].map cell)
      ((step false)^[n] s) := by
  obtain ⟨m, h1, hlo, hhi, hm⟩ := mul_begins g h
  obtain ⟨k, m', h2, hm'⟩ := mul_loop g _ h1
  have hkeep (z : Byte) (h10 : z ≠ 0x10) (h11 : z ≠ 0x11) : m' (zp z) = m (zp z) :=
    hm' _ (mt zp_inj.1 h10) (mt zp_inj.1 h11)
  obtain ⟨n, h3⟩ := Point.leave g h2 ((hkeep 0x12 (by decide) (by decide)).trans hlo)
    ((hkeep 0x13 (by decide) (by decide)).trans hhi) (by decide)
  refine ⟨n + (k + 11), ?_⟩
  rw [Function.iterate_add_apply _ n, Function.iterate_add_apply _ k]
  refine ⟨h3.halt, h3.stack, h3.top, h3.x, h3.y, fun x hx => h3.mem x ?_⟩
  simp only [List.map_cons, List.map_nil, List.mem_cons, List.not_mem_nil, or_false, not_or] at hx ⊢
  obtain ⟨⟨h10, h11, h12, h13⟩, hs1, hs, hs2, hs3⟩ := hx
  exact ⟨⟨hs, hs2, hs3⟩, (hm' x h10 h11).trans (hm x h10 h11 h12 h13 hs hs1)⟩

end Mul

/-- `min3.s`, assembled at `0xC000`. -/
def min3Code : List Byte :=
  [0x20, 0x04, 0xC0, 0xDB, 0x68, 0x85, 0x10, 0x68, 0x85, 0x11, 0x68, 0x85, 0x12, 0x68,
    0xC5, 0x12, 0x10, 0x02, 0x85, 0x12,
    0x68, 0xC5, 0x12, 0x10, 0x02, 0x85, 0x12, 0xA5, 0x12, 0x48, 0xA5, 0x11, 0x48, 0xA5, 0x10, 0x48, 0x60]

section Min3

variable {s₀ s : Model} {a b c sp : Byte} {m₀ m : Addr → Byte} {k : Nat}

/-- The lesser of two numbers, as the sign of their difference tells it. -/
def lesser (a b : Byte) : Byte := if 128 ≤ (a - b).toNat then a else b

/-- Keep the lesser of the next number and the one in `res`. -/
theorem Point.keepLesser (g : Guest 0xC000 min3Code s₀) (h : Point s₀ 0xC000 k a sp m s)
    (hpla : Has min3Code k ⟨0x68, 0, 0⟩) (hcmp : Has min3Code (k + 1) ⟨0xC5, 0x12, 0⟩)
    (hbpl : Has min3Code (k + 3) ⟨0x10, 0x02, 0⟩) (hsta : Has min3Code (k + 5) ⟨0x85, 0x12, 0⟩)
    (hb : m (cell (sp + 1)) = b) (hc : m (zp 0x12) = c) :
    ∃ n, Point s₀ 0xC000 (k + 7) b (sp + 1) (Function.update m (zp 0x12) (lesser b c))
      ((Model.step false)^[n] s) := by
  have h1 := h.pla g hpla
  rw [hb] at h1
  obtain ⟨h2, hn⟩ := h1.cmp g hcmp
  have h3 := h2.bpl g (t := k + 7) hbpl (by push_cast; omega)
  rw [hn, hc] at h3
  unfold lesser
  by_cases hl : 128 ≤ (b - c).toNat
  · rw [decide_eq_true hl] at h3
    rw [if_pos hl]
    exact ⟨4, h3.sta g hsta⟩
  · rw [decide_eq_false hl] at h3
    rw [if_neg hl, ← hc, Function.update_eq_self]
    exact ⟨3, h3⟩

theorem min3_returns (g : Guest 0xC000 min3Code s₀) (h : Point s₀ 0xC000 0 a sp s₀.mem s) :
    ∃ n, Returns s₀ (sp + 1 + 1)
      (lesser (s₀.mem (cell (sp + 1 + 1 + 1))) (lesser (s₀.mem (cell (sp + 1 + 1))) (s₀.mem (cell (sp + 1)))))
      (fun x => x ∉ [0x10, 0x11, 0x12].map zp ∧ x ∉ [sp - 1, sp, sp + 1, sp + 1 + 1, sp + 1 + 1 + 1].map cell)
      ((step false)^[n] s) := by
  obtain ⟨m, h1, hlo, hhi, hm⟩ := h.called g (by decide)
  have hb : sp - 1 - 1 + 1 = sp - 1 ∧ sp - 1 + 1 = sp := ⟨BitVec.sub_add_cancel _ _, BitVec.sub_add_cancel _ _⟩
  have hargs (n : Byte) (hn : n = sp + 1 ∨ n = sp + 1 + 1 ∨ n = sp + 1 + 1 + 1) : m (cell n) = s₀.mem (cell n) :=
    hm _ (fun he => by have := cell_inj.1 he; bv_omega) fun he => by have := cell_inj.1 he; bv_omega
  have h2 := h1.pullTo g (z := 0x10) (by decide) (by decide) (by rw [hb.1, hlo])
  rw [hb.1] at h2
  have h3 := h2.pullTo g (z := 0x11) (by decide) (by decide) (by rw [hb.2, update_zp_cell, hhi])
  rw [hb.2] at h3
  have h4 := h3.pullTo g (z := 0x12) (by decide) (by decide) (by
    rw [update_zp_cell, update_zp_cell, hargs _ (.inl rfl)])
  obtain ⟨n5, h5⟩ := h4.keepLesser g (by decide) (by decide) (by decide) (by decide) (by
    rw [update_zp_cell, update_zp_cell, update_zp_cell, hargs _ (.inr (.inl rfl))]) (Function.update_self _ _ _)
  obtain ⟨n6, h6⟩ := h5.keepLesser g (by decide) (by decide) (by decide) (by decide) (by
    rw [update_zp_cell, update_zp_cell, update_zp_cell, update_zp_cell, hargs _ (.inr (.inr rfl))])
    (Function.update_self _ _ _)
  have h7 := h6.lda g (z := 0x12) (by decide)
  rw [Function.update_self] at h7
  obtain ⟨n8, h8⟩ := h7.leave g (l := 0x10) (u := 0x11) (by simp) (by simp) (by decide)
  refine ⟨n8 + (1 + (n6 + (n5 + 7))), ?_⟩
  rw [Function.iterate_add_apply _ n8, Function.iterate_add_apply _ 1, Function.iterate_add_apply _ n6,
    Function.iterate_add_apply _ n5]
  refine ⟨h8.halt, h8.stack, h8.top, h8.x, h8.y, fun x hx => h8.mem x ?_⟩
  simp only [List.map_cons, List.map_nil, List.mem_cons, List.not_mem_nil, or_false, not_or] at hx ⊢
  obtain ⟨⟨h10, h11, h12⟩, hs1, hs, hs2, hs3⟩ := hx
  refine ⟨⟨hs2, hs3⟩, ?_⟩
  rw [Function.update_of_ne h12, Function.update_of_ne h12, Function.update_of_ne h12, Function.update_of_ne h11,
    Function.update_of_ne h10, hm x hs hs1]

end Min3

end Model

variable {H : Type} {hc : HostCode H} {e : Emu H}

theorem Emu.Rests.plain (h : e.Rests) : e.Plain :=
  ⟨h.bare.bus, h.bare.off.1, h.bare.debugging, h.still.irq, h.still.tick, h.still.idleWait,
    h.still.onStop, h.outside,
    fun j hj => ⟨(h.bare.cache j hj).1, h.settled j hj⟩⟩

/-- Code that the host calls between two runs does to the guest what it does to the model. -/
theorem Emu.Rests.does {α : Type} {x : Cpu α} {a : α} {s s' : Model} {q : α × Regs → Prop}
    (hs : hc.Undisturbed) (h : e.Rests)
    (ht : s.Tells e.guest) (hx : (x.run e.regs).Sat (fun o _ => o ≠ .irq) q) (hd : Model.Does false x s a s') :
    ∃ e', e.runCpu hc x = .ok a e' ∧ e'.Rests ∧ s'.Tells e'.guest := by
  have hr : e.regs = s.regs := ht.regs
  obtain ⟨m', hm, hm'⟩ := ht.holds.run hd
  rw [← hr] at hm
  obtain ⟨e', he, ht'⟩ := h.tracks.run (fun _ => hs) hx hm
  have hm : e'.machine = m' := (ht'.still trivial).2
  rw [← hm] at hm'
  refine ⟨{ e' with regs := s'.regs }, ?_, (ht'.withRegs s'.regs e'.clock).rests h.outside, rfl, hm'⟩
  rw [Emu.runCpu, he]
  rfl

/-- `stack_push`, called by the host. -/
def Emu.hostPush (hc : HostCode H) (e : Emu H) (v : Byte) : Option (Emu H) :=
  match e.runCpu hc (stackPush v) with
  | .ok _ e => some e
  | _ => none

/-- The example hosts up to `rk65c02_start`: load the program, and push its arguments. -/
def exampleHost (hc : HostCode H) (host : H) (regs : Regs) (rom : List Byte) (jit : Bool) (args : List Byte) :
    Option (Emu H) := do
  let e ← loadRom hc host regs (some rom) 0xC000 none
  let e := if jit then e.jitEnable true else e
  let e := { e with regs := { e.regs with SP := 0xFF, PC := 0xC000 } }
  args.foldlM (Emu.hostPush hc) e

theorem Emu.Rests.hostPush {s : Model} (hs : hc.Undisturbed) (h : e.Rests) (ht : s.Tells e.guest) (v : Byte) :
    ∃ e', e.hostPush hc v = some e' ∧ e'.Rests ∧ (s.push v).Tells e'.guest := by
  obtain ⟨e', he, hr, ht'⟩ := h.does (x := stackPush v) (q := fun _ => True) hs ht ⟨nofun, fun _ => trivial⟩
    (Model.does_push s v)
  exact ⟨e', by rw [Emu.hostPush, he], hr, ht'⟩

theorem Emu.Rests.hostPushes {s : Model} (hs : hc.Undisturbed) (h : e.Rests) (ht : s.Tells e.guest)
    (args : List Byte) :
    ∃ e', args.foldlM (Emu.hostPush hc) e = some e' ∧ e'.Rests ∧ (args.foldl Model.push s).Tells e'.guest := by
  induction args generalizing e s with
  | nil => exact ⟨e, rfl, h, ht⟩
  | cons v args ih =>
    obtain ⟨e₁, he₁, hr₁, ht₁⟩ := h.hostPush hs ht v
    obtain ⟨e', he, hr, ht'⟩ := ih hr₁ ht₁
    exact ⟨e', by rw [List.foldlM_cons, he₁]; exact he, hr, ht'⟩

/-- The registers at the start of an example. -/
def exampleFlags : Flags := ⟨false, false, false, true, false, false⟩

/-- A program that has been loaded, and its arguments. -/
def exampleModel (regs : Regs) (rom args : List Byte) : Model :=
  args.foldl Model.push ⟨regs.A, regs.X, regs.Y, 0xFF, 0xC000, exampleFlags, busInitWithDefaultDevs.mapped,
    fun a => busInitWithDefaultDevs.overlaid 0xC000 busSize rom (a.setWidth 32), some .host⟩

theorem rests_init {b : Bus} (hb : b.RamOnce) (host : H) (regs : Regs) (jit : Bool) :
    (if jit then (init b host regs).jitEnable true else init b host regs).Rests := by
  cases jit with
  | false => exact ⟨⟨hb, ⟨rfl, rfl⟩, rfl, rfl, nofun⟩, ⟨rfl, rfl, rfl, rfl, rfl⟩, rfl⟩
  | true =>
    refine ⟨⟨hb, ⟨rfl, rfl⟩, rfl, rfl, fun j hj => ?_⟩, ⟨rfl, rfl, rfl, rfl, rfl⟩, rfl⟩
    cases hj
    exact ⟨Jit.matches_create _, .inl ⟨rfl, rfl⟩⟩

theorem exampleHost_rests (hs : hc.Undisturbed) (host : H) (regs : Regs) (rom : List Byte)
    (hrom : rom.length ≤ 0x4000) (jit : Bool) (args : List Byte) :
    ∃ e, exampleHost hc host regs rom jit args = some e ∧ e.Rests ∧
    (exampleModel regs rom args).Tells e.guest := by
  have hlen : (0xC000 : Addr).toNat + rom.length ≤ busSize := by
    have h0 : (0xC000 : Addr).toNat = 0xC000 := by decide
    rw [h0, busSize]
    omega
  have hinit : (init busInitWithDefaultDevs host regs).bus = busInitWithDefaultDevs := by
    unfold init
    rfl
  obtain ⟨ram, hl, hm⟩ : ∃ ram, (init busInitWithDefaultDevs host regs).busLoadFile hc 0xC000
    (some rom) = _ ∧ _ :=
    busLoadFile_memory (hinit ▸ separate_defaultDevs) (hinit ▸ backed_defaultDevs) rom 0xC000
  rw [decide_eq_true hlen] at hl
  have hload : loadRom hc host regs (some rom) 0xC000 none =
      some (init { busInitWithDefaultDevs with ram := ram } host regs) := by
    simp only [loadRom, Option.getD_none, hl]
    rfl
  have hbus : { busInitWithDefaultDevs with ram := ram }.RamOnce := ⟨fun _ _ => rfl, show [0].Nodup by decide⟩
  have hmem : { busInitWithDefaultDevs with ram := ram }.peek =
      fun a => busInitWithDefaultDevs.overlaid 0xC000 busSize rom (a.setWidth 32) := by
    funext a
    rw [← Bus.physByte_byte]
    exact hm _
  have hr := rests_init hbus host regs jit
  have hg : (if jit then (init { busInitWithDefaultDevs with ram := ram } host regs).jitEnable true
      else init { busInitWithDefaultDevs with ram := ram } host regs).guest =
      (⟨regs.A, regs.X, regs.Y, regs.PC, regs.SP, 0x24⟩,
        ⟨{ busInitWithDefaultDevs with ram := ram }, .stopped, .host⟩) := by
    cases jit <;> rfl
  have hmain : exampleHost hc host regs rom jit args = args.foldlM (Emu.hostPush hc)
      (let e := if jit then (init { busInitWithDefaultDevs with ram := ram } host regs).jitEnable true
        else init { busInitWithDefaultDevs with ram := ram } host regs
      { e with regs := { e.regs with SP := 0xFF, PC := 0xC000 } }) := by
    rw [exampleHost, hload]
    rfl
  rw [hmain]
  generalize (if jit then (init { busInitWithDefaultDevs with ram := ram } host regs).jitEnable true
      else init { busInitWithDefaultDevs with ram := ram } host regs) = e at hr hg
  have hregs : e.regs = ⟨regs.A, regs.X, regs.Y, regs.PC, regs.SP, 0x24⟩ := congrArg Prod.fst hg
  have hmach : e.machine = ⟨{ busInitWithDefaultDevs with ram := ram }, .stopped, .host⟩ := congrArg Prod.snd hg
  refine ((hr.tracks.withRegs _ e.clock).rests hr.outside).hostPushes hs ⟨?_, ?_⟩ args
  · rw [hregs]
    rfl
  · change e.machine.Holds _
    rw [hmach]
    exact ⟨hbus, rfl, hmem, rfl, rfl⟩

theorem Model.Tells.model_eq {s : Model} (ht : s.Tells e.guest) : e.model = { s with halt := none } := by
  have hr : e.regs = s.regs := ht.regs
  have hram : e.bus.mapped = s.ram := ht.holds.ram
  have hmem : e.bus.peek = s.mem := ht.holds.mem
  rw [Emu.model, hr, hram, hmem]
  simp only [Model.regs, (Model.byte_flags s.flags false).1]

/-- A program that ends on the model ends on the emulator, and `stack_pop` gives the host the byte it returns. -/
theorem example_ends {s s₀ : Model} {sp v : Byte} {kept : Addr → Prop} {k : Nat}
    (hs : hc.Undisturbed) (h : e.Rests)
    (ht : s.Tells e.guest) (hret : Model.Returns s₀ sp v kept ((Model.step false)^[k] { s with halt := none })) :
    ∃ n, (e.start.steps hc n).phase = .done ∧ (e.start.steps hc n).emu.stopreason = .stp ∧
      ∃ e', (e.start.steps hc n).emu.runCpu hc stackPop = .ok v e' := by
  have hp : (e.regs.P ||| pUndefined) &&& ~~~pBreak = e.regs.P := by
    have hP : e.regs.P = s.flags.byte false := congrArg Regs.P ht.regs
    rw [hP, Model.byte_ofByte, (Model.byte_flags s.flags false).1]
  have hmodel := h.plain.model_tells hp
  rw [ht.model_eq] at hmodel
  obtain ⟨hst, -, -⟩ := h.plain.start
  obtain ⟨n, hn, hrn, htn⟩ := Run.ends_told hs hst hmodel (k := k) (by rw [hret.halt]; simp)
  generalize (Model.step false)^[k] { s with halt := none } = t at hret htn
  refine ⟨n, hn, ?_, ?_⟩
  · have hq := htn.holds.halt
    rw [Model.guestMemory, hret.halt] at hq
    exact hq.2
  · have hasks (r : Regs) : (stackPop.run r).Sat (fun o _ => o ≠ .irq) fun _ => True :=
      ⟨(by intro h; cases h), fun _ => trivial⟩
    obtain ⟨e', he', -, -⟩ := hrn.does hs htn (hasks _) (Model.does_pop t)
    have htop : t.pull.top = v := by
      rw [← hret.top, ← hret.stack]
      rfl
    exact ⟨e', htop ▸ he'⟩

theorem mapped_defaultDevs (a : Addr) : busInitWithDefaultDevs.mapped a = decide (a.toNat < 0xDFFF) := by
  have hb : busInitWithDefaultDevs.dm = [(0, 0)] := by decide
  have hd (d : DevId) : busInitWithDefaultDevs.dev d = ⟨0xDFFF, true⟩ := rfl
  rw [Bus.mapped, Bus.accessDevice_eq, hb]
  by_cases h : a.toNat < 0xDFFF <;> simp [hd, h]

/-- The bytes are on top of the stack, the first one topmost. -/
def Model.Stacked (s : Model) (l : List Byte) : Prop :=
  l.length < 256 ∧ ∀ i < l.length, s.mem (cell (s.SP + 1 + BitVec.ofNat 8 i)) = l.getD i 0

theorem Model.Stacked.push {s : Model} {l : List Byte} (h : s.Stacked l)
    (hram : s.ram (cell s.SP) = true) (v : Byte) (hl : l.length + 1 < 256) : (s.push v).Stacked (v :: l) := by
  have hp : s.push v = { s with mem := Function.update s.mem (cell s.SP) v, SP := s.SP - 1 } := by
    change { s.store (cell s.SP) v with SP := s.SP - 1 } = _
    rw [Model.store, if_pos hram]
  rw [hp]
  refine ⟨hl, fun i hi => ?_⟩
  cases i with
  | zero =>
    have hsp : s.SP - 1 + 1 + BitVec.ofNat 8 0 = s.SP := by bv_omega
    exact (congrArg (Function.update s.mem (cell s.SP) v ∘ cell) hsp).trans (Function.update_self _ _ _)
  | succ i =>
    have hi' : i < l.length := Nat.lt_of_succ_lt_succ hi
    have hsp : s.SP - 1 + 1 + BitVec.ofNat 8 (i + 1) = s.SP + 1 + BitVec.ofNat 8 i := by bv_omega
    have hne : s.SP + 1 + BitVec.ofNat 8 i ≠ s.SP := by bv_omega
    refine (congrArg (Function.update s.mem (cell s.SP) v ∘ cell) hsp).trans ?_
    exact (Function.update_of_ne (mt cell_inj.1 hne) _ _).trans (h.2 i hi')

theorem Model.pushes_eq (s : Model) (args : List Byte) : ∃ m sp, args.foldl Model.push
    s = { s with mem := m, SP := sp } ∧
    ∀ x : Addr, 0x200 ≤ x.toNat → m x = s.mem x := by
  induction args generalizing s with
  | nil => exact ⟨s.mem, s.SP, rfl, fun _ _ => rfl⟩
  | cons v args ih =>
    obtain ⟨m, sp, he, hm⟩ := ih (s.push v)
    refine ⟨m, sp, he, fun x hx => (hm x hx).trans ?_⟩
    change (if s.ram (cell s.SP) then Function.update s.mem (cell s.SP) v else s.mem) x = s.mem x
    have hlow := cell_low s.SP
    split
    · exact Function.update_of_ne (fun h => by rw [h] at hx; omega) _ _
    · rfl

/-- A loaded program with its arguments on the stack is at its first instruction. -/
theorem exampleModel_point (regs : Regs) (rom : List Byte) (hrom : rom.length < 0x2000) (args : List Byte) :
    let s : Model := { exampleModel regs rom args with halt := none }
    Model.Guest 0xC000 rom s ∧ Model.Point s 0xC000 0 s.A s.SP s.mem s := by
  obtain ⟨m, sp, he, hm⟩ : ∃ m sp, exampleModel regs rom args =
    { exampleModel regs rom [] with mem := m, SP := sp } ∧ _ :=
    Model.pushes_eq _ args
  have h0 : (0xC000 : Addr).toNat = 0xC000 := by decide
  rw [he]
  refine ⟨⟨fun k hk => ?_, by decide, by omega, fun x hx => ?_⟩, rfl, rfl, rfl, rfl, fun _ _ =>
    rfl, rfl, rfl, rfl, rfl, rfl⟩
  · have hx : (0xC000 + BitVec.ofNat 16 k : Addr).toNat = 0xC000 + k := by bv_omega
    refine (hm _ (by omega)).trans ?_
    have hl :
        (busInitWithDefaultDevs.locate ((0xC000 + BitVec.ofNat 16 k : Addr).setWidth 32)).isSome = true := by
      rw [Bus.locate_byte]
      refine (mapped_defaultDevs _).trans (decide_eq_true ?_)
      omega
    have hw : ((0xC000 + BitVec.ofNat 16 k : Addr).setWidth 32).toNat = 0xC000 + k := by
      rw [BitVec.toNat_setWidth, hx]
      omega
    change busInitWithDefaultDevs.overlaid 0xC000 busSize rom _ = _
    rw [Bus.overlaid, hw, if_pos ⟨hl, by omega, by rw [busSize]; omega⟩, Nat.add_sub_cancel_left,
      List.getD_eq_getElem?_getD, List.getElem?_eq_getElem hk]
    rfl
  · refine (mapped_defaultDevs x).trans (decide_eq_true ?_)
    omega

theorem mapped_cell (sp : Byte) : busInitWithDefaultDevs.mapped (Model.cell sp) = true := by
  have h := Model.cell_low sp
  rw [mapped_defaultDevs]
  exact decide_eq_true (by omega)

theorem exampleModel_stacked (regs : Regs) (rom args : List Byte) (h : args.length < 256) :
    (exampleModel regs rom args).Stacked args.reverse := by
  induction args using List.reverseRecOn with
  | nil => exact ⟨h, nofun⟩
  | append_singleton args v ih =>
    obtain ⟨m, sp, he, -⟩ : ∃ m sp, exampleModel regs rom args =
      { exampleModel regs rom [] with mem := m, SP := sp } ∧ _ :=
      Model.pushes_eq _ args
    have hram : (exampleModel regs rom args).ram (Model.cell (exampleModel regs rom args).SP) = true := by
      rw [he]
      exact mapped_cell _
    rw [List.length_append, List.length_singleton] at h
    have hpush : exampleModel regs rom (args ++ [v]) = (exampleModel regs rom args).push v := by
      rw [exampleModel, List.foldl_append]
      rfl
    rw [List.reverse_append, hpush]
    exact (ih (by omega)).push hram v (by rw [List.length_reverse]; exact h)

/-- The host of `mul_8bit_to_8bits` gets the product of any two numbers, with the JIT or without. -/
theorem mul_example (hc : HostCode H) (hs : hc.Undisturbed) (host : H) (regs : Regs)
    (jit : Bool) (num1 num2 : Byte) :
    ∃ e, exampleHost hc host regs Model.mulCode jit [num1, num2] = some e ∧
      ∃ n, (e.start.steps hc n).phase = .done ∧ (e.start.steps hc n).emu.stopreason = .stp ∧
        ∃ e', (e.start.steps hc n).emu.runCpu hc stackPop = .ok (num1 * num2) e' := by
  obtain ⟨e, he, hr, ht⟩ := exampleHost_rests hs host regs Model.mulCode (by decide) jit [num1, num2]
  obtain ⟨g, h⟩ := exampleModel_point regs Model.mulCode (by decide) [num1, num2]
  obtain ⟨-, hargs⟩ := exampleModel_stacked regs Model.mulCode [num1, num2] (by simp)
  generalize exampleModel regs Model.mulCode [num1, num2] = s at *
  obtain ⟨k, hret⟩ := Model.mul_returns g h
  have h2 := hargs 0 (by simp)
  have h1 := hargs 1 (by simp)
  rw [BitVec.add_zero] at h2
  have hp : s.mem (Model.cell (s.SP + 1)) * s.mem (Model.cell (s.SP + 1 + 1)) = num1 * num2 :=
    (congrArg₂ (· * ·) h2 h1).trans (BitVec.mul_comm _ _)
  rw [← hp]
  exact ⟨e, he, example_ends hs hr ht hret⟩

/-- The numbers of the example itself. -/
theorem mul_example_four_eight : ∃ e,
    exampleHost (quietHost identity) () ⟨0, 0, 0, 0, 0, 0⟩ Model.mulCode false [4, 8] = some e ∧
    ∃ n, (e.start.steps (quietHost identity) n).phase = .done ∧
      ∃ e', (e.start.steps (quietHost identity) n).emu.runCpu (quietHost identity) stackPop = .ok 32 e' := by
  obtain ⟨e, he, n, hn, -, hpop⟩ := mul_example (quietHost identity) (fun _ => rfl) ()
    ⟨0, 0, 0, 0, 0, 0⟩ false 4 8
  exact ⟨e, he, n, hn, hpop⟩

theorem lesser_eq_min {a b : Byte} (ha : a.toNat < 128) (hb : b.toNat < 128) :
    (Model.lesser a b).toNat = min a.toNat b.toNat := by
  unfold Model.lesser
  split <;> bv_omega

/-- The host of `min3` gets what choosing twice by the sign of the difference gives, with the JIT or
without. That is the least of the three numbers if they are below 128. -/
theorem min3_example (hc : HostCode H) (hs : hc.Undisturbed) (host : H) (regs : Regs)
    (jit : Bool) (a b c : Byte) :
    (∃ e, exampleHost hc host regs Model.min3Code jit [a, b, c] = some e ∧
      ∃ n, (e.start.steps hc n).phase = .done ∧ (e.start.steps hc n).emu.stopreason = .stp ∧
        ∃ e', (e.start.steps hc n).emu.runCpu hc stackPop = .ok (Model.lesser a (Model.lesser b c)) e') ∧
      (a.toNat < 128 → b.toNat < 128 → c.toNat < 128 →
        (Model.lesser a (Model.lesser b c)).toNat = min a.toNat (min b.toNat c.toNat)) := by
  refine ⟨?_, fun ha hb hc => ?_⟩
  · obtain ⟨e, he, hr, ht⟩ := exampleHost_rests hs host regs Model.min3Code (by decide) jit [a, b, c]
    obtain ⟨g, h⟩ := exampleModel_point regs Model.min3Code (by decide) [a, b, c]
    obtain ⟨-, hargs⟩ := exampleModel_stacked regs Model.min3Code [a, b, c] (by simp)
    generalize exampleModel regs Model.min3Code [a, b, c] = s at *
    obtain ⟨k, hret⟩ := Model.min3_returns g h
    have hc := hargs 0 (by simp)
    have hb : s.mem (Model.cell (s.SP + 1 + 1)) = b := hargs 1 (by simp)
    have ha := hargs 2 (by simp)
    rw [BitVec.add_zero] at hc
    rw [show s.SP + 1 + BitVec.ofNat 8 2 = s.SP + 1 + 1 + 1 by bv_omega] at ha
    have hv := congrArg₂ Model.lesser ha (congrArg₂ Model.lesser hb hc)
    obtain ⟨n, hn, hq, hpop⟩ := example_ends hs hr ht hret
    exact ⟨e, he, n, hn, hq, hv ▸ hpop⟩
  · have hbc := lesser_eq_min hb hc
    rw [lesser_eq_min ha (by omega), hbc]

/-- The numbers of the example itself. -/
theorem min3_example_four : ∃ e,
    exampleHost (quietHost identity) () ⟨0, 0, 0, 0, 0, 0⟩ Model.min3Code true [5, 9, 4] = some e ∧
    ∃ n, (e.start.steps (quietHost identity) n).phase = .done ∧
      ∃ e', (e.start.steps (quietHost identity) n).emu.runCpu (quietHost identity) stackPop = .ok 4 e' := by
  obtain ⟨⟨e, he, n, hn, -, hpop⟩, -⟩ := min3_example (quietHost identity) (fun _ => rfl)
    () ⟨0, 0, 0, 0, 0, 0⟩ true 5 9 4
  exact ⟨e, he, n, hn, hpop⟩

/-- The sign of a difference does not order all bytes. -/
example : Model.lesser 5 (Model.lesser 200 4) = 200 := by decide

end Rk65c02
