import Rk65c02.Image

/-! Interrupt entry and `RTI` are inverse: what an entry pushes, the return pulls. -/

namespace Rk65c02

open Resumption Cpu

variable {H : Type}

theorem toNat_stackAddr (s : Byte) : (stackAddr s).toNat = 256 + s.toNat := by
  have hs := s.isLt
  unfold stackAddr stackStart
  rw [BitVec.toNat_add, BitVec.toNat_setWidth]
  simp only [BitVec.reduceToNat]
  omega

theorem stackAddr_inj {s t : Byte} (h : stackAddr s = stackAddr t) : s = t := by
  have hh := congrArg BitVec.toNat h
  rw [toNat_stackAddr, toNat_stackAddr] at hh
  exact BitVec.eq_of_toNat_eq (by omega)

theorem vector_ne_stackAddr (s : Byte) : vectorIrq ≠ stackAddr s ∧ vectorIrq + 1 ≠ stackAddr s := by
  have hs := s.isLt
  constructor <;>
  · intro h
    have hh := congrArg BitVec.toNat h
    rw [toNat_stackAddr] at hh
    simp only [vectorIrq, BitVec.reduceToNat, BitVec.reduceAdd] at hh
    omega

namespace Image

variable {async : Nat → List AsyncCall} {m : Image} {r : Regs}

theorem arrive_steady (hq : ∀ t, ∀ c ∈ async t, c = .requestStop) (m : Image) :
    m.arrive async = { m with clock := m.clock + 1 } := by
  have hf : ∀ (cs : List AsyncCall) (m : Image), (∀ c ∈ cs, c = .requestStop) → cs.foldl asyncCall m = m := by
    intro cs
    induction cs with
    | nil => exact fun _ _ => rfl
    | cons c cs ih =>
      intro m hc
      obtain rfl := hc c (by simp)
      exact ih m fun c' h' => hc c' (by simp [h'])
  exact hf _ _ (hq _)

/-- The stack page is writable and the vector known. -/
structure Vectored (m : Image) (lo hi : Byte) : Prop where
  stack : ∀ s, (m.mem (stackAddr s)).isRam = true
  lo : (m.mem vectorIrq).byte = some lo
  hi : (m.mem (vectorIrq + 1)).byte = some hi

/-- Memory after three pushes. -/
def pushed (mem : Addr → Slot) (s a b c : Byte) : Addr → Slot :=
  Function.update (Function.update (Function.update mem (stackAddr s) (.ram a)) (stackAddr (s - 1)) (.ram b))
    (stackAddr (s - 1 - 1)) (.ram c)

/-- The registers with which a handler is entered. -/
def entered (r : Regs) (lo hi : Byte) : Regs :=
  { r with SP := r.SP - 1 - 1 - 1, P := ((r.P ||| pIrqDisable) &&& ~~~pDecimal) &&& ~~~pBreak, PC := word lo hi }

theorem update_isRam {mem : Addr → Slot} {a b : Addr} {v : Byte} (h : (mem b).isRam = true) :
    (Function.update mem a (.ram v) b).isRam = true := by
  by_cases hb : b = a
  · rw [hb, Function.update_self]
    rfl
  · rwa [Function.update_of_ne hb]

variable (async) in
theorem irq_run {lo hi : Byte} (h : m.Vectored lo hi) :
    ∃ m', (StateT.run Rk65c02.irq r).run (handle async) m = .ok ((), entered r lo hi) m' ∧ m'.irq = false ∧
      m'.mem = pushed m.mem r.SP ((r.PC >>> 8).setWidth 8) ((r.PC &&& 0xFF).setWidth 8) r.P ∧
      m'.log = m.log ++ [(.write, stackAddr r.SP), (.write, stackAddr (r.SP - 1)),
        (.write, stackAddr (r.SP - 1 - 1)),
        (.read, vectorIrq), (.read, vectorIrq + 1)] := by
  unfold Rk65c02.irq
  rw [get_bind_run, run_bind (stackPush_run (h.stack _)), get_bind_run,
    run_bind (stackPush_run (by simpa using update_isRam (h.stack _))), get_bind_run,
    run_bind (stackPush_run (by simpa using update_isRam (update_isRam (h.stack _)))),
    modifyP_bind_run, modifyP_bind_run, modifyP_bind_run,
    run_bind (read_run (v := lo) ?_), modify_bind_run, run_bind (read_run (v := hi) ?_), modify_bind_run]
  · exact ⟨_, rfl, rfl, by simp [pushed], by simp⟩
  · simpa only [saw_mem, arrive_mem, write_mem, Function.update_of_ne (vector_ne_stackAddr _).2] using h.hi
  · simpa only [saw_mem, arrive_mem, write_mem, Function.update_of_ne (vector_ne_stackAddr _).1] using h.lo

theorem pop_pushed {mem : Addr → Slot} {s a b c : Byte} :
    pushed mem s a b c (stackAddr (s - 1 - 1)) = .ram c ∧ pushed mem s a b c (stackAddr (s - 1)) = .ram b ∧
      pushed mem s a b c (stackAddr s) = .ram a := by
  have h1 : stackAddr (s - 1) ≠ stackAddr (s - 1 - 1) := fun h => by have := stackAddr_inj h; bv_omega
  have h2 : stackAddr s ≠ stackAddr (s - 1 - 1) := fun h => by have := stackAddr_inj h; bv_omega
  have h3 : stackAddr s ≠ stackAddr (s - 1) := fun h => by have := stackAddr_inj h; bv_omega
  refine ⟨Function.update_self .., ?_, ?_⟩
  · rw [pushed, Function.update_of_ne h1, Function.update_self]
  · rw [pushed, Function.update_of_ne h2, Function.update_of_ne h3, Function.update_self]

variable (async) in
/-- The return pulls what the entry pushed; `U` comes back set and `B` clear. -/
theorem rti_run {mem : Addr → Slot} {s a b c : Byte} (hm : m.mem = pushed mem s a b c)
    (hs : r.SP = s - 1 - 1 - 1) :
    ∃ m', (emulRti.run r).run (handle async) m =
        .ok ((), { r with SP := s, P := (c ||| pUndefined) &&& ~~~pBreak, PC := word b a }) m' ∧
      m'.mem = m.mem ∧ m'.log = m.log ++ [(.read, stackAddr (s - 1 - 1)), (.read, stackAddr (s - 1)),
        (.read, stackAddr s)] := by
  have e1 : r.SP + 1 = s - 1 - 1 := by rw [hs]; bv_omega
  have e2 : s - 1 - 1 + 1 = s - 1 := by bv_omega
  have e3 : s - 1 + 1 = s := by bv_omega
  unfold emulRti
  rw [run_bind (stackPop_run (v := c) (by rw [e1, hm, pop_pushed.1]; rfl)), modifyP_bind_run]
  dsimp only
  rw [e1, run_bind (stackPop_run (v := b) (by rw [e2, saw_mem, arrive_mem, hm, pop_pushed.2.1]; rfl))]
  dsimp only
  rw [e2, run_bind (stackPop_run (v := a) (by
    rw [e3, saw_mem, arrive_mem, saw_mem, arrive_mem, hm, pop_pushed.2.2]
    rfl))]
  dsimp only
  rw [e3]
  exact ⟨_, rfl, by simp, by simp⟩

theorem answer_ends (m : Image) (o : Op) :
    (m.answer o).Ends fun m' => m'.bps = m.bps ∧ (m.irq = false → m'.irq = false) := by
  cases o <;> simp only [answer, load] <;> (try split) <;>
    first | exact ⟨rfl, fun h => h⟩ | exact ⟨rfl, fun _ => rfl⟩ | trivial

/-- Nothing sets a breakpoint while code runs. -/
theorem run_bps {α : Type} {t : CpuTree α} {a : α} {m' : Image} (h : t.run (handle async) m = .ok a m') :
    m'.bps = m.bps :=
  (t.run_ends (I := fun s => s.bps = m.bps)
    (fun o _ s hs => ((s.arrive async).answer_ends o).mono fun _ hh => hh.1.trans (arrive_bps.trans hs)) rfl).ok h

/-- Without asynchronous calls to it a low line stays low. -/
theorem run_low (hq : ∀ t, ∀ c ∈ async t, c = .requestStop) {α : Type} {t : CpuTree α} {a : α} {m' : Image}
    (h : t.run (handle async) m = .ok a m') (hl : m.irq = false) : m'.irq = false :=
  (t.run_ends (I := fun s => s.irq = false)
    (fun o _ s hs => ((s.arrive async).answer_ends o).mono fun _ hh => hh.2 (by rw [arrive_steady hq]; exact hs))
      hl).ok h

/-- The three bytes an entry pushes. -/
def frame (s : Byte) : List Addr := [stackAddr s, stackAddr (s - 1), stackAddr (s - 1 - 1)]

theorem mem_pushed {mem : Addr → Slot} {s a b c : Byte} {x : Addr} (hx : x ∉ frame s) :
    pushed mem s a b c x = mem x := by
  simp only [frame, List.mem_cons, List.not_mem_nil, or_false, not_or] at hx
  rw [pushed, Function.update_of_ne hx.2.2, Function.update_of_ne hx.2.1, Function.update_of_ne hx.1]

variable (async) in
theorem execRti_run (tpc : Addr) {mem : Addr → Slot} {s a b c : Byte} (hm : m.mem = pushed mem s a b c)
    (hs : r.SP = s - 1 - 1 - 1) :
    ∃ m', ((execInsn tpc ⟨0x40, 0, 0⟩).run r).run (handle async) m =
        .ok ((), { r with SP := s, P := (c ||| pUndefined) &&& ~~~pBreak, PC := word b a }) m' ∧
      writes m'.log = writes m.log := by
  obtain ⟨m₁, hr, -, hl⟩ := rti_run async hm hs
  obtain ⟨pc, m', he, -, hl', hpc⟩ := execInsn_run tpc (i := ⟨0x40, 0, 0⟩) hr
  obtain rfl := hpc (by decide)
  refine ⟨m', he, ?_⟩
  rw [hl', hl]
  simp [writes]

theorem irq_writes {s : Byte} {l : List (Access × Addr)} :
    writes (l ++ [(.write, stackAddr s), (.write, stackAddr (s - 1)), (.write, stackAddr (s - 1 - 1)),
      (.read, vectorIrq), (.read, vectorIrq + 1)]) = writes l ++ frame s := by
  simp [writes, frame]

theorem fetches_implied {byte : Addr → Byte} {pc : Addr} (h : (instructionDecode (byte pc)).mode.operands = 0)
    (l : List (Access × Addr)) : writes (l ++ fetches byte pc) = writes l := by
  simp [writes, fetches, h]

theorem known_implied {pc : Addr} {op : Byte} (h : (instructionDecode op).mode.operands = 0)
    (hm : (m.mem pc).byte = some op) :
    ∀ k ≤ (instructionDecode ((fun _ => op) pc)).mode.operands,
      (m.mem (pc + BitVec.ofNat 16 k)).byte = some ((fun _ : Addr => op) (pc + BitVec.ofNat 16 k)) := by
  intro k hk
  obtain rfl : k = 0 := by simpa [h] using hk
  simpa using hm

theorem insnAt_implied {pc : Addr} {op : Byte} (h : (instructionDecode op).mode.operands = 0) :
    insnAt (fun _ => op) pc = ⟨op, 0, 0⟩ := by
  simp [insnAt, h]

theorem exec_interrupt (hq : ∀ t, ∀ c ∈ async t, c = .requestStop) {lo hi : Byte} (hv : m.Vectored lo hi)
    (hline : m.irq = true) (hI : r.flag pIrqDisable = false) (hop : (m.mem (word lo hi)).byte = some 0x40)
    (hout : word lo hi ∉ frame r.SP) (hbp : word lo hi ∉ m.bps) :
    ∃ m', (exec.run r).run (handle async) m =
        .ok ((), { r with
          P := (r.P ||| pUndefined) &&& ~~~pBreak
          PC := word ((r.PC &&& 0xFF).setWidth 8) ((r.PC >>> 8).setWidth 8) }) m' ∧
      m'.irq = false ∧ writes m'.log = writes m.log ++ frame r.SP := by
  have hup : ((m.arrive async).irq && !r.flag pIrqDisable) = true := by simp [arrive_steady hq, hline, hI]
  have hv' : (m.arrive async).Vectored lo hi :=
    ⟨by simpa using hv.stack, by simpa using hv.lo, by simpa using hv.hi⟩
  obtain ⟨m₁, hr, hlow, hm, hl⟩ := irq_run async (r := r) hv'
  have he : (hardwareEntry.run r).run (handle async) m = .ok ((), entered r lo hi) m₁ := by
    rw [hardwareEntry_run, if_pos hup]
    exact hr
  have hop₁ : (m₁.mem (word lo hi)).byte = some 0x40 := by
    rw [hm, mem_pushed hout, arrive_mem]
    exact hop
  obtain ⟨m₂, hf, hm₂, hl₂⟩ := fetchHere_run async (m := m₁) (r := entered r lo hi) (fun _ => 0x40)
    (by rw [run_bps hr, arrive_bps]; exact hbp) (known_implied (by decide) hop₁)
  rw [insnAt_implied (by decide)] at hf
  obtain ⟨m₃, hx, hl₃⟩ := execRti_run async r.PC (r := entered r lo hi) (hm₂.trans hm) rfl
  refine ⟨m₃, ?_, run_low hq hx (run_low hq hf hlow), ?_⟩
  · rw [exec_eq, get_bind_run]
    unfold execFetch
    rw [bind_assoc, run_bind he, run_bind hf]
    exact hx
  · rw [hl₃, hl₂, fetches_implied (by decide), hl, arrive_log, irq_writes]

theorem exec_brk {lo hi : Byte} (hv : m.Vectored lo hi)
    (hlow : ((m.arrive async).irq && !r.flag pIrqDisable) = false)
    (hop : (m.mem r.PC).byte = some 0) (hbp : r.PC ∉ m.bps) :
    ∃ m', (exec.run r).run (handle async) m =
        .ok ((), entered { r with PC := r.PC + 2, P := r.P ||| pBreak } lo hi) m' ∧
      m'.mem = pushed m.mem r.SP (((r.PC + 2) >>> 8).setWidth 8) (((r.PC + 2) &&& 0xFF).setWidth 8)
        (r.P ||| pBreak) ∧
      writes m'.log = writes m.log ++ frame r.SP := by
  obtain ⟨m₁, hx, hm, hl⟩ := exec_run (fun _ => 0) hlow hbp (known_implied (by decide) hop)
  rw [insnAt_implied (by decide)] at hx
  have hv₁ : m₁.Vectored lo hi := ⟨by rw [hm]; exact hv.stack, by rw [hm]; exact hv.lo, by rw [hm]; exact hv.hi⟩
  obtain ⟨m₂, hr, -, hm₂, hl₂⟩ := irq_run async (r := { r with PC := r.PC + 2, P := r.P ||| pBreak }) hv₁
  have hb : (emulBrk.run r).run (handle async) m₁ =
      .ok ((), entered { r with PC := r.PC + 2, P := r.P ||| pBreak } lo hi) m₂ := by
    unfold emulBrk
    rw [modify_bind_run, modifyP_bind_run]
    exact hr
  obtain ⟨pc, m₃, he, hm₃, hl₃, hpc⟩ := execInsn_run r.PC (i := ⟨0, 0, 0⟩) hb
  obtain rfl := hpc (by decide)
  refine ⟨m₃, hx.trans he, ?_, ?_⟩
  · rw [hm₃, hm₂, hm]
  · rw [hl₃, hl₂, irq_writes, hl, fetches_implied (by decide)]

theorem exec_rti {mem : Addr → Slot} {s a b c : Byte} (hm : m.mem = pushed mem s a b c)
    (hs : r.SP = s - 1 - 1 - 1)
    (hlow : ((m.arrive async).irq && !r.flag pIrqDisable) = false) (hop : (m.mem r.PC).byte = some 0x40)
    (hbp : r.PC ∉ m.bps) :
    ∃ m', (exec.run r).run (handle async) m =
        .ok ((), { r with SP := s, P := (c ||| pUndefined) &&& ~~~pBreak, PC := word b a }) m' ∧
      writes m'.log = writes m.log := by
  obtain ⟨m₁, hx, hm₁, hl⟩ := exec_run (fun _ => 0x40) hlow hbp (known_implied (by decide) hop)
  rw [insnAt_implied (by decide)] at hx
  obtain ⟨m₂, hr, hl₂⟩ := execRti_run async r.PC (hm₁.trans hm) hs
  refine ⟨m₂, hx.trans hr, ?_⟩
  rw [hl₂, hl, fetches_implied (by decide)]

end Image

theorem low_mask (pc : Addr) : (pc &&& 0xFF).setWidth 8 = pc.setWidth 8 := by
  apply BitVec.eq_of_toNat_eq
  have h : (pc &&& 0xFF).toNat = pc.toNat % 256 := (BitVec.toNat_and ..).trans
    (Nat.and_two_pow_sub_one_eq_mod pc.toNat 8)
  simp only [BitVec.toNat_setWidth, h]
  omega

theorem word_halves (pc : Addr) : word ((pc &&& 0xFF).setWidth 8) ((pc >>> 8).setWidth 8) = pc := by
  rw [low_mask, word]
  ext i hi
  by_cases h8 : i < 8
  · simp [h8, BitVec.getLsbD_eq_getElem hi]
  · have hs : 8 + (i - 8) = i := by omega
    have hl : i - 8 < 8 := by omega
    simp [h8, hl, hs, BitVec.getLsbD_eq_getElem hi]

theorem and_twoPow_eq_zero {P : Byte} {i : Nat} : P &&& BitVec.twoPow 8 i = 0#8 ↔ P.getLsbD i = false := by
  rw [BitVec.and_twoPow]
  cases h : P.getLsbD i with
  | false => simp
  | true =>
    have hi := BitVec.lt_of_getLsbD h
    refine iff_of_false (fun he => ?_) (by simp)
    have hb := congrArg (fun x : Byte => x.getLsbD i) he
    simp [hi] at hb

theorem pulled_status {P : Byte} (hu : P &&& pUndefined ≠ 0) (hb : P &&& pBreak = 0) :
    (P ||| pUndefined) &&& ~~~pBreak = P ∧ (P ||| pBreak ||| pUndefined) &&& ~~~pBreak = P := by
  have h5 : P.getLsbD 5 = true := by simpa using mt (and_twoPow_eq_zero (P := P) (i := 5)).mpr hu
  have h4 : P.getLsbD 4 = false := and_twoPow_eq_zero.mp hb
  have hU : pUndefined = BitVec.twoPow 8 5 := rfl
  have hB : pBreak = BitVec.twoPow 8 4 := rfl
  rw [hU, hB]
  constructor <;>
  · ext i hi
    by_cases i4 : i = 4
    · subst i4
      simpa [BitVec.getElem_twoPow] using h4
    · by_cases i5 : i = 5
      · subst i5
        simpa [BitVec.getElem_twoPow] using h5
      · simp [BitVec.getElem_twoPow, i4, i5]

/-- No asynchronous call touches the interrupt line. -/
def HostCode.LineSteady (hc : HostCode H) : Prop := ∀ t, ∀ c ∈ hc.async t, c = .requestStop

/-- The MMU is off, the stack page is RAM, and the interrupt vector points to an `RTI` at `h`
outside the three bytes that an entry pushes. -/
structure Emu.Vectors (hc : HostCode H) (e : Emu H) (h : Addr) : Prop where
  off : e.MmuOff
  stack : ∀ a, page a = 1 → e.bus.Cell (fun _ => True) a
  vector : ∃ lo hi, e.bus.Holds hc vectorIrq lo ∧ e.bus.Holds hc (vectorIrq + 1) hi ∧ h = word lo hi
  rti : e.bus.Holds hc h 0x40
  outside : h ∉ Image.frame e.regs.SP

/-- The stack page and the addresses of a list, as the emulator reads them. -/
def Emu.slots (hc : HostCode H) (e : Emu H) (known : List Addr) (a : Addr) : Slot :=
  if page a = 1 then .ram (e.busRead1 hc a).1
  else if known.contains a then .rom (e.busRead1 hc a).1
  else .unknown

theorem page_stackAddr (s : Byte) : page (stackAddr s) = 1 := by
  have hs := s.isLt
  apply BitVec.eq_of_toNat_eq
  rw [page, BitVec.toNat_setWidth, BitVec.toNat_ushiftRight, Nat.shiftRight_eq_div_pow, toNat_stackAddr]
  change _ = 1
  omega

namespace Emu

variable {hc : HostCode H} {e : Emu H} {known : List Addr}

theorem slots_byte {a : Addr} {v : Byte} (hv : e.bus.Holds hc a v) (ha : page a = 1 ∨ a ∈ known) :
    (e.slots hc known a).byte = some v := by
  unfold slots
  rw [Shows.busRead1 hv]
  by_cases hp : page a = 1
  · rw [if_pos hp]
    rfl
  · rw [if_neg hp, if_pos (List.contains_iff_mem.2 (ha.resolve_left hp))]
    rfl

theorem holds_of_cell {a : Addr} {S : Addr → Prop} (h : e.bus.Cell S a) : ∃ v, e.bus.Holds hc a v := by
  obtain ⟨d, off, ha, hd, -⟩ := h
  refine ⟨e.bus.ram d off, ?_⟩
  unfold Bus.Holds
  rw [ha]
  simp only [if_pos hd]

variable (known) in
theorem Vectors.shows {h : Addr} (hv : e.Vectors hc h) (hk : ∀ a ∈ known, ∃ v, e.bus.Holds hc a v) :
    e.Shows hc e.bus (e.image (e.slots hc known)) := by
  have hread : ∀ a, page a = 1 ∨ a ∈ known → ∃ v, e.bus.Holds hc a v := fun a ha =>
    ha.elim (fun hp => holds_of_cell (hv.stack a hp)) (hk a)
  refine hv.off.shows (fun a v ha => ?_) fun a ha => ?_
  · have hin : page a = 1 ∨ a ∈ known := by
      by_contra hn
      rw [not_or] at hn
      rw [slots, if_neg hn.1, if_neg (mt List.contains_iff_mem.1 hn.2)] at ha
      cases ha
    obtain ⟨w, hw⟩ := hread a hin
    rw [slots_byte hw hin] at ha
    obtain rfl := Option.some.inj ha
    exact hw
  · have hp : page a = 1 := by
      by_contra hn
      unfold slots at ha
      rw [if_neg hn] at ha
      split at ha <;> cases ha
    obtain ⟨d, off, hd, hr, hu⟩ := hv.stack a hp
    exact ⟨d, off, hd, hr, fun a' _ hne => hu a' trivial hne⟩

variable (known) in
theorem slots_vectored {lo hi : Byte} (hlo : e.bus.Holds hc vectorIrq lo)
    (hhi : e.bus.Holds hc (vectorIrq + 1) hi) (hk : vectorIrq ∈ known ∧ vectorIrq + 1 ∈ known) :
    (e.image (e.slots hc known)).Vectored lo hi where
  stack s := by
    change (e.slots hc known (stackAddr s)).isRam = true
    rw [slots, if_pos (page_stackAddr s)]
    rfl
  lo := slots_byte hlo (.inr hk.1)
  hi := slots_byte hhi (.inr hk.2)

end Emu

/-- An interrupt entered at an `RTI` changes no register, and `BRK` only moves `PC` over its
padding byte. -/
theorem entry_return_inverse (hc : HostCode H) (e : Emu H) (h : Addr) (hq : hc.LineSteady) (hv : e.Vectors hc h)
    (hu : e.regs.flag pUndefined = true) (hb : e.regs.flag pBreak = false) (hbp : h ∉ e.bps) :
    (e.irq = true → e.regs.flag pIrqDisable = false →
      ∃ e', e.runCpu hc exec = .ok () e' ∧ e'.regs = e.regs ∧ e'.irq = false ∧
      e.ChangesAt e' (Image.frame e.regs.SP)) ∧
    (e.irq = false → e.bus.Holds hc e.regs.PC 0 → e.regs.PC ∉ e.bps →
      ∃ e₁ e₂, e.runCpu hc exec = .ok () e₁ ∧ e₁.runCpu hc exec = .ok () e₂ ∧
        e₂.regs = { e.regs with PC := e.regs.PC + 2 } ∧ e₂.irq = false ∧
        e.ChangesAt e₂ (Image.frame e.regs.SP)) := by
  obtain ⟨lo, hi, hlo, hhi, rfl⟩ := hv.vector
  have hP := pulled_status (P := e.regs.P) (by simpa [Regs.flag] using hu) (by simpa [Regs.flag] using hb)
  constructor
  · intro hline hI
    have hs := hv.shows [vectorIrq, vectorIrq + 1, word lo hi] (by
      simpa using ⟨⟨lo, hlo⟩, ⟨hi, hhi⟩, ⟨0x40, hv.rti⟩⟩)
    have hvec := Emu.slots_vectored [vectorIrq, vectorIrq + 1, word lo hi] hlo hhi (by simp)
    obtain ⟨m', hr, hlow, hw⟩ :=
      Image.exec_interrupt (r := e.regs) hq hvec hline hI (Emu.slots_byte hv.rti (.inr (by simp)))
      hv.outside hbp
    obtain ⟨e', hx, hregs, hs'⟩ := hs.runCpu hr
    refine ⟨e', hx, ?_, hs'.irq.trans hlow, ?_⟩
    · rw [hregs, hP.1, word_halves]
    · have hch := hs'.changesAt
      rwa [hw] at hch
  · intro hline hop hbp'
    have hs := hv.shows [vectorIrq, vectorIrq + 1, word lo hi, e.regs.PC] (by
      simpa using ⟨⟨lo, hlo⟩, ⟨hi, hhi⟩, ⟨0x40, hv.rti⟩, ⟨0, hop⟩⟩)
    have hvec := Emu.slots_vectored [vectorIrq, vectorIrq + 1, word lo hi, e.regs.PC] hlo hhi (by simp)
    have hquiet : ∀ (m : Image) (r : Regs), m.irq = false →
        ((m.arrive hc.async).irq && !r.flag pIrqDisable) = false := by
      intro m r hm
      rw [Image.arrive_steady hq, hm]
      rfl
    obtain ⟨m₁, hr₁, hm₁, hw₁⟩ := Image.exec_brk (r := e.regs) hvec (hquiet _ _ hline)
      (Emu.slots_byte hop (.inr (by simp))) hbp'
    have hlow₁ := Image.run_low hq hr₁ hline
    obtain ⟨e₁, hx₁, hregs₁, hs₁⟩ := hs.runCpu hr₁
    have hrti : (m₁.mem (word lo hi)).byte = some 0x40 := by
      rw [hm₁, Image.mem_pushed hv.outside]
      exact Emu.slots_byte hv.rti (.inr (by simp))
    obtain ⟨m₂, hr₂, hw₂⟩ := Image.exec_rti (r := e₁.regs) hm₁ (by rw [hregs₁]; rfl) (hquiet _ _ hlow₁)
      (by rw [hregs₁]; exact hrti) (by rw [hregs₁, Image.run_bps hr₁]; exact hbp)
    have hlow₂ := Image.run_low hq hr₂ hlow₁
    obtain ⟨e₂, hx₂, hregs₂, hs₂⟩ := hs₁.runCpu hr₂
    refine ⟨e₁, e₂, hx₁, hx₂, ?_, hs₂.irq.trans hlow₂, ?_⟩
    · rw [hregs₂, hregs₁, hP.2, word_halves]
      rfl
    · have hch := hs₂.changesAt
      rwa [hw₂, hw₁] at hch

/-- The interrupt vector points to an `RTI` at `0x0300`. -/
def handlerMem (a : Addr) : Byte := if a = 0xFFFF then 3 else if a = 0x0300 then 0x40 else 0

def handlerEmu (line : Bool) (bps : List Addr) : Emu Unit :=
  { init (ramBus handlerMem) () ⟨0, 0, 0, 0x0200, 0xFF, 0⟩ with
    regs := ⟨0, 0, 0, 0x0200, 0x01, pUndefined ||| pDecimal⟩
    irq := line
    bps := bps }

theorem handlerEmu_vectors (line : Bool) (bps : List Addr) :
    (handlerEmu line bps).Vectors (quietHost identity) 0x0300 where
  off := ⟨rfl, rfl⟩
  stack a _ := ramBus_ram _ a
  vector := ⟨0, 3, ramBus_holds _ handlerMem _, ramBus_holds _ handlerMem _, rfl⟩
  rti := ramBus_holds _ handlerMem _
  outside := (by decide : (0x0300 : Addr) ∉ Image.frame 0x01)

theorem entry_return_handler :
    ∃ e', (handlerEmu true []).runCpu (quietHost identity) exec = .ok () e' ∧
    e'.regs = (handlerEmu true []).regs ∧
      e'.irq = false ∧ (handlerEmu true []).ChangesAt e' (Image.frame 0x01) :=
  (entry_return_inverse (quietHost identity) (handlerEmu true []) 0x0300 (fun _ _ h => nomatch h)
    (handlerEmu_vectors true []) (by decide) (by decide) (by decide)).1 rfl (by decide)

/-- A breakpoint at the handler stops the entry before the return. -/
theorem entry_stopped_by_breakpoint :
    (handlerEmu true [0x0300]).Vectors (quietHost identity) 0x0300 ∧
      (handlerEmu true [0x0300]).regs.flag pUndefined = true ∧
      (handlerEmu true [0x0300]).regs.flag pBreak = false ∧
      (handlerEmu true [0x0300]).irq = true ∧ (handlerEmu true [0x0300]).regs.flag pIrqDisable = false ∧
      ((handlerEmu true [0x0300]).runCpu (quietHost identity) exec).state?.map Emu.regs =
        some ⟨0, 0, 0, 0x0300, 0xFE, pUndefined ||| pIrqDisable⟩ :=
  ⟨handlerEmu_vectors true [0x0300], by decide, by decide, rfl, by decide, by decide +kernel⟩

end Rk65c02
