import Rk65c02.Recording

/-! The interrupt line: who lowers it, and who sleeps through it. -/

namespace Rk65c02

open Resumption

variable {H : Type} {hc : HostCode H}

namespace Emu

/-- A request made since `e₀` is still on the line, unless it was taken back. -/
structure LineKept (hc : HostCode H) (e₀ e : Emu (H × List Event)) : Prop where
  before : e₀.Before e
  kept : e₀.irq = true ∨ e₀.Made hc e .assertIrq → e.irq = true ∨ e₀.Made hc e .deassertIrq

/-- The line is high only because of a request made since `e₀`. -/
structure LineLow (hc : HostCode H) (e₀ e : Emu (H × List Event)) : Prop where
  before : e₀.Before e
  low : e.irq = true → e₀.Made hc e .assertIrq

variable {e₀ e e' : Emu (H × List Event)}

theorem LineKept.calls (h : e₀.LineKept hc e) {cs : List HostCall} (hb : e.Before e')
    (hm : ∀ c, e.Made hc e' c ↔ c ∈ cs) (hirq : e.irq = true ∨ .assertIrq ∈ cs → e'.irq = true ∨
      .deassertIrq ∈ cs) :
    e₀.LineKept hc e' := by
  refine ⟨h.before.trans hb, fun hh => ?_⟩
  rw [Made.iff_of_between h.before hb, hm] at hh ⊢
  have hkept : e.irq = true ∨ e₀.Made hc e .deassertIrq ∨ .assertIrq ∈ cs := by
    rcases hh with hh | hh | hh
    · exact (h.kept (.inl hh)).imp id .inl
    · exact (h.kept (.inr hh)).imp id .inl
    · exact .inr (.inr hh)
  rcases hkept with hh | hh | hh
  · exact (hirq (.inl hh)).imp id .inr
  · exact .inr (.inl hh)
  · exact (hirq (.inr hh)).imp id .inr

theorem LineLow.calls (h : e₀.LineLow hc e) {cs : List HostCall} (hb : e.Before e')
    (hm : ∀ c, e.Made hc e' c ↔ c ∈ cs) (hirq : e.irq = false → .assertIrq ∉ cs → e'.irq = false) :
    e₀.LineLow hc e' := by
  refine ⟨h.before.trans hb, fun hh => ?_⟩
  rw [Made.iff_of_between h.before hb, hm]
  by_cases ha : .assertIrq ∈ cs
  · exact .inr ha
  · cases hi : e.irq with
    | true => exact .inl (h.low hi)
    | false =>
      rw [hirq hi ha] at hh
      cases hh

theorem LineKept.congr (hc' : e'.control = e.control) (h : e₀.LineKept hc e) : e₀.LineKept hc e' := by
  refine ⟨h.before.congr hc', fun hh => ?_⟩
  rw [Made.congr hc'] at hh ⊢
  rw [show e'.irq = e.irq from congrArg Control.irq hc']
  exact h.kept hh

theorem LineLow.congr (hc' : e'.control = e.control) (h : e₀.LineLow hc e) : e₀.LineLow hc e' := by
  refine ⟨h.before.congr hc', fun hh => ?_⟩
  rw [show e'.irq = e.irq from congrArg Control.irq hc'] at hh
  exact (Made.congr hc').2 (h.low hh)

/-- Both depend on the line, the calls and nothing else of the run. -/
theorem LineKept.line (h : e₀.LineKept hc e) (s : EmuState) (q : StopReason) (b : Bool) :
    e₀.LineKept hc { e with state := s, stopreason := q, stopRequested := b } :=
  ⟨⟨h.before.clock, h.before.log⟩, h.kept⟩

theorem LineLow.line (h : e₀.LineLow hc e) (s : EmuState) (q : StopReason) (b : Bool) :
    e₀.LineLow hc { e with state := s, stopreason := q, stopRequested := b } :=
  ⟨⟨h.before.clock, h.before.log⟩, h.low⟩

theorem steady_lineKept (hc : HostCode H) (e₀ : Emu (H × List Event)) : Steady hc.recording (e₀.LineKept hc) := by
  refine steady_of_control (fun _ _ => LineKept.congr) (fun e h => ?_) (fun e cb h => ?_)
    (fun e h => h.line _ _ _)
    fun e h _ => h.line _ _ _
  · refine h.calls (arrive_before hc e) (made_arrive hc e) fun hh => ?_
    rw [arrive_eq]
    exact foldl_irq _ _ hh
  · refine h.calls (callback_before hc e cb) (made_callback hc e cb) fun hh => ?_
    rw [hc.recording_invoke]
    exact foldl_irq _ _ hh

theorem steady_lineLow (hc : HostCode H) (e₀ : Emu (H × List Event)) : Steady hc.recording (e₀.LineLow hc) := by
  refine steady_of_control (fun _ _ => LineLow.congr) (fun e h => ?_) (fun e cb h => ?_) (fun e h => h.line _ _ _)
    fun e h _ => h.line _ _ _
  · refine h.calls (arrive_before hc e) (made_arrive hc e) fun hi ha => ?_
    rw [arrive_eq]
    exact foldl_irq_low _ _ hi ha
  · refine h.calls (callback_before hc e cb) (made_callback hc e cb) fun hi ha => ?_
    rw [hc.recording_invoke]
    exact foldl_irq_low _ _ hi ha

theorem LineKept.refl (hc : HostCode H) (e : Emu (H × List Event)) : e.LineKept hc e :=
  ⟨.refl e, fun h => .inl (h.resolve_right (not_happened_refl e))⟩

theorem LineKept.asked (h : e₀.LineKept hc e) (r : Regs) : e₀.LineKept hc (e.asked hc.recording r) :=
  (steady_lineKept hc e₀).arrive _ ⟨⟨h.before.clock, h.before.log⟩, h.kept⟩

/-- An instruction executed without entering an interrupt keeps the line, if it is not `BRK`
with a request pending. -/
theorem LineKept.execRun (h : e₀.LineKept hc e) (ht : e.takesIrq hc.recording = false)
    (hbrk : ∀ i, e.fetched hc.recording = some i → i.emul = .brk →
      (e.irq = false ∨ e.regs.flag pIrqDisable = false) ∧
        (e.execRun hc.recording).Ends fun s => ¬e.Made hc s .assertIrq) :
    (e.execRun hc.recording).Ends (e₀.LineKept hc) := by
  have hS := steady_lineKept hc e₀
  have hregs : ∀ (s : Emu (H × List Event)) r, e₀.LineKept hc s → e₀.LineKept hc { s with regs := r } :=
    fun s _ h => LineKept.congr (e := s) rfl h
  by_cases hb : ∃ i, e.fetched hc.recording = some i ∧ i.emul = .brk
  · obtain ⟨i, hi, him⟩ := hb
    obtain ⟨hlow, hnone⟩ := hbrk i hi him
    have hafter := execRun_before hc e
    generalize e.execRun hc.recording = x at hnone hafter ⊢
    have hend : ∀ s, ¬e.Made hc s .assertIrq → (e.asked hc.recording e.regs).Before s → e₀.LineKept hc s := by
      intro s hn hs
      have hes := (asked_before hc e e.regs).trans hs
      refine ⟨h.before.trans hes, fun hh => ?_⟩
      rw [Made.iff_of_between h.before hes] at hh
      have hd : e.irq = true ∨ e₀.Made hc e .deassertIrq :=
        h.kept (hh.imp id fun hh => hh.resolve_right hn)
      rw [Made.iff_of_between h.before hes]
      refine .inr (hd.symm.imp id fun hirq => ?_)
      -- the line was up and yet no interrupt was entered: it went down at the test
      have hI : e.regs.flag pIrqDisable = false := hlow.resolve_left (by rw [hirq]; exact Bool.noConfusion)
      have hdown : (e.asked hc.recording e.regs).irq = false := by
        simpa [takesIrq, hI] using ht
      have hk := ((LineKept.refl hc e).asked e.regs).kept (.inl hirq)
      rw [hdown] at hk
      rw [Made.iff_of_between (asked_before hc e e.regs) hs]
      exact .inl (hk.resolve_left Bool.false_ne_true)
    cases x with
    | ok v s => exact hend s hnone hafter
    | exit s => exact hend s hnone hafter
    | stuck => trivial
  · refine hS.execRun hregs (h.asked e.regs) (fun hh => ?_) (fun s hs => hs.line _ _ _) fun i r s hf hs => ?_
    · rw [ht] at hh
      cases hh
    · have hi : e.fetched hc.recording = some i := by rw [fetched, hf]
      exact hS.execInsn hregs hs _ i r (fun him => absurd ⟨i, hi, him⟩ hb) (fun _ s hs => hs.line _ _ _)
        fun _ s hs => hs.line _ _ _

end Emu

/-- `BRK` is executed with the line low or not masked, and no request is made while it is
executed. -/
def Run.BrkUnmasked (hc : HostCode H) (c : Run (H × List Event)) : Prop :=
  ∀ e i, c.CallsExec hc.recording e → e.fetched hc.recording = some i → i.emul = .brk →
    (e.irq = false ∨ e.regs.flag pIrqDisable = false) ∧ (e.execRun hc.recording).Ends fun s =>
      ¬e.Made hc s .assertIrq

/-- A step that enters no interrupt keeps what is on the line. -/
theorem Run.step_lineKept {e₀ : Emu (H × List Event)} {c : Run (H × List Event)} (h : e₀.LineKept hc c.emu)
    (hbrk : c.BrkUnmasked hc) (ht : ∀ s, c.CallsExec hc.recording s → s.takesIrq hc.recording = false) :
    e₀.LineKept hc (c.step hc.recording).emu :=
  Run.step_keeps (Emu.steady_lineKept hc e₀) (fun s _ h => Emu.LineKept.congr (e := s) rfl h)
    (fun s _ h => Emu.LineKept.congr (e := s) rfl h) h
    fun s hs h => h.execRun (ht s hs) fun i hi him => hbrk s i hs hi him

/-- Between any two points of a run the line goes down only because the host lowers it or an
interrupt is entered: a request that was there at the first, or came since, is not lost. -/
theorem irq_request_kept (hc : HostCode H) (e : Emu (H × List Event)) {m n : Nat} (hmn : m ≤ n)
    (hbrk : ∀ k, m ≤ k → k < n → (e.start.steps hc.recording k).BrkUnmasked hc)
    (hup : (e.start.steps hc.recording m).emu.irq = true ∨
      (e.start.steps hc.recording m).emu.Made hc (e.start.steps hc.recording n).emu .assertIrq)
    (hdown : (e.start.steps hc.recording n).emu.irq = false) :
    (e.start.steps hc.recording m).emu.Made hc (e.start.steps hc.recording n).emu .deassertIrq ∨
      ∃ k, m ≤ k ∧ k < n ∧ ∃ s, (e.start.steps hc.recording k).CallsExec hc.recording s ∧
        s.takesIrq hc.recording = true := by
  by_cases ht : ∃ k, m ≤ k ∧ k < n ∧ ∃ s, (e.start.steps hc.recording k).CallsExec hc.recording s ∧
      s.takesIrq hc.recording = true
  · exact .inr ht
  · refine .inl ?_
    have hkept : ∀ l, m + l ≤ n →
        (e.start.steps hc.recording m).emu.LineKept hc (e.start.steps hc.recording (m + l)).emu := by
      intro l hl
      induction l with
      | zero => exact .refl hc _
      | succ l ih =>
        rw [← Nat.add_assoc, Run.steps_succ]
        refine Run.step_lineKept (ih (by omega)) (hbrk _ (by omega) (by omega)) fun s hs => ?_
        exact Bool.eq_false_iff.2 fun hh => ht ⟨m + l, by omega, by omega, s, hs, hh⟩
    obtain ⟨l, rfl⟩ := Nat.exists_eq_add_of_le hmn
    have hh := (hkept l (Nat.le_refl _)).kept hup
    rw [hdown] at hh
    exact hh.resolve_left Bool.false_ne_true

/-- An emulator over RAM, with the line up. -/
def pendingEmu (mem : Addr → Byte) (P : Byte) : Emu (Unit × List Event) :=
  { (init (ramBus mem) ((), []) ⟨0, 0, 0, 0x0200, 0xFF, 0⟩ : Emu (Unit × List Event)) with
    regs := ⟨0, 0, 0, 0x0200, 0xFF, P⟩, irq := true }

/-- Its run, which is in the interpreter. -/
def pendingRun (mem : Addr → Byte) (P : Byte) : Run (Unit × List Event) := (pendingEmu mem P).start

theorem not_made_quiet {e e' : Emu (Unit × List Event)} (h : e'.host.2 = []) (c : HostCall) :
    ¬e.Made (quietHost identity) e' c := by
  rintro (⟨n, -, -, hm⟩ | ⟨ev, hev, -⟩)
  · cases hm
  · rw [h, List.drop_nil] at hev
    cases hev

/-- `NOP`, `CLI`, `NOP` with the line up and masked: it stays up until the interrupt is entered. -/
theorem irq_request_kept_cli : ∃ k < 3, ∃ s,
    ((pendingEmu (fun a => if a = 0x0201 then 0x58 else 0xEA) 0x24).start.steps
      (quietHost identity).recording k).CallsExec
        (quietHost identity).recording s ∧
      s.takesIrq (quietHost identity).recording = true := by
  generalize hm : (fun a : Addr => if a = 0x0201 then (0x58 : Byte) else 0xEA) = mem
  have hp : ∀ k < 3, ((pendingEmu mem 0x24).start.steps (quietHost identity).recording k).phase = .interp := by
    subst hm
    decide +kernel
  have hf : ∀ k < 3, (((pendingEmu mem 0x24).start.steps (quietHost identity).recording k).polled
      (quietHost identity).recording).all
        (fun e => (e.fetched (quietHost identity).recording).all fun i => i.emul ≠ .brk) = true := by
    subst hm
    decide +kernel
  have hlog : ((pendingEmu mem 0x24).start.steps (quietHost identity).recording 3).emu.host.2 = [] ∧
      ((pendingEmu mem 0x24).start.steps (quietHost identity).recording 3).emu.irq = false := by
    subst hm
    decide +kernel
  refine ((irq_request_kept (quietHost identity) (pendingEmu mem 0x24) (Nat.zero_le 3)
    (fun k _ hk e i he hi him => ?_)
    (.inl rfl) hlog.2).resolve_left (not_made_quiet hlog.1 _)).imp fun k hk => hk.2
  rw [Run.callsExec_interp (hp k hk)] at he
  have hk := hf k hk
  rw [he, Option.all_some, hi, Option.all_some] at hk
  exact absurd him (of_decide_eq_true hk)

theorem brk_drops_request :
    (pendingRun (fun _ => 0x00) 0x24).emu.irq = true ∧ (pendingRun (fun _ => 0x00) 0x24).emu.regs.flag
    pIrqDisable = true ∧
      ((pendingRun (fun _ => 0x00) 0x24).step (quietHost identity).recording).emu.irq = false ∧
      ¬(pendingRun (fun _ => 0x00) 0x24).emu.Made (quietHost identity)
        ((pendingRun (fun _ => 0x00) 0x24).step (quietHost identity).recording).emu .deassertIrq ∧
      ¬∃ e, (pendingRun (fun _ => 0x00) 0x24).CallsExec (quietHost identity).recording e ∧
        e.takesIrq (quietHost identity).recording = true := by
  refine ⟨rfl, by decide +kernel, by decide +kernel, not_made_quiet (by decide +kernel) _, ?_⟩
  rintro ⟨e, he, ht⟩
  rw [Run.callsExec_interp rfl] at he
  have hf : ((pendingRun (fun _ => 0x00) 0x24).polled (quietHost identity).recording).all
      (fun e => e.takesIrq (quietHost identity).recording = false) = true := by decide +kernel
  rw [he, Option.all_some] at hf
  rw [ht] at hf
  cases hf

/-- Stopped in `WAI` with the line up. -/
def Emu.Overslept (e : Emu H) : Prop := e.state = .stopped ∧ e.stopreason = .wai ∧ e.irq = true

namespace Emu

theorem awake_hostCall {e : Emu H} (h : ¬e.Overslept) (c : HostCall) : ¬(e.hostCall c).Overslept := by
  have hf := hostCall_frame e c
  rintro ⟨hs, hr, hi⟩
  rw [hf.state] at hs
  rw [hf.stopreason] at hr
  rw [hf.irq] at hi
  by_cases ha : c = .assertIrq
  · split at hs
    · cases hs
    · next hw => exact hw ⟨ha, hs, hr⟩
  · rw [if_neg fun hw => ha hw.1] at hs
    rw [if_neg ha] at hi
    split at hi
    · cases hi
    · exact h ⟨hs, hr, hi⟩

theorem awake_foldl {e : Emu H} (h : ¬e.Overslept) (cs : List HostCall) : ¬(cs.foldl hostCall e).Overslept :=
  List.foldlRecOn (motive := fun e' : Emu H => ¬e'.Overslept) cs _ h fun _ he c _ => awake_hostCall he c

theorem steady_awake (hc : HostCode H) : Steady hc fun e => ¬e.Overslept := by
  refine steady_of_control (fun e e' hc' h => ?_) (fun e h => ?_) (fun e cb h => ?_)
    (fun e _ h => ?_) fun e _ _ h => ?_
  · rintro ⟨hs, hr, hi⟩
    exact h ⟨(congrArg Control.state hc').symm.trans hs, (congrArg Control.stopreason hc').symm.trans hr,
      (congrArg Control.irq hc').symm.trans hi⟩
  · rw [arrive_eq]
    exact awake_foldl (e := { e with clock := e.clock + 1 }) h _
  · exact awake_foldl (e := { e with host := (hc.invoke e.host cb).1 }) h _
  · cases h.2.1
  · cases h.2.1

/-- From a low line, the line is up only because of a request made on the way. -/
theorem LineLow.of_low {e₀ e : Emu (H × List Event)} (hb : e₀.Before e) (h : e.irq = false) :
    e₀.LineLow hc e := by
  refine ⟨hb, fun hh => ?_⟩
  rw [h] at hh
  cases hh

/-- Once the instruction is there, a line that was not masked is up only because of a new request. -/
theorem lineLow_of_fetchRun {e s : Emu (H × List Event)} {v : Option Instruction × Regs}
    (hf : e.fetchRun hc.recording = .ok v s) (hlow : e.irq = false ∨ e.regs.flag pIrqDisable = false) :
    e.LineLow hc s := by
  have hS := steady_lineLow hc e
  have hregs : ∀ (s : Emu (H × List Event)) r, e.LineLow hc s → e.LineLow hc { s with regs := r } :=
    fun s _ h => LineLow.congr (e := s) rfl h
  rw [fetchRun_eq] at hf
  split at hf
  · cases hr : (Rk65c02.irq.run e.regs).run (handle hc.recording) (e.asked hc.recording e.regs) with
    | ok w s₁ =>
      have hb := (steady_before hc e).irq (fun _ _ h => ⟨h.clock, h.log⟩) (asked_before hc e e.regs) e.regs
        fun _ h => ⟨h.clock, h.log⟩
      rw [hr] at hf hb
      have hx := hS.fetchHere hregs (.of_low hb (irq_run_low hr)) w.2
      rw [show (fetchHere.run w.2).run (handle hc.recording) s₁ = _ from hf] at hx
      exact hx
    | exit s₁ =>
      rw [hr] at hf
      cases hf
    | stuck =>
      rw [hr] at hf
      cases hf
  · next ht =>
    have ha : e.LineLow hc (e.asked hc.recording e.regs) := by
      rcases hlow with hi | hI
      · exact hS.arrive _ (LineLow.congr (e := e) rfl (.of_low (.refl e) hi))
      · exact .of_low (asked_before hc e e.regs) (by simpa [takesIrq, hI] using ht)
    have hx := hS.fetchHere hregs ha e.regs
    rw [hf] at hx
    exact hx

theorem awake_execRun {e : Emu (H × List Event)} (h : ¬e.Overslept)
    (hwai : ∀ i, e.fetched hc.recording = some i → i.emul = .wai →
      (e.irq = false ∨ e.regs.flag pIrqDisable = false) ∧
        (e.execRun hc.recording).Ends fun s => ¬e.Made hc s .assertIrq) :
    (e.execRun hc.recording).Ends fun s => ¬s.Overslept := by
  by_cases hw : ∃ i, e.fetched hc.recording = some i ∧ i.emul = .wai
  · obtain ⟨i, hi, him⟩ := hw
    obtain ⟨hlow, hnone⟩ := hwai i hi him
    have hS := steady_lineLow hc e
    have hregs : ∀ (s : Emu (H × List Event)) r, e.LineLow hc s → e.LineLow hc { s with regs := r } :=
      fun s _ h => LineLow.congr (e := s) rfl h
    have hend : (e.execRun hc.recording).Ends (e.LineLow hc) := by
      rw [execRun_eq]
      cases hf : e.fetchRun hc.recording with
      | ok v s =>
        have hs := lineLow_of_fetchRun hf hlow
        refine hS.execRest hregs hs _ v (fun _ hs => hs.line _ _ _) fun i _ => ?_
        exact hS.execInsn hregs hs _ i v.2 (fun _ _ hs => .of_low ⟨hs.before.clock, hs.before.log⟩ rfl)
          (fun _ _ hs => hs.line _ _ _) fun _ _ hs => hs.line _ _ _
      | exit s =>
        rw [fetched, hf] at hi
        cases hi
      | stuck => trivial
    generalize e.execRun hc.recording = x at hnone hend ⊢
    cases x with
    | ok v s => exact fun ho => hnone (hend.low ho.2.2)
    | exit s => exact fun ho => hnone (hend.low ho.2.2)
    | stuck => trivial
  · have hS := steady_awake hc.recording
    have hregs : ∀ (s : Emu (H × List Event)) r, ¬s.Overslept → ¬({ s with regs := r } : Emu _).Overslept :=
      fun _ _ h => h
    refine hS.execRun hregs (hS.arrive _ (hregs e _ h)) (fun _ _ _ ho => Bool.noConfusion ho.2.2)
      (fun _ _ ho => StopReason.noConfusion ho.2.1) fun i r s hf hs => ?_
    have hi : e.fetched hc.recording = some i := by rw [fetched, hf]
    exact hS.execInsn hregs hs _ i r (fun _ _ _ ho => Bool.noConfusion ho.2.2) (fun him => absurd ⟨i, hi, him⟩ hw)
      fun _ _ _ ho => StopReason.noConfusion ho.2.1

end Emu

/-- `WAI` is executed with the line low or not masked, and no request is made while it is
executed. -/
def Run.WaiUnmasked (hc : HostCode H) (c : Run (H × List Event)) : Prop :=
  ∀ e i, c.CallsExec hc.recording e → e.fetched hc.recording = some i → i.emul = .wai →
    (e.irq = false ∨ e.regs.flag pIrqDisable = false) ∧ (e.execRun hc.recording).Ends fun s =>
      ¬e.Made hc s .assertIrq

theorem Run.step_awake {c : Run (H × List Event)} (h : ¬c.emu.Overslept) (hwai : c.WaiUnmasked hc) :
    ¬(c.step hc.recording).emu.Overslept :=
  Run.step_keeps (Emu.steady_awake hc.recording) (fun _ _ h => h) (fun _ _ h => h) h fun e he h =>
    Emu.awake_execRun h fun i => hwai e i he

/-- A run is never left asleep with the line up, if no `WAI` is executed with a request pending and
masked, and no request is made while one is executed. -/
theorem no_lost_wakeup (hc : HostCode H) (e : Emu (H × List Event)) (n : Nat)
    (hwai : ∀ m < n, (e.start.steps hc.recording m).WaiUnmasked hc) :
    ¬(e.start.steps hc.recording n).emu.Overslept := by
  refine Run.steps_keeps (P := fun c => ¬c.emu.Overslept) (Q := fun c => c.WaiUnmasked hc)
    (fun c h hq => Run.step_awake h hq) (fun ho => ?_) n hwai
  have hs := ho.1
  rw [e.start_running] at hs
  cases hs

/-- `WAI` as the first instruction of the handler: the line is low by then. -/
theorem no_lost_wakeup_handler :
    ¬((pendingEmu (fun _ => 0xCB) 0x20).start.steps (quietHost identity).recording 1).emu.Overslept := by
  refine no_lost_wakeup (quietHost identity) _ 1 fun m hm e i he _ _ => ?_
  obtain rfl : m = 0 := by omega
  replace he : (pendingRun (fun _ => 0xCB) 0x20).polled (quietHost identity).recording = some e :=
    (Run.callsExec_interp rfl).1 he
  have hI : ((pendingRun (fun _ => 0xCB) 0x20).polled (quietHost identity).recording).all
      (fun e => e.regs.flag pIrqDisable = false) = true := by decide +kernel
  have hlog : ((pendingRun (fun _ => 0xCB) 0x20).polled (quietHost identity).recording).all
      (fun e => (e.execRun (quietHost identity).recording).state?.any fun s => s.host.2 = []) = true := by
        decide +kernel
  rw [he, Option.all_some] at hI hlog
  refine ⟨.inr (of_decide_eq_true hI), ?_⟩
  generalize e.execRun (quietHost identity).recording = x at hlog ⊢
  cases x with
  | ok v s => exact not_made_quiet (of_decide_eq_true hlog) _
  | exit s => cases hlog
  | stuck => trivial

/-- `WAI` with the line up and masked: `rk65c02_start` returns asleep. -/
theorem wai_sleeps_through_request :
    ((pendingEmu (fun _ => 0xCB) 0x24).start.steps (quietHost identity).recording 1).emu.Overslept ∧
      ((pendingEmu (fun _ => 0xCB) 0x24).start.steps (quietHost identity).recording 1).phase = .done := by
  unfold Emu.Overslept
  decide +kernel

end Rk65c02
