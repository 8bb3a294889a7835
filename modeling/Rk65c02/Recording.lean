import Rk65c02.Steps

/-! Hosts that record the callbacks made and the library calls these make, so that a run
can be asked which calls fell into a stretch of it. -/

namespace Rk65c02

open Resumption

variable {H : Type}

/-- A callback, with the library calls it made. -/
structure Event where
  callback : Callback
  calls : List HostCall
  deriving DecidableEq

namespace HostCode

variable (hc : HostCode H)

/-- A callback of a recording host. -/
def record (h : H × List Event) (c : Callback) : (H × List Event) × List HostCall :=
  (((hc.invoke h.1 c).1, h.2 ++ [⟨c, (hc.invoke h.1 c).2⟩]), (hc.invoke h.1 c).2)

/-- The same host, recording. -/
def recording : HostCode (H × List Event) where
  translate := fun h => hc.translate h.1
  mmuFault := fun h cb a x code => hc.record h (.mmuFault cb a x code)
  devRead := fun h d off => ((hc.devRead h.1 d off).1, hc.record h (.devRead d off))
  devWrite := fun h d off v => hc.record h (.devWrite d off v)
  tick := fun h cb => hc.record h (.tick cb)
  idleWait := fun h cb => hc.record h (.idleWait cb)
  onStop := fun h cb reason => hc.record h (.onStop cb reason)
  async := hc.async

theorem recording_invoke (h : H × List Event) (c : Callback) : hc.recording.invoke h c = hc.record h c := by
  cases c <;> rfl

end HostCode

/-- Something arrived, or was done by a callback, on the way from one state to a later one. -/
def Emu.Happened (A : Nat → Prop) (E : Event → Prop) (e e' : Emu (H × List Event)) : Prop :=
  (∃ n, e.clock ≤ n ∧ n < e'.clock ∧ A n) ∨ ∃ ev ∈ e'.host.2.drop e.host.2.length, E ev

/-- Calls that arrived or were made by callbacks on the way from one state to a later one. -/
def Emu.Made (hc : HostCode H) (e e' : Emu (H × List Event)) (c : HostCall) : Prop :=
  e.Happened (fun n => c ∈ (hc.async n).map AsyncCall.call) (fun ev => c ∈ ev.calls) e'

/-- The second state is a later one. -/
structure Emu.Before (e e' : Emu (H × List Event)) : Prop where
  clock : e.clock ≤ e'.clock
  log : e.host.2 <+: e'.host.2

namespace Emu

variable {hc : HostCode H} {e e' e'' : Emu (H × List Event)} {c : HostCall}

theorem Before.refl (e : Emu (H × List Event)) : e.Before e := ⟨Nat.le_refl _, List.prefix_refl _⟩

theorem Before.trans (h : e.Before e') (h' : e'.Before e'') : e.Before e'' :=
  ⟨Nat.le_trans h.clock h'.clock, h.log.trans h'.log⟩

theorem Before.congr (hc : e''.control = e'.control) (h : e.Before e') : e.Before e'' := by
  have hcl : e''.clock = e'.clock := congrArg Control.clock hc
  have hh : e''.host = e'.host := congrArg Control.host hc
  exact ⟨hcl ▸ h.clock, hh ▸ h.log⟩

section Happened

variable {A : Nat → Prop} {E : Event → Prop}

theorem Happened.congr (h : e''.control = e'.control) : e.Happened A E e'' ↔ e.Happened A E e' := by
  have hcl : e''.clock = e'.clock := congrArg Control.clock h
  have hh : e''.host = e'.host := congrArg Control.host h
  rw [Happened, Happened, hcl, hh]

theorem Happened.iff_of_between (h : e.Before e') (h' : e'.Before e'') :
    e.Happened A E e'' ↔ e.Happened A E e' ∨ e'.Happened A E e'' := by
  obtain ⟨evs, he⟩ := h.log
  obtain ⟨evs', he'⟩ := h'.log
  have hd : e''.host.2.drop e.host.2.length = evs ++ evs' := by simp [← he', ← he]
  have hd1 : e'.host.2.drop e.host.2.length = evs := by simp [← he]
  have hd2 : e''.host.2.drop e'.host.2.length = evs' := by simp [← he']
  have h1 := h.clock
  have h2 := h'.clock
  unfold Happened
  rw [hd, hd1, hd2]
  simp only [List.mem_append]
  constructor
  · rintro (⟨n, hl, hr, hm⟩ | ⟨ev, hev | hev, hm⟩)
    · by_cases hn : n < e'.clock
      · exact .inl (.inl ⟨n, hl, hn, hm⟩)
      · exact .inr (.inl ⟨n, by omega, hr, hm⟩)
    · exact .inl (.inr ⟨ev, hev, hm⟩)
    · exact .inr (.inr ⟨ev, hev, hm⟩)
  · rintro ((⟨n, hl, hr, hm⟩ | ⟨ev, hev, hm⟩) | ⟨n, hl, hr, hm⟩ | ⟨ev, hev, hm⟩)
    · exact .inl ⟨n, hl, by omega, hm⟩
    · exact .inr ⟨ev, .inl hev, hm⟩
    · exact .inl ⟨n, by omega, hr, hm⟩
    · exact .inr ⟨ev, .inr hev, hm⟩

theorem not_happened_refl (e : Emu (H × List Event)) : ¬e.Happened A E e := by
  rintro (⟨n, hl, hr, -⟩ | ⟨ev, hev, -⟩)
  · omega
  · rw [List.drop_length] at hev
    cases hev

theorem happened_arrive (hc : HostCode H) (e : Emu (H × List Event)) :
    e.Happened A E (e.arrive hc.recording) ↔ A e.clock := by
  rw [arrive_eq, Happened, foldl_clock, foldl_host]
  simp only [List.drop_length, List.not_mem_nil, false_and, exists_false, or_false]
  constructor
  · rintro ⟨n, hl, hr, hm⟩
    have hn : n = e.clock := by omega
    exact hn ▸ hm
  · exact fun hm => ⟨e.clock, Nat.le_refl _, Nat.lt_succ_self _, hm⟩

theorem happened_callback (hc : HostCode H) (e : Emu (H × List Event)) (cb : Callback) :
    e.Happened A E (e.hostReturns (hc.recording.invoke e.host cb)) ↔ E ⟨cb, (hc.invoke e.host.1 cb).2⟩ := by
  rw [hc.recording_invoke, hostReturns, Happened, foldl_clock, foldl_host]
  constructor
  · rintro (⟨n, hl, hr, -⟩ | ⟨ev, hev, hm⟩)
    · have hr : n < e.clock := hr
      omega
    · simp only [HostCode.record, List.drop_left, List.mem_singleton] at hev
      subst hev
      exact hm
  · intro hm
    refine .inr ⟨⟨cb, (hc.invoke e.host.1 cb).2⟩, ?_, hm⟩
    simp [HostCode.record]

end Happened

theorem Made.congr (h : e''.control = e'.control) : e.Made hc e'' c ↔ e.Made hc e' c := Happened.congr h

theorem Made.iff_of_between (h : e.Before e') (h' : e'.Before e'') :
    e.Made hc e'' c ↔ e.Made hc e' c ∨ e'.Made hc e'' c := Happened.iff_of_between h h'

theorem made_arrive (hc : HostCode H) (e : Emu (H × List Event)) (c : HostCall) :
    e.Made hc (e.arrive hc.recording) c ↔ c ∈ (hc.async e.clock).map AsyncCall.call := happened_arrive hc e

theorem made_callback (hc : HostCode H) (e : Emu (H × List Event)) (cb : Callback) (c : HostCall) :
    e.Made hc (e.hostReturns (hc.recording.invoke e.host cb)) c ↔ c ∈ (hc.invoke e.host.1 cb).2 :=
  happened_callback hc e cb

theorem arrive_before (hc : HostCode H) (e : Emu (H × List Event)) : e.Before (e.arrive hc.recording) := by
  rw [arrive_eq]
  refine ⟨?_, ?_⟩
  · rw [foldl_clock]
    exact Nat.le_succ _
  · exact ⟨[], by rw [List.append_nil, foldl_host]⟩

theorem callback_before (hc : HostCode H) (e : Emu (H × List Event)) (cb : Callback) :
    e.Before (e.hostReturns (hc.recording.invoke e.host cb)) := by
  rw [hc.recording_invoke, hostReturns]
  refine ⟨?_, ?_⟩
  · have hcl := foldl_clock { e with host := (hc.record e.host cb).1 } (hc.record e.host cb).2
    exact Nat.le_of_eq hcl.symm
  · rw [foldl_host]
    exact List.prefix_append _ _

theorem steady_before (hc : HostCode H) (e₀ : Emu (H × List Event)) : Steady hc.recording e₀.Before :=
  steady_of_control (fun _ _ hc' h => h.congr hc') (fun e h => h.trans (arrive_before hc e))
    (fun e cb h => h.trans (callback_before hc e cb)) (fun _ h => ⟨h.clock, h.log⟩) fun _ h _ => ⟨h.clock, h.log⟩

/-- A whole `rk65c02_exec` leads to later states. -/
theorem execRun_before (hc : HostCode H) (e : Emu (H × List Event)) :
    (e.execRun hc.recording).Ends (e.asked hc.recording e.regs).Before := by
  have hS := steady_before hc (e.asked hc.recording e.regs)
  have hregs : ∀ (s : Emu (H × List Event)) r, (e.asked hc.recording e.regs).Before s →
      (e.asked hc.recording e.regs).Before { s with regs := r } := fun _ _ h => ⟨h.clock, h.log⟩
  refine hS.execRun hregs (.refl _) (fun _ _ h => ⟨h.clock, h.log⟩) (fun _ h => ⟨h.clock, h.log⟩)
    fun i r s _ hs => ?_
  exact hS.execInsn hregs hs _ i r (fun _ _ h => ⟨h.clock, h.log⟩) (fun _ _ h => ⟨h.clock, h.log⟩)
    fun _ _ h => ⟨h.clock, h.log⟩

theorem asked_before (hc : HostCode H) (e : Emu (H × List Event)) (r : Regs) :
    e.Before (e.asked hc.recording r) :=
  have h := arrive_before hc { e with regs := r }
  ⟨h.clock, h.log⟩

end Emu

end Rk65c02
