import Rk65c02.Debugging
import Mathlib.Data.List.Induction

/-! The breakpoint list as a set. An address is entered as often as it is added and leaves one
entry at a time, so the list is a set as long as no address is removed that stands in it twice. -/

namespace Rk65c02

open Resumption

variable {H : Type}

/-- The breakpoint calls; an addition succeeds if its entry can be allocated. -/
inductive BpCall
  | add (address : Addr) (allocated : Bool)
  | remove (address : Addr)
  deriving DecidableEq

def BpCall.address : BpCall → Addr
  | add a _ => a
  | remove a => a

/-- The list without the first entry of the address, if there is one. -/
def removeFirst (a : Addr) : List Addr → Option (List Addr)
  | [] => none
  | b :: bs => if b = a then some bs else (removeFirst a bs).map (b :: ·)

namespace Emu

def debugBreakpointRemove (e : Emu H) (a : Addr) : Bool × Emu H :=
  match removeFirst a e.bps with
  | none => (false, e)
  | some bps => (true, { e with bps := bps })

def debugBreakpointAdd (e : Emu H) (a : Addr) (allocated : Bool) : Bool × Emu H :=
  if allocated then (true, { e with bps := e.bps ++ [a] }) else (false, e)

def debugPCIsBreakpoint (e : Emu H) : Bool := e.bps.any fun b => b = e.regs.PC

def bpCall (e : Emu H) : BpCall → Bool × Emu H
  | .add a allocated => e.debugBreakpointAdd a allocated
  | .remove a => e.debugBreakpointRemove a

/-- Calls made in order, with what each returned. -/
def bpCalls (e : Emu H) (cs : List BpCall) : Emu H × List (BpCall × Bool) :=
  cs.foldl (fun s c => ((s.1.bpCall c).2, s.2 ++ [(c, (s.1.bpCall c).1)])) (e, [])

/-- The answer of `debug_PC_is_breakpoint` with `PC` at the address. -/
def isBreakpointAt (e : Emu H) (a : Addr) : Bool := debugPCIsBreakpoint { e with regs := { e.regs with PC := a } }

/-- The next `rk65c02_exec` stops at a breakpoint. -/
def StopsHere (hc : HostCode H) (e : Emu H) : Prop := ∃ r s, e.fetchRun hc = .ok (none, r) s

end Emu

/-- The last successful call that names the address. -/
def lastNaming (a : Addr) (log : List (BpCall × Bool)) : Option BpCall :=
  ((log.filter fun p => p.2 && p.1.address = a).getLast?).map Prod.fst

/-- After the calls the breakpoints are those added last, a removal would say whether there is
one, and where one has just been removed execution goes on. -/
structure Emu.BreakpointSet (e : Emu H) (cs : List BpCall) : Prop where
  standing : ∀ a, (e.bpCalls cs).1.isBreakpointAt a = true ↔ lastNaming a (e.bpCalls cs).2 = some (.add a true)
  returns : ∀ a, ((e.bpCalls cs).1.debugBreakpointRemove a).1 = true ↔ (e.bpCalls cs).1.isBreakpointAt a = true
  passes : ∀ ps a, cs = ps ++ [.remove a] → ((e.bpCalls ps).1.debugBreakpointRemove a).1 = true →
    ∀ (hc : HostCode H) (r : Regs), r.PC = a → Emu.takesIrq hc { (e.bpCalls cs).1 with regs := r } = false →
      ¬Emu.StopsHere hc { (e.bpCalls cs).1 with regs := r }

theorem removeFirst_eq (a : Addr) (bs : List Addr) :
    removeFirst a bs = if a ∈ bs then some (bs.erase a) else none := by
  induction bs with
  | nil => rfl
  | cons b bs ih =>
    by_cases hb : b = a
    · simp [removeFirst, hb]
    · have hb' : a ≠ b := fun h => hb h.symm
      by_cases ha : a ∈ bs <;> simp [removeFirst, ih, hb, hb', ha]

namespace Emu

variable {e : Emu H} {a b : Addr}

theorem isBreakpointAt_iff : e.isBreakpointAt a = true ↔ a ∈ e.bps := by
  simp [isBreakpointAt, debugPCIsBreakpoint]

theorem remove_returns : (e.debugBreakpointRemove a).1 = true ↔ a ∈ e.bps := by
  unfold debugBreakpointRemove
  rw [removeFirst_eq]
  by_cases ha : a ∈ e.bps <;> simp [ha]

/-- A callback's call does the same to the list. -/
theorem hostCall_breakpointRemove (e : Emu H) (a : Addr) :
    e.hostCall (.breakpointRemove a) = (e.debugBreakpointRemove a).2 := by
  unfold debugBreakpointRemove
  rw [removeFirst_eq]
  by_cases ha : a ∈ e.bps
  · simp [hostCall, ha]
  · simp [hostCall, ha, List.erase_of_not_mem ha]

theorem remove_bps : (e.debugBreakpointRemove a).2.bps = e.bps.erase a := by
  rw [← hostCall_breakpointRemove]
  rfl

theorem bpCalls_concat (e : Emu H) (cs : List BpCall) (c : BpCall) : e.bpCalls (cs ++ [c]) =
    (((e.bpCalls cs).1.bpCall c).2, (e.bpCalls cs).2 ++ [(c, ((e.bpCalls cs).1.bpCall c).1)]) := by
  rw [bpCalls, List.foldl_append]
  rfl

/-- Off a breakpoint the instruction is fetched. -/
theorem not_stopsHere {hc : HostCode H} (ht : e.takesIrq hc = false) (hb : e.regs.PC ∉ e.bps) :
    ¬e.StopsHere hc := by
  rintro ⟨r, s, hr⟩
  have hask : ((e.asked hc e.regs).asked hc e.regs).bps.contains e.regs.PC = false := by
    rw [asked, arrive_bps, asked, arrive_bps]
    simpa using hb
  rw [fetchRun_eq, ht, if_neg (by decide), fetchHere_run, Tree.run_op] at hr
  change Tree.run _ (if ((e.asked hc e.regs).asked hc e.regs).bps.contains e.regs.PC = true
    then _ else _) _ = _ at hr
  rw [hask, if_neg (by decide), Tree.run_op] at hr
  obtain ⟨_, s₁, -, hr⟩ := Out.of_bind_ok hr
  rw [StateT.run_map, map_eq_pure_bind, Tree.run_bind] at hr
  obtain ⟨v, s', -, hv⟩ := Out.of_bind_ok hr
  cases hv

end Emu

theorem lastNaming_concat (a : Addr) (log : List (BpCall × Bool)) (c : BpCall) (rv : Bool) :
    lastNaming a (log ++ [(c, rv)]) = if rv = true ∧ c.address = a then some c else lastNaming a log := by
  by_cases h : rv = true ∧ c.address = a
  · simp [lastNaming, h]
  · have hf : (rv && decide (c.address = a)) = false := by simpa using h
    simp [lastNaming, hf, if_neg h]

namespace Emu

variable {e : Emu H} {cs : List BpCall}

/-- The list agrees with the history at every address. -/
def Agrees (e : Emu H) (cs : List BpCall) : Prop :=
  ∀ a, a ∈ (e.bpCalls cs).1.bps ↔ lastNaming a (e.bpCalls cs).2 = some (.add a true)

theorem Agrees.add (h : e.Agrees cs) (a : Addr) (allocated : Bool) : e.Agrees (cs ++ [.add a allocated]) := by
  intro b
  rw [bpCalls_concat, lastNaming_concat]
  cases allocated with
  | false => exact h b
  | true =>
    change b ∈ (e.bpCalls cs).1.bps ++ [a] ↔ (if true = true ∧ a = b then _ else _) = _
    by_cases hb : a = b
    · simp [hb]
    · have hb' : b ≠ a := fun he => hb he.symm
      simp [hb, hb', h b]

theorem Agrees.remove {a : Addr} (h : e.Agrees cs) (hc : (e.bpCalls cs).1.bps.count a ≤ 1) :
    e.Agrees (cs ++ [.remove a]) := by
  intro b
  have hbps : ((e.bpCalls cs).1.bpCall (.remove a)).2.bps = (e.bpCalls cs).1.bps.erase a := remove_bps
  have hrv : ((e.bpCalls cs).1.bpCall (.remove a)).1 = true ↔ a ∈ (e.bpCalls cs).1.bps := remove_returns
  rw [bpCalls_concat, lastNaming_concat, hbps]
  simp only [hrv]
  by_cases hb : a = b
  · subst hb
    have hn : a ∉ (e.bpCalls cs).1.bps.erase a := by
      rw [← List.count_eq_zero, List.count_erase_self]
      omega
    by_cases hm : a ∈ (e.bpCalls cs).1.bps
    · simp [BpCall.address, hn, hm]
    · simp only [hn, hm, false_and, if_false, false_iff]
      exact mt (h a).mpr hm
  · have hb' : b ≠ a := fun he => hb he.symm
    simp only [BpCall.address, hb, and_false, if_false, List.mem_erase_of_ne hb']
    exact h b

/-- Where a removal leaves an entry, the list and the history disagree. -/
theorem not_agrees {a : Addr} (hc : 1 < (e.bpCalls cs).1.bps.count a) : ¬e.Agrees (cs ++ [.remove a]) := by
  intro h
  have hm : a ∈ (e.bpCalls cs).1.bps := List.count_pos_iff.mp (by omega)
  have hbps : ((e.bpCalls cs).1.bpCall (.remove a)).2.bps = (e.bpCalls cs).1.bps.erase a := remove_bps
  have hrv : ((e.bpCalls cs).1.bpCall (.remove a)).1 = true := remove_returns.mpr hm
  have hin : a ∈ (e.bpCalls cs).1.bps.erase a := by
    rw [← List.count_pos_iff, List.count_erase_self]
    omega
  have hh := h a
  rw [bpCalls_concat, lastNaming_concat, hrv, hbps] at hh
  simpa [BpCall.address] using hh.mp hin

theorem Agrees.breakpointSet (h : e.Agrees cs) : e.BreakpointSet cs where
  standing a := isBreakpointAt_iff.trans (h a)
  returns a := remove_returns.trans isBreakpointAt_iff.symm
  passes ps a hcs hrv hc r hr ht := by
    refine not_stopsHere ht fun hm => ?_
    have hh := (h a).mp (hr ▸ hm)
    have hl : ((e.bpCalls ps).1.bpCall (.remove a)).1 = true := hrv
    rw [hcs, bpCalls_concat, lastNaming_concat, hl] at hh
    simp [BpCall.address] at hh

end Emu

/-- From an empty list, the breakpoints are a set throughout exactly if no address is removed
while it stands in the list twice. -/
theorem breakpoints_set_iff (e : Emu H) (he : e.bps = []) (cs : List BpCall) :
    (∀ ps, ps <+: cs → e.BreakpointSet ps) ↔
      ∀ ps a, ps ++ [.remove a] <+: cs → (e.bpCalls ps).1.bps.count a ≤ 1 := by
  constructor
  · intro h ps a hp
    by_contra hc
    exact Emu.not_agrees (by omega) fun b => Emu.isBreakpointAt_iff.symm.trans ((h _ hp).standing b)
  · intro h ps hp
    refine Emu.Agrees.breakpointSet ?_
    induction ps using List.reverseRecOn with
    | nil => exact fun a => by simp [Emu.bpCalls, he, lastNaming]
    | append_singleton ps c ih =>
      have hps := ih ((List.prefix_append ps [c]).trans hp)
      cases c with
      | add a allocated => exact hps.add a allocated
      | remove a => exact hps.remove (h ps a hp)

/-- An emulator fresh from `rk65c02_init`. -/
def freshEmu : Emu Unit := init (ramBus fun _ => 0) () ⟨0, 0, 0, 0, 0, 0⟩

theorem breakpoints_set_removed : freshEmu.BreakpointSet [.add 0x0200 true, .remove 0x0200] := by
  refine (breakpoints_set_iff freshEmu rfl [.add 0x0200 true, .remove 0x0200]).mpr
    (fun ps a hp => ?_) _ (List.prefix_refl _)
  rcases ps with - | ⟨c, - | ⟨c', ps⟩⟩
  · simp at hp
  · obtain ⟨rfl, rfl⟩ : c = .add 0x0200 true ∧ a = 0x0200 := by simpa using hp
    decide +kernel
  · simp at hp

/-- An address added twice is still a breakpoint after a removal that returned true. -/
theorem removed_breakpoint_stands :
    ((freshEmu.bpCalls [.add 0x0200 true, .add 0x0200 true]).1.debugBreakpointRemove 0x0200).1 = true ∧
      (freshEmu.bpCalls [.add 0x0200 true, .add 0x0200 true, .remove 0x0200]).1.isBreakpointAt 0x0200 = true ∧
      lastNaming 0x0200 (freshEmu.bpCalls [.add 0x0200 true, .add 0x0200 true, .remove 0x0200]).2 =
      some (.remove 0x0200) := by
  decide +kernel

end Rk65c02
