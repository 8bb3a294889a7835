import Rk65c02.Debugging
import Rk65c02.FaultingStores
import Rk65c02.Inert
import Rk65c02.Recording
import Rk65c02.Tlb

/-! Faults of instruction fetches in `rk65c02_exec`. A refused fetch gives `0xFF`, and the
interpreter goes on to execute the instruction with it. -/

namespace Rk65c02

open Resumption

variable {H : Type}

/-- The fault callback was invoked. -/
def Event.isFault (ev : Event) : Bool :=
  match ev.callback with
  | .mmuFault _ _ _ _ => true
  | _ => false

/-- The request is a data access. -/
def Op.isData : Op → Bool
  | .read _ | .write _ _ => true
  | _ => false

theorem emul_of_operands : ∀ op : Byte, (instructionDecode op).mode.operands ≠ 0 →
    (instructionDecode op).emul ≠ .brk ∧ (instructionDecode op).emul ≠ .wai ∧
    (instructionDecode op).emul ≠ .stp :=
  forall_opcode (p := fun _ id => id.mode.operands ≠ 0 → id.emul ≠ .brk ∧ id.emul ≠ .wai ∧ id.emul ≠ .stp)
    (by decide +kernel)

/-- An instruction with operands begins with a data access, if it asks anything. -/
theorem exec_begins {i : Instruction} (h : (instructionDecode i.opcode).mode.operands ≠ 0) (r : Regs) :
    (∃ r', (i.emul.exec (instructionDecode i.opcode) i).run r = .done ((), r')) ∨
    ∃ o n k, (i.emul.exec (instructionDecode i.opcode) i).run r = .op o n k ∧ o.isData = true := by
  have ht := (instructionDecode i.opcode).emul.keeps (G := fun _ => True) i
    (instructionDecode_fits i.opcode) r trivial
  obtain ⟨hb, hw, hs⟩ := emul_of_operands i.opcode h
  unfold Instruction.emul
  cases hx : ((instructionDecode i.opcode).emul.exec (instructionDecode i.opcode) i).run r with
  | done v => exact .inl ⟨v.2, rfl⟩
  | stuck =>
    rw [hx] at ht
    exact ht.elim
  | op o n k =>
    rw [hx] at ht
    refine .inr ⟨o, n, k, rfl, ?_⟩
    cases o with
    | read a => rfl
    | write a v => rfl
    | ackIrq => exact absurd ht.1.1 hb
    | stop q =>
      rcases ht.1.1 with h | h
      · exact absurd h.1 hw
      · exact absurd h.1 hs
    | _ => exact ht.1.elim

namespace Emu

/-- How often the fault callback was invoked. -/
def faults (e : Emu (H × List Event)) : Nat := e.host.2.countP Event.isFault

/-- A fetch was the last access to fault, and the machine has stopped for it. -/
structure FaultedAt (a : Addr) (e : Emu H) : Prop where
  addr : e.mmuLastFaultAddr = a
  access : e.mmuLastFaultAccess = .fetch
  state : e.state = .stopped
  reason : e.stopreason = .emuerror
  reexec : e.mmu.faultReexec = true

section Calls

variable {e : Emu H} {a : Addr}

theorem hostCall_faultReexec (e : Emu H) (c : HostCall) : (e.hostCall c).mmu.faultReexec = e.mmu.faultReexec := by
  cases c with
  | assertIrq =>
    change (if _ then _ else _ : Emu H).mmu.faultReexec = _
    split <;> rfl
  | mmuSet t f en id =>
    change (mmuSet e t f en id).mmu.faultReexec = _
    unfold mmuSet
    split
    · rfl
    · obtain ⟨j, u, h⟩ :=
        jitInvalidate_frame { e with mmu := (e.mmu.set t f en id).refreshAccessors.tlbFlush } jitBackendFlush
      exact congrArg (fun e => e.mmu.faultReexec) h
  | mmuBeginUpdate =>
    change (Mmu.beginUpdate e.mmu).faultReexec = _
    unfold Mmu.beginUpdate
    split <;> rfl
  | mmuMarkChangedVpage p =>
    change (Mmu.markChangedVpage e.mmu p).faultReexec = _
    unfold Mmu.markChangedVpage
    split <;> rfl
  | mmuMarkChangedVrange p q =>
    change (Mmu.markChangedVrange e.mmu p q).faultReexec = _
    unfold Mmu.markChangedVrange
    split
    · rfl
    · dsimp only
      split <;> rfl
  | mmuEndUpdate =>
    change (mmuEndUpdate e).mmu.faultReexec = _
    unfold mmuEndUpdate
    split
    · rfl
    · unfold Mmu.endUpdate Mmu.flushChanged
      dsimp only
      split
      · rfl
      · split
        · rfl
        · split <;> rfl
  | mmuTlbSet b => cases b <;> rfl
  | jitEnable b => cases b <;> rfl
  | jitFlush =>
    obtain ⟨j, u, h⟩ := jitInvalidate_frame e jitBackendFlush
    exact congrArg (fun e => e.mmu.faultReexec) h
  | _ => rfl

theorem hostCall_lastFault (e : Emu H) (c : HostCall) :
    (e.hostCall c).mmuLastFaultAddr = e.mmuLastFaultAddr ∧
      (e.hostCall c).mmuLastFaultAccess = e.mmuLastFaultAccess := by
  by_cases ha : c = .assertIrq
  · subst ha
    change (if _ then _ else _ : Emu H).mmuLastFaultAddr = _ ∧ (if _ then _ else _ : Emu H).mmuLastFaultAccess = _
    split <;> exact ⟨rfl, rfl⟩
  by_cases hd : c = .deassertIrq
  · subst hd
    exact ⟨rfl, rfl⟩
  by_cases hq : c = .requestStop
  · subst hq
    exact ⟨rfl, rfl⟩
  obtain ⟨j, u, q, m, b, t, d, hx⟩ := e.hostCall_config ha hd hq
  rw [hx]
  exact ⟨rfl, rfl⟩

theorem FaultedAt.hostCall (h : e.FaultedAt a) (c : HostCall) : (e.hostCall c).FaultedAt a := by
  have hf := hostCall_frame e c
  have hl := hostCall_lastFault e c
  refine ⟨hl.1.trans h.addr, hl.2.trans h.access, ?_, hf.stopreason.trans h.reason,
    (hostCall_faultReexec e c).trans h.reexec⟩
  have hw : ¬(c = .assertIrq ∧ e.state = .stopped ∧ e.stopreason = .wai) := by
    rw [h.reason]
    exact fun hw => nomatch hw.2.2
  rw [hf.state, if_neg hw, h.state]

theorem FaultedAt.foldl (h : e.FaultedAt a) (cs : List HostCall) : (cs.foldl Emu.hostCall e).FaultedAt a :=
  List.foldlRecOn (motive := FaultedAt a) cs _ h fun _ h c _ => h.hostCall c

end Calls

/-- What fetches that succeed leave as it is. -/
structure Granted (e s : Emu (H × List Event)) : Prop where
  bus : s.bus = e.bus
  inJitRun : s.inJitRun = e.inJitRun
  faults : s.faults = e.faults
  faultedAt : ∀ a, e.FaultedAt a → s.FaultedAt a

section Granted

variable {hc : HostCode H} {e s s' : Emu (H × List Event)}

theorem Granted.refl (e : Emu (H × List Event)) : e.Granted e := ⟨rfl, rfl, rfl, fun _ h => h⟩

theorem Granted.trans (h : e.Granted s) (h' : s.Granted s') : e.Granted s' :=
  ⟨h'.bus.trans h.bus, h'.inJitRun.trans h.inJitRun, h'.faults.trans h.faults,
    fun a ha => h'.faultedAt a (h.faultedAt a ha)⟩

theorem Granted.foldl (e : Emu (H × List Event)) (cs : List HostCall) : e.Granted (cs.foldl Emu.hostCall e) :=
  ⟨foldl_bus e cs, foldl_inJitRun e cs, congrArg (fun h => h.2.countP Event.isFault) (foldl_host e cs),
    fun _ ha => ha.foldl cs⟩

theorem Granted.asked (hc : HostCode (H × List Event)) (e : Emu (H × List Event)) (r : Regs) :
    e.Granted (e.asked hc r) := by
  unfold Emu.asked
  rw [arrive_eq]
  exact .trans (s := { e with regs := r, clock := e.clock + 1 })
    ⟨rfl, rfl, rfl, fun _ ha => ⟨ha.addr, ha.access, ha.state, ha.reason, ha.reexec⟩⟩ (.foldl _ _)

theorem Granted.callback (hc : HostCode H) (e : Emu (H × List Event)) {c : Callback}
    (h : Event.isFault ⟨c, (hc.invoke e.host.1 c).2⟩ = false) :
    e.Granted (e.hostReturns (hc.record e.host c)) := by
  refine .trans (s := { e with host := (hc.record e.host c).1 }) ⟨rfl, rfl, ?_, fun _ ha =>
    ⟨ha.addr, ha.access, ha.state, ha.reason, ha.reexec⟩⟩ (.foldl _ _)
  change (e.host.2 ++ [_]).countP Event.isFault = e.host.2.countP Event.isFault
  rw [List.countP_append, List.countP_singleton, h]
  rfl

theorem Granted.deviceRead1 (hc : HostCode H) (e : Emu (H × List Event)) (d : Option (DevId × Addr)) :
    e.Granted (e.deviceRead1 hc.recording d).2 := by
  match d with
  | none => exact .refl e
  | some (d, off) =>
    unfold Emu.deviceRead1
    dsimp only
    split
    · exact .refl e
    · exact .callback hc e rfl

theorem Granted.disassembled (hc : HostCode H) (e : Emu (H × List Event)) (pc : Addr) :
    e.Granted (e.disassembled hc.recording pc) :=
  disassembled_keeps (I := e.Granted) (fun s _ h => h.trans (.deviceRead1 hc s _)) (.refl e) pc

theorem Granted.physRead1 (hc : HostCode H) (e : Emu (H × List Event)) (p : PAddr) :
    e.Granted (e.physRead1 hc.recording p).2 := by
  unfold Emu.physRead1 Emu.busRead1Phys
  by_cases hp : p.toNat < busSize
  · rw [if_pos hp]
    exact .deviceRead1 hc e _
  · rw [if_neg hp, if_neg hp]
    exact .deviceRead1 hc e _

theorem Granted.translate (hc : HostCode (H × List Event)) (e : Emu (H × List Event)) (a : Addr) (x : Access) :
    e.Granted (e.mmuTranslateAddr hc a x).2 := by
  obtain ⟨t, ht⟩ := e.mmu.translateAddr_tlb (hc.callback e.mmu e.host) a x x.reqPerm
  refine ⟨rfl, rfl, rfl, fun b hb => ⟨hb.addr, hb.access, hb.state, hb.reason, ?_⟩⟩
  change (e.mmu.translateAddr (hc.callback e.mmu e.host) a x x.reqPerm).2.faultReexec = true
  rw [ht]
  exact hb.reexec

/-- A fetch that is not refused. -/
theorem fetch_granted {a : Addr} {r : Regs} (h : ¬(e.asked hc.recording r).Refuses hc.recording (.fetch a)) :
    ∃ v s, handle hc.recording (.fetch a) r e = .ok v s ∧ e.Granted s := by
  have ha := Granted.asked hc.recording e r
  change ∃ v s, (e.asked hc.recording r).memRead1 hc.recording a .fetch = .ok v s ∧ _
  generalize e.asked hc.recording r = s at h ha ⊢
  unfold Emu.memRead1
  by_cases hm : s.mmu.accessors = true
  · rw [if_pos hm]
    have ht := Granted.translate hc.recording s a .fetch
    unfold memReadMmu
    cases hx : s.mmuTranslateAddr hc.recording a .fetch with
    | mk t s₁ =>
      rw [hx] at ht
      cases t with
      | error code => exact absurd ⟨hm, code, congrArg Prod.fst hx⟩ h
      | ok p => exact ⟨_, _, rfl, (ha.trans ht).trans (.physRead1 hc s₁ p)⟩
  · rw [if_neg hm]
    exact ⟨_, _, rfl, ha.trans (.deviceRead1 hc s _)⟩

theorem Granted.maybeCallOnStop (hc : HostCode H) (e : Emu (H × List Event)) :
    e.Granted (e.maybeCallOnStop hc.recording) := by
  unfold Emu.maybeCallOnStop
  split
  · exact .refl e
  · exact .callback hc e rfl

/-- What a refused fetch leaves as it is, and what it reports. -/
structure Refused (a : Addr) (e s : Emu (H × List Event)) : Prop where
  bus : s.bus = e.bus
  faults : s.faults = e.faults + 1
  addr : s.mmuLastFaultAddr = a
  access : s.mmuLastFaultAccess = .fetch

/-- The state when the fault callback has returned. -/
theorem fault_returns (hc : HostCode H) (e : Emu (H × List Event)) (a : Addr) (code : BitVec 16) (cb : Cb) :
    Refused a e ((e.faulted a .fetch code).hostReturns (hc.recording.mmuFault e.host cb a .fetch code)) ∧
    ((e.faulted a .fetch code).hostReturns (hc.recording.mmuFault e.host cb a .fetch code)).inJitRun =
      e.inJitRun ∧
    ((e.faulted a .fetch code).hostReturns (hc.recording.mmuFault e.host cb a .fetch code)).regs = e.regs ∧
    ((e.faulted a .fetch code).hostReturns (hc.recording.mmuFault e.host cb a .fetch code)).mmu.faultReexec =
      true := by
  have hl := foldl_kept (f := fun e : Emu (H × List Event) => (e.mmuLastFaultAddr, e.mmuLastFaultAccess))
    fun e c => Prod.ext (hostCall_lastFault e c).1 (hostCall_lastFault e c).2
  refine ⟨⟨foldl_bus _ _, ?_, congrArg Prod.fst (hl _ _), congrArg Prod.snd (hl _ _)⟩, foldl_inJitRun _ _,
    foldl_regs _ _, foldl_kept (f := fun e : Emu (H × List Event) => e.mmu.faultReexec) hostCall_faultReexec _ _⟩
  unfold Emu.faults
  rw [hostReturns, foldl_host]
  change (e.host.2 ++ [_]).countP Event.isFault = e.host.2.countP Event.isFault + 1
  rw [List.countP_append]
  rfl

theorem memRead1_refused {hc : HostCode H} {e : Emu H} {a : Addr} (h : e.Refuses hc (.fetch a)) :
    ∃ code, e.memRead1 hc a .fetch = (e.mmuFault hc a .fetch code).bind fun _ e => .ok 0xFF e := by
  obtain ⟨hm, code, ht⟩ := h
  refine ⟨code, ?_⟩
  rw [Emu.memRead1, if_pos hm, memReadMmu, mmuTranslateAddr_error ht]

/-- A refused fetch of the interpreter is answered, and the machine has stopped. -/
theorem fetch_refused {a : Addr} {r : Regs} (h : (e.asked hc.recording r).Refuses hc.recording (.fetch a))
    (hf : (e.asked hc.recording r).mmu.fault.isSome = true) (hj : e.inJitRun = false) :
    ∃ s, handle hc.recording (.fetch a) r e = .ok 0xFF s ∧ Refused a e s ∧ s.inJitRun = false ∧
    s.FaultedAt a := by
  have ha := Granted.asked hc.recording e r
  change ∃ s, (e.asked hc.recording r).memRead1 hc.recording a .fetch = .ok 0xFF s ∧ _
  generalize e.asked hc.recording r = s at h hf ha ⊢
  obtain ⟨code, hr⟩ := memRead1_refused h
  obtain ⟨cb, hcb⟩ := Option.isSome_iff_exists.mp hf
  obtain ⟨hx, hi, -, hm⟩ := fault_returns hc s a code cb
  rw [hr, mmuFault_eq, hcb]
  dsimp only [Option.elim]
  generalize (s.faulted a .fetch code).hostReturns (hc.recording.mmuFault s.host cb a .fetch code) =
    s₁ at hx hi hm ⊢
  have hj₁ : s₁.inJitRun = false := hi.trans (ha.inJitRun.trans hj)
  have hs : ∃ s₂, s₁.emuStopError hc.recording = .ok () s₂ ∧
      Granted { s₁ with state := .stopped, stopreason := .emuerror, stopRequested := false } s₂ := by
    unfold Emu.emuStopError
    dsimp only
    rw [if_neg (by rw [hj₁]; exact Bool.false_ne_true)]
    split
    · exact ⟨_, rfl, .maybeCallOnStop hc _⟩
    · exact ⟨_, rfl, .refl _⟩
  obtain ⟨s₂, he, hg⟩ := hs
  have hat := hg.faultedAt a ⟨hx.addr, hx.access, rfl, rfl, hm⟩
  rw [he]
  exact ⟨s₂, rfl, ⟨hg.bus.trans (hx.bus.trans ha.bus), hg.faults.trans
    (hx.faults.trans (congrArg (· + 1) ha.faults)),
    hat.addr, hat.access⟩, hg.inJitRun.trans hj₁, hat⟩

/-- Inside a compiled block it leaves the block. -/
theorem fetch_refused_exits {a : Addr} {r : Regs} (h : (e.asked hc.recording r).Refuses hc.recording (.fetch a))
    (hf : (e.asked hc.recording r).mmu.fault.isSome = true) (hj : e.inJitRun = true) :
    ∃ s, handle hc.recording (.fetch a) r e = .exit s ∧ Refused a e s ∧ s.regs = r := by
  have ha := Granted.asked hc.recording e r
  have hreg : (e.asked hc.recording r).regs = r := by
    unfold Emu.asked
    rw [arrive_eq, foldl_regs]
  change ∃ s, (e.asked hc.recording r).memRead1 hc.recording a .fetch = .exit s ∧ _
  generalize e.asked hc.recording r = s at h hf ha hreg ⊢
  obtain ⟨code, hr⟩ := memRead1_refused h
  obtain ⟨cb, hcb⟩ := Option.isSome_iff_exists.mp hf
  obtain ⟨hx, hi, hregs, -⟩ := fault_returns hc s a code cb
  rw [hr, mmuFault_eq, hcb]
  dsimp only [Option.elim]
  generalize (s.faulted a .fetch code).hostReturns (hc.recording.mmuFault s.host cb a .fetch code) =
    s₁ at hx hi hregs ⊢
  have hj₁ : s₁.inJitRun = true := hi.trans (ha.inJitRun.trans hj)
  unfold Emu.emuStopError
  dsimp only
  rw [if_pos hj₁]
  exact ⟨_, rfl, ⟨hx.bus.trans ha.bus, hx.faults.trans (congrArg (· + 1) ha.faults), hx.addr, hx.access⟩,
    hregs.trans hreg⟩

end Granted

section Refusals

variable {α : Type}

/-- The address of a fetch that is refused. -/
def refusedFetch (hc : HostCode H) (x : Op × Regs × Emu H) : Option Addr :=
  match x.1 with
  | .fetch a => if (x.2.2.asked hc x.2.1).Refuses hc (.fetch a) then some a else none
  | _ => none

/-- The fetches refused in a run, in their order. -/
def refused (hc : HostCode H) (t : CpuTree α) (s : Emu H) : List Addr :=
  (t.requests (handle hc) s).filterMap (refusedFetch hc)

/-- A fault callback is installed wherever a fetch is refused. -/
def FaultsHandled (hc : HostCode H) (t : CpuTree α) (s : Emu H) : Prop :=
  ∀ x ∈ t.requests (handle hc) s, (refusedFetch hc x).isSome = true →
    (x.2.2.asked hc x.2.1).mmu.fault.isSome = true

section Fetch

variable {hc : HostCode H} {e s : Emu H} {o : Op} {a : Addr} {r : Regs}

theorem refusedFetch_pos (h : (e.asked hc r).Refuses hc (.fetch a)) : refusedFetch hc (.fetch a, r, e) = some a :=
  if_pos h

theorem refusedFetch_neg (h : ¬(e.asked hc r).Refuses hc (.fetch a)) : refusedFetch hc (.fetch a, r, e) = none :=
  if_neg h

theorem refused_op_ok {k : o.Ret → CpuTree α} {v : o.Ret} (ho : handle hc o r e = .ok v s) :
    refused hc (.op o r k) e = (refusedFetch hc (o, r, e)).toList ++ refused hc (k v) s := by
  rw [refused, Tree.requests_ok ho, List.filterMap_cons]
  cases refusedFetch hc (o, r, e) <;> rfl

theorem refused_op_exit {k : o.Ret → CpuTree α} (ho : handle hc o r e = .exit s) :
    refused hc (.op o r k) e = (refusedFetch hc (o, r, e)).toList := by
  rw [refused, Tree.requests_exit ho, List.filterMap_cons]
  cases refusedFetch hc (o, r, e) <;> rfl

theorem FaultsHandled.next {k : o.Ret → CpuTree α} {v : o.Ret} (h : FaultsHandled hc (.op o r k) e)
    (ho : handle hc o r e = .ok v s) : FaultsHandled hc (k v) s := by
  intro x hx
  refine h x ?_
  rw [Tree.requests_ok ho]
  exact .tail _ hx

theorem FaultsHandled.here {k : o.Ret → CpuTree α} (h : FaultsHandled hc (.op o r k) e)
    (hr : (refusedFetch hc (o, r, e)).isSome = true) : (e.asked hc r).mmu.fault.isSome = true := by
  refine h (o, r, e) ?_ hr
  rw [Tree.requests]
  exact .head _

end Fetch

section Runs

variable {hc : HostCode H} {e s s' : Emu (H × List Event)} {l l' : List Addr} {t : CpuTree α}
    {q : α → Prop} {r : Regs}

/-- What fetches of the interpreter lead to, when those of `l` are refused. -/
structure Fetched (l : List Addr) (e s : Emu (H × List Event)) : Prop where
  bus : s.bus = e.bus
  inJitRun : s.inJitRun = false
  faults : s.faults = e.faults + l.length
  last : ∀ a, l.getLast? = some a ∨ l = [] ∧ e.FaultedAt a → s.FaultedAt a

theorem Fetched.trans (h : Fetched l e s) (h' : Fetched l' s s') : Fetched (l ++ l') e s' := by
  refine ⟨h'.bus.trans h.bus, h'.inJitRun, ?_, fun a ha => h'.last a ?_⟩
  · rw [h'.faults, h.faults, List.length_append, Nat.add_assoc]
  · cases l' with
    | nil =>
      rw [List.append_nil] at ha
      exact .inr ⟨rfl, h.last a ha⟩
    | cons b bs =>
      refine .inl ?_
      rcases ha with ha | ha
      · rwa [List.getLast?_append_of_ne_nil _ (List.cons_ne_nil b bs)] at ha
      · cases List.append_eq_nil_iff.1 ha.1 |>.2

theorem Granted.fetched (h : e.Granted s) (hj : e.inJitRun = false) : Fetched [] e s :=
  ⟨h.bus, h.inJitRun.trans hj, h.faults, fun a ha => h.faultedAt a (ha.elim (fun h => nomatch h) And.right)⟩

theorem fetches_step {o : Op} {k : o.Ret → CpuTree α} (ho : FetchAsks (fun _ => True) o r)
    (hj : e.inJitRun = false) (hf : FaultsHandled hc.recording (.op o r k) e) :
    ∃ v s, handle hc.recording o r e = .ok v s ∧ Fetched (refusedFetch hc.recording (o, r, e)).toList e s := by
  cases o with
  | isBreakpoint pc => exact ⟨_, _, rfl, (Granted.asked hc.recording e r).fetched hj⟩
  | disassemble pc =>
    exact ⟨_, _, rfl, ((Granted.asked hc.recording e r).trans (.disassembled hc _ pc)).fetched hj⟩
  | fetch a =>
    by_cases h : (e.asked hc.recording r).Refuses hc.recording (.fetch a)
    · have hr := refusedFetch_pos h
      obtain ⟨s, hs, hx, hi, hat⟩ := fetch_refused h (hf.here (by rw [hr]; rfl)) hj
      rw [hr]
      refine ⟨_, s, hs, hx.bus, hi, hx.faults, fun b hb => ?_⟩
      rcases hb with hb | hb
      · cases hb
        exact hat
      · cases hb.1
    · obtain ⟨v, s, hs, hg⟩ := fetch_granted h
      rw [refusedFetch_neg h]
      exact ⟨v, s, hs, hg.fetched hj⟩
  | _ => exact ho.elim

/-- Fetches of the interpreter are all answered, refused or not. -/
theorem fetches_run (ht : t.Sat (FetchAsks fun _ => True) q) (hj : e.inJitRun = false)
    (hf : FaultsHandled hc.recording t e) :
    ∃ v s, t.run (handle hc.recording) e = .ok v s ∧ Fetched (refused hc.recording t e) e s := by
  induction t generalizing e with
  | done v => exact ⟨v, e, rfl, (Granted.refl e).fetched hj⟩
  | stuck => exact ht.elim
  | op o r k ih =>
    obtain ⟨v, s, ho, hs⟩ := fetches_step ht.1 hj hf
    obtain ⟨w, s', hr, hs'⟩ := ih v (ht.2 v) hs.inJitRun (hf.next ho)
    refine ⟨w, s', ?_, ?_⟩
    · rw [Tree.run_op, ho]
      exact hr
    · rw [refused_op_ok ho]
      exact hs.trans hs'

/-- Inside a compiled block the first refusal ends them. -/
theorem fetches_exit {p : Op → Regs → Prop} (ht : t.Sat p q)
    (hp : ∀ o n, p o n → FetchAsks (fun _ => True) o n ∧ n = r)
    (hj : e.inJitRun = true) (hf : FaultsHandled hc.recording t e) (hr : refused hc.recording t e ≠ []) :
    ∃ a s, refused hc.recording t e = [a] ∧ t.run (handle hc.recording) e = .exit s ∧
    Refused a e s ∧ s.regs = r := by
  induction t generalizing e with
  | done v => exact absurd rfl hr
  | stuck => exact ht.elim
  | op o n k ih =>
    obtain ⟨ho, rfl⟩ := hp o n ht.1
    have hgo : ∀ v s, handle hc.recording o n e = .ok v s → e.Granted s →
      refusedFetch hc.recording (o, n, e) = none →
        ∃ a s, refused hc.recording (.op o n k) e = [a] ∧ (Tree.op o n k).run (handle hc.recording) e = .exit s ∧
          Refused a e s ∧ s.regs = n := by
      intro v s hs hg hn
      have hl := refused_op_ok (k := k) hs
      rw [hn] at hl
      rw [hl] at hr ⊢
      obtain ⟨a, s', hl', hx, hd, hregs⟩ := ih v (ht.2 v) (hg.inJitRun.trans hj) (hf.next hs) hr
      refine ⟨a, s', hl', ?_, ⟨hd.bus.trans hg.bus, ?_, hd.addr, hd.access⟩, hregs⟩
      · rw [Tree.run_op, hs]
        exact hx
      · rw [hd.faults, hg.faults]
    cases o with
    | isBreakpoint pc => exact hgo _ _ rfl (Granted.asked hc.recording e n) rfl
    | disassemble pc => exact hgo _ _ rfl ((Granted.asked hc.recording e n).trans (.disassembled hc _ pc)) rfl
    | fetch a =>
      by_cases h : (e.asked hc.recording n).Refuses hc.recording (.fetch a)
      · have hn := refusedFetch_pos h
        obtain ⟨s, hs, hx, hregs⟩ := fetch_refused_exits h (hf.here (by rw [hn]; rfl)) hj
        refine ⟨a, s, ?_, ?_, hx, hregs⟩
        · rw [refused_op_exit hs, hn]
          rfl
        · rw [Tree.run_op, hs]
          rfl
      · obtain ⟨v, s, hs, hg⟩ := fetch_granted h
        exact hgo v s hs hg (refusedFetch_neg h)
    | _ => exact ho.elim

end Runs

section Exec

variable {hc : HostCode H} {e s : Emu H} {r : Regs}

theorem refused_bind_ok {β : Type} {t : CpuTree α} {f : α → CpuTree β} {v : α}
    (hr : t.run (handle hc) e = .ok v s) :
    refused hc (t >>= f) e = refused hc t e ++ refused hc (f v) s := by
  rw [refused, Tree.requests_bind_ok hr, List.filterMap_append]
  rfl

theorem refused_nil {t : CpuTree α} {p : Op → Regs → Prop} {q : α → Prop} (ht : t.Sat p q)
    (hp : ∀ o n, p o n → ∀ a, o ≠ .fetch a) : refused hc t e = [] := by
  refine List.filterMap_eq_nil_iff.2 fun x hx => ?_
  have ho := hp _ _ (ht.requests hx)
  obtain ⟨o, n, s⟩ := x
  cases o with
  | fetch a => exact absurd rfl (ho a)
  | _ => rfl

/-- The part of `instruction_fetch` after the opcode. -/
def fetchOperands (a : Addr) (op : Byte) : Cpu Instruction :=
  match (instructionDecode op).mode.operands with
  | 0 => return ⟨op, 0, 0⟩
  | 1 => do return ⟨op, ← memFetch1 (a + 1), 0⟩
  | _ => do return ⟨op, ← memFetch1 (a + 1), ← memFetch1 (a + 2)⟩

theorem fetchInsn_run (a : Addr) (r : Regs) : (some <$> instructionFetchEmu a).run r =
    .op (.fetch a) r fun op : Byte => (some <$> fetchOperands a op).run r := rfl

theorem fetchOperands_asks (a : Addr) (op : Byte) (r : Regs) : ((some <$> fetchOperands a op).run r).Sat
    (fun o n => FetchAsks (fun _ => True) o n ∧ n = r) fun v => v.2 = r ∧ ∃ i, v.1 = some i ∧ i.opcode = op := by
  unfold fetchOperands
  split
  · exact ⟨rfl, _, rfl, rfl⟩
  · exact ⟨⟨trivial, rfl⟩, fun _ => ⟨rfl, _, rfl, rfl⟩⟩
  · exact ⟨⟨trivial, rfl⟩, fun _ => ⟨⟨trivial, rfl⟩, fun _ => ⟨rfl, _, rfl, rfl⟩⟩⟩

theorem fetchInsn_asks (a : Addr) (r : Regs) : ((some <$> instructionFetchEmu a).run r).Sat
    (fun o n => FetchAsks (fun _ => True) o n ∧ n = r) fun v => v.2 = r ∧ ∃ i, v.1 = some i := by
  rw [fetchInsn_run]
  refine ⟨⟨trivial, rfl⟩, fun op => (fetchOperands_asks a op r).mono (fun _ _ h => h) fun v hv => ?_⟩
  obtain ⟨i, hi, -⟩ := hv.2
  exact ⟨hv.1, i, hi⟩

theorem fetchOperands_none {a : Addr} {op : Byte} (h : (instructionDecode op).mode.operands = 0) (r : Regs)
    (e : Emu H) : refused hc ((some <$> fetchOperands a op).run r) e = [] := by
  unfold fetchOperands
  rw [h]
  rfl

end Exec

section Instruction

variable {hc : HostCode H} {e s : Emu (H × List Event)} {a : Addr} {r r' : Regs} {i : Instruction}

theorem operands_refused : (instructionDecode 0xFF).mode.operands = 2 := rfl

/-- An instruction of which a byte was refused has operands, `0xFF` being one that has, and if it
has one it reads as `0xFF`. -/
theorem fetchInsn_operands (hj : e.inJitRun = false)
    (hf : FaultsHandled hc.recording ((some <$> instructionFetchEmu a).run r) e)
    (hl : refused hc.recording ((some <$> instructionFetchEmu a).run r) e ≠ [])
    (hr : ((some <$> instructionFetchEmu a).run r).run (handle hc.recording) e = .ok (some i, r') s) :
    (instructionDecode i.opcode).mode.operands ≠ 0 ∧
    ((instructionDecode i.opcode).mode.operands = 1 → i.op1 = 0xFF) := by
  rw [fetchInsn_run] at hf hl hr
  obtain ⟨op, s₁, ho, hk⟩ := Out.of_bind_ok hr
  obtain ⟨-, i', hi', hop⟩ := (fetchOperands_asks a op r).run_ok hk
  cases hi'
  rw [hop]
  by_cases h : (e.asked hc.recording r).Refuses hc.recording (.fetch a)
  · obtain ⟨s₂, hs, -⟩ := fetch_refused h (hf.here (by rw [refusedFetch_pos h]; rfl)) hj
    cases hs.symm.trans ho
    rw [operands_refused]
    exact ⟨by decide, fun hone => absurd hone (by decide)⟩
  · obtain ⟨v, s₂, hs, hg⟩ := fetch_granted h
    cases hs.symm.trans ho
    rw [refused_op_ok ho, refusedFetch_neg h] at hl
    refine ⟨fun hz => hl (fetchOperands_none hz r s₁), fun hone => ?_⟩
    have hrun : (some <$> fetchOperands a op).run r =
        .op (.fetch (a + 1)) r fun v : Byte => .done (some ⟨op, v, 0⟩, r) := by
      unfold fetchOperands
      rw [hone]
      rfl
    have hf' := hf.next ho
    dsimp only at hl hk hf'
    rw [hrun] at hl hk hf'
    by_cases h₁ : (s₁.asked hc.recording r).Refuses hc.recording (.fetch (a + 1))
    · obtain ⟨s₃, hs₃, -⟩ := fetch_refused h₁ (hf'.here (by rw [refusedFetch_pos h₁]; rfl)) (hg.inJitRun.trans hj)
      rw [Tree.run_op, hs₃] at hk
      cases hk
      rfl
    · obtain ⟨v, s₃, hs₃, -⟩ := fetch_granted h₁
      rw [refused_op_ok hs₃, refusedFetch_neg h₁] at hl
      exact absurd rfl hl

theorem trace_run (hc : HostCode H) (tpc : Addr) (i : Instruction) (r : Regs) (s : Emu (H × List Event)) :
    ∃ s', handle hc.recording (.trace tpc i r) r s = .ok () s' ∧ s'.bus = s.bus ∧ s'.faults = s.faults ∧
      s'.mmuLastFaultAddr = s.mmuLastFaultAddr ∧ s'.mmuLastFaultAccess = s.mmuLastFaultAccess := by
  obtain ⟨q, st, w, ha⟩ := arrive_frame hc.recording { s with regs := r }
  refine ⟨_, rfl, ?_⟩
  rw [ha]
  unfold Emu.tracePush
  split <;> exact ⟨rfl, rfl, rfl, rfl⟩

/-- After a refused fetch `PC` does not move past the instruction. -/
theorem execInsn_faulted (hc : HostCode H) (tpc : Addr) (h : s.FaultedAt a)
    (hi : (i.emul.exec (instructionDecode i.opcode) i).run r = .done ((), r')) :
    (∃ s', ((execInsn tpc i).run r).run (handle hc.recording) s = .ok ((), r') s' ∧ s'.bus = s.bus ∧
      s'.faults = s.faults ∧ s'.mmuLastFaultAddr = a ∧ s'.mmuLastFaultAccess = .fetch) ∧
    ∀ x ∈ ((execInsn tpc i).run r).requests (handle hc.recording) s, x.1.isData = false := by
  have hx : ∃ k : Bool → CpuTree (Unit × Regs), (execInsn tpc i).run r = .op .reexec r' k ∧
      k true = .op (.trace tpc i r') r' fun _ => .done ((), r') := by
    unfold execInsn
    dsimp only
    rw [StateT.run_bind,
      show ((instructionDecode i.opcode).emul.exec (instructionDecode i.opcode) i).run r = _ from hi]
    exact ⟨_, rfl, rfl⟩
  obtain ⟨k, hx, hk⟩ := hx
  have hat := (Granted.asked hc.recording s r').faultedAt a h
  have ho : handle hc.recording .reexec r' s = .ok true { s.asked hc.recording r' with
      mmu := { (s.asked hc.recording r').mmu with faultReexec := false } } := if_pos ⟨hat.state, hat.reexec⟩
  have hg := Granted.asked hc.recording s r'
  rw [hx]
  generalize s.asked hc.recording r' = s₁ at hat ho hg
  constructor
  · obtain ⟨s', ht, hb, hc', hl, hm⟩ :=
      trace_run hc tpc i r' { s₁ with mmu := { s₁.mmu with faultReexec := false } }
    refine ⟨s', ?_, hb.trans hg.bus, hc'.trans hg.faults, hl.trans hat.addr, hm.trans hat.access⟩
    rw [Tree.run_op, ho, Out.ok_bind, hk, Tree.run_op, ht]
    rfl
  · rw [Tree.requests_ok ho, hk, Tree.requests_ok rfl]
    intro x hm
    rcases List.mem_cons.1 hm with rfl | hm
    · rfl
    · cases List.mem_singleton.1 hm
      rfl

end Instruction

section Exec

variable {hc : HostCode H} {e : Emu H}

/-- `rk65c02_exec` from the fetch on. -/
def insnTree (r : Regs) : CpuTree (Unit × Regs) :=
  (some <$> instructionFetchEmu r.PC).run r >>= fun v => (execRest r.PC v.1).run v.2

theorem exec_tree (r : Regs) : ∃ k : Bool → CpuTree (Unit × Regs), Rk65c02.exec.run r = .op .irq r k ∧
    ∀ b, (b && !r.flag pIrqDisable) = false → k b = .op (.isBreakpoint r.PC) r fun b : Bool =>
      if b = true then (execRest r.PC none).run r else .op (.disassemble r.PC) r fun _ => insnTree r := by
  rw [exec_eq]
  simp only [StateT.run_bind, StateT.run_get, Tree.pure_eq, Tree.done_bind, execFetch_run, Tree.op_bind]
  refine ⟨_, rfl, fun b hb => ?_⟩
  rw [hb, if_neg Bool.false_ne_true, fetchHere_run]
  refine congrArg (Tree.op _ r) (funext fun b : Bool => ?_)
  cases b <;> rfl

/-- The state in which `rk65c02_exec` has found no breakpoint. -/
def offBreakpoint (hc : HostCode H) (e : Emu H) : Emu H := (e.asked hc e.regs).asked hc e.regs

/-- The state in which the instruction is fetched. -/
def atFetch (hc : HostCode H) (e : Emu H) : Emu H :=
  ((e.offBreakpoint hc).asked hc e.regs).disassembled hc e.regs.PC

theorem offBreakpoint_bps (hc : HostCode H) (e : Emu H) : (e.offBreakpoint hc).bps = e.bps := by
  unfold offBreakpoint asked
  rw [arrive_bps, arrive_bps]

theorem atFetch_tree (ht : e.takesIrq hc = false) : ∃ k l : Bool → CpuTree (Unit × Regs),
    Rk65c02.exec.run e.regs = .op .irq e.regs k ∧
    handle hc .irq e.regs e = .ok (e.asked hc e.regs).irq (e.asked hc e.regs) ∧
    k (e.asked hc e.regs).irq = .op (.isBreakpoint e.regs.PC) e.regs l ∧
    handle hc (.isBreakpoint e.regs.PC) e.regs (e.asked hc e.regs) =
      .ok (e.bps.contains e.regs.PC) (e.offBreakpoint hc) ∧
    l true = (execRest e.regs.PC none).run e.regs ∧
    l false = .op (.disassemble e.regs.PC) e.regs fun _ => insnTree e.regs := by
  obtain ⟨k, hk, hn⟩ := exec_tree e.regs
  have ho : handle hc (.isBreakpoint e.regs.PC) e.regs (e.asked hc e.regs) =
      .ok ((e.offBreakpoint hc).bps.contains e.regs.PC) (e.offBreakpoint hc) := rfl
  rw [offBreakpoint_bps] at ho
  exact ⟨k, _, hk, rfl, hn _ ht, ho, rfl, rfl⟩

theorem disassemble_atFetch (hc : HostCode H) (e : Emu H) :
    handle hc (.disassemble e.regs.PC) e.regs (e.offBreakpoint hc) = .ok () (e.atFetch hc) := rfl

/-- No byte is fetched at a breakpoint. -/
theorem not_breakpoint (ht : e.takesIrq hc = false) (hr : refused hc (Rk65c02.exec.run e.regs) e ≠ []) :
    e.bps.contains e.regs.PC = false := by
  obtain ⟨k, l, hk, hi, hl, ho, hs, -⟩ := atFetch_tree ht
  cases hb : e.bps.contains e.regs.PC with
  | false => rfl
  | true =>
    rw [hb] at ho
    rw [hk, refused_op_ok hi, hl, refused_op_ok ho, hs] at hr
    exact absurd rfl hr

theorem exec_requests (ht : e.takesIrq hc = false) (hb : e.bps.contains e.regs.PC = false) :
    (Rk65c02.exec.run e.regs).requests (handle hc) e =
      (.irq, e.regs, e) :: (.isBreakpoint e.regs.PC, e.regs, e.asked hc e.regs) ::
        (.disassemble e.regs.PC, e.regs, e.offBreakpoint hc) ::
          (insnTree e.regs).requests (handle hc) (e.atFetch hc) := by
  obtain ⟨k, l, hk, hi, hl, ho, -, hs⟩ := atFetch_tree ht
  rw [hb] at ho
  rw [hk, Tree.requests_ok hi, hl, Tree.requests_ok ho, hs, Tree.requests_ok (disassemble_atFetch hc e)]

theorem execRun_atFetch (ht : e.takesIrq hc = false) (hb : e.bps.contains e.regs.PC = false) :
    e.execRun hc = (insnTree e.regs).run (handle hc) (e.atFetch hc) := by
  obtain ⟨k, l, hk, hi, hl, ho, -, hs⟩ := atFetch_tree ht
  rw [hb] at ho
  rw [execRun, hk, Tree.run_op, hi, Out.ok_bind, hl, Tree.run_op, ho, Out.ok_bind, hs, Tree.run_op,
    disassemble_atFetch, Out.ok_bind]

theorem fetchRun_atFetch (ht : e.takesIrq hc = false) (hb : e.bps.contains e.regs.PC = false) :
    e.fetchRun hc = ((some <$> instructionFetchEmu e.regs.PC).run e.regs).run (handle hc) (e.atFetch hc) := by
  rw [fetchRun_eq, ht, if_neg Bool.false_ne_true, fetchHere_run, Tree.run_op]
  change Tree.run (handle hc) (if (e.offBreakpoint hc).bps.contains e.regs.PC = true then _ else _)
    (e.offBreakpoint hc) = _
  rw [offBreakpoint_bps, hb, if_neg Bool.false_ne_true, Tree.run_op, disassemble_atFetch, Out.ok_bind]

theorem fetch_mem_requests {r : Regs} {x : Op × Regs × Emu H}
    (hx : x ∈ ((some <$> instructionFetchEmu r.PC).run r).requests (handle hc) e) :
    x ∈ (insnTree r).requests (handle hc) e := by
  unfold insnTree
  cases hr : ((some <$> instructionFetchEmu r.PC).run r).run (handle hc) e with
  | ok v s =>
    rw [Tree.requests_bind_ok hr]
    exact List.mem_append_left _ hx
  | exit s => rwa [Tree.requests_bind_ended fun v s' ho => nomatch hr.symm.trans ho]
  | stuck => rwa [Tree.requests_bind_ended fun v s' ho => nomatch hr.symm.trans ho]

theorem FaultsHandled.fetch (hf : FaultsHandled hc (Rk65c02.exec.run e.regs) e) (ht : e.takesIrq hc = false)
    (hb : e.bps.contains e.regs.PC = false) :
    FaultsHandled hc ((some <$> instructionFetchEmu e.regs.PC).run e.regs) (e.atFetch hc) := by
  intro x hx
  refine hf x ?_
  rw [exec_requests ht hb]
  exact .tail _ (.tail _ (.tail _ (fetch_mem_requests hx)))

theorem insnTree_refused (r : Regs) (e : Emu H) :
    refused hc (insnTree r) e = refused hc ((some <$> instructionFetchEmu r.PC).run r) e := by
  unfold insnTree
  cases hr : ((some <$> instructionFetchEmu r.PC).run r).run (handle hc) e with
  | ok v s =>
    obtain ⟨i, hi⟩ := ((fetchInsn_asks r.PC r).run_ok hr).2
    have hs := execInsn_keeps (G := fun _ => True) r.PC i v.2 trivial
    have hn : refused hc ((execRest r.PC v.1).run v.2) s = [] := by
      rw [hi]
      refine refused_nil hs fun o n ho a => ?_
      rintro rfl
      rcases ho with ho | ⟨ho, -⟩ | ⟨t, ho, -⟩
      · exact ho.elim
      · cases ho
      · cases ho
    rw [refused_bind_ok hr, hn, List.append_nil]
  | exit s =>
    rw [refused, Tree.requests_bind_ended fun v s' ho => nomatch hr.symm.trans ho]
    rfl
  | stuck =>
    rw [refused, Tree.requests_bind_ended fun v s' ho => nomatch hr.symm.trans ho]
    rfl

/-- The bytes of the instruction at `PC` whose fetch by `rk65c02_exec` is refused. -/
def refusedBytes (hc : HostCode H) (e : Emu H) : List Addr := refused hc (Rk65c02.exec.run e.regs) e

theorem refusedBytes_eq (ht : e.takesIrq hc = false) (hb : e.bps.contains e.regs.PC = false) : e.refusedBytes hc =
    refused hc ((some <$> instructionFetchEmu e.regs.PC).run e.regs) (e.atFetch hc) := by
  rw [refusedBytes, ← insnTree_refused, refused, exec_requests ht hb]
  rfl

end Exec

section Effects

variable {hc : HostCode H} {e : Emu (H × List Event)} {a : Addr} {as : List Addr}

/-- `rk65c02_exec` changes neither registers nor memory, accesses no data, invokes the fault
callback once and reports the fetch at `a`. -/
structure ExecutesNothing (hc : HostCode H) (e : Emu (H × List Event)) (a : Addr) : Prop where
  accesses : ∀ x ∈ (Rk65c02.exec.run e.regs).requests (handle hc.recording) e, x.1.isData = false
  ends : ∃ s, (e.exec hc.recording = .ok () s ∨ e.exec hc.recording = .exit s) ∧ s.regs = e.regs ∧ s.bus = e.bus ∧
    s.faults = e.faults + 1 ∧ s.mmuLastFaultAddr = a ∧ s.mmuLastFaultAccess = .fetch

theorem Granted.atFetch (hc : HostCode H) (e : Emu (H × List Event)) : e.Granted (e.atFetch hc.recording) :=
  ((Granted.asked _ e e.regs).trans (.asked _ _ e.regs)).trans
    ((Granted.asked _ _ e.regs).trans (.disassembled hc _ _))

/-- What comes before the fetch accesses no data, and neither does the fetch. -/
theorem exec_not_data {hc : HostCode H} {e : Emu H} (ht : e.takesIrq hc = false)
    (hb : e.bps.contains e.regs.PC = false)
    (hi : ∀ x ∈ (insnTree e.regs).requests (handle hc) (e.atFetch hc), x.1.isData = false) :
    ∀ x ∈ (Rk65c02.exec.run e.regs).requests (handle hc) e, x.1.isData = false := by
  intro x hm
  rw [exec_requests ht hb] at hm
  simp only [List.mem_cons] at hm
  obtain rfl | rfl | rfl | hm := hm
  · rfl
  · rfl
  · rfl
  · exact hi x hm

theorem fetch_not_data {x : Op × Regs × Emu H} {r : Regs} {hc : HostCode H} {e : Emu H}
    (hx : x ∈ ((some <$> instructionFetchEmu r.PC).run r).requests (handle hc) e) : x.1.isData = false := by
  obtain ⟨o, n, s⟩ := x
  have ho := ((fetchInsn_asks r.PC r).requests hx).1
  cases o <;> first | rfl | exact ho.elim

variable (ht : e.takesIrq hc.recording = false) (hb : e.bps.contains e.regs.PC = false)
  (hf : FaultsHandled hc.recording (Rk65c02.exec.run e.regs) e) (hr : e.refusedBytes hc.recording = a :: as)

include ht hb hf hr

/-- Inside a compiled block a refused fetch does nothing else. -/
theorem executesNothing_block (hj : e.inJitRun = true) : e.ExecutesNothing hc a := by
  have hg := Granted.atFetch hc e
  rw [refusedBytes_eq ht hb] at hr
  obtain ⟨b, s, hl, hx, hd, hregs⟩ := fetches_exit (fetchInsn_asks _ _) (fun _ _ h => h) (hg.inJitRun.trans hj)
    (hf.fetch ht hb) (by rw [hr]; exact List.cons_ne_nil a as)
  cases hr.symm.trans hl
  refine ⟨exec_not_data ht hb fun x hm => ?_, s, .inr ?_, hregs, hd.bus.trans hg.bus, ?_, hd.addr, hd.access⟩
  · unfold insnTree at hm
    rw [Tree.requests_bind_ended fun v s' ho => nomatch hx.symm.trans ho] at hm
    exact fetch_not_data hm
  · change putRegs (e.execRun hc.recording) = _
    rw [execRun_atFetch ht hb, insnTree, Tree.run_bind, hx]
    rfl
  · rw [hd.faults, hg.faults]

/-- The interpreter executes the instruction with `0xFF` for what was refused. -/
theorem executesNothing_interpreted (hj : e.inJitRun = false) :
    e.ExecutesNothing hc a ↔ as = [] ∧ ∃ i, e.fetched hc.recording = some i ∧ i.Inert e.regs := by
  have hg := Granted.atFetch hc e
  rw [refusedBytes_eq ht hb] at hr
  obtain ⟨v, s, hx, hs⟩ := fetches_run ((fetchInsn_asks _ _).mono (fun _ _ h => h.1) fun _ h => h)
    (hg.inJitRun.trans hj) (hf.fetch ht hb)
  obtain ⟨v, r⟩ := v
  obtain ⟨hv, i, hi⟩ := (fetchInsn_asks _ _).run_ok hx
  dsimp only at hv hi
  subst hv hi
  obtain ⟨hop, -⟩ := fetchInsn_operands (hg.inJitRun.trans hj) (hf.fetch ht hb)
    (by rw [hr]; exact List.cons_ne_nil a as) hx
  have hfetched : e.fetched hc.recording = some i := by
    rw [fetched, fetchRun_atFetch ht hb, hx]
  have hrun : e.execRun hc.recording = ((execInsn e.regs.PC i).run e.regs).run (handle hc.recording) s := by
    rw [execRun_atFetch ht hb, insnTree, Tree.run_bind, hx]
    rfl
  have hreq : (insnTree e.regs).requests (handle hc.recording) (e.atFetch hc.recording) =
      ((some <$> instructionFetchEmu e.regs.PC).run e.regs).requests (handle hc.recording)
        (e.atFetch hc.recording) ++
        ((execInsn e.regs.PC i).run e.regs).requests (handle hc.recording) s := Tree.requests_bind_ok hx
  rcases exec_begins hop e.regs with ⟨r', hd⟩ | ⟨o, n, k, hd, ho⟩
  · obtain ⟨b, hlast⟩ : ∃ b, (a :: as).getLast? = some b := ⟨_, List.getLast?_cons⟩
    rw [hr] at hs
    obtain ⟨⟨s', he, hbus, hfa, had, hac⟩, hacc⟩ := execInsn_faulted hc e.regs.PC (hs.last b (.inl hlast)) hd
    have hexec : e.exec hc.recording = .ok () { s' with regs := r' } := by
      change putRegs (e.execRun hc.recording) = _
      rw [hrun, he]
      rfl
    have hcount : s'.faults = e.faults + (as.length + 1) := by
      rw [hfa, hs.faults, hg.faults]
      rfl
    constructor
    · rintro ⟨-, s'', hx' | hx', hregs, -, hone, -⟩
      · cases hexec.symm.trans hx'
        have hlen : as.length = 0 := by
          have hone : s'.faults = e.faults + 1 := hone
          omega
        refine ⟨List.eq_nil_of_length_eq_zero hlen, i, hfetched, ?_⟩
        have hregs : r' = e.regs := hregs
        rw [Instruction.Inert, hd, hregs]
      · cases hexec.symm.trans hx'
    · rintro ⟨rfl, i', hi', hn⟩
      cases hfetched.symm.trans hi'
      have hregs : r' = e.regs := by
        cases hd.symm.trans hn
        rfl
      cases hlast
      refine ⟨exec_not_data ht hb fun x hm => ?_, _, .inl hexec, hregs, hbus.trans (hs.bus.trans hg.bus), hcount,
        had, hac⟩
      rw [hreq] at hm
      rcases List.mem_append.1 hm with hm | hm
      · exact fetch_not_data hm
      · exact hacc x hm
  · constructor
    · intro h
      have hm : (o, n, s) ∈ ((execInsn e.regs.PC i).run e.regs).requests (handle hc.recording) s := by
        unfold execInsn
        dsimp only
        rw [StateT.run_bind,
          show ((instructionDecode i.opcode).emul.exec (instructionDecode i.opcode) i).run e.regs = _ from hd,
          Tree.op_bind, Tree.requests]
        exact .head _
      have hno := h.accesses (o, n, s) (by
        rw [exec_requests ht hb, hreq]
        exact .tail _ (.tail _ (.tail _ (List.mem_append_right _ hm))))
      cases ho.symm.trans hno
    · rintro ⟨-, i', hi', hn⟩
      cases hfetched.symm.trans hi'
      cases hd.symm.trans hn

/-- The instructions that have no effect with `0xFF` for a refused byte. -/
theorem fetched_inert_iff (hj : e.inJitRun = false) : (∃ i, e.fetched hc.recording = some i ∧ i.Inert e.regs) ↔
    ∃ i, e.fetched hc.recording = some i ∧ (i.emul = .nop ∨ i.emul = .invalid ∨
      (instructionDecode i.opcode).mode = .immediate ∧ i.emul.Idle e.regs ∨
      i.emul = .jmp ∧ (instructionDecode i.opcode).mode = .absolute ∧
        e.regs.PC = i.op1.setWidth 16 + (i.op2.setWidth 16 <<< 8)) := by
  refine exists_congr fun i => and_congr_right fun hi => ?_
  have hg := Granted.atFetch hc e
  rw [refusedBytes_eq ht hb] at hr
  rw [fetched, fetchRun_atFetch ht hb] at hi
  split at hi
  · next v _ hx =>
    obtain ⟨w, r'⟩ := v
    cases (show w = some i from hi)
    obtain ⟨h, hv⟩ := fetchInsn_operands (hg.inJitRun.trans hj) (hf.fetch ht hb)
      (by rw [hr]; exact List.cons_ne_nil a as) hx
    exact Instruction.inert_iff h hv
  · cases hi

omit ht hb hf hr in
/-- A refused fetch does nothing else inside a compiled block; in the interpreter that holds for
one refused byte of an instruction that, with `0xFF` for the byte, has no effect. -/
theorem fetch_fault_executes_nothing (hc : HostCode H) (e : Emu (H × List Event)) (a : Addr) (as : List Addr)
    (ht : e.takesIrq hc.recording = false) (hr : e.refusedBytes hc.recording = a :: as)
    (hf : FaultsHandled hc.recording (Rk65c02.exec.run e.regs) e) :
    e.ExecutesNothing hc a ↔ e.inJitRun = true ∨ as = [] ∧ ∃ i, e.fetched hc.recording = some i ∧
    i.Inert e.regs := by
  have hb : e.bps.contains e.regs.PC = false :=
    not_breakpoint ht (by rw [← refusedBytes, hr]; exact List.cons_ne_nil a as)
  cases hj : e.inJitRun with
  | true => exact iff_of_true (executesNothing_block ht hb hf hr hj) (.inl rfl)
  | false =>
    rw [executesNothing_interpreted ht hb hf hr hj]
    exact ⟨.inr, fun h => h.resolve_left Bool.false_ne_true⟩

end Effects

end Refusals

end Emu

/-- An instruction at the end of the zero page, with its operand on the stack page, which the
host does not map. -/
def crossingEmu (op : Byte) : Emu (Unit × List Event) :=
  let bus := ramBus fun a => if a = 0x00FF then op else 0
  (init bus ((), []) ⟨0, 0, 0, 0x00FF, 0xFF, 0⟩).mmuSet (some 0) (some 0) true false

/-- `LDA #` loads `0xFF`. -/
theorem fetch_fault_loads : (crossingEmu 0xA9).takesIrq (quietHost withoutStack).recording = false ∧
    (crossingEmu 0xA9).refusedBytes (quietHost withoutStack).recording = [0x0100] ∧
    ¬(crossingEmu 0xA9).ExecutesNothing (quietHost withoutStack) 0x0100 := by
  refine ⟨by decide +kernel, by decide +kernel, ?_⟩
  have ha : ((crossingEmu 0xA9).exec (quietHost withoutStack).recording).state?.all
      (fun s => s.regs.A = 0xFF) = true := by
    decide +kernel
  rintro ⟨-, s, hs | hs, hr, -⟩
  · rw [hs] at ha
    exact absurd ((congrArg Regs.A hr).symm.trans (of_decide_eq_true ha)) (by decide)
  · have hx : ((crossingEmu 0xA9).exec (quietHost withoutStack).recording).state?.isSome = true := by
      decide +kernel
    rw [hs] at hx
    cases hx

/-- An undefined opcode of two bytes ignores its operand. -/
theorem fetch_fault_undefined : (crossingEmu 0x02).ExecutesNothing (quietHost withoutStack) 0x0100 := by
  refine (Emu.fetch_fault_executes_nothing (quietHost withoutStack) (crossingEmu 0x02) 0x0100 [] ?_ ?_ ?_).2
    (.inr ⟨rfl, ⟨0x02, 0xFF, 0⟩, ?_, rfl⟩)
  · decide +kernel
  · decide +kernel
  · unfold Emu.FaultsHandled
    decide +kernel
  · decide +kernel

end Rk65c02
