import Rk65c02.NativeInsn
import Rk65c02.Requests

/-! What the native code of an instruction can ask, wherever `PC` is, and where control can
go from it. -/

namespace Rk65c02

open Resumption

section Control

variable (ctx : EmitCtx) (k : Nat) {i : Instruction} (r : Regs) {c : EmitCase}

theorem nativeProgram_congr (ctx' : EmitCtx) (hc : c ≠ .condBranch) :
    nativeProgram ctx k i c = nativeProgram ctx' k i c := by
  simp only [nativeProgram, if_neg hc]

theorem nativeInsn_congr (ctx' : EmitCtx) (he : emitCase i.opcode = some c) (hc : c ≠ .condBranch) :
    nativeInsn ctx k i = nativeInsn ctx' k i := by
  unfold nativeInsn jitEmitInsn
  rw [he]
  cases c <;> first | rfl | exact absurd rfl hc

/-- Only conditional branches depend on `PC` being at the label. -/
theorem nativeInsn_eq_of_ne (he : emitCase i.opcode = some c) (hc : c ≠ .condBranch) :
    (nativeInsn ctx k i).run r = (nativeProgram ctx k i c).run r := by
  rw [nativeInsn_congr ctx k ⟨List.replicate (k + 1) r.PC⟩ he hc, nativeProgram_congr ctx k
    ⟨List.replicate (k + 1) r.PC⟩ hc]
  exact nativeInsn_eq he (by simp)

/-- A conditional branch goes to an address that was computed when it was compiled. -/
def branchRegs (i : Instruction) (r : Regs) : Regs :=
  { r with PC :=
    if branchTaken i.opcode (r.P.setWidth 64) then branchTarget ctx k i (instructionDecode i.opcode).size
    else r.PC + BitVec.ofNat 16 (instructionDecode i.opcode).size }

theorem nativeInsn_branch (he : emitCase i.opcode = some .condBranch) : (nativeInsn ctx k i).run r =
    (branchControl ctx k (branchTarget ctx k i (instructionDecode i.opcode).size)
      (branchTaken i.opcode (r.P.setWidth 64))).run (branchRegs ctx k i r) := by
  have h : Same (fun p q => p.2 = q.2 ∧ p.1.1 = q.1 ∧ p.1.2.r0 = true)
      (((emitCondBranch i (instructionDecode i.opcode).size ctx k).run .entry).run r)
      ((branchControl ctx k (branchTarget ctx k i (instructionDecode i.opcode).size)
        (branchTaken i.opcode (r.P.setWidth 64))).run (branchRegs ctx k i r)) := by
    unfold emitCondBranch branchControl branchTarget branchRegs
    by_cases h : branchTaken i.opcode (r.P.setWidth 64) = true
    · simp [h, branchTarget]
      generalize ctx.insnAddr.idxOf? _ = label
      cases label with
      | none => exact .done ⟨rfl, rfl, rfl⟩
      | some t =>
        by_cases hk : t ≤ k
        · simp only [if_pos hk, StateT.run_bind]
          refine (jitEmitBackedgeGuard_same _ (k - t + 1) _ _ _ _).bind ?_
          rintro ⟨⟨g, l⟩, r'⟩ ⟨_, _⟩ ⟨rfl, rfl, hl⟩
          cases g <;> exact .done ⟨rfl, rfl, hl⟩
        · simp only [if_neg hk]
          exact .done ⟨rfl, rfl, rfl⟩
    · simp [h]
      exact .done ⟨rfl, rfl, rfl⟩
  have hj : jitEmitInsn ctx k i = emitCondBranch i (instructionDecode i.opcode).size ctx k := by
    simp only [jitEmitInsn, he]
  refine Same.eq ?_
  unfold nativeInsn
  rw [hj, StateT.run_bind, ← Tree.bind_done (StateT.run (branchControl _ _ _ _) _)]
  refine h.bind ?_
  rintro ⟨⟨next, l⟩, s⟩ ⟨_, _⟩ ⟨rfl, rfl, hl⟩
  simp only [show l.r0 = true from hl, if_true]
  exact .done rfl

end Control

/-- Native code reads, writes, and looks at fields of the emulator. -/
def NativeAsks : NOp → Prop
  | .base (.read _) | .base (.write _ _) => True
  | .base _ => False
  | _ => True

def NOp.isBase : NOp → Bool
  | .base _ => true
  | _ => false

/-- The request leaves the budget of backward jumps alone. -/
def NOp.keepsBudget : NOp → Bool
  | .setLoopBudget _ => false
  | _ => true

/-- Of the instructions that halt or acknowledge an interrupt none has native code. -/
theorem emitCase_emul {i : Instruction} {c : EmitCase} (hc : emitCase i.opcode = some c) :
    i.emul ≠ .brk ∧ i.emul ≠ .wai ∧ i.emul ≠ .stp := by
  have h : emitCases.all (fun e => e.1.all fun op =>
      (instructionDecode op).emul ≠ .brk ∧ (instructionDecode op).emul ≠ .wai ∧
        (instructionDecode op).emul ≠ .stp) := by
    decide +kernel
  obtain ⟨ops, he, hop⟩ := emitCase_mem hc
  exact of_decide_eq_true (List.all_eq_true.1 (List.all_eq_true.1 h _ he) _ hop)

section Asks

variable {i : Instruction} {c : EmitCase} {G : Byte → Prop}

/-- Reads and writes only. -/
def DataAsks : Op → Prop
  | .read _ | .write _ _ => True
  | _ => False

variable {r : Regs}

theorem backedgeGuard_sat (span : Nat) :
    ((backedgeGuard span).run r).Sat (fun o r' => o.isBase = false ∧ r' = r) fun v => v.2 = r := by
  unfold backedgeGuard
  refine ⟨⟨rfl, rfl⟩, fun n : BitVec 32 => ⟨⟨rfl, rfl⟩, fun _ => ?_⟩⟩
  dsimp only [Tree.bind]
  by_cases hn : BitVec.sle (BitVec.signExtend 64 n - 1) 0 = true
  · simp only [if_pos hn]
    rfl
  · simp only [if_neg hn]
    refine ⟨⟨rfl, rfl⟩, fun s => ?_⟩
    cases s with
    | true => rfl
    | false =>
      refine ⟨⟨rfl, rfl⟩, fun q => ?_⟩
      cases q with
      | true => rfl
      | false => exact ⟨⟨rfl, rfl⟩, fun _ => rfl⟩

theorem fallbackControl_sat (id : InstrDef) : ((fallbackControl id).run r).Sat
    (fun o r' => (o.isBase = false ∧ r' = r) ∧ o.keepsBudget = true) fun v => v.2 = r ∧ ∀ t, v.1 ≠ .goto t := by
  unfold fallbackControl
  split
  · exact ⟨rfl, nofun⟩
  · refine ⟨⟨⟨rfl, rfl⟩, rfl⟩, fun s : EmuState => ⟨⟨⟨rfl, rfl⟩, rfl⟩, fun u : Bool => ⟨rfl, fun t => ?_⟩⟩⟩
    dsimp only
    split <;> exact Next.noConfusion

/-- A branch inside the block goes to the label of its target. -/
theorem branchControl_sat (ctx : EmitCtx) (k : Nat) (target : Addr) (taken : Bool) :
    ((branchControl ctx k target taken).run r).Sat (fun o r' => o.isBase = false ∧ r' = r) fun v =>
      v.2 = r ∧ (v.1 = .fall → taken = false) ∧ ∀ t, v.1 = .goto t → taken = true ∧
      ctx.insnAddr[t]? = some target := by
  unfold branchControl
  cases taken with
  | false => exact ⟨rfl, fun _ => rfl, nofun⟩
  | true =>
    simp only [if_true]
    cases ht : ctx.insnAddr.idxOf? target with
    | none => exact ⟨rfl, nofun, nofun⟩
    | some t =>
      have hgo : ∀ t', Next.goto t = .goto t' → True ∧ ctx.insnAddr[t']? = some target := by
        rintro _ ⟨⟩
        obtain ⟨hlt, he, -⟩ := List.idxOf?_eq_some_iff.1 ht
        exact ⟨trivial, (List.getElem?_eq_getElem hlt).trans (congrArg some he)⟩
      by_cases hk : t ≤ k
      · simp only [if_pos hk, StateT.run_bind]
        refine (backedgeGuard_sat _).bind ?_
        rintro ⟨g, _⟩ rfl
        cases g
        · exact ⟨rfl, nofun, hgo⟩
        · exact ⟨rfl, nofun, nofun⟩
      · simp only [if_neg hk]
        exact ⟨rfl, nofun, hgo⟩

variable (hr : G r.P)

include hr

variable [Respected G]

omit hr in
theorem emulOnce_keeps (hc : emitCase i.opcode = some c) :
    Keeps G (fun o r => DataAsks o ∧ G r.P) (emulOnce (instructionDecode i.opcode) i) := by
  have hfits := instructionDecode_fits i.opcode
  obtain ⟨hbrk, hwai, hstp⟩ := emitCase_emul hc
  unfold emulOnce
  split
  · next hb =>
    rw [hb] at hfits
    refine keeps_bind (keeps_dataRead1 (fun _ _ h => ⟨trivial, h⟩) i hfits) fun _ => ?_
    exact keeps_bind (keeps_modify fun _ h => Respected.setFlag h rfl _) fun _ =>
      keeps_ite (keeps_bind (keeps_setFlag rfl _) fun _ => keeps_setFlag rfl _) (keeps_pure _)
  · intro r hr
    refine (Emul.keeps (G := G) _ i hfits r hr).mono (fun o r ho => ?_) fun _ h => h
    cases o with
    | read a => exact ⟨trivial, ho⟩
    | write a v => exact ⟨trivial, ho.resolve_left hbrk⟩
    | ackIrq => exact absurd ho.1 hbrk
    | stop s => exact (ho.1.elim (fun h => hwai h.1) fun h => hstp h.1).elim
    | _ => exact ho.elim

theorem nativeProgram_sat (hc : emitCase i.opcode = some c) (hb : c ≠ .condBranch) (ctx : EmitCtx) (k : Nat) :
    ((nativeProgram ctx k i c).run r).Sat (fun o r' => (NativeAsks o ∧ o.keepsBudget = true) ∧ G r'.P)
      fun v => G v.2.P ∧ ∀ t, v.1 ≠ .goto t := by
  have hx : Keeps G (fun o r => DataAsks o ∧ G r.P)
      (withNext (instructionDecode i.opcode) (emulOnce (instructionDecode i.opcode) i)) :=
    keeps_ite (emulOnce_keeps hc) (keeps_bind (emulOnce_keeps hc) fun _ => keeps_modify fun _ h => h)
  have hlift : ((NCpu.ofCpu (withNext (instructionDecode i.opcode) (emulOnce (instructionDecode i.opcode) i))).run
    r).Sat
      (fun o r' => (NativeAsks o ∧ o.keepsBudget = true) ∧ G r'.P) fun v => G v.2.P := by
    refine (hx r hr).lift fun o r' ho => ⟨⟨?_, rfl⟩, ho.2⟩
    cases o <;> first | exact trivial | exact ho.1.elim
  simp only [nativeProgram, StateT.run_bind, StateT.run_get, Tree.pure_eq, Tree.done_bind, if_neg hb]
  refine hlift.bind fun v hv => ?_
  split
  · refine ⟨⟨⟨trivial, rfl⟩, hv⟩, fun u : Bool => ⟨hv, fun t => ?_⟩⟩
    cases u <;> exact Next.noConfusion
  · exact ⟨hv, fun _ => Next.noConfusion⟩

/-- What native code asks, and the status register when it asks and when it is done. -/
theorem nativeInsn_sat (hc : emitCase i.opcode = some c) (ctx : EmitCtx) (k : Nat) :
    ((nativeInsn ctx k i).run r).Sat (fun o r' => NativeAsks o ∧ G r'.P) fun v => G v.2.P := by
  by_cases hb : c = .condBranch
  · subst hb
    rw [nativeInsn_branch ctx k r hc]
    refine (branchControl_sat ctx k _ _).mono (fun o r' ho => ⟨?_, ho.2 ▸ hr⟩) fun v hv => hv.1 ▸ hr
    cases o with
    | base o => cases ho.1
    | _ => trivial
  · rw [nativeInsn_eq_of_ne ctx k r hc hb]
    exact (nativeProgram_sat hr hc hb ctx k).mono (fun _ _ h => ⟨h.1.1, h.2⟩) fun _ h => h.1

end Asks

end Rk65c02
