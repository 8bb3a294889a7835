import Rk65c02.Requests

/-! The instructions that stay on the straight line: all but the jumps leave `PC` alone, so
that the end of `rk65c02_exec` moves it to the next instruction. -/

namespace Rk65c02

open Resumption Cpu

/-- However its requests are answered, the code leaves `PC` as it was. -/
def LeavesPc {α : Type} (x : Cpu α) : Prop := ∀ r, (x.run r).Sat (fun _ _ => True) fun v => v.2.PC = r.PC

section Rules

variable {α β : Type}

theorem stays_pure (a : α) : LeavesPc (pure a) := fun _ => rfl

theorem stays_get : LeavesPc (get : Cpu Regs) := fun _ => rfl

theorem stays_bind {x : Cpu α} {f : α → Cpu β} (hx : LeavesPc x) (hf : ∀ a, LeavesPc (f a)) :
    LeavesPc (x >>= f) := by
  intro r
  rw [StateT.run_bind]
  exact (hx r).bind fun v hv => (hf v.1 v.2).mono (fun _ _ _ => trivial) fun w hw => hw.trans hv

theorem stays_modify {f : Regs → Regs} (hf : ∀ r, (f r).PC = r.PC) : LeavesPc (modify f) := hf

theorem stays_request (o : Op) : LeavesPc (request o) := fun _ => ⟨trivial, fun _ => rfl⟩

theorem stays_ite {c : Prop} [Decidable c] {x y : Cpu α} (hx : LeavesPc x) (hy : LeavesPc y) :
    LeavesPc (if c then x else y) := by
  split
  · exact hx
  · exact hy

theorem stays_modifyP (f : Byte → Byte) : LeavesPc (modifyP f) := fun _ => rfl

theorem stays_adjustZN (v : Byte) : LeavesPc (adjustZN v) := fun _ => rfl

end Rules

section Operands

variable {id : InstrDef} {i : Instruction}

theorem stays_address : LeavesPc (instructionDataAddress id i) := by
  refine stays_bind stays_get fun r => ?_
  cases id.mode with
  | izp | izpx | izpy =>
    exact stays_bind (stays_request _) fun _ => stays_bind (stays_request _) fun _ => stays_pure _
  | iabsolute | iabsolutex | relative | implied | immediate | accumulator =>
    exact stays_bind (stays_request _) fun _ => stays_pure _
  | _ => exact stays_pure _

theorem stays_read : LeavesPc (instructionDataRead1 id i) :=
  stays_ite (stays_bind stays_get fun _ => stays_pure _)
    (stays_ite (stays_pure _) (stays_bind stays_address fun _ => stays_request _))

theorem stays_write (v : Byte) : LeavesPc (instructionDataWrite1 id i v) :=
  stays_ite (stays_modify fun _ => rfl)
    (stays_ite (stays_request _) (stays_bind stays_address fun _ => stays_request _))

theorem stays_push (v : Byte) : LeavesPc (stackPush v) :=
  stays_bind stays_get fun _ => stays_bind (stays_request _) fun _ => stays_modify fun _ => rfl

theorem stays_pop : LeavesPc stackPop :=
  stays_bind (stays_modify fun _ => rfl) fun _ => stays_bind stays_get fun _ => stays_request _

end Operands

/-- The emulation functions that set `PC` themselves. -/
def Emul.diverts : Emul → Bool
  | bbr _ | bbs _ | bcc | bcs | beq | bmi | bne | bpl | bra | brk | bvc | bvs | jmp | jsr | rti | rts => true
  | _ => false

theorem Emul.leavesPc {m : Emul} (h : m.diverts = false) (id : InstrDef) (i : Instruction) :
    LeavesPc (m.exec id i) := by
  cases m with
  | adc | sbc =>
    refine stays_bind stays_read fun _ => stays_bind stays_get fun _ => stays_bind (stays_modifyP _) fun _ =>
      stays_bind stays_get fun _ => ?_
    dsimp only
    refine stays_ite (stays_bind (stays_modifyP _) fun _ => ?_) (stays_bind (stays_modifyP _) fun _ => ?_)
    · exact stays_bind stays_get fun _ => stays_bind (stays_modify fun _ => rfl) fun _ => stays_adjustZN _
    · exact stays_bind stays_get fun _ => stays_bind (stays_modify fun _ => rfl) fun _ => stays_adjustZN _
  | and | eor | ora =>
    exact stays_bind stays_read fun _ => stays_bind (stays_modify fun _ => rfl) fun _ =>
      stays_bind stays_get fun _ => stays_adjustZN _
  | asl | lsr =>
    exact stays_bind stays_read fun _ => stays_bind (stays_modifyP _) fun _ =>
      stays_bind (stays_adjustZN _) fun _ => stays_write _
  | rol | ror =>
    exact stays_bind stays_read fun _ => stays_bind stays_get fun _ => stays_bind (stays_modifyP _) fun _ =>
      stays_bind (stays_adjustZN _) fun _ => stays_write _
  | bit =>
    refine stays_bind stays_read fun _ => stays_bind (stays_modify fun _ => rfl) fun _ =>
      stays_ite ?_ (stays_pure _)
    exact stays_bind stays_read fun _ => stays_bind (stays_modifyP _) fun _ => stays_modifyP _
  | clc | cld | cli | clv | sec | sed | sei => exact fun _ => rfl
  | cmp | cpx | cpy =>
    exact stays_bind stays_read fun _ => stays_bind stays_get fun _ => stays_bind (stays_adjustZN _) fun _ =>
      stays_modify fun _ => rfl
  | dec | inc => exact stays_bind stays_read fun _ => stays_bind (stays_write _) fun _ => stays_adjustZN _
  | dex | dey | inx | iny | tax | tay | tsx | txa | tya =>
    exact stays_bind (stays_modify fun _ => rfl) fun _ => stays_bind stays_get fun _ => stays_adjustZN _
  | invalid | nop => exact stays_pure _
  | lda | ldx | ldy =>
    exact stays_bind stays_read fun _ => stays_bind (stays_modify fun _ => rfl) fun _ => stays_adjustZN _
  | pha | php | phx | phy => exact stays_bind stays_get fun _ => stays_push _
  | pla | plx | ply =>
    exact stays_bind stays_pop fun _ => stays_bind (stays_modify fun _ => rfl) fun _ => stays_adjustZN _
  | plp => exact stays_bind stays_pop fun _ => stays_modifyP _
  | rmb n | smb n => exact stays_bind stays_read fun _ => stays_write _
  | sta | stx | sty | stz => exact stays_bind stays_get fun _ => stays_write _
  | stp | wai => exact stays_request _
  | trb | tsb =>
    exact stays_bind stays_read fun _ => stays_bind (stays_modify fun _ => rfl) fun _ =>
      stays_bind stays_get fun _ => stays_write _
  | txs => exact stays_modify fun _ => rfl
  | bbr | bbs | bcc | bcs | beq | bmi | bne | bpl | bra | brk | bvc | bvs | jmp | jsr | rti | rts => cases h

end Rk65c02
