import Rk65c02.Basic

/-! The instruction table and its decoder. -/

namespace Rk65c02

inductive Addressing
  | implied | immediate | zp | zpx | zpy | izp | izpx | izpy | zpr | relative
  | absolute | absolutex | absolutey | iabsolute | iabsolutex | accumulator
  deriving DecidableEq, Repr

/-- The emulation functions the table points to. The bit instructions are families of
eight, one for each bit. -/
inductive Emul
  | adc | and | asl | bbr (bit : Nat) | bbs (bit : Nat) | bcc | bcs | beq | bit | bmi | bne
  | bpl | bra | brk | bvc | bvs | clc | cld | cli | clv | cmp | cpx | cpy | dec | dex | dey
  | eor | inc | invalid | inx | iny | jmp | jsr | lda | ldx | ldy | lsr | nop | ora | pha
  | php | phx | phy | pla | plp | plx | ply | rmb (bit : Nat) | rol | ror | rti | rts | sbc
  | sec | sed | sei | smb (bit : Nat) | sta | stp | stx | sty | stz | tax | tay | trb | tsb
  | tsx | txa | txs | tya | wai
  deriving DecidableEq, Repr

structure InstrDef where
  mnemonic : String
  mode : Addressing
  size : Nat
  emul : Emul
  modifyPc : Bool
  deriving DecidableEq, Repr

/-- One entry for each opcode, in order. -/
def instrs : List InstrDef := [
  ⟨"brk", .implied, 2, .brk, true⟩,
  ⟨"ora", .izpx, 2, .ora, false⟩,
  ⟨"invalid", .immediate, 2, .invalid, false⟩,
  ⟨"invalid", .implied, 1, .invalid, false⟩,
  ⟨"tsb", .zp, 2, .tsb, false⟩,
  ⟨"ora", .zp, 2, .ora, false⟩,
  ⟨"asl", .zp, 2, .asl, false⟩,
  ⟨"rmb0", .zp, 2, .rmb 0, false⟩,
  ⟨"php", .implied, 1, .php, false⟩,
  ⟨"ora", .immediate, 2, .ora, false⟩,
  ⟨"asl", .accumulator, 1, .asl, false⟩,
  ⟨"invalid", .implied, 1, .invalid, false⟩,
  ⟨"tsb", .absolute, 3, .tsb, false⟩,
  ⟨"ora", .absolute, 3, .ora, false⟩,
  ⟨"asl", .absolute, 3, .asl, false⟩,
  ⟨"bbr0", .zpr, 3, .bbr 0, true⟩,
  ⟨"bpl", .relative, 2, .bpl, true⟩,
  ⟨"ora", .izpy, 2, .ora, false⟩,
  ⟨"ora", .izp, 2, .ora, false⟩,
  ⟨"invalid", .implied, 1, .invalid, false⟩,
  ⟨"trb", .zp, 2, .trb, false⟩,
  ⟨"ora", .zpx, 2, .ora, false⟩,
  ⟨"asl", .zpx, 2, .asl, false⟩,
  ⟨"rmb1", .zp, 2, .rmb 1, false⟩,
  ⟨"clc", .implied, 1, .clc, false⟩,
  ⟨"ora", .absolutey, 3, .ora, false⟩,
  ⟨"inc", .accumulator, 1, .inc, false⟩,
  ⟨"invalid", .implied, 1, .invalid, false⟩,
  ⟨"trb", .absolute, 3, .trb, false⟩,
  ⟨"ora", .absolutex, 3, .ora, false⟩,
  ⟨"asl", .absolutex, 3, .asl, false⟩,
  ⟨"bbr1", .zpr, 3, .bbr 1, true⟩,
  ⟨"jsr", .absolute, 3, .jsr, true⟩,
  ⟨"and", .izpx, 2, .and, false⟩,
  ⟨"invalid", .immediate, 2, .invalid, false⟩,
  ⟨"invalid", .implied, 1, .invalid, false⟩,
  ⟨"bit", .zp, 2, .bit, false⟩,
  ⟨"and", .zp, 2, .and, false⟩,
  ⟨"rol", .zp, 2, .rol, false⟩,
  ⟨"rmb2", .zp, 2, .rmb 2, false⟩,
  ⟨"plp", .implied, 1, .plp, false⟩,
  ⟨"and", .immediate, 2, .and, false⟩,
  ⟨"rol", .accumulator, 1, .rol, false⟩,
  ⟨"invalid", .implied, 1, .invalid, false⟩,
  ⟨"bit", .absolute, 3, .bit, false⟩,
  ⟨"and", .absolute, 3, .and, false⟩,
  ⟨"rol", .absolute, 3, .rol, false⟩,
  ⟨"bbr2", .zpr, 3, .bbr 2, true⟩,
  ⟨"bmi", .relative, 2, .bmi, true⟩,
  ⟨"and", .izpy, 2, .and, false⟩,
  ⟨"and", .izp, 2, .and, false⟩,
  ⟨"invalid", .implied, 1, .invalid, false⟩,
  ⟨"bit", .zpx, 2, .bit, false⟩,
  ⟨"and", .zpx, 2, .and, false⟩,
  ⟨"rol", .zpx, 2, .rol, false⟩,
  ⟨"rmb3", .zp, 2, .rmb 3, false⟩,
  ⟨"sec", .implied, 1, .sec, false⟩,
  ⟨"and", .absolutey, 3, .and, false⟩,
  ⟨"dec", .accumulator, 1, .dec, false⟩,
  ⟨"invalid", .implied, 1, .invalid, false⟩,
  ⟨"bit", .absolutex, 3, .bit, false⟩,
  ⟨"and", .absolutex, 3, .and, false⟩,
  ⟨"rol", .absolutex, 3, .rol, false⟩,
  ⟨"bbr3", .zpr, 3, .bbr 3, true⟩,
  ⟨"rti", .implied, 1, .rti, true⟩,
  ⟨"eor", .izpx, 2, .eor, false⟩,
  ⟨"invalid", .immediate, 2, .invalid, false⟩,
  ⟨"invalid", .implied, 1, .invalid, false⟩,
  ⟨"invalid", .zp, 2, .invalid, false⟩,
  ⟨"eor", .zp, 2, .eor, false⟩,
  ⟨"lsr", .zp, 2, .lsr, false⟩,
  ⟨"rmb4", .zp, 2, .rmb 4, false⟩,
  ⟨"pha", .implied, 1, .pha, false⟩,
  ⟨"eor", .immediate, 2, .eor, false⟩,
  ⟨"lsr", .accumulator, 1, .lsr, false⟩,
  ⟨"invalid", .implied, 1, .invalid, false⟩,
  ⟨"jmp", .absolute, 3, .jmp, true⟩,
  ⟨"eor", .absolute, 3, .eor, false⟩,
  ⟨"lsr", .absolute, 3, .lsr, false⟩,
  ⟨"bbr4", .zpr, 3, .bbr 4, true⟩,
  ⟨"bvc", .relative, 2, .bvc, true⟩,
  ⟨"eor", .izpy, 2, .eor, false⟩,
  ⟨"eor", .izp, 2, .eor, false⟩,
  ⟨"invalid", .implied, 1, .invalid, false⟩,
  ⟨"invalid", .zpx, 2, .invalid, false⟩,
  ⟨"eor", .zpx, 2, .eor, false⟩,
  ⟨"lsr", .zpx, 2, .lsr, false⟩,
  ⟨"rmb5", .zp, 2, .rmb 5, false⟩,
  ⟨"cli", .implied, 1, .cli, false⟩,
  ⟨"eor", .absolutey, 3, .eor, false⟩,
  ⟨"phy", .implied, 1, .phy, false⟩,
  ⟨"invalid", .implied, 1, .invalid, false⟩,
  ⟨"invalid", .absolute, 3, .invalid, false⟩,
  ⟨"eor", .absolutex, 3, .eor, false⟩,
  ⟨"lsr", .absolutex, 3, .lsr, false⟩,
  ⟨"bbr5", .zpr, 3, .bbr 5, true⟩,
  ⟨"rts", .implied, 1, .rts, false⟩,
  ⟨"adc", .izpx, 2, .adc, false⟩,
  ⟨"invalid", .immediate, 2, .invalid, false⟩,
  ⟨"invalid", .implied, 1, .invalid, false⟩,
  ⟨"stz", .zp, 2, .stz, false⟩,
  ⟨"adc", .zp, 2, .adc, false⟩,
  ⟨"ror", .zp, 2, .ror, false⟩,
  ⟨"rmb6", .zp, 2, .rmb 6, false⟩,
  ⟨"pla", .implied, 1, .pla, false⟩,
  ⟨"adc", .immediate, 2, .adc, false⟩,
  ⟨"ror", .accumulator, 1, .ror, false⟩,
  ⟨"invalid", .implied, 1, .invalid, false⟩,
  ⟨"jmp", .iabsolute, 3, .jmp, true⟩,
  ⟨"adc", .absolute, 3, .adc, false⟩,
  ⟨"ror", .absolute, 3, .ror, false⟩,
  ⟨"bbr6", .zpr, 3, .bbr 6, true⟩,
  ⟨"bvs", .relative, 2, .bvs, true⟩,
  ⟨"adc", .izpy, 2, .adc, false⟩,
  ⟨"adc", .izp, 2, .adc, false⟩,
  ⟨"invalid", .implied, 1, .invalid, false⟩,
  ⟨"stz", .zpx, 2, .stz, false⟩,
  ⟨"adc", .zpx, 2, .adc, false⟩,
  ⟨"ror", .zpx, 2, .ror, false⟩,
  ⟨"rmb7", .zp, 2, .rmb 7, false⟩,
  ⟨"sei", .implied, 1, .sei, false⟩,
  ⟨"adc", .absolutey, 3, .adc, false⟩,
  ⟨"ply", .implied, 1, .ply, false⟩,
  ⟨"invalid", .implied, 1, .invalid, false⟩,
  ⟨"jmp", .iabsolutex, 3, .jmp, true⟩,
  ⟨"adc", .absolutex, 3, .adc, false⟩,
  ⟨"ror", .absolutex, 3, .ror, false⟩,
  ⟨"bbr7", .zpr, 3, .bbr 7, true⟩,
  ⟨"bra", .relative, 2, .bra, true⟩,
  ⟨"sta", .izpx, 2, .sta, false⟩,
  ⟨"invalid", .immediate, 2, .invalid, false⟩,
  ⟨"invalid", .implied, 1, .invalid, false⟩,
  ⟨"sty", .zp, 2, .sty, false⟩,
  ⟨"sta", .zp, 2, .sta, false⟩,
  ⟨"stx", .zp, 2, .stx, false⟩,
  ⟨"smb0", .zp, 2, .smb 0, false⟩,
  ⟨"dey", .implied, 1, .dey, false⟩,
  ⟨"bit", .immediate, 2, .bit, false⟩,
  ⟨"txa", .implied, 1, .txa, false⟩,
  ⟨"invalid", .implied, 1, .invalid, false⟩,
  ⟨"sty", .absolute, 3, .sty, false⟩,
  ⟨"sta", .absolute, 3, .sta, false⟩,
  ⟨"stx", .absolute, 3, .stx, false⟩,
  ⟨"bbs0", .zpr, 3, .bbs 0, true⟩,
  ⟨"bcc", .relative, 2, .bcc, true⟩,
  ⟨"sta", .izpy, 2, .sta, false⟩,
  ⟨"sta", .izp, 2, .sta, false⟩,
  ⟨"invalid", .implied, 1, .invalid, false⟩,
  ⟨"sty", .zpx, 2, .sty, false⟩,
  ⟨"sta", .zpx, 2, .sta, false⟩,
  ⟨"stx", .zpy, 2, .stx, false⟩,
  ⟨"smb1", .zp, 2, .smb 1, false⟩,
  ⟨"tya", .implied, 1, .tya, false⟩,
  ⟨"sta", .absolutey, 3, .sta, false⟩,
  ⟨"txs", .implied, 1, .txs, false⟩,
  ⟨"invalid", .implied, 1, .invalid, false⟩,
  ⟨"stz", .absolute, 3, .stz, false⟩,
  ⟨"sta", .absolutex, 3, .sta, false⟩,
  ⟨"stz", .absolutex, 3, .stz, false⟩,
  ⟨"bbs1", .zpr, 3, .bbs 1, true⟩,
  ⟨"ldy", .immediate, 2, .ldy, false⟩,
  ⟨"lda", .izpx, 2, .lda, false⟩,
  ⟨"ldx", .immediate, 2, .ldx, false⟩,
  ⟨"invalid", .implied, 1, .invalid, false⟩,
  ⟨"ldy", .zp, 2, .ldy, false⟩,
  ⟨"lda", .zp, 2, .lda, false⟩,
  ⟨"ldx", .zp, 2, .ldx, false⟩,
  ⟨"smb2", .zp, 2, .smb 2, false⟩,
  ⟨"tay", .implied, 1, .tay, false⟩,
  ⟨"lda", .immediate, 2, .lda, false⟩,
  ⟨"tax", .implied, 1, .tax, false⟩,
  ⟨"invalid", .implied, 1, .invalid, false⟩,
  ⟨"ldy", .absolute, 3, .ldy, false⟩,
  ⟨"lda", .absolute, 3, .lda, false⟩,
  ⟨"ldx", .absolute, 3, .ldx, false⟩,
  ⟨"bbs2", .zpr, 3, .bbs 2, true⟩,
  ⟨"bcs", .relative, 2, .bcs, true⟩,
  ⟨"lda", .izpy, 2, .lda, false⟩,
  ⟨"lda", .izp, 2, .lda, false⟩,
  ⟨"invalid", .implied, 1, .invalid, false⟩,
  ⟨"ldy", .zpx, 2, .ldy, false⟩,
  ⟨"lda", .zpx, 2, .lda, false⟩,
  ⟨"ldx", .zpy, 2, .ldx, false⟩,
  ⟨"smb3", .zp, 2, .smb 3, false⟩,
  ⟨"clv", .implied, 1, .clv, false⟩,
  ⟨"lda", .absolutey, 3, .lda, false⟩,
  ⟨"tsx", .implied, 1, .tsx, false⟩,
  ⟨"invalid", .implied, 1, .invalid, false⟩,
  ⟨"ldy", .absolutex, 3, .ldy, false⟩,
  ⟨"lda", .absolutex, 3, .lda, false⟩,
  ⟨"ldx", .absolutey, 3, .ldx, false⟩,
  ⟨"bbs3", .zpr, 3, .bbs 3, true⟩,
  ⟨"cpy", .immediate, 2, .cpy, false⟩,
  ⟨"cmp", .izpx, 2, .cmp, false⟩,
  ⟨"invalid", .immediate, 2, .invalid, false⟩,
  ⟨"invalid", .implied, 1, .invalid, false⟩,
  ⟨"cpy", .zp, 2, .cpy, false⟩,
  ⟨"cmp", .zp, 2, .cmp, false⟩,
  ⟨"dec", .zp, 2, .dec, false⟩,
  ⟨"smb4", .zp, 2, .smb 4, false⟩,
  ⟨"iny", .implied, 1, .iny, false⟩,
  ⟨"cmp", .immediate, 2, .cmp, false⟩,
  ⟨"dex", .implied, 1, .dex, false⟩,
  ⟨"wai", .implied, 1, .wai, false⟩,
  ⟨"cpy", .absolute, 3, .cpy, false⟩,
  ⟨"cmp", .absolute, 3, .cmp, false⟩,
  ⟨"dec", .absolute, 3, .dec, false⟩,
  ⟨"bbs4", .zpr, 3, .bbs 4, true⟩,
  ⟨"bne", .relative, 2, .bne, true⟩,
  ⟨"cmp", .izpy, 2, .cmp, false⟩,
  ⟨"cmp", .izp, 2, .cmp, false⟩,
  ⟨"invalid", .implied, 1, .invalid, false⟩,
  ⟨"invalid", .zpx, 2, .invalid, false⟩,
  ⟨"cmp", .zpx, 2, .cmp, false⟩,
  ⟨"dec", .zpx, 2, .dec, false⟩,
  ⟨"smb5", .zp, 2, .smb 5, false⟩,
  ⟨"cld", .implied, 1, .cld, false⟩,
  ⟨"cmp", .absolutey, 3, .cmp, false⟩,
  ⟨"phx", .implied, 1, .phx, false⟩,
  ⟨"stp", .implied, 1, .stp, false⟩,
  ⟨"invalid", .absolute, 3, .invalid, false⟩,
  ⟨"cmp", .absolutex, 3, .cmp, false⟩,
  ⟨"dec", .absolutex, 3, .dec, false⟩,
  ⟨"bbs5", .zpr, 3, .bbs 5, true⟩,
  ⟨"cpx", .immediate, 2, .cpx, false⟩,
  ⟨"sbc", .izpx, 2, .sbc, false⟩,
  ⟨"invalid", .immediate, 2, .invalid, false⟩,
  ⟨"invalid", .implied, 1, .invalid, false⟩,
  ⟨"cpx", .zp, 2, .cpx, false⟩,
  ⟨"sbc", .zp, 2, .sbc, false⟩,
  ⟨"inc", .zp, 2, .inc, false⟩,
  ⟨"smb6", .zp, 2, .smb 6, false⟩,
  ⟨"inx", .implied, 1, .inx, false⟩,
  ⟨"sbc", .immediate, 2, .sbc, false⟩,
  ⟨"nop", .implied, 1, .nop, false⟩,
  ⟨"invalid", .implied, 1, .invalid, false⟩,
  ⟨"cpx", .absolute, 3, .cpx, false⟩,
  ⟨"sbc", .absolute, 3, .sbc, false⟩,
  ⟨"inc", .absolute, 3, .inc, false⟩,
  ⟨"bbs6", .zpr, 3, .bbs 6, true⟩,
  ⟨"beq", .relative, 2, .beq, true⟩,
  ⟨"sbc", .izpy, 2, .sbc, false⟩,
  ⟨"sbc", .izp, 2, .sbc, false⟩,
  ⟨"invalid", .implied, 1, .invalid, false⟩,
  ⟨"invalid", .zpx, 2, .invalid, false⟩,
  ⟨"sbc", .zpx, 2, .sbc, false⟩,
  ⟨"inc", .zpx, 2, .inc, false⟩,
  ⟨"smb7", .zp, 2, .smb 7, false⟩,
  ⟨"sed", .implied, 1, .sed, false⟩,
  ⟨"sbc", .absolutey, 3, .sbc, false⟩,
  ⟨"plx", .implied, 1, .plx, false⟩,
  ⟨"invalid", .implied, 1, .invalid, false⟩,
  ⟨"invalid", .absolute, 3, .invalid, false⟩,
  ⟨"sbc", .absolutex, 3, .sbc, false⟩,
  ⟨"inc", .absolutex, 3, .inc, false⟩,
  ⟨"bbs7", .zpr, 3, .bbs 7, true⟩]

theorem instrs_length : instrs.length = 256 := by decide +kernel

def instructionDecode (opcode : Byte) : InstrDef :=
  instrs.get ⟨opcode.toNat, by rw [instrs_length]; exact opcode.isLt⟩

/-- What holds along the table holds of every opcode. -/
theorem forall_opcode {p : Byte → InstrDef → Prop}
    (h : ∀ q ∈ instrs.zipIdx, p (BitVec.ofNat 8 q.2) q.1) (op : Byte) :
    p op (instructionDecode op) := by
  have hm : (instructionDecode op, op.toNat) ∈ instrs.zipIdx := by
    rw [List.mk_mem_zipIdx_iff_getElem?]
    exact List.getElem?_eq_getElem _
  have hp := h _ hm
  rwa [BitVec.ofNat_toNat, BitVec.setWidth_eq] at hp

end Rk65c02
