import Rk65c02.CodeCoherence
import Rk65c02.RamMachine

/-! The loaders. A file goes to the bus byte by byte, so that one that is too long is loaded as far
as the bus reaches before the load fails. -/

namespace Rk65c02

variable {H : Type}

namespace Emu

variable (hc : HostCode H)

/-- The loop of the file loaders: a byte that is read beyond the limit ends the load. -/
def readFile (write : Emu H → Nat → Byte → Emu H) (limit : Nat) (e : Emu H) (cur : Nat) : List Byte → Bool × Emu H
  | [] => (true, e)
  | v :: data => if limit ≤ cur then (false, e) else readFile write limit (write e cur v) (cur + 1) data

/-- `bus_load_file`; a file that cannot be opened is `none`. -/
def busLoadFile (e : Emu H) (addr : Addr) (file : Option (List Byte)) : Bool × Emu H :=
  file.elim (false, e) (readFile (fun e cur v => e.busWrite1 hc (BitVec.ofNat 16 cur) v) busSize e addr.toNat)

/-- `bus_load_file_phys`, for addresses from 64K on. -/
def busLoadFilePhys (e : Emu H) (addr : PAddr) (file : Option (List Byte)) : Bool × Emu H :=
  if addr.toNat < busSize then (false, e)
  else file.elim (false, e) (readFile (fun e cur v => e.busWrite1Phys hc (BitVec.ofNat 32 cur) v)
    physMax e addr.toNat)

end Emu

/-- `bus_init_with_default_devs`: RAM, up to the page below `0xE000`. -/
def busInitWithDefaultDevs : Bus := (Bus.init fun _ => ⟨0xDFFF, true⟩).deviceAdd 0 0

/-- `rk65c02_load_rom`; a load that fails ends the program. -/
def loadRom (hc : HostCode H) (host : H) (regs : Regs) (file : Option (List Byte)) (loadAddr : Addr)
    (b : Option Bus) :
    Option (Emu H) :=
  let (loaded, e) := (init (b.getD busInitWithDefaultDevs) host regs).busLoadFile hc loadAddr file
  if loaded then some (init e.bus e.host regs) else none

namespace Bus

/-- What RAM holds once the data has been laid over it, from `start` up to the limit. -/
def overlaid (b : Bus) (start limit : Nat) (data : List Byte) (p : PAddr) : Byte :=
  if (b.locate p).isSome ∧ start ≤ p.toNat ∧ p.toNat < limit then data[p.toNat - start]?.getD (b.physByte p)
    else b.physByte p

/-- The bus after a store. -/
def stored (b : Bus) (p : PAddr) (v : Byte) : Bus := (b.locate p).elim b fun l => b.ramWrite1 l.1 l.2 v

variable {b : Bus} {p q : PAddr}

theorem stored_eq (b : Bus) (p : PAddr) (v : Byte) : ∃ ram, b.stored p v = { b with ram := ram } := by
  unfold stored
  cases b.locate p
  · exact ⟨b.ram, rfl⟩
  · exact ⟨_, rfl⟩

theorem physByte_byte (b : Bus) (a : Addr) : b.physByte (a.setWidth 32) = b.peek a := by
  rw [physByte, AddressedStore.load, locate_byte]
  rfl

theorem physByte_stored (hs : AddressedStore.Separate b.locate) (v : Byte) :
    (b.stored p v).physByte q = if q = p ∧ (b.locate p).isSome then v else b.physByte q := by
  cases hl : b.locate p with
  | none => simp [stored, hl]
  | some l =>
    rw [stored, hl, Option.elim_some]
    by_cases hq : q = p
    · rw [if_pos ⟨hq, rfl⟩, physByte, locate_ramWrite1, cells_ramWrite1, AddressedStore.load, hq, hl]
      exact Function.update_self _ _ _
    · rw [if_neg (fun h => hq h.1), physByte_ramWrite1 hs hl hq]

theorem overlaid_cons {b' : Bus} {cur limit : Nat} {v : Byte} {data : List Byte} (hcur : cur < limit)
    (hlim : limit ≤ physMax) (hl : b'.locate = b.locate)
    (hv : b'.physByte p = if p = BitVec.ofNat 32 cur ∧ (b.locate (BitVec.ofNat 32 cur)).isSome
      then v else b.physByte p) :
    b'.overlaid (cur + 1) limit data p = b.overlaid cur limit (v :: data) p := by
  unfold overlaid
  rw [hl]
  by_cases hp : p.toNat = cur
  · have he : p = BitVec.ofNat 32 cur := by rw [← hp, BitVec.ofNat_toNat, BitVec.setWidth_eq]
    rw [if_neg (by omega), hv, ← he, hp, Nat.sub_self]
    simp [hcur]
  · have hne : p ≠ BitVec.ofNat 32 cur := by
      rintro rfl
      exact hp (by rw [BitVec.toNat_ofNat, Nat.mod_eq_of_lt (by unfold physMax at hlim; omega)])
    rw [if_neg (fun h => hne h.1)] at hv
    rw [hv]
    by_cases hle : cur + 1 ≤ p.toNat
    · obtain ⟨k, hk⟩ := Nat.exists_eq_add_of_le hle
      simp [hk, show cur + 1 + k - cur = k + 1 by omega, show cur ≤ cur + 1 + k by omega]
    · rw [if_neg (by omega), if_neg (by omega)]

end Bus

section Memory

variable {hc : HostCode H} {e : Emu H}

theorem deviceWrite1_stored {p : PAddr} (hb : e.bus.Backed p) (v : Byte) :
    e.deviceWrite1 hc v (e.bus.locate p) = { e with bus := e.bus.stored p v } := by
  unfold Bus.stored
  cases hl : e.bus.locate p with
  | none => rfl
  | some l => exact if_pos (hb l hl)

/-- A file that is read to RAM: whether it fits, and what memory holds afterwards. -/
theorem readFile_memory {write : Emu H → Nat → Byte → Emu H} {limit : Nat} (hlim : limit ≤ physMax)
    (hw : ∀ (e : Emu H) cur v, cur < limit → write e cur v = e.deviceWrite1 hc v
      (e.bus.locate (BitVec.ofNat 32 cur)))
    (hs : AddressedStore.Separate e.bus.locate) (hb : ∀ p, e.bus.Backed p) {cur : Nat} (hcur : cur ≤ limit)
    (data : List Byte) : ∃ ram, Emu.readFile write limit e cur data =
      (decide (cur + data.length ≤ limit), { e with bus := { e.bus with ram := ram } }) ∧
        ∀ p, { e.bus with ram := ram }.physByte p = e.bus.overlaid cur limit data p := by
  induction data generalizing e cur with
  | nil => exact ⟨e.bus.ram, by simp [Emu.readFile, hcur], fun p => by simp [Bus.overlaid]⟩
  | cons v data ih =>
    rw [Emu.readFile]
    by_cases hl : limit ≤ cur
    · refine ⟨e.bus.ram, ?_, fun p => ?_⟩
      · rw [if_pos hl, decide_eq_false (by rw [List.length_cons]; omega)]
      · rw [Bus.overlaid, if_neg (by omega)]
    · rw [if_neg hl, hw e cur v (by omega), deviceWrite1_stored (hb _)]
      obtain ⟨ram, hr⟩ := Bus.stored_eq e.bus (BitVec.ofNat 32 cur) v
      have hbyte (q : PAddr) := Bus.physByte_stored (q := q) (p := BitVec.ofNat 32 cur) hs v
      rw [hr] at hbyte ⊢
      obtain ⟨ram', hrun, hmem⟩ := ih (e := { e with bus := { e.bus with ram := ram } }) hs hb
        (show cur + 1 ≤ limit by omega)
      refine ⟨ram', ?_, fun p => ?_⟩
      · rw [hrun, List.length_cons, Nat.add_assoc, Nat.add_comm 1]
      · exact (hmem p).trans (Bus.overlaid_cons (by omega) hlim rfl (hbyte p))

theorem busWrite1_locate (e : Emu H) (hc : HostCode H) {cur : Nat} (hcur : cur < busSize) (v : Byte) :
    e.busWrite1 hc (BitVec.ofNat 16 cur) v = e.deviceWrite1 hc v (e.bus.locate (BitVec.ofNat 32 cur)) := by
  have hw : (BitVec.ofNat 16 cur).setWidth 32 = BitVec.ofNat 32 cur := by
    apply BitVec.eq_of_toNat_eq
    rw [BitVec.toNat_setWidth, BitVec.toNat_ofNat, BitVec.toNat_ofNat]
    unfold busSize at hcur
    omega
  rw [← hw]
  exact Emu.busWrite_eq e hc (.byte _ v)

theorem busLoadFile_memory (hs : AddressedStore.Separate e.bus.locate) (hb : ∀ p, e.bus.Backed p)
    (data : List Byte) (addr : Addr) : ∃ ram, e.busLoadFile hc addr (some data) =
      (decide (addr.toNat + data.length ≤ busSize), { e with bus := { e.bus with ram := ram } }) ∧
        ∀ p, { e.bus with ram := ram }.physByte p = e.bus.overlaid addr.toNat busSize data p :=
  readFile_memory (by decide) (fun e cur v hcur => busWrite1_locate e hc hcur v) hs hb
    (Nat.le_of_lt addr.isLt) data

theorem busLoadFilePhys_memory (hs : AddressedStore.Separate e.bus.locate) (hb : ∀ p, e.bus.Backed p)
    (data : List Byte) (addr : PAddr) : ∃ ram, e.busLoadFilePhys hc addr (some data) =
      (decide (busSize ≤ addr.toNat ∧ (data = [] ∨ addr.toNat + data.length ≤ physMax)),
        { e with bus := { e.bus with ram := ram } }) ∧
      ∀ p, { e.bus with ram := ram }.physByte p =
        if busSize ≤ addr.toNat then e.bus.overlaid addr.toNat physMax data p else e.bus.physByte p := by
  unfold Emu.busLoadFilePhys
  by_cases hlow : busSize ≤ addr.toNat
  · simp only [if_neg (Nat.not_lt.2 hlow), hlow, if_true, true_and, Option.elim_some]
    by_cases hhigh : addr.toNat ≤ physMax
    · obtain ⟨ram, hr, hm⟩ := readFile_memory (by decide)
        (fun e cur v (_ : cur < physMax) => Emu.busWrite_eq e hc (.phys _ v)) hs hb hhigh data
      refine ⟨ram, hr.trans ?_, hm⟩
      congr 2
      refine propext ⟨.inr, fun h => h.elim (fun hd => ?_) id⟩
      rw [hd]
      exact hhigh
    · -- a file that starts beyond physical memory: its first byte is refused
      refine ⟨e.bus.ram, ?_, fun p => ?_⟩
      · cases data with
        | nil => simp [Emu.readFile]
        | cons v data =>
          rw [Emu.readFile, if_pos (Nat.le_of_not_le hhigh), decide_eq_false]
          simp only [List.length_cons, reduceCtorEq, false_or]
          omega
      · rw [Bus.overlaid, if_neg]
        omega
  · exact ⟨e.bus.ram, by simp [Nat.lt_of_not_le hlow, hlow], fun p => (if_neg hlow).symm⟩

/-- Both loaders, over RAM of which no two addresses share a byte. `bus_load_file` succeeds if and
only if the file ends within the bus; `bus_load_file_phys` if and only if the address is not on the
bus and the file is empty or ends within physical memory. Whether they succeed or not, memory then
holds the file as far as it reaches, except that `bus_load_file_phys` reads nothing to an address
on the bus, and nothing else has changed. -/
theorem file_load_exact (hc : HostCode H) (e : Emu H) (hs : AddressedStore.Separate e.bus.locate)
    (hb : ∀ p, e.bus.Backed p) (data : List Byte) :
    (∀ addr : Addr, ∃ ram, e.busLoadFile hc addr (some data) =
      (decide (addr.toNat + data.length ≤ busSize), { e with bus := { e.bus with ram := ram } }) ∧
        ∀ p, { e.bus with ram := ram }.physByte p = e.bus.overlaid addr.toNat busSize data p) ∧
    ∀ addr : PAddr, ∃ ram, e.busLoadFilePhys hc addr (some data) =
      (decide (busSize ≤ addr.toNat ∧ (data = [] ∨ addr.toNat + data.length ≤ physMax)),
        { e with bus := { e.bus with ram := ram } }) ∧
      ∀ p, { e.bus with ram := ram }.physByte p =
        if busSize ≤ addr.toNat then e.bus.overlaid addr.toNat physMax data p else e.bus.physByte p :=
  ⟨busLoadFile_memory hs hb data, busLoadFilePhys_memory hs hb data⟩

end Memory

theorem separate_defaultDevs : AddressedStore.Separate busInitWithDefaultDevs.locate :=
  show AddressedStore.Separate (Bus.built (fun _ => ⟨0xDFFF, true⟩) [.add 0 0]).locate
    from Bus.locate_separate (by decide)

theorem backed_defaultDevs (p : PAddr) : busInitWithDefaultDevs.Backed p := fun _ _ => rfl

/-- The last byte of the file is lost where the default bus has no RAM, and the load still succeeds. -/
theorem file_load_past_ram : ∃ ram,
    (init busInitWithDefaultDevs () ⟨0, 0, 0, 0, 0, 0⟩).busLoadFile (quietHost identity) 0xDFFD (some [1, 2, 3]) =
      (true, { init busInitWithDefaultDevs () ⟨0, 0, 0, 0, 0, 0⟩ with
        bus := { busInitWithDefaultDevs with ram := ram } }) ∧
        { busInitWithDefaultDevs with ram := ram }.physByte 0xDFFE = 2 ∧
        { busInitWithDefaultDevs with ram := ram }.physByte 0xDFFF = 0xFF := by
  obtain ⟨ram, hl, hm⟩ :=
    (file_load_exact (quietHost identity) (init busInitWithDefaultDevs () ⟨0, 0, 0, 0, 0, 0⟩)
    separate_defaultDevs backed_defaultDevs [1, 2, 3]).1 0xDFFD
  exact ⟨ram, hl, (hm 0xDFFE).trans (by decide), (hm 0xDFFF).trans (by decide)⟩

end Rk65c02
