import Rk65c02.AddressedStore
import Rk65c02.Run
import Mathlib.Data.List.Induction
import Mathlib.Data.List.Nodup

/-! The bus as a memory: with RAM devices mapped once each, in whatever way their ranges
overlap, no two addresses share a cell. -/

namespace Rk65c02

variable {H : Type}

/-- Requests to map a device. -/
inductive BusAdd
  | add (d : DevId) (addr : Addr)
  | addPhys (d : DevId) (base : PAddr)
  deriving DecidableEq

def BusAdd.device : BusAdd → DevId
  | add d _ => d
  | addPhys d _ => d

namespace Bus

/-- `bus_init`, with the devices there are; `device_ram_init` clears their memory. -/
def init (dev : DevId → Device) : Bus where
  dm := []
  dmPhys := []
  dev := dev
  ram := fun _ _ => 0

/-- A mapping that would exceed the bus is not added. -/
def deviceAdd (b : Bus) (d : DevId) (addr : Addr) : Bus :=
  if busSize < addr.toNat + (b.dev d).size.toNat then b else { b with dm := b.dm ++ [(d, addr)] }

def deviceAddPhys (b : Bus) (d : DevId) (base : PAddr) : Bus := { b with dmPhys := b.dmPhys ++ [(d, base)] }

def request (b : Bus) : BusAdd → Bus
  | .add d addr => b.deviceAdd d addr
  | .addPhys d base => b.deviceAddPhys d base

/-- The bus after some requests, made in order. -/
def built (dev : DevId → Device) (cs : List BusAdd) : Bus := cs.foldl request (init dev)

/-- The cell behind a physical address; below 64K it is the one behind the address itself. -/
def locate (b : Bus) (p : PAddr) : Option (DevId × Addr) :=
  if p.toNat < busSize then b.accessDevice (p.setWidth 16) else b.accessDevicePhys p

def cells (b : Bus) (l : DevId × Addr) : Byte := b.ram l.1 l.2

end Bus

/-- The physical address lies in the range of a request that was accepted. -/
def mapped (dev : DevId → Device) (cs : List BusAdd) (p : PAddr) : Bool :=
  cs.any fun c =>
    match c with
    | .add d addr =>
      decide (addr.toNat + (dev d).size.toNat ≤ busSize) && decide (p.toNat < busSize) &&
        decide (addr.toNat ≤ p.toNat) && decide (p.toNat < addr.toNat + (dev d).size.toNat)
    | .addPhys d base =>
      decide (busSize ≤ p.toNat) && decide (base.toNat ≤ p.toNat) && decide
        (p.toNat < base.toNat + (dev d).size.toNat)

/-- Writes to the bus, by address or by physical address. -/
inductive BusWrite
  | byte (a : Addr) (v : Byte)
  | phys (a : PAddr) (v : Byte)

/-- The physical address written, and the value. -/
def BusWrite.write : BusWrite → PAddr × Byte
  | byte a v => (a.setWidth 32, v)
  | phys a v => (a, v)

namespace Emu

def busWrite (hc : HostCode H) (e : Emu H) : BusWrite → Emu H
  | .byte a v => e.busWrite1 hc a v
  | .phys a v => e.busWrite1Phys hc a v

def busWrites (hc : HostCode H) (e : Emu H) (ws : List BusWrite) : Emu H := ws.foldl (busWrite hc) e

end Emu

namespace Bus

variable {b : Bus} {dev : DevId → Device} {cs : List BusAdd} {a : Addr} {p : PAddr} {d : DevId} {off : Addr}

/-- The last mapping that holds the address. -/
theorem accessDevice_eq (b : Bus) (a : Addr) : b.accessDevice a =
    ((b.dm.filter fun m => m.2.toNat ≤ a.toNat ∧ a.toNat < m.2.toNat + (b.dev m.1).size.toNat).getLast?).map
      fun m => (m.1, a - m.2) := by
  unfold accessDevice
  induction b.dm using List.reverseRecOn with
  | nil => rfl
  | append_singleton ms m ih =>
    rw [List.foldl_append, ih, List.filter_append]
    by_cases hm : m.2.toNat ≤ a.toNat ∧ a.toNat < m.2.toNat + (b.dev m.1).size.toNat <;> simp [hm]

theorem accessDevice_some (h : b.accessDevice a = some (d, off)) :
    ∃ addr, (d, addr) ∈ b.dm ∧ addr.toNat ≤ a.toNat ∧ a.toNat < addr.toNat + (b.dev d).size.toNat ∧
    off = a - addr := by
  rw [accessDevice_eq, Option.map_eq_some_iff] at h
  obtain ⟨⟨d', addr⟩, hm, he⟩ := h
  cases he
  obtain ⟨hm, hr⟩ := List.mem_filter.mp (List.mem_of_getLast? hm)
  have hr := of_decide_eq_true hr
  exact ⟨addr, hm, hr.1, hr.2, rfl⟩

theorem accessDevice_isSome : (b.accessDevice a).isSome = true ↔
    ∃ m ∈ b.dm, m.2.toNat ≤ a.toNat ∧ a.toNat < m.2.toNat + (b.dev m.1).size.toNat := by
  rw [accessDevice_eq, Option.isSome_map, List.getLast?_isSome, Ne, List.filter_eq_nil_iff]
  simp

/-- The end of a range is computed in 32 bits, but a range that wraps holds no address. -/
theorem accessDevicePhys_some (h : b.accessDevicePhys p = some (d, off)) :
    busSize ≤ p.toNat ∧ ∃ base, (d, base) ∈ b.dmPhys ∧ base.toNat ≤ p.toNat ∧
      p.toNat < base.toNat + (b.dev d).size.toNat ∧ off = (p - base).setWidth 16 := by
  unfold accessDevicePhys at h
  split at h
  · cases h
  · next hp =>
    rw [Option.map_eq_some_iff] at h
    obtain ⟨⟨d', base⟩, hm, he⟩ := h
    cases he
    have hr := List.find?_some hm
    simp only [decide_eq_true_eq, BitVec.le_def, BitVec.lt_def, BitVec.toNat_add, BitVec.toNat_setWidth] at hr
    have hs := (b.dev d').size.isLt
    have hu : p.toNat < base.toNat + (b.dev d').size.toNat := by omega
    exact ⟨by omega, base, List.mem_of_find?_eq_some hm, hr.1, hu, rfl⟩

/-- Below 16 MiB no range that holds an address wraps. -/
theorem accessDevicePhys_isSome (hp : p.toNat < physMax) : (b.accessDevicePhys p).isSome = true ↔
    busSize ≤ p.toNat ∧ ∃ m ∈ b.dmPhys, m.2.toNat ≤ p.toNat ∧ p.toNat < m.2.toNat + (b.dev m.1).size.toNat := by
  unfold accessDevicePhys
  by_cases h : p.toNat < busSize
  · rw [if_pos h]
    exact ⟨fun hh => (nomatch hh), fun hh => absurd hh.1 (by omega)⟩
  · rw [if_neg h, Option.isSome_map, List.find?_isSome]
    refine ⟨?_, ?_⟩
    · rintro ⟨m, hm, hr⟩
      simp only [decide_eq_true_eq, BitVec.le_def, BitVec.lt_def, BitVec.toNat_add, BitVec.toNat_setWidth] at hr
      have hs := (b.dev m.1).size.isLt
      exact ⟨by omega, m, hm, hr.1, by omega⟩
    · rintro ⟨-, m, hm, hl, hu⟩
      refine ⟨m, hm, ?_⟩
      simp only [decide_eq_true_eq, BitVec.le_def, BitVec.lt_def, BitVec.toNat_add, BitVec.toNat_setWidth]
      have hs := (b.dev m.1).size.isLt
      unfold physMax at hp
      omega

/-- What the requests made: a mapping for each one that was accepted. -/
theorem built_spec (dev : DevId → Device) (cs : List BusAdd) :
    (built dev cs).dev = dev ∧ (built dev cs).ram = (fun _ _ => 0) ∧
      (∀ d addr, (d, addr) ∈ (built dev cs).dm ↔ .add d addr ∈ cs ∧ addr.toNat + (dev d).size.toNat ≤ busSize) ∧
      ∀ d base, (d, base) ∈ (built dev cs).dmPhys ↔ .addPhys d base ∈ cs := by
  induction cs using List.reverseRecOn with
  | nil => exact ⟨rfl, rfl, by simp [built, init], by simp [built, init]⟩
  | append_singleton cs c ih =>
    have hb : built dev (cs ++ [c]) = (built dev cs).request c := by
      rw [built, List.foldl_append]
      rfl
    rw [hb]
    obtain ⟨hdev, hram, hdm, hphys⟩ := ih
    cases c with
    | add d addr =>
      rw [show (built dev cs).request (.add d addr) = (built dev cs).deviceAdd d addr from rfl, deviceAdd, hdev]
      split
      · next ha =>
        refine ⟨hdev, hram, fun d' addr' => ?_, by simpa using hphys⟩
        rw [hdm, List.mem_append, List.mem_singleton]
        constructor
        · exact fun h => ⟨.inl h.1, h.2⟩
        · rintro ⟨h | h, hle⟩
          · exact ⟨h, hle⟩
          · cases h
            omega
      · next ha =>
        refine ⟨rfl, hram, fun d' addr' => ?_, by simpa using hphys⟩
        rw [List.mem_append, hdm, List.mem_singleton, List.mem_append, List.mem_singleton]
        constructor
        · rintro (h | h)
          · exact ⟨.inl h.1, h.2⟩
          · cases h
            exact ⟨.inr rfl, by omega⟩
        · rintro ⟨h | h, hle⟩
          · exact .inl ⟨h, hle⟩
          · cases h
            exact .inr rfl
    | addPhys d base =>
      refine ⟨hdev, hram, by simpa [request, deviceAddPhys] using hdm, fun d' base' => ?_⟩
      simp [request, deviceAddPhys, hphys]

theorem request_unique (hd : (cs.map BusAdd.device).Nodup) {c c' : BusAdd} (hc : c ∈ cs) (hc' : c' ∈ cs)
    (h : c.device = c'.device) : c = c' := List.inj_on_of_nodup_map hd hc hc' h

/-- With each device mapped once, no two addresses share a cell. -/
theorem locate_separate (hd : (cs.map BusAdd.device).Nodup) : AddressedStore.Separate (built dev cs).locate := by
  obtain ⟨hdev, -, hdm, hphys⟩ := built_spec dev cs
  have hwhere : ∀ p l, (built dev cs).locate p = some l →
      (∃ addr, .add l.1 addr ∈ cs ∧ p.toNat = addr.toNat + l.2.toNat) ∨
        ∃ base, .addPhys l.1 base ∈ cs ∧ p.toNat = base.toNat + l.2.toNat := by
    rintro p ⟨d, off⟩ h
    have hs := (dev d).size.isLt
    unfold locate at h
    split at h
    · next hp =>
      obtain ⟨addr, hm, hl, hu, rfl⟩ := accessDevice_some h
      refine .inl ⟨addr, ((hdm d addr).mp hm).1, ?_⟩
      unfold busSize at hp
      rw [BitVec.toNat_setWidth] at hl
      dsimp only
      rw [BitVec.toNat_sub, BitVec.toNat_setWidth]
      omega
    · obtain ⟨-, base, hm, hl, hu, rfl⟩ := accessDevicePhys_some h
      refine .inr ⟨base, (hphys d base).mp hm, ?_⟩
      rw [hdev] at hu
      have hp := p.isLt
      dsimp only
      rw [BitVec.toNat_setWidth, BitVec.toNat_sub]
      omega
  intro p q l hp hq
  apply BitVec.eq_of_toNat_eq
  rcases hwhere p l hp with ⟨a, ha, hpa⟩ | ⟨a, ha, hpa⟩ <;> rcases hwhere q l hq with ⟨c, hc, hqc⟩ | ⟨c, hc, hqc⟩
  · cases request_unique hd ha hc rfl
    omega
  · cases request_unique hd ha hc rfl
  · cases request_unique hd ha hc rfl
  · cases request_unique hd ha hc rfl
    omega

/-- A cell is one of a device that was asked for, and lies within it. -/
theorem locate_some {l : DevId × Addr} (h : (built dev cs).locate p = some l) :
    (∃ c ∈ cs, c.device = l.1) ∧ l.2.toNat < (dev l.1).size.toNat := by
  obtain ⟨hdev, -, hdm, hphys⟩ := built_spec dev cs
  obtain ⟨d, off⟩ := l
  have hs := (dev d).size.isLt
  unfold locate at h
  split at h
  · obtain ⟨addr, hm, hl, hu, rfl⟩ := accessDevice_some h
    rw [hdev] at hu
    refine ⟨⟨_, ((hdm d addr).mp hm).1, rfl⟩, ?_⟩
    dsimp only
    rw [BitVec.toNat_sub]
    omega
  · obtain ⟨-, base, hm, hl, hu, rfl⟩ := accessDevicePhys_some h
    rw [hdev] at hu
    have hp := p.isLt
    refine ⟨⟨_, (hphys d base).mp hm, rfl⟩, ?_⟩
    dsimp only
    rw [BitVec.toNat_setWidth, BitVec.toNat_sub]
    omega

theorem locate_isSome (hp : p.toNat < physMax) : ((built dev cs).locate p).isSome = mapped dev cs p := by
  obtain ⟨hdev, -, hdm, hphys⟩ := built_spec dev cs
  rw [Bool.eq_iff_iff]
  unfold locate mapped
  rw [List.any_eq_true]
  split
  · next hlt =>
    rw [accessDevice_isSome, hdev, BitVec.toNat_setWidth, Nat.mod_eq_of_lt (show p.toNat < 2 ^ 16 from hlt)]
    constructor
    · rintro ⟨⟨d, addr⟩, hm, hl, hu⟩
      obtain ⟨hc, hle⟩ := (hdm d addr).mp hm
      exact ⟨_, hc, by simp_all⟩
    · rintro ⟨c, hc, hr⟩
      cases c with
      | add d addr =>
        simp only [Bool.and_eq_true, decide_eq_true_eq] at hr
        exact ⟨(d, addr), (hdm d addr).mpr ⟨hc, hr.1.1.1⟩, hr.1.2, hr.2⟩
      | addPhys d base =>
        simp only [Bool.and_eq_true, decide_eq_true_eq] at hr
        omega
  · next hge =>
    rw [accessDevicePhys_isSome hp, hdev]
    constructor
    · rintro ⟨hle, ⟨d, base⟩, hm, hl, hu⟩
      exact ⟨_, (hphys d base).mp hm, by simp_all⟩
    · rintro ⟨c, hc, hr⟩
      cases c with
      | add d addr =>
        simp only [Bool.and_eq_true, decide_eq_true_eq] at hr
        omega
      | addPhys d base =>
        simp only [Bool.and_eq_true, decide_eq_true_eq] at hr
        exact ⟨hr.1.1, (d, base), (hphys d base).mpr hc, hr.1.2, hr.2⟩

theorem locate_byte (b : Bus) (a : Addr) : b.locate (a.setWidth 32) = b.accessDevice a := by
  have ha := a.isLt
  unfold locate busSize
  rw [if_pos (by rw [BitVec.toNat_setWidth]; omega), BitVec.setWidth_setWidth_of_le a (by decide),
    BitVec.setWidth_eq]

theorem cells_ramWrite1 (b : Bus) (l : DevId × Addr) (v : Byte) :
    (b.ramWrite1 l.1 l.2 v).cells = Function.update b.cells l v := by
  funext l'
  by_cases h : l' = l
  · rw [h, Function.update_self]
    simp [cells, ramWrite1]
  · rw [Function.update_of_ne h]
    by_cases hd : l'.1 = l.1
    · have ho : l'.2 ≠ l.2 := fun ho => h (Prod.ext hd ho)
      simp [cells, ramWrite1, hd, ho]
    · simp [cells, ramWrite1, hd]

end Bus

namespace Emu

variable {hc : HostCode H} {e : Emu H}

theorem busRead1_eq (e : Emu H) (hc : HostCode H) (a : Addr) :
    e.busRead1 hc a = e.deviceRead1 hc (e.bus.locate (a.setWidth 32)) := by
  rw [Bus.locate_byte]
  rfl

theorem busRead1Phys_eq (e : Emu H) (hc : HostCode H) (p : PAddr) :
    e.busRead1Phys hc p = e.deviceRead1 hc (e.bus.locate p) := by
  unfold busRead1Phys Bus.locate
  split <;> rfl

theorem busWrite_eq (e : Emu H) (hc : HostCode H) (w : BusWrite) :
    e.busWrite hc w = e.deviceWrite1 hc w.write.2 (e.bus.locate w.write.1) := by
  cases w with
  | byte a v =>
    change e.busWrite1 hc a v = e.deviceWrite1 hc v (e.bus.locate (a.setWidth 32))
    rw [Bus.locate_byte]
    rfl
  | phys a v =>
    change e.busWrite1Phys hc a v = e.deviceWrite1 hc v (e.bus.locate a)
    unfold busWrite1Phys Bus.locate
    split <;> rfl

section Memory

variable {dev : DevId → Device} {cs : List BusAdd} (hram : ∀ c ∈ cs, (dev c.device).ram = true)

include hram

/-- An access of a bus of RAM devices is one of a cell. -/
theorem deviceRead1_cell (hb : e.bus = { Bus.built dev cs with ram := e.bus.ram }) (p : PAddr) :
    e.deviceRead1 hc (e.bus.locate p) =
      (AddressedStore.load (Bus.built dev cs).locate 0xFF e.bus.cells p, e) := by
  have hl : e.bus.locate p = (Bus.built dev cs).locate p := by
    rw [hb]
    rfl
  have hdev : e.bus.dev = dev := by
    rw [hb]
    exact (Bus.built_spec dev cs).1
  unfold AddressedStore.load
  rw [hl]
  cases h : (Bus.built dev cs).locate p with
  | none => rfl
  | some l =>
    obtain ⟨⟨c, hc, hd⟩, -⟩ := Bus.locate_some h
    have hr : (e.bus.dev l.1).ram = true := by
      rw [hdev, ← hd]
      exact hram c hc
    simp only [deviceRead1, if_pos hr]
    rfl

theorem busWrite_cell (hb : e.bus = { Bus.built dev cs with ram := e.bus.ram }) (w : BusWrite) :
    (e.busWrite hc w).bus = { Bus.built dev cs with ram := (e.busWrite hc w).bus.ram } ∧
      (e.busWrite hc w).bus.cells = AddressedStore.store (Bus.built dev cs).locate e.bus.cells w.write := by
  have hl : e.bus.locate w.write.1 = (Bus.built dev cs).locate w.write.1 := by
    rw [hb]
    rfl
  have hdev : e.bus.dev = dev := by
    rw [hb]
    exact (Bus.built_spec dev cs).1
  unfold AddressedStore.store
  rw [busWrite_eq, hl]
  cases h : (Bus.built dev cs).locate w.write.1 with
  | none => exact ⟨hb, rfl⟩
  | some l =>
    obtain ⟨⟨c, hc, hd⟩, -⟩ := Bus.locate_some h
    have hr : (e.bus.dev l.1).ram = true := by
      rw [hdev, ← hd]
      exact hram c hc
    simp only [deviceWrite1, if_pos hr]
    exact ⟨congrArg (fun b : Bus => b.ramWrite1 l.1 l.2 w.write.2) hb, Bus.cells_ramWrite1 _ _ _⟩

variable (hc) in
theorem busWrites_cells (hb : e.bus = { Bus.built dev cs with ram := e.bus.ram }) (ws : List BusWrite) :
    (e.busWrites hc ws).bus = { Bus.built dev cs with ram := (e.busWrites hc ws).bus.ram } ∧
      (e.busWrites hc ws).bus.cells =
        (ws.map BusWrite.write).foldl (AddressedStore.store (Bus.built dev cs).locate) e.bus.cells := by
  induction ws generalizing e with
  | nil => exact ⟨hb, rfl⟩
  | cons w ws ih =>
    obtain ⟨hw, hcells⟩ := busWrite_cell hram hb w
    obtain ⟨hws, hrest⟩ := ih hw
    refine ⟨hws, hrest.trans ?_⟩
    rw [hcells, List.map_cons, List.foldl_cons]

/-- A read gives what was written last at its address. -/
theorem deviceRead1_last (hb : e.bus = Bus.built dev cs) (hd : (cs.map BusAdd.device).Nodup) (ws : List BusWrite)
    {p : PAddr} (hp : p.toNat < physMax) :
    (e.busWrites hc ws).deviceRead1 hc ((e.busWrites hc ws).bus.locate p) =
      (if mapped dev cs p = true then AddressedStore.lastWritten 0 (ws.map BusWrite.write) p
        else 0xFF, e.busWrites hc ws) := by
  obtain ⟨hws, hcells⟩ := busWrites_cells hc hram (by rw [hb]) ws
  rw [deviceRead1_cell hram hws, hcells]
  refine congrArg (·, e.busWrites hc ws) ?_
  rw [← Bus.locate_isSome hp]
  by_cases h : ((Bus.built dev cs).locate p).isSome = true
  · have hz : AddressedStore.load (Bus.built dev cs).locate 0xFF e.bus.cells p = 0 := by
      obtain ⟨l, hl⟩ := Option.isSome_iff_exists.mp h
      rw [AddressedStore.load, hl, hb]
      exact congrFun (congrFun (Bus.built_spec dev cs).2.1 l.1) l.2
    rw [if_pos h, AddressedStore.load_stores (Bus.locate_separate hd) h, hz]
  · rw [if_neg h, AddressedStore.load_none (by simpa using h)]

end Memory

end Emu

/-- The bus is a memory: a read gives the value last written at its address, zero before the
first write and `0xFF` where nothing is mapped; offsets stay within their devices, and below 64K
the two kinds of access are the same. -/
theorem bus_is_memory (hc : HostCode H) (e : Emu H) (dev : DevId → Device) (cs : List BusAdd)
    (hb : e.bus = Bus.built dev cs) (hd : (cs.map BusAdd.device).Nodup)
    (hram : ∀ c ∈ cs, (dev c.device).ram = true) (ws : List BusWrite) :
    (∀ a : Addr, (e.busWrites hc ws).busRead1 hc a =
      (if mapped dev cs (a.setWidth 32) = true
        then AddressedStore.lastWritten 0 (ws.map BusWrite.write) (a.setWidth 32)
        else 0xFF, e.busWrites hc ws)) ∧
    (∀ p : PAddr, p.toNat < physMax → (e.busWrites hc ws).busRead1Phys hc p =
      (if mapped dev cs p = true then AddressedStore.lastWritten 0 (ws.map BusWrite.write) p else 0xFF,
        e.busWrites hc ws)) ∧
    (∀ a d off, (e.busWrites hc ws).bus.accessDevice a = some (d, off) → off.toNat < (dev d).size.toNat) ∧
    (∀ p d off, (e.busWrites hc ws).bus.accessDevicePhys p = some (d, off) → off.toNat < (dev d).size.toNat) ∧
    ∀ (a : Addr) (v : Byte), (e.busWrites hc ws).busRead1Phys hc (a.setWidth 32) =
    (e.busWrites hc ws).busRead1 hc a ∧
      (e.busWrites hc ws).busWrite1Phys hc (a.setWidth 32) v = (e.busWrites hc ws).busWrite1 hc a v := by
  obtain ⟨hws, -⟩ := Emu.busWrites_cells hc hram (by rw [hb]) ws
  refine ⟨fun a => ?_, fun p hp => ?_, fun a d off h => ?_, fun p d off h => ?_, fun a v => ⟨?_, ?_⟩⟩
  · have ha := a.isLt
    rw [Emu.busRead1_eq]
    exact Emu.deviceRead1_last hram hb hd ws (by rw [BitVec.toNat_setWidth]; unfold physMax; omega)
  · rw [Emu.busRead1Phys_eq]
    exact Emu.deviceRead1_last hram hb hd ws hp
  · rw [hws, ← Bus.locate_byte] at h
    exact (Bus.locate_some h).2
  · rw [hws] at h
    have hp := (Bus.accessDevicePhys_some h).1
    have hl : (Bus.built dev cs).locate p = some (d, off) := by
      rw [Bus.locate, if_neg (by omega)]
      exact h
    exact (Bus.locate_some hl).2
  · rw [Emu.busRead1Phys_eq, Emu.busRead1_eq]
  · exact (Emu.busWrite_eq _ hc (.phys _ v)).trans (Emu.busWrite_eq _ hc (.byte a v)).symm

/-- Overlapping ranges in both lists, and a request that is rejected. -/
def overlapping : List BusAdd :=
  [.add 0 0x0000, .add 1 0x0800, .addPhys 2 0x10000, .addPhys 3 0x10800, .add 4 0xF800]

def overlappingWrites : List BusWrite := [.byte 0x0900 1, .phys 0x10900 2, .phys 0x0100 3, .byte 0x0100 4]

def overlappingEmu : Emu Unit := Rk65c02.init (.built (fun _ => ⟨0x1000, true⟩) overlapping) () ⟨0, 0, 0, 0, 0, 0⟩

theorem bus_is_memory_overlapping :
    ((overlappingEmu.busWrites (quietHost identity) overlappingWrites).busRead1Phys
      (quietHost identity) 0x0100).1 = 4 := by
  rw [(bus_is_memory (quietHost identity) overlappingEmu (fun _ => ⟨0x1000, true⟩) overlapping rfl
    (by decide) (fun _ _ => rfl)
    overlappingWrites).2.1 0x0100 (by decide)]
  decide

end Rk65c02
