import Mathlib.Algebra.Order.Ring.Nat

/-! A stack that grows downwards in a ring of `2 ^ w` cells. The pointer may wrap from any start;
as long as no more entries are live than there are cells, a push keeps them all. -/

namespace RingStack

variable {w : Nat} {V : Type} {m : BitVec w → V} {sp : BitVec w} {st : List V} {v : V}

/-- The live entries, top first, lie above the pointer. -/
def Live (m : BitVec w → V) (sp : BitVec w) (st : List V) : Prop :=
  ∀ k v, st[k]? = some v → m (sp + 1 + BitVec.ofNat w k) = v

theorem live_nil (m : BitVec w → V) (sp : BitVec w) : Live m sp [] := fun _ _ h => nomatch h

theorem add_ofNat_succ (sp : BitVec w) (k : Nat) : sp + BitVec.ofNat w (k + 1) = sp + 1 + BitVec.ofNat w k := by
  rw [BitVec.ofNat_add, BitVec.add_comm (BitVec.ofNat w k), ← BitVec.add_assoc]
  rfl

/-- The cell at the pointer is not one of a live entry. -/
theorem add_ofNat_ne {k : Nat} (h : 0 < k) (hk : k < 2 ^ w) : sp + BitVec.ofNat w k ≠ sp := by
  intro he
  have hn := congrArg BitVec.toNat he
  rw [BitVec.toNat_add, BitVec.toNat_ofNat, Nat.mod_eq_of_lt hk] at hn
  have hsp := sp.isLt
  by_cases hlt : sp.toNat + k < 2 ^ w
  · rw [Nat.mod_eq_of_lt hlt] at hn
    omega
  · rw [Nat.mod_eq_sub_mod (by omega), Nat.mod_eq_of_lt (by omega)] at hn
    omega

theorem Live.push (h : Live m sp st) (hl : st.length < 2 ^ w) (v : V) :
    Live (Function.update m sp v) (sp - 1) (v :: st) := by
  intro k u hk
  rw [BitVec.sub_add_cancel]
  cases k with
  | zero =>
    obtain rfl : v = u := Option.some.inj hk
    rw [BitVec.add_zero, Function.update_self]
  | succ k =>
    have hlt : k < st.length := (List.getElem?_eq_some_iff.mp (show st[k]? = some u from hk)).1
    rw [Function.update_of_ne (add_ofNat_ne (by omega) (by omega)), add_ofNat_succ]
    exact h k u hk

theorem Live.top (h : Live m sp (v :: st)) : m (sp + 1) = v := by
  have hh := h 0 v rfl
  rwa [BitVec.add_zero] at hh

theorem Live.pop (h : Live m sp (v :: st)) : Live m (sp + 1) st := by
  intro k u hk
  have hh := h (k + 1) u hk
  rwa [add_ofNat_succ] at hh

end RingStack
