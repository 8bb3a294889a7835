import Mathlib.Logic.Function.Basic

/-! Cells reached through a partial map of addresses. Where no two addresses share a cell the
cells are a memory: a load gives the last value stored at its own address. -/

namespace AddressedStore

variable {A L V : Type}

def store [DecidableEq L] (loc : A → Option L) (m : L → V) (w : A × V) : L → V :=
  (loc w.1).elim m fun l => Function.update m l w.2

/-- A load from an address without a cell gives a fixed value. -/
def load (loc : A → Option L) (float : V) (m : L → V) (a : A) : V := (loc a).elim float m

/-- The value of the last of the writes at the address. -/
def lastWritten [DecidableEq A] (init : V) (ws : List (A × V)) (a : A) : V :=
  ws.foldl (fun v w => if w.1 = a then w.2 else v) init

/-- No two addresses share a cell. -/
def Separate (loc : A → Option L) : Prop := ∀ a b l, loc a = some l → loc b = some l → a = b

variable {loc : A → Option L} {float : V} {m : L → V} {a : A}

theorem load_none (h : loc a = none) : load loc float m a = float := by
  rw [load, h]
  rfl

section Stores

variable [DecidableEq L]

theorem load_store_self (v : V) (h : (loc a).isSome = true) : load loc float (store loc m (a, v)) a = v := by
  obtain ⟨l, hl⟩ := Option.isSome_iff_exists.mp h
  simp [load, store, hl]

theorem load_store_other (hs : Separate loc) {w : A × V} (h : w.1 ≠ a) :
    load loc float (store loc m w) a = load loc float m a := by
  unfold load store
  cases ha : loc a with
  | none => rfl
  | some l =>
    cases hw : loc w.1 with
    | none => rfl
    | some l' =>
      have hne : l ≠ l' := fun he => h (hs _ _ l' hw (he ▸ ha))
      exact Function.update_of_ne hne _ _

theorem load_stores [DecidableEq A] (hs : Separate loc) (h : (loc a).isSome = true) (ws : List (A × V)) :
    load loc float (ws.foldl (store loc) m) a = lastWritten (load loc float m a) ws a := by
  induction ws generalizing m with
  | nil => rfl
  | cons w ws ih =>
    rw [List.foldl_cons, ih, lastWritten, lastWritten, List.foldl_cons]
    by_cases hw : w.1 = a
    · obtain ⟨b, v⟩ := w
      subst hw
      rw [load_store_self v h, if_pos rfl]
    · rw [load_store_other hs hw, if_neg hw]

end Stores

end AddressedStore
