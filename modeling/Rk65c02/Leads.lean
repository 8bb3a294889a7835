import Mathlib.Logic.Function.Iterate

/-! A machine that steps: from every state of one kind it reaches a state of another. -/

namespace Iteration

variable {σ : Type*} {f : σ → σ} {P Q R : σ → Prop}

def Reaches (f : σ → σ) (P Q : σ → Prop) : Prop := ∀ s, P s → ∃ n, Q (f^[n] s)

namespace Reaches

theorem trans (hp : Reaches f P Q) (hq : Reaches f Q R) : Reaches f P R := by
  intro s hs
  obtain ⟨n, hn⟩ := hp s hs
  obtain ⟨m, hm⟩ := hq _ hn
  refine ⟨m + n, ?_⟩
  rwa [Function.iterate_add_apply]

/-- A loop whose variant goes down every time it comes round. -/
theorem loop {I : σ → Prop} (v : σ → ℕ) (h : ∀ k, Reaches f (fun s => I s ∧ v s = k) fun s =>
    Q s ∨ I s ∧ v s < k) :
    Reaches f I Q := by
  have hk : ∀ k, Reaches f (fun s => I s ∧ v s = k) Q := by
    intro k
    induction k using Nat.strongRecOn with
    | ind k ih =>
      refine (h k).trans ?_
      rintro s (hq | ⟨hi, hlt⟩)
      · exact ⟨0, hq⟩
      · exact ih (v s) hlt s ⟨hi, rfl⟩
  exact fun s hs => hk (v s) s ⟨hs, rfl⟩

end Reaches

end Iteration
