import Mathlib.Logic.Function.Iterate

/-! Simulation with stuttering: a step of one machine is some steps of another, or none, and then a
rank goes up that is bounded. -/

namespace Iteration

variable {γ σ : Type*} {f : γ → γ} {g : σ → σ} {R : γ → σ → Prop} {stop : γ → Prop} {final : σ → Prop}
    {rank : γ → ℕ}
  {bound : ℕ}

/-- The machine `f` simulates `g` until it stops, which it does where `g` is final. -/
structure Stutters (f : γ → γ) (g : σ → σ) (R : γ → σ → Prop) (stop : γ → Prop) (final : σ → Prop) (rank : γ → ℕ)
    (bound : ℕ) : Prop where
  rank_le : ∀ c, rank c ≤ bound
  stays : ∀ c, stop c → f c = c
  final_stays : ∀ s, final s → g s = s
  stop_final : ∀ c s, R c s → stop c → final s
  final_stop : ∀ c s, R c s → final s → stop (f c)
  step : ∀ c s, R c s → ¬stop c → ∃ n, R (f c) (g^[n] s) ∧ (stop (f c) ∨ rank c < (bound + 1) * n + rank (f c))

namespace Stutters

variable (h : Stutters f g R stop final rank bound) {c : γ} {s : σ}

include h

theorem iterate (hr : R c s) (n : ℕ) :
    ∃ k, R (f^[n] c) (g^[k] s) ∧ (stop (f^[n] c) ∨ n ≤ (bound + 1) * k + rank (f^[n] c)) := by
  induction n with
  | zero => exact ⟨0, hr, .inr (Nat.zero_le _)⟩
  | succ n ih =>
    obtain ⟨k, hk, hn⟩ := ih
    rw [Function.iterate_succ_apply']
    by_cases hs : stop (f^[n] c)
    · rw [h.stays _ hs]
      exact ⟨k, hk, .inl hs⟩
    · obtain ⟨l, hl, hrank⟩ := h.step _ _ hk hs
      refine ⟨l + k, ?_, hrank.imp_right fun hrank => ?_⟩
      · rwa [Function.iterate_add_apply]
      · have hn := hn.resolve_left hs
        rw [Nat.mul_add]
        omega

theorem iterate_final {k l : ℕ} (hk : final (g^[k] s)) (hl : k ≤ l) : g^[l] s = g^[k] s := by
  obtain ⟨n, rfl⟩ := Nat.exists_eq_add_of_le hl
  rw [Nat.add_comm, Function.iterate_add_apply]
  exact Function.iterate_fixed (h.final_stays _ hk) n

/-- If the simulated machine comes to an end, the other stops there. -/
theorem ends (hr : R c s) {k : ℕ} (hk : final (g^[k] s)) : ∃ n, stop (f^[n] c) ∧ R (f^[n] c) (g^[k] s) := by
  have hstop : ∀ n, stop (f^[n] c) → ∃ n, stop (f^[n] c) ∧ R (f^[n] c) (g^[k] s) := by
    intro n hn
    obtain ⟨l, hl, -⟩ := h.iterate hr n
    refine ⟨n, hn, ?_⟩
    have hfin := h.stop_final _ _ hl hn
    rwa [← h.iterate_final hk (Nat.le_max_right l k), h.iterate_final hfin (Nat.le_max_left l k)]
  obtain ⟨l, hl, hn⟩ := h.iterate hr ((bound + 1) * k + bound)
  rcases hn with hn | hn
  · exact hstop _ hn
  · have hle : k ≤ l := by
      have := h.rank_le (f^[(bound + 1) * k + bound] c)
      exact Nat.le_of_mul_le_mul_left (show (bound + 1) * k ≤ (bound + 1) * l by omega) (Nat.succ_pos bound)
    rw [h.iterate_final hk hle] at hl
    refine hstop ((bound + 1) * k + bound + 1) ?_
    rw [Function.iterate_succ_apply']
    exact h.final_stop _ _ hl hk

end Stutters

end Iteration
