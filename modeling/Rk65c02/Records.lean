import Mathlib.Data.List.Nodup

/-! Lists of records with distinct keys: replacing the record of a key, and how that
changes the number of records with a property. -/

namespace Records

variable {α κ : Type} [DecidableEq κ] (key : α → κ)

/-- Put `b` in the place of the record that has its key. -/
def put (b : α) (l : List α) : List α := l.map fun c => if key c = key b then b else c

theorem keys_put (b : α) (l : List α) : (put key b l).map key = l.map key := by
  rw [put, List.map_map]
  refine List.map_congr_left fun c _ => ?_
  by_cases h : key c = key b
  · rw [Function.comp_apply, if_pos h, h]
  · rw [Function.comp_apply, if_neg h]

theorem put_of_not_mem {b : α} {l : List α} (h : key b ∉ l.map key) : put key b l = l := by
  rw [put, List.map_congr_left (g := id), List.map_id]
  intro c hc
  exact if_neg fun he => h (List.mem_map.2 ⟨c, hc, he⟩)

variable {key}

theorem mem_put {l : List α} {b x : α} (h : key b ∈ l.map key) :
    x ∈ put key b l ↔ x = b ∨ (x ∈ l ∧ key x ≠ key b) := by
  simp only [put, List.mem_map]
  constructor
  · rintro ⟨c, hc, rfl⟩
    by_cases hk : key c = key b
    · exact .inl (if_pos hk)
    · rw [if_neg hk]
      exact .inr ⟨hc, hk⟩
  · rintro (rfl | ⟨hx, hk⟩)
    · obtain ⟨c, hc, hk⟩ := List.mem_map.1 h
      exact ⟨c, hc, if_pos hk⟩
    · exact ⟨x, hx, if_neg hk⟩

/-- Replacing `c` by `b` moves the count by the difference of the two. -/
theorem countP_put {l : List α} (hn : (l.map key).Nodup) {b c : α} (hc : c ∈ l) (hk : key c = key b)
    (p : α → Bool) :
    (put key b l).countP p + (p c).toNat = l.countP p + (p b).toNat := by
  induction l with
  | nil => cases hc
  | cons d l ih =>
    rw [List.map_cons, List.nodup_cons] at hn
    rcases List.mem_cons.1 hc with rfl | hc
    · have hl : put key b l = l := put_of_not_mem key (hk ▸ hn.1)
      have hcons : put key b (c :: l) = b :: put key b l := by
        rw [put, List.map_cons, if_pos hk]
        rfl
      rw [hcons, hl, List.countP_cons, List.countP_cons]
      cases p b <;> cases p c <;> simp
    · have hd : key d ≠ key b := fun he => hn.1 (List.mem_map.2 ⟨c, hc, hk.trans he.symm⟩)
      have hcons : put key b (d :: l) = d :: put key b l := by
        rw [put, List.map_cons, if_neg hd]
        rfl
      have hh := ih hn.2 hc
      rw [hcons, List.countP_cons, List.countP_cons]
      omega

/-- Replacing several records, one after the other, by what `f` makes of each. -/
theorem foldl_put [DecidableEq α] {f : α → α} (hf : ∀ b, key (f b) = key b) {bs l : List α}
    (hn : (l.map key).Nodup) (hbs : bs.Nodup) (hsub : ∀ b ∈ bs, b ∈ l) :
    bs.foldl (fun l b => put key (f b) l) l = l.map fun c => if c ∈ bs then f c else c := by
  induction bs generalizing l with
  | nil => simp
  | cons b bs ih =>
    obtain ⟨hb, hbs⟩ := List.nodup_cons.1 hbs
    have hput : put key (f b) l = l.map fun c => if c = b then f c else c := by
      refine List.map_congr_left fun c hc => ?_
      rw [hf]
      by_cases h : c = b
      · rw [if_pos h, if_pos (h ▸ rfl), h]
      · rw [if_neg h, if_neg fun he => h (List.inj_on_of_nodup_map hn hc (hsub b (by simp)) he)]
    have hkeys := keys_put key (f b) l
    have hsub' : ∀ c ∈ bs, c ∈ put key (f b) l := by
      intro c hc
      have hcb : c ≠ b := fun he => hb (he ▸ hc)
      rw [hput]
      exact List.mem_map.2 ⟨c, hsub c (by simp [hc]), if_neg hcb⟩
    rw [List.foldl_cons, ih (hkeys ▸ hn) hbs hsub', hput, List.map_map]
    refine List.map_congr_left fun c hc => ?_
    by_cases h : c = b
    · have hfb : f b ∉ bs := by
        intro hmem
        have he := List.inj_on_of_nodup_map hn (hsub _ (by simp [hmem])) (hsub b (by simp)) (hf b)
        exact hb (he ▸ hmem)
      subst h
      simp [hfb]
    · simp [h]

end Records
