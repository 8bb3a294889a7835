import Mathlib.Logic.Relation

/-! Programs as trees of requests to an environment. Each request carries a note, the
part of the program's own state that the environment may look at. A handler answers
a request from a state, or leaves the whole program at once. Facts about runs are
proved here once, by induction on the tree, from facts about single requests. -/

namespace Resumption

variable {O N S T α β γ δ : Type} {R : O → Type}

inductive Tree (O : Type) (R : O → Type) (N α : Type) : Type
  | done (a : α)
  | stuck
  | op (o : O) (n : N) (k : R o → Tree O R N α)

namespace Tree

def bind : Tree O R N α → (α → Tree O R N β) → Tree O R N β
  | done a, f => f a
  | stuck, _ => stuck
  | op o n k, f => op o n fun v => (k v).bind f

instance : Monad (Tree O R N) where
  pure := done
  bind := bind

@[simp] theorem pure_eq (a : α) : (pure a : Tree O R N α) = done a := rfl

@[simp] theorem done_bind (a : α) (f : α → Tree O R N β) : (done a >>= f) = f a := by
  simp only [Bind.bind, bind]

@[simp] theorem stuck_bind (f : α → Tree O R N β) : ((stuck : Tree O R N α) >>= f) = stuck := rfl

@[simp] theorem op_bind (o : O) (n : N) (k : R o → Tree O R N α) (f : α → Tree O R N β) :
    (op o n k >>= f) = op o n fun v => k v >>= f := by
  simp only [Bind.bind, bind]

@[simp] theorem map_done (f : α → β) (a : α) : f <$> (done a : Tree O R N α) = done (f a) := rfl

@[simp] theorem map_stuck (f : α → β) : f <$> (stuck : Tree O R N α) = stuck := rfl

@[simp] theorem map_op (f : α → β) (o : O) (n : N) (k : R o → Tree O R N α) :
    f <$> op o n k = op o n fun v => f <$> k v := rfl

theorem bind_done (t : Tree O R N α) : (t >>= done) = t := by
  induction t with
  | done a => rfl
  | stuck => rfl
  | op o n k ih => exact congrArg (op o n) (funext ih)

theorem bind_assoc (t : Tree O R N α) (f : α → Tree O R N β) (g : β → Tree O R N γ) :
    (t >>= f >>= g) = t >>= fun a => f a >>= g := by
  induction t with
  | done a => rfl
  | stuck => rfl
  | op o n k ih => exact congrArg (op o n) (funext ih)

instance : LawfulMonad (Tree O R N) :=
  LawfulMonad.mk' _ bind_done (fun _ _ => rfl) bind_assoc

end Tree

/-- How a run ends: with an answer, by leaving the program from inside a request, or
with a step that has no meaning. -/
inductive Out (S α : Type) : Type
  | ok (a : α) (s : S)
  | exit (s : S)
  | stuck
  deriving DecidableEq

namespace Out

def bind : Out S α → (α → S → Out S β) → Out S β
  | ok a s, f => f a s
  | exit s, _ => exit s
  | stuck, _ => stuck

@[simp] theorem ok_bind (a : α) (s : S) (f : α → S → Out S β) : (ok a s).bind f = f a s := rfl

@[simp] theorem exit_bind (s : S) (f : α → S → Out S β) : (exit s : Out S α).bind f = exit s := rfl

@[simp] theorem stuck_bind (f : α → S → Out S β) : (stuck : Out S α).bind f = stuck := rfl

theorem bind_assoc (x : Out S α) (f : α → S → Out S β) (g : β → S → Out S γ) :
    (x.bind f).bind g = x.bind fun a s => (f a s).bind g := by
  cases x <;> rfl

theorem of_bind_ok {x : Out S α} {f : α → S → Out S β} {b : β} {s : S} (h : x.bind f = .ok b s) :
    ∃ a s', x = .ok a s' ∧ f a s' = .ok b s := by
  cases x with
  | ok a s' => exact ⟨a, s', rfl, h⟩
  | exit s' => cases h
  | stuck => cases h

theorem of_bind_exit {x : Out S α} {f : α → S → Out S β} {s : S} (h : x.bind f = .exit s) :
    x = .exit s ∨ ∃ a s', x = .ok a s' ∧ f a s' = .exit s := by
  cases x with
  | ok a s' => exact .inr ⟨a, s', rfl, h⟩
  | exit s' =>
    cases h
    exact .inl rfl
  | stuck => cases h

def mapState (f : S → T) : Out S α → Out T α
  | ok a s => ok a (f s)
  | exit s => exit (f s)
  | stuck => stuck

@[simp] theorem mapState_ok (f : S → T) (a : α) (s : S) : (ok a s).mapState f = ok a (f s) := rfl

@[simp] theorem mapState_exit (f : S → T) (s : S) : (exit s : Out S α).mapState f = exit (f s) := rfl

@[simp] theorem mapState_stuck (f : S → T) : (stuck : Out S α).mapState f = stuck := rfl

theorem ok_of_view {f : S → T} {x y : Out S α} {a : α} {s : S} (h : x.mapState f = y.mapState f)
    (hx : x = .ok a s) :
    ∃ s', y = .ok a s' ∧ f s = f s' := by
  subst hx
  cases y with
  | ok b s' =>
    obtain ⟨rfl, hs⟩ := Out.ok.inj h
    exact ⟨s', rfl, hs⟩
  | exit s' => cases h
  | stuck => cases h

theorem bind_view {f : S → T} {x y : Out S α} {k : α → S → Out S β} (h : x.mapState f = y.mapState f)
    (hk : ∀ a s s', f s = f s' → (k a s).mapState f = (k a s').mapState f) :
    (x.bind k).mapState f = (y.bind k).mapState f := by
  cases x with
  | ok a s =>
    obtain ⟨s', rfl, hs⟩ := ok_of_view h rfl
    exact hk a s s' hs
  | exit s =>
    cases y with
    | exit s' => exact congrArg Out.exit (Out.exit.inj h)
    | ok b s' => cases h
    | stuck => cases h
  | stuck =>
    cases y with
    | stuck => rfl
    | ok b s' => cases h
    | exit s' => cases h

/-- The state in which a run ends, whichever way it ends. -/
def Ends (I : S → Prop) : Out S α → Prop
  | ok _ s => I s
  | exit s => I s
  | stuck => True

@[simp] theorem ends_ok (I : S → Prop) (a : α) (s : S) : (ok a s).Ends I ↔ I s := .rfl

@[simp] theorem ends_exit (I : S → Prop) (s : S) : (exit s : Out S α).Ends I ↔ I s := .rfl

@[simp] theorem ends_stuck (I : S → Prop) : (stuck : Out S α).Ends I := trivial

theorem Ends.bind {I J : S → Prop} {x : Out S α} {f : α → S → Out S β} (h : x.Ends I)
    (hexit : ∀ s, I s → J s) (hok : ∀ a s, I s → (f a s).Ends J) : (x.bind f).Ends J := by
  cases x with
  | ok a s => exact hok a s h
  | exit s => exact hexit s h
  | stuck => trivial

theorem Ends.mono {I J : S → Prop} {x : Out S α} (h : x.Ends I) (hij : ∀ s, I s → J s) :
    x.Ends J := by
  cases x with
  | ok a s => exact hij s h
  | exit s => exact hij s h
  | stuck => trivial

theorem Ends.and {I J : S → Prop} {x : Out S α} (h : x.Ends I) (h' : x.Ends J) : x.Ends fun s => I s ∧ J s := by
  cases x with
  | ok a s => exact ⟨h, h'⟩
  | exit s => exact ⟨h, h'⟩
  | stuck => trivial

theorem Ends.ok {I : S → Prop} {x : Out S α} {a : α} {s : S} (h : x.Ends I) (hx : x = .ok a s) : I s := by
  rw [hx] at h
  exact h

/-- The state in which a run ends with an answer. -/
def state? : Out S α → Option S
  | ok _ s => some s
  | _ => none

/-- A run that has a meaning: it ends in `A` or is left in `B`. -/
def Leads (A B : S → Prop) : Out S α → Prop
  | ok _ s => A s
  | exit s => B s
  | stuck => False

theorem Leads.bind {A A' B : S → Prop} {x : Out S α} {f : α → S → Out S β} (h : x.Leads A B)
    (hok : ∀ a s, A s → (f a s).Leads A' B) : (x.bind f).Leads A' B := by
  cases x with
  | ok a s => exact hok a s h
  | exit s => exact h
  | stuck => exact h

theorem Leads.ends {A : S → Prop} {x : Out S α} (h : x.Leads A A) : x.Ends A := by
  cases x with
  | ok a s => exact h
  | exit s => exact h
  | stuck => trivial

theorem Leads.mono {A A' B B' : S → Prop} {x : Out S α} (h : x.Leads A B) (ha : ∀ s, A s → A' s)
    (hb : ∀ s, B s → B' s) :
    x.Leads A' B' := by
  cases x with
  | ok a s => exact ha s h
  | exit s => exact hb s h
  | stuck => exact h

theorem Leads.ok {A B : S → Prop} {x : Out S α} {a : α} {s : S} (h : x.Leads A B) (hx : x = .ok a s) : A s := by
  rw [hx] at h
  exact h

theorem Leads.exit {A B : S → Prop} {x : Out S α} {s : S} (h : x.Leads A B) (hx : x = .exit s) : B s := by
  rw [hx] at h
  exact h

/-- A run that cannot be left ends with an answer. -/
theorem Leads.answers {A : S → Prop} {x : Out S α} (h : x.Leads A fun _ => False) : ∃ a s, x = .ok a s ∧ A s := by
  cases x with
  | ok a s => exact ⟨a, s, rfl, h⟩
  | exit s => exact h.elim
  | stuck => exact h.elim

end Out

abbrev Handler (O : Type) (R : O → Type) (N S : Type) := (o : O) → N → S → Out S (R o)

namespace Tree

def run (h : Handler O R N S) : Tree O R N α → S → Out S α
  | done a, s => .ok a s
  | stuck, _ => .stuck
  | op o n k, s => (h o n s).bind fun v s => (k v).run h s

variable {h : Handler O R N S} {g : Handler O R N T}

@[simp] theorem run_done (a : α) (s : S) : (done a : Tree O R N α).run h s = .ok a s := rfl

@[simp] theorem run_stuck (s : S) : (stuck : Tree O R N α).run h s = .stuck := rfl

@[simp] theorem run_op (o : O) (n : N) (k : R o → Tree O R N α) (s : S) :
    (op o n k).run h s = (h o n s).bind fun v s => (k v).run h s := rfl

theorem run_bind (t : Tree O R N α) (f : α → Tree O R N β) (s : S) :
    (t >>= f).run h s = (t.run h s).bind fun a s => (f a).run h s := by
  induction t generalizing s with
  | done a => rfl
  | stuck => rfl
  | op o n k ih =>
    simp only [op_bind, run_op, Out.bind_assoc]
    exact congrArg (h o n s).bind (funext fun v => funext fun s => ih v s)

/-- What every request keeps, every run keeps. -/
theorem run_ends {I : S → Prop} (hop : ∀ o n s, I s → (h o n s).Ends I) (t : Tree O R N α) {s : S}
    (hs : I s) : (t.run h s).Ends I := by
  induction t generalizing s with
  | done a => exact hs
  | stuck => trivial
  | op o n k ih => exact (hop o n s hs).bind (fun _ hs => hs) (fun v _ hs => ih v hs)

/-- What no answer of a handler depends on, no run does: `f` is the part of the state that the
answers are about. -/
theorem run_view {f : S → T} (hop : ∀ o n s s', f s = f s' → (h o n s).mapState f = (h o n s').mapState f)
    (t : Tree O R N α) {s s' : S} (hs : f s = f s') : (t.run h s).mapState f = (t.run h s').mapState f := by
  induction t generalizing s s' with
  | done a => exact congrArg (Out.ok a) hs
  | stuck => rfl
  | op o n k ih => exact Out.bind_view (hop o n s s' hs) fun v _ _ hs => ih v hs

/-- A handler that answers wherever another does, along a relation of the states, runs
wherever the other does. -/
theorem run_simulates {L : S → T → Prop}
    (hop : ∀ o n s t v t', L s t → g o n t = .ok v t' → ∃ s', h o n s = .ok v s' ∧ L s' t')
    (t : Tree O R N α) {s : S} {u u' : T} {a : α} (hs : L s u) (hr : t.run g u = .ok a u') :
    ∃ s', t.run h s = .ok a s' ∧ L s' u' := by
  induction t generalizing s u with
  | done b =>
    cases hr
    exact ⟨s, rfl, hs⟩
  | stuck => cases hr
  | op o n k ih =>
    obtain ⟨v, u₁, ho, hk⟩ := Out.of_bind_ok hr
    obtain ⟨s₁, hh, hs₁⟩ := hop o n s u v u₁ hs ho
    obtain ⟨s', hr', hs'⟩ := ih v hs₁ hk
    exact ⟨s', by rw [run_op, hh]; exact hr', hs'⟩

/-- A program as one over more requests. -/
def lift {O' : Type} {R' : O' → Type} (f : O → O') (g : ∀ o, R' (f o) → R o) :
    Tree O R N α → Tree O' R' N α
  | done a => done a
  | stuck => stuck
  | op o n k => op (f o) n fun v => (k (g o v)).lift f g

section Lift

variable {O' : Type} {R' : O' → Type} {f : O → O'} {g : ∀ o, R' (f o) → R o}

@[simp] theorem lift_done (a : α) : (done a : Tree O R N α).lift f g = done a := rfl

@[simp] theorem lift_stuck : (stuck : Tree O R N α).lift f g = stuck := rfl

@[simp] theorem lift_op (o : O) (n : N) (k : R o → Tree O R N α) :
    (op o n k).lift f g = op (f o) n fun v => (k (g o v)).lift f g := rfl

theorem lift_bind (t : Tree O R N α) (k : α → Tree O R N β) :
    (t >>= k).lift f g = t.lift f g >>= fun a => (k a).lift f g := by
  induction t with
  | done a => rfl
  | stuck => rfl
  | op o n l ih => exact congrArg (op (f o) n) (funext fun v => ih (g o v))

theorem run_lift {h : Handler O' R' N S} {h' : Handler O R N S}
    (hh : ∀ o n s, (h (f o) n s).bind (fun v s => .ok (g o v) s) = h' o n s) (t : Tree O R N α) (s : S) :
    (t.lift f g).run h s = t.run h' s := by
  induction t generalizing s with
  | done a => rfl
  | stuck => rfl
  | op o n k ih =>
    rw [lift_op, run_op, run_op, ← hh, Out.bind_assoc]
    exact congrArg (h (f o) n s).bind (funext fun v => funext fun s => ih (g o v) s)

end Lift

/-- Every request the program can make satisfies `p` and every answer it can end with
satisfies `q`, whatever the environment answers; no step is without meaning. -/
def Sat (p : O → N → Prop) (q : α → Prop) : Tree O R N α → Prop
  | done a => q a
  | stuck => False
  | op o n k => p o n ∧ ∀ v, (k v).Sat p q

section Sat

variable {p p' : O → N → Prop} {q q' : α → Prop}

@[simp] theorem sat_done (a : α) : (done a : Tree O R N α).Sat p q ↔ q a := .rfl

@[simp] theorem sat_op (o : O) (n : N) (k : R o → Tree O R N α) :
    (op o n k).Sat p q ↔ p o n ∧ ∀ v, (k v).Sat p q := .rfl

theorem Sat.bind {t : Tree O R N α} {f : α → Tree O R N β} {q' : β → Prop} (h : t.Sat p q)
    (hf : ∀ a, q a → (f a).Sat p q') : (t >>= f).Sat p q' := by
  induction t with
  | done a => exact hf a h
  | stuck => exact h
  | op o n k ih => exact ⟨h.1, fun v => ih v (h.2 v)⟩

theorem Sat.mono {t : Tree O R N α} (h : t.Sat p q) (hp : ∀ o n, p o n → p' o n) (hq : ∀ a, q a → q' a) :
    t.Sat p' q' := by
  induction t with
  | done a => exact hq a h
  | stuck => exact h
  | op o n k ih => exact ⟨hp o n h.1, fun v => ih v (h.2 v)⟩

theorem Sat.and {t : Tree O R N α} (h : t.Sat p q) (h' : t.Sat p' q') :
    t.Sat (fun o n => p o n ∧ p' o n) fun a => q a ∧ q' a := by
  induction t with
  | done a => exact ⟨h, h'⟩
  | stuck => exact h
  | op o n k ih => exact ⟨⟨h.1, h'.1⟩, fun v => ih v (h.2 v) (h'.2 v)⟩

theorem Sat.lift {O' : Type} {R' : O' → Type} {f : O → O'} {g : ∀ o, R' (f o) → R o} {t : Tree O R N α}
    {p' : O' → N → Prop} (h : t.Sat p q) (hp : ∀ o n, p o n → p' (f o) n) : (t.lift f g).Sat p' q := by
  induction t with
  | done a => exact h
  | stuck => exact h
  | op o n k ih => exact ⟨hp o n h.1, fun v => ih _ (h.2 _)⟩

end Sat

/-- The run of the program from a state makes the request `o` with note `n` in state `s'`. -/
inductive Visit (h : Handler O R N S) : Tree O R N α → S → O → N → S → Prop
  | here {o : O} {n : N} {k : R o → Tree O R N α} {s : S} : Visit h (op o n k) s o n s
  | later {o o' : O} {n n' : N} {k : R o → Tree O R N α} {s s' s'' : S} {v : R o} (ho : h o n s = .ok v s')
      (hk : Visit h (k v) s' o' n' s'') : Visit h (op o n k) s o' n' s''

section Visit

variable {p : O → N → Prop} {q : α → Prop} {t : Tree O R N α} {s s' : S}

theorem Sat.visit {o : O} {n : N} (ht : t.Sat p q) (hv : Visit h t s o n s') : p o n := by
  induction hv with
  | here => exact ht.1
  | later _ _ ih => exact ih (ht.2 _)

/-- What the requests of a run keep, the run keeps. -/
theorem run_visit {I : S → Prop} (hop : ∀ o n s', Visit h t s o n s' → I s' → (h o n s').Ends I) (hs : I s) :
    (t.run h s).Ends I := by
  induction t generalizing s with
  | done a => exact hs
  | stuck => trivial
  | op o n k ih =>
    have ho := hop o n s .here hs
    rw [run_op]
    cases hh : h o n s with
    | ok v s' =>
      rw [hh] at ho
      exact ih v (fun o' n' s'' hv => hop o' n' s'' (.later hh hv)) ho
    | exit s' =>
      rw [hh] at ho
      exact ho
    | stuck => trivial

theorem Sat.run_ok {a : α} (ht : t.Sat p q) (hr : t.run h s = .ok a s') : q a := by
  induction t generalizing s with
  | done b =>
    cases hr
    exact ht
  | stuck => cases hr
  | op o n k ih =>
    rw [run_op] at hr
    cases hh : h o n s with
    | ok v s'' =>
      rw [hh] at hr
      exact ih v (ht.2 v) hr
    | exit s'' =>
      rw [hh] at hr
      cases hr
    | stuck =>
      rw [hh] at hr
      cases hr

theorem Sat.run_leads {A B : S → Prop} (ht : t.Sat p q)
    (hh : ∀ o n s, p o n → A s → (h o n s).Leads A B) (hs : A s) :
    (t.run h s).Leads A B := by
  induction t generalizing s with
  | done b => exact hs
  | stuck => exact ht.elim
  | op o n k ih =>
    rw [run_op]
    exact (hh o n s ht.1 hs).bind fun v s' hs' => ih v (ht.2 v) hs'

/-- Under a handler that always answers, a program without stuck steps ends. -/
theorem Sat.run_answers (ht : t.Sat p q) (hok : ∀ o n s, ∃ v s', h o n s = .ok v s') :
    ∃ a s', t.run h s = .ok a s' := by
  induction t generalizing s with
  | done b => exact ⟨b, s, rfl⟩
  | stuck => exact ht.elim
  | op o n k ih =>
    obtain ⟨v, s'', ho⟩ := hok o n s
    rw [run_op, ho]
    exact ih v (ht.2 v)

/-- `run_simulates` for the requests that a program makes. -/
theorem Sat.simulates {L : S → T → Prop} (ht : t.Sat p q)
    (hop : ∀ o n s u v u', p o n → L s u → g o n u = .ok v u' → ∃ s', h o n s = .ok v s' ∧ L s' u')
    {u u' : T} {a : α} (hs : L s u) (hr : t.run g u = .ok a u') : ∃ s', t.run h s = .ok a s' ∧ L s' u' := by
  induction t generalizing s u with
  | done b =>
    cases hr
    exact ⟨s, rfl, hs⟩
  | stuck => cases hr
  | op o n k ih =>
    obtain ⟨v, u₁, ho, hk⟩ := Out.of_bind_ok hr
    obtain ⟨s₁, hh, hs₁⟩ := hop o n s u v u₁ ht.1 hs ho
    obtain ⟨s', hr', hs'⟩ := ih v (ht.2 v) hs₁ hk
    exact ⟨s', by rw [run_op, hh]; exact hr', hs'⟩

/-- Where two handlers answer alike, their runs make the same requests. -/
theorem Visit.simulates {L : S → T → Prop}
    (hop : ∀ o n s t v t', L s t → g o n t = .ok v t' → ∃ s', h o n s = .ok v s' ∧ L s' t')
    {u u' : T} {a : α} {o : O} {n : N} (hs : L s u) (hr : t.run g u = .ok a u') (hv : Visit h t s o n s') :
    ∃ u₁, Visit g t u o n u₁ ∧ L s' u₁ := by
  induction hv generalizing u with
  | here => exact ⟨u, .here, hs⟩
  | later ho _ ih =>
    obtain ⟨v, u₁, hg, hk⟩ := Out.of_bind_ok hr
    obtain ⟨s₁, hh, hs₁⟩ := hop _ _ _ u v u₁ hs hg
    rw [ho] at hh
    cases hh
    obtain ⟨u₂, hv', hs₂⟩ := ih hs₁ hk
    exact ⟨u₂, .later hg hv', hs₂⟩

/-- A run is left from inside one of its requests. -/
theorem run_exit (hr : t.run h s = .exit s') : ∃ o n s'', Visit h t s o n s'' ∧ h o n s'' = .exit s' := by
  induction t generalizing s with
  | done b => cases hr
  | stuck => cases hr
  | op o n k ih =>
    rw [run_op] at hr
    cases ho : h o n s with
    | ok v s'' =>
      rw [ho] at hr
      obtain ⟨o', n', s₁, hv, he⟩ := ih v hr
      exact ⟨o', n', s₁, .later ho hv, he⟩
    | exit s'' =>
      rw [ho] at hr
      cases hr
      exact ⟨o, n, s, .here, ho⟩
    | stuck =>
      rw [ho] at hr
      cases hr

/-- The requests that a run makes, each with its note and the state it is made in. -/
def requests (h : Handler O R N S) : Tree O R N α → S → List (O × N × S)
  | done _, _ => []
  | stuck, _ => []
  | op o n k, s => (o, n, s) ::
    match h o n s with
    | .ok v s' => (k v).requests h s'
    | _ => []

theorem requests_ok {o : O} {n : N} {k : R o → Tree O R N α} {v : R o} (ho : h o n s = .ok v s') :
    (op o n k).requests h s = (o, n, s) :: (k v).requests h s' := by
  rw [requests, ho]

theorem requests_exit {o : O} {n : N} {k : R o → Tree O R N α} (ho : h o n s = .exit s') :
    (op o n k).requests h s = [(o, n, s)] := by
  rw [requests, ho]

theorem requests_stuck {o : O} {n : N} {k : R o → Tree O R N α} (ho : h o n s = .stuck) :
    (op o n k).requests h s = [(o, n, s)] := by
  rw [requests, ho]

theorem Visit.mem_requests {o : O} {n : N} (hv : Visit h t s o n s') : (o, n, s') ∈ t.requests h s := by
  induction hv with
  | here =>
    rw [requests]
    exact .head _
  | later ho _ ih =>
    rw [requests_ok ho]
    exact .tail _ ih

theorem requests_bind_ok {f : α → Tree O R N β} {a : α} (hr : t.run h s = .ok a s') :
    (t >>= f).requests h s = t.requests h s ++ (f a).requests h s' := by
  induction t generalizing s with
  | done b =>
    cases hr
    rw [done_bind]
    rfl
  | stuck => cases hr
  | op o n k ih =>
    obtain ⟨v, s₁, ho, hk⟩ := Out.of_bind_ok hr
    rw [op_bind, requests_ok ho, requests_ok ho, ih v hk]
    rfl

theorem requests_bind_ended {f : α → Tree O R N β} (hr : ∀ a s', t.run h s ≠ .ok a s') :
    (t >>= f).requests h s = t.requests h s := by
  induction t generalizing s with
  | done b => exact absurd rfl (hr b s)
  | stuck => rfl
  | op o n k ih =>
    rw [op_bind]
    cases ho : h o n s with
    | ok v s₁ =>
      rw [requests_ok ho, requests_ok ho, ih v fun a s' hk => hr a s' ?_]
      rw [run_op, ho]
      exact hk
    | exit s₁ => rw [requests_exit ho, requests_exit ho]
    | stuck => rw [requests_stuck ho, requests_stuck ho]

theorem Sat.requests (ht : t.Sat p q) {x : O × N × S} (hx : x ∈ t.requests h s) : p x.1 x.2.1 := by
  induction t generalizing s with
  | done b => cases hx
  | stuck => cases hx
  | op o n k ih =>
    rw [Tree.requests] at hx
    rcases List.mem_cons.1 hx with rfl | hx
    · exact ht.1
    · cases ho : h o n s with
      | ok v s' =>
        rw [ho] at hx
        exact ih v (ht.2 v) hx
      | exit s' =>
        rw [ho] at hx
        cases hx
      | stuck =>
        rw [ho] at hx
        cases hx

/-- Where a run is left, the state shows the note of the request. -/
theorem Sat.exit_note {f : S → N} (ht : t.Sat p q) (hf : ∀ o n s, (h o n s).Ends fun s' => f s' = n)
    (hr : t.run h s = .exit s') : ∃ o s'', Visit h t s o (f s') s'' ∧ p o (f s') ∧ h o (f s') s'' = .exit s' := by
  obtain ⟨o, n, s'', hv, he⟩ := run_exit hr
  have hn := hf o n s''
  rw [he] at hn
  obtain rfl : f s' = n := hn
  exact ⟨o, s'', hv, ht.visit hv, he⟩

end Visit

end Tree

/-- Two programs that make the same requests with the same notes, and whose answers are
related. -/
inductive Same (Q : α → β → Prop) : Tree O R N α → Tree O R N β → Prop
  | done {a : α} {b : β} (h : Q a b) : Same Q (.done a) (.done b)
  | op {o : O} {n : N} {k : R o → Tree O R N α} {l : R o → Tree O R N β}
      (h : ∀ v, Same Q (k v) (l v)) : Same Q (.op o n k) (.op o n l)

namespace Same

theorem bind {Q : α → β → Prop} {Q' : γ → δ → Prop} {t : Tree O R N α} {u : Tree O R N β}
    {f : α → Tree O R N γ} {g : β → Tree O R N δ} (h : Same Q t u)
    (hf : ∀ a b, Q a b → Same Q' (f a) (g b)) : Same Q' (t >>= f) (u >>= g) := by
  induction h with
  | done hq => exact hf _ _ hq
  | op _ ih => exact .op ih

theorem eq {t u : Tree O R N α} (h : Same Eq t u) : t = u := by
  induction h with
  | done he => rw [he]
  | op _ ih => exact congrArg _ (funext ih)

end Same

end Resumption
