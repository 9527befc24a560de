import FormalLanguages.State

/-!
# Drawing state numbers

A computation that draws numbers fails only for want of numbers, and it does not fail if there are
as many left as it draws. What it gives is described as long as the numbers do not run out.
-/

namespace FormalLanguages

namespace Fresh

variable {α β : Type} {x : Fresh α} {f : α → Fresh β} {s s' : Supply} {k l : Nat}

theorem bind_of_ok {a : α} {s₁ : Supply} (h : x s = .ok (a, s₁)) : (x >>= f) s = f a s₁ := by
  show (x s).bind _ = _
  rw [h]
  rfl

theorem bind_of_error {e : Error} (h : x s = .error e) : (x >>= f) s = .error e := by
  show (x s).bind _ = _
  rw [h]
  rfl

theorem bind_eq_ok_iff {b : β} : (x >>= f) s = .ok (b, s') ↔
    ∃ a s₁, x s = .ok (a, s₁) ∧ f a s₁ = .ok (b, s') := by
  cases h : x s with
  | error e => simp [bind_of_error h]
  | ok r => simp [bind_of_ok h, Prod.ext_iff, and_assoc]

theorem bind_eq_error_iff {e : Error} : (x >>= f) s = .error e ↔
    x s = .error e ∨ ∃ a s₁, x s = .ok (a, s₁) ∧ f a s₁ = .error e := by
  cases h : x s with
  | error e => simp [bind_of_error h]
  | ok r => simp [bind_of_ok h, Prod.ext_iff, and_assoc]

theorem pure_eq_ok_iff {a b : α} : (pure a : Fresh α) s = .ok (b, s') ↔ a = b ∧ s = s' := by
  have hpure : (pure a : Fresh α) s = .ok (a, s) := rfl
  rw [hpure, Except.ok.injEq, Prod.mk.injEq]

/-- Numbers may run out, but nothing else can go wrong. -/
def OnlyRunsOut (x : Fresh α) : Prop := ∀ s e, x s = .error e → e = .outOfStates

/-- Unless numbers run out, the computation ends, and its value and the supply it leaves have the
property. -/
def Gives (s : Supply) (x : Fresh α) (P : α → Supply → Prop) : Prop :=
  x s ≠ .error .outOfStates → ∃ a s', x s = .ok (a, s') ∧ P a s'

def Draws (k : Nat) (x : Fresh α) : Prop :=
  ∀ s, s.next + k ≤ State.last → ∃ a s', x s = .ok (a, s') ∧ s'.next ≤ s.next + k

theorem onlyRunsOut_pure (a : α) : OnlyRunsOut (pure a) := by
  intro s e h
  cases h

theorem onlyRunsOut_fresh : OnlyRunsOut fresh := by
  intro s e h
  unfold fresh at h
  split at h
  · cases h
  · cases h
    rfl

theorem onlyRunsOut_reservePast (q : State) : OnlyRunsOut (reservePast q) := by
  intro s e h
  unfold reservePast at h
  split at h
  · cases h
  · cases h
    rfl

theorem OnlyRunsOut.bind (hx : OnlyRunsOut x) (hf : ∀ a, OnlyRunsOut (f a)) :
    OnlyRunsOut (x >>= f) := by
  intro s e h
  rcases bind_eq_error_iff.1 h with h | ⟨a, s₁, -, h⟩
  · exact hx s e h
  · exact hf a s₁ e h

theorem OnlyRunsOut.mapM (hf : ∀ a, OnlyRunsOut (f a)) (as : List α) :
    OnlyRunsOut (as.mapM f) := by
  induction as with
  | nil => exact onlyRunsOut_pure []
  | cons a as ih =>
    rw [List.mapM_cons]
    exact (hf a).bind fun b => ih.bind fun bs => onlyRunsOut_pure (b :: bs)

section Gives

variable {P : α → Supply → Prop} {Q : β → Supply → Prop}

theorem gives_pure {a : α} (h : P a s) : Gives s (pure a) P := fun _ => ⟨a, s, rfl, h⟩

theorem gives_fresh : Gives s fresh fun q s' => q = s.next ∧ s'.next = s.next + 1 := by
  intro h
  unfold fresh at h ⊢
  split at h
  · next hlt =>
    rw [if_pos hlt]
    exact ⟨s.next, ⟨s.next + 1⟩, rfl, rfl, rfl⟩
  · exact absurd rfl h

theorem gives_reservePast (q : State) :
    Gives s (reservePast q) fun _ s' => s'.next = max s.next (q + 1) := by
  intro h
  unfold reservePast at h ⊢
  split at h
  · next hlt =>
    rw [if_pos hlt]
    exact ⟨(), ⟨max s.next (q + 1)⟩, rfl, rfl⟩
  · exact absurd rfl h

theorem Gives.bind (hx : Gives s x P) (hf : ∀ a s₁, P a s₁ → Gives s₁ (f a) Q) :
    Gives s (x >>= f) Q := by
  intro h
  obtain ⟨a, s₁, hok, ha⟩ := hx fun herr => h (bind_of_error herr)
  rw [bind_of_ok hok] at h ⊢
  exact hf a s₁ ha h

theorem Gives.mono {P' : α → Supply → Prop} (hx : Gives s x P) (h : ∀ a s', P a s' → P' a s') :
    Gives s x P' := by
  intro hne
  obtain ⟨a, s', hok, ha⟩ := hx hne
  exact ⟨a, s', hok, h a s' ha⟩

end Gives

theorem draws_pure (a : α) : Draws 0 (pure a) := fun s _ => ⟨a, s, rfl, Nat.le_refl _⟩

theorem draws_fresh : Draws 1 fresh := by
  intro s hs
  refine ⟨s.next, ⟨s.next + 1⟩, ?_, Nat.le_refl _⟩
  exact fresh_eq_ok_iff.2 ⟨rfl, rfl, hs⟩

theorem Draws.bind (hx : Draws k x) (hf : ∀ a, Draws l (f a)) : Draws (k + l) (x >>= f) := by
  intro s hs
  obtain ⟨a, s₁, ha, hs₁⟩ := hx s (by lia)
  obtain ⟨b, s₂, hb, hs₂⟩ := hf a s₁ (by lia)
  exact ⟨b, s₂, bind_eq_ok_iff.2 ⟨a, s₁, ha, hb⟩, by lia⟩

theorem Draws.mono (hx : Draws k x) (h : k ≤ l) : Draws l x := by
  intro s hs
  obtain ⟨a, s', ha, hs'⟩ := hx s (by lia)
  exact ⟨a, s', ha, by lia⟩

end Fresh

theorem Supply.run_eq_ok_iff {α : Type} {x : Fresh α} {s : Supply} {a : α} :
    s.run x = .ok a ↔ ∃ s', x s = .ok (a, s') := by
  have hrun : s.run x = (x s).map (·.1) := rfl
  rw [hrun]
  cases x s with
  | error e => simp [Except.map]
  | ok r => simp [Except.map, Prod.ext_iff]

theorem Supply.run_eq_error_iff {α : Type} {x : Fresh α} {s : Supply} {e : Error} :
    s.run x = .error e ↔ x s = .error e := by
  have hrun : s.run x = (x s).map (·.1) := rfl
  rw [hrun]
  cases x s <;> simp [Except.map]

end FormalLanguages
