import Mathlib.Data.List.Forall2

/-! # Computations that may fail

When sequences, traversals and renamed failures succeed. -/

namespace MessageCatalog.Fallible

variable {ε ε' α β : Type}

theorem bind_eq_ok_iff {x : Except ε α} {f : α → Except ε β} {b : β} :
    x >>= f = .ok b ↔ ∃ a, x = .ok a ∧ f a = .ok b := by
  cases x with
  | ok a => exact ⟨fun h => ⟨a, rfl, h⟩, fun ⟨_, ha, h⟩ => Except.ok.inj ha ▸ h⟩
  | error e => exact iff_of_false (fun h => by cases h) fun ⟨_, ha, _⟩ => by cases ha

theorem bind_eq_error_iff {x : Except ε α} {f : α → Except ε β} {e : ε} :
    x >>= f = .error e ↔ x = .error e ∨ ∃ a, x = .ok a ∧ f a = .error e := by
  cases x with
  | ok a =>
      constructor
      · exact fun h => .inr ⟨a, rfl, h⟩
      · intro hx
        rcases hx with h | ⟨_, ha, h⟩
        · cases h
        · exact Except.ok.inj ha ▸ h
  | error e' =>
      constructor
      · intro h
        cases h
        exact .inl rfl
      · intro hx
        rcases hx with h | ⟨_, ha, _⟩
        · cases h
          rfl
        · cases ha

theorem map_eq_ok_iff {x : Except ε α} {f : α → β} {b : β} :
    x.map f = .ok b ↔ ∃ a, x = .ok a ∧ f a = b := by
  cases x <;> simp [Except.map]

/-- A check in front of a sequence is a check in front of all of it. -/
theorem ite_error_bind {p : Prop} [Decidable p] {e : ε} {x : Except ε α} {f : α → Except ε β} :
    (if p then .error e else x) >>= f = if p then .error e else x >>= f := by
  split <;> rfl

@[simp] theorem mapError_ok (f : ε → ε') (a : α) :
    (.ok a : Except ε α).mapError f = .ok a :=
  rfl

@[simp] theorem mapError_error (f : ε → ε') (e : ε) :
    (.error e : Except ε α).mapError f = .error (f e) :=
  rfl

theorem mapError_eq_ok_iff {x : Except ε α} {f : ε → ε'} {a : α} :
    x.mapError f = .ok a ↔ x = .ok a := by
  cases x <;> simp

theorem mapError_eq_error_iff {x : Except ε α} {f : ε → ε'} {e : ε'} :
    x.mapError f = .error e ↔ ∃ cause, x = .error cause ∧ f cause = e := by
  cases x <;> simp

/-- A traversal succeeds exactly if it does at every element. -/
theorem mapM_eq_ok_iff {f : α → Except ε β} {R : α → β → Prop} {xs : List α} {ys : List β}
    (h : ∀ x ∈ xs, ∀ y, f x = .ok y ↔ R x y) : xs.mapM f = .ok ys ↔ List.Forall₂ R xs ys := by
  induction xs generalizing ys with
  | nil =>
      rw [List.mapM_nil, List.forall₂_nil_left_iff]
      exact ⟨fun h => by cases h; rfl, fun h => by rw [h]; rfl⟩
  | cons x xs ih =>
      have hx := h x (by simp)
      have hxs := fun z hz => h z (List.mem_cons_of_mem x hz)
      rw [List.mapM_cons, bind_eq_ok_iff]
      constructor
      · intro hboth
        rcases hboth with ⟨y, hy, hr⟩
        obtain ⟨zs, hz, hp⟩ := bind_eq_ok_iff.mp hr
        obtain rfl := Except.ok.inj hp
        exact .cons ((hx y).mp hy) ((ih hxs).mp hz)
      · intro hall
        cases hall with
        | cons hy hz => exact ⟨_, (hx _).mpr hy, bind_eq_ok_iff.mpr ⟨_, (ih hxs).mpr hz, rfl⟩⟩

/-- What a traversal reports is reported at one of the elements. -/
theorem exists_of_mapM_eq_error {f : α → Except ε β} {xs : List α} {e : ε}
    (h : xs.mapM f = .error e) : ∃ x ∈ xs, f x = .error e := by
  induction xs with
  | nil => cases h
  | cons x xs ih =>
      rw [List.mapM_cons] at h
      rcases bind_eq_error_iff.mp h with h | ⟨y, -, h⟩
      · exact ⟨x, by simp, h⟩
      · rcases bind_eq_error_iff.mp h with h | ⟨ys, -, h⟩
        · obtain ⟨z, hz, he⟩ := ih h
          exact ⟨z, by simp [hz], he⟩
        · cases h

/-! ## Traversals that may have no outcome -/

theorem mapM_eq_some_map {f : α → Option β} {g : α → β} (h : ∀ a, f a = some (g a)) (xs : List α) :
    xs.mapM f = some (xs.map g) := by
  rw [funext h]
  exact List.mapM_pure

theorem isSome_mapM {f : α → Option β} (h : ∀ a, (f a).isSome) (xs : List α) :
    (xs.mapM f).isSome := by
  have hget (a : α) : f a = some ((f a).get (h a)) := (Option.some_get (h a)).symm
  rw [mapM_eq_some_map hget]
  rfl

end MessageCatalog.Fallible
