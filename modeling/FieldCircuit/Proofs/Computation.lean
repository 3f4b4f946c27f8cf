import FieldCircuit.Event
import Mathlib.Data.List.Forall2

/-!
# Computations that may fail

Laws of runs in the state monad that keeps its state when it fails, and of `Except`: what a sequence
or a loop does follows from what its parts do. `stateAfter` is the state that a run leaves and
`outcome` its value or fault.
-/

namespace FieldCircuit

section

variable {ε σ α β : Type}

/-- The state a computation leaves, also when it fails. -/
def stateAfter {ε σ α : Type} (x : EStateM ε σ α) (s : σ) : σ :=
  match x s with
  | .ok _ s' | .error _ s' => s'

/-- The value or the fault of a computation, without the state it leaves. -/
def outcome {ε σ α : Type} (x : EStateM ε σ α) (s : σ) : Except ε α :=
  match x s with
  | .ok a _ => .ok a
  | .error fault _ => .error fault

variable {x : EStateM ε σ α} {f : α → EStateM ε σ β} {s s' : σ} {fault : ε}

/-! ## One after the other -/

theorem get_bind (f : σ → EStateM ε σ α) (s : σ) : (get >>= f) s = f s s := rfl

theorem bind_of_ok {a : α} (h : x s = .ok a s') : (x >>= f) s = f a s' := by
  show EStateM.bind x f s = f a s'
  unfold EStateM.bind
  rw [h]

theorem bind_of_error (h : x s = .error fault s') : (x >>= f) s = .error fault s' := by
  show EStateM.bind x f s = .error fault s'
  unfold EStateM.bind
  rw [h]

theorem exists_ok_of_bind {b : β} (h : (x >>= f) s = .ok b s') :
    ∃ a s₁, x s = .ok a s₁ ∧ f a s₁ = .ok b s' := by
  cases hx : x s with
  | ok a s₁ =>
    rw [bind_of_ok hx] at h
    exact ⟨a, s₁, rfl, h⟩
  | error e s₁ =>
    rw [bind_of_error hx] at h
    cases h

theorem error_or_of_bind (h : (x >>= f) s = .error fault s') :
    x s = .error fault s' ∨ ∃ a s₁, x s = .ok a s₁ ∧ f a s₁ = .error fault s' := by
  cases hx : x s with
  | ok a s₁ =>
    rw [bind_of_ok hx] at h
    exact .inr ⟨a, s₁, rfl, h⟩
  | error e s₁ =>
    rw [bind_of_error hx] at h
    cases h
    exact .inl rfl

theorem error_of_discard (h : discard x s = .error fault s') : x s = .error fault s' := by
  rcases error_or_of_bind h with h | ⟨_, _, -, h⟩
  · exact h
  · cases h

theorem eq_ok_of_adaptExcept {ε' : Type} {φ : ε → ε'} {a : α} (h : x.adaptExcept φ s = .ok a s') :
    x s = .ok a s' := by
  unfold EStateM.adaptExcept at h
  split at h
  · cases h
  · next hx =>
    cases h
    exact hx

theorem adaptExcept_of_ok {ε' : Type} {φ : ε → ε'} {a : α} (h : x s = .ok a s') :
    x.adaptExcept φ s = .ok a s' := by
  unfold EStateM.adaptExcept
  rw [h]

theorem adaptExcept_of_error {ε' : Type} {φ : ε → ε'} (h : x s = .error fault s') :
    x.adaptExcept φ s = .error (φ fault) s' := by
  unfold EStateM.adaptExcept
  rw [h]

theorem liftExcept_eq_ok_iff {r : Except ε α} {a : α} :
    (liftExcept r : EStateM ε σ α) s = .ok a s' ↔ r = .ok a ∧ s = s' := by
  cases r with
  | ok b =>
    show EStateM.Result.ok b s = .ok a s' ↔ _
    simp
  | error fault =>
    show EStateM.Result.error fault s = .ok a s' ↔ _
    simp

/-- A result is the same whether or not it is reported. -/
theorem exists_report_iff {r : Except ε α} (event : α → Event) {a : α} {journal : Journal} :
    (∃ journal', (do let a ← liftExcept r; report (event a); return a : Journaled ε α) journal =
      .ok a journal') ↔ r = .ok a := by
  constructor
  · rintro ⟨journal', h⟩
    obtain ⟨b, _, hb, h⟩ := exists_ok_of_bind h
    cases h
    exact (liftExcept_eq_ok_iff.1 hb).1
  · intro h
    exact ⟨_, bind_of_ok (liftExcept_eq_ok_iff.2 ⟨h, rfl⟩)⟩

/-! ## The state that is left -/

theorem stateAfter_of_ok {a : α} (h : x s = .ok a s') : stateAfter x s = s' := by
  rw [stateAfter, h]

theorem stateAfter_of_error (h : x s = .error fault s') : stateAfter x s = s' := by
  rw [stateAfter, h]

theorem stateAfter_bind_of_ok {a : α} (h : x s = .ok a s') :
    stateAfter (x >>= f) s = stateAfter (f a) s' := by
  unfold stateAfter
  rw [bind_of_ok h]

/-- What holds of a state and is kept by two computations is kept by one after the other. -/
theorem stateAfter_bind {P : σ → Prop} (hx : P s → P (stateAfter x s))
    (hf : ∀ a s', P s' → P (stateAfter (f a) s')) (hs : P s) : P (stateAfter (x >>= f) s) := by
  have hx := hx hs
  cases h : x s with
  | ok a s' =>
    rw [stateAfter_of_ok h] at hx
    rw [stateAfter_bind_of_ok h]
    exact hf a s' hx
  | error fault s' =>
    rw [stateAfter_of_error h] at hx
    rwa [stateAfter_of_error (bind_of_error h)]

theorem stateAfter_forM {P : σ → Prop} {g : α → EStateM ε σ Unit} {xs : List α}
    (hg : ∀ x ∈ xs, ∀ s, P s → P (stateAfter (g x) s)) (hs : P s) :
    P (stateAfter (xs.forM g) s) := by
  induction xs generalizing s with
  | nil => exact hs
  | cons x xs ih =>
    refine stateAfter_bind (x := g x) (f := fun _ => xs.forM g) (hg x List.mem_cons_self s) ?_ hs
    intro _ s' hs'
    exact ih (fun y hy => hg y (List.mem_cons_of_mem x hy)) hs'

/-- A loop fails at one of its elements, in a state with whatever every element keeps. -/
theorem exists_error_of_forM {P : σ → Prop} {g : α → EStateM ε σ Unit} {xs : List α}
    (hg : ∀ x ∈ xs, ∀ s, P s → P (stateAfter (g x) s)) (hs : P s)
    (h : xs.forM g s = .error fault s') : ∃ x ∈ xs, ∃ s₁, P s₁ ∧ g x s₁ = .error fault s' := by
  induction xs generalizing s with
  | nil => cases h
  | cons x xs ih =>
    rcases error_or_of_bind (x := g x) (f := fun _ => xs.forM g) h with hx | ⟨_, s₁, hx, h⟩
    · exact ⟨x, List.mem_cons_self, s, hs, hx⟩
    · have hs₁ := hg x List.mem_cons_self s hs
      rw [stateAfter_of_ok hx] at hs₁
      obtain ⟨y, hy, hrest⟩ := ih (fun y hy => hg y (List.mem_cons_of_mem x hy)) hs₁ h
      exact ⟨y, List.mem_cons_of_mem x hy, hrest⟩

/-- A traversal that fails has run what stands before the element that fails. -/
theorem exists_error_of_mapM {g : α → EStateM ε σ β} {xs : List α}
    (h : xs.mapM g s = .error fault s') :
    ∃ before x after ys s₁, xs = before ++ x :: after ∧ before.mapM g s = .ok ys s₁ ∧
      g x s₁ = .error fault s' := by
  induction xs generalizing s with
  | nil => cases h
  | cons x xs ih =>
    rw [List.mapM_cons] at h
    rcases error_or_of_bind h with hx | ⟨y, s₁, hx, h⟩
    · exact ⟨[], x, xs, [], s, rfl, rfl, hx⟩
    · rcases error_or_of_bind h with hxs | ⟨_, _, -, h⟩
      · obtain ⟨before, x', after, ys, s₂, rfl, hbefore, hx'⟩ := ih hxs
        refine ⟨x :: before, x', after, y :: ys, s₂, rfl, ?_, hx'⟩
        rw [List.mapM_cons, bind_of_ok hx, bind_of_ok hbefore]
        rfl
      · cases h

/-! ## The outcome -/

theorem outcome_of_ok {a : α} (h : x s = .ok a s') : outcome x s = .ok a := by
  rw [outcome, h]

theorem outcome_of_error (h : x s = .error fault s') : outcome x s = .error fault := by
  rw [outcome, h]

theorem outcome_bind_of_ok {a : α} (h : x s = .ok a s') :
    outcome (x >>= f) s = outcome (f a) s' := by
  unfold outcome
  rw [bind_of_ok h]

/-- A result is the same whether or not it is reported, also when it is a fault. -/
theorem outcome_report (r : Except ε α) (event : α → Event) (journal : Journal) :
    outcome (do let a ← liftExcept r; report (event a); return a : Journaled ε α) journal = r := by
  cases r <;> rfl

theorem eq_of_outcome_ok {a : α} (h : outcome x s = .ok a) : x s = .ok a (stateAfter x s) := by
  unfold outcome at h
  unfold stateAfter
  cases hx : x s with
  | ok b s' =>
    rw [hx] at h
    cases h
    rfl
  | error fault s' =>
    rw [hx] at h
    cases h

theorem eq_of_outcome_error (h : outcome x s = .error fault) :
    x s = .error fault (stateAfter x s) := by
  unfold outcome at h
  unfold stateAfter
  cases hx : x s with
  | ok b s' =>
    rw [hx] at h
    cases h
  | error fault s' =>
    rw [hx] at h
    cases h
    rfl

end

/-! ## Without a state -/

section

variable {ε α β : Type}

theorem exists_ok_of_except_bind {x : Except ε α} {f : α → Except ε β} {b : β}
    (h : x >>= f = .ok b) : ∃ a, x = .ok a ∧ f a = .ok b := by
  cases x with
  | error fault => cases h
  | ok a => exact ⟨a, rfl, h⟩

theorem error_or_of_except_bind {x : Except ε α} {f : α → Except ε β} {fault : ε}
    (h : x >>= f = .error fault) : x = .error fault ∨ ∃ a, x = .ok a ∧ f a = .error fault := by
  cases x with
  | error fault' =>
    cases h
    exact .inl rfl
  | ok a => exact .inr ⟨a, rfl, h⟩

theorem exists_ok_of_except_map {x : Except ε α} {f : α → β} {b : β} (h : f <$> x = .ok b) :
    ∃ a, x = .ok a ∧ f a = b := by
  cases x with
  | error fault => cases h
  | ok a => exact ⟨a, rfl, Except.ok.inj h⟩

theorem except_bind_of_ok {x : Except ε α} {f : α → Except ε β} {a : α} (h : x = .ok a) :
    x >>= f = f a := by
  rw [h]
  rfl

theorem mapError_eq_ok_iff {ε' : Type} {φ : ε → ε'} {x : Except ε α} {a : α} :
    x.mapError φ = .ok a ↔ x = .ok a := by
  cases x <;> simp [Except.mapError]

theorem mapM_eq_ok_iff {f : α → Except ε β} {xs : List α} {ys : List β} :
    xs.mapM f = .ok ys ↔ List.Forall₂ (fun x y => f x = .ok y) xs ys := by
  induction xs generalizing ys with
  | nil =>
    rw [List.mapM_nil, List.forall₂_nil_left_iff]
    exact ⟨fun h => (Except.ok.inj h).symm, fun h => congrArg Except.ok h.symm⟩
  | cons x xs ih =>
    rw [List.mapM_cons]
    constructor
    · intro h
      obtain ⟨y, hy, h⟩ := exists_ok_of_except_bind h
      obtain ⟨ys', hys, h⟩ := exists_ok_of_except_bind h
      cases h
      exact .cons hy (ih.1 hys)
    · rintro (_ | ⟨hy, hys⟩)
      rw [hy, ih.2 hys]
      rfl

theorem exists_mapM {f : α → Except ε β} {xs : List α} (h : ∀ x ∈ xs, ∃ y, f x = .ok y) :
    ∃ ys, xs.mapM f = .ok ys := by
  induction xs with
  | nil => exact ⟨[], rfl⟩
  | cons x xs ih =>
    obtain ⟨y, hy⟩ := h x List.mem_cons_self
    obtain ⟨ys, hys⟩ := ih fun x' hx => h x' (List.mem_cons_of_mem x hx)
    refine ⟨y :: ys, ?_⟩
    rw [List.mapM_cons, hy, hys]
    rfl

/-- A traversal fails with the fault of the first element that has one. -/
theorem mapM_eq_error_iff {f : α → Except ε β} {xs : List α} {fault : ε} :
    xs.mapM f = .error fault ↔ ∃ before x after, xs = before ++ x :: after ∧
      (∀ y ∈ before, ∃ z, f y = .ok z) ∧ f x = .error fault := by
  constructor
  · intro h
    induction xs with
    | nil => cases h
    | cons x xs ih =>
      rw [List.mapM_cons] at h
      cases hx : f x with
      | error fault' =>
        rw [hx] at h
        cases h
        exact ⟨[], x, xs, rfl, by simp, hx⟩
      | ok y =>
        cases hxs : xs.mapM f with
        | ok ys =>
          rw [hx, hxs] at h
          cases h
        | error fault' =>
          rw [hx, hxs] at h
          cases h
          obtain ⟨before, x', after, rfl, hbefore, hx'⟩ := ih hxs
          exact ⟨x :: before, x', after, rfl, List.forall_mem_cons.2 ⟨⟨y, hx⟩, hbefore⟩, hx'⟩
  · rintro ⟨before, x, after, rfl, hbefore, hx⟩
    obtain ⟨zs, hzs⟩ := exists_mapM hbefore
    rw [List.mapM_append, hzs, List.mapM_cons, hx]
    rfl

/-- What is related to one thing only is left out of a pointwise relation with it. -/
theorem exists_forall₂_cons_iff {r : α → β → Prop} {x : α} {y : β} (h : r x y)
    (hu : ∀ z, r x z → z = y) {xs : List α} {P : List β → Prop} :
    (∃ ys, List.Forall₂ r (x :: xs) ys ∧ P ys) ↔ ∃ ys, List.Forall₂ r xs ys ∧ P (y :: ys) := by
  constructor
  · rintro ⟨_, hall, hp⟩
    obtain ⟨z, ys, hz, hys, rfl⟩ := List.forall₂_cons_left_iff.1 hall
    rw [hu z hz] at hp
    exact ⟨ys, hys, hp⟩
  · rintro ⟨ys, hys, hp⟩
    exact ⟨y :: ys, .cons h hys, hp⟩

theorem exists_of_mem_left {r : α → β → Prop} {xs : List α} {ys : List β}
    (h : List.Forall₂ r xs ys) {x : α} (hx : x ∈ xs) : ∃ y ∈ ys, r x y := by
  induction h with
  | nil => cases hx
  | cons hr _ ih =>
    rcases List.mem_cons.1 hx with rfl | hx
    · exact ⟨_, List.mem_cons_self, hr⟩
    · obtain ⟨y, hy, hr⟩ := ih hx
      exact ⟨y, List.mem_cons_of_mem _ hy, hr⟩

end

end FieldCircuit
