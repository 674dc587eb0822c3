import Mathlib

/-!
# Computations that may raise and keep their state

Inversion of `do` blocks in `EStateM`, where a computation that raises has still changed the state, the
invariant rule for a loop over a list, and `Post`: what holds of the outcome, whichever of the two it is.
-/

namespace LeafDb.Exec

variable {ε σ α β : Type}

/-- A computation on no state. -/
def lift : Except ε α → EStateM ε σ α
  | .ok a => pure a
  | .error e => throw e

variable {s s' : σ}

theorem bind_eq_ok {x : EStateM ε σ α} {f : α → EStateM ε σ β} {b : β} :
    (x >>= f) s = .ok b s' ↔ ∃ a t, x s = .ok a t ∧ f a t = .ok b s' := by
  change EStateM.bind x f s = _ ↔ _
  rw [EStateM.bind]
  rcases x s with ⟨a, t⟩ | ⟨e, t⟩ <;> simp

theorem bind_of_ok {x : EStateM ε σ α} {f : α → EStateM ε σ β} {a : α} (h : x s = .ok a s') : (x >>= f) s = f a s' := by
  change EStateM.bind x f s = _
  rw [EStateM.bind, h]

theorem bind_of_error {x : EStateM ε σ α} {f : α → EStateM ε σ β} {e : ε} (h : x s = .error e s') :
    (x >>= f) s = .error e s' := by
  change EStateM.bind x f s = _
  rw [EStateM.bind, h]

theorem pure_eq_ok {a b : α} : (pure a : EStateM ε σ α) s = .ok b s' ↔ a = b ∧ s = s' := by
  change EStateM.Result.ok a s = _ ↔ _
  simp

theorem throw_ne_ok {e : ε} {a : α} : (throw e : EStateM ε σ α) s ≠ .ok a s' := by
  intro h
  cases h

theorem get_eq_ok {t : σ} : (get : EStateM ε σ σ) s = .ok t s' ↔ s = t ∧ s = s' := by
  change EStateM.Result.ok s s = _ ↔ _
  simp

theorem set_eq_ok {t : σ} {u : PUnit} : (set t : EStateM ε σ PUnit) s = .ok u s' ↔ s' = t := by
  change EStateM.Result.ok PUnit.unit t = _ ↔ _
  simp [eq_comm]

theorem lift_eq_ok {x : Except ε α} {a : α} : (lift x : EStateM ε σ α) s = .ok a s' ↔ x = .ok a ∧ s = s' := by
  rcases x with e | b
  · exact ⟨fun h => absurd h throw_ne_ok, fun h => by cases h.1⟩
  · rw [lift, pure_eq_ok, Except.ok.injEq]

/-- A guard at the head of a `do` block. -/
theorem guard_eq_ok {c : Prop} [Decidable c] {e : ε} {f : PUnit → EStateM ε σ α} {a : α} :
    (if c then throw e >>= f else f PUnit.unit) s = .ok a s' ↔ ¬c ∧ f PUnit.unit s = .ok a s' := by
  by_cases hc : c
  · rw [if_pos hc, bind_eq_ok]
    exact ⟨fun ⟨_, _, h, _⟩ => absurd h throw_ne_ok, fun h => absurd hc h.1⟩
  · rw [if_neg hc, and_iff_right hc]

/-- The invariant of a loop may mention the elements still to come. -/
theorem forM_rule {f : α → EStateM ε σ PUnit} {P : List α → σ → Prop}
    (hstep : ∀ a as s s', P (a :: as) s → f a s = .ok PUnit.unit s' → P as s') {as : List α} {u : PUnit}
    (hP : P as s) (h : as.forM f s = .ok u s') : P [] s' := by
  induction as generalizing s with
  | nil =>
    obtain ⟨-, rfl⟩ := pure_eq_ok.1 h
    exact hP
  | cons a as ih =>
    obtain ⟨⟨⟩, t, ha, h⟩ := bind_eq_ok.1 h
    exact ih (hstep a as s t hP ha) h

/-! ### Postconditions -/

/-- The outcome of `x` at `s` satisfies `Q` if it is a value and `E` if it is an error. -/
def Post (x : EStateM ε σ α) (s : σ) (Q : α → σ → Prop) (E : ε → σ → Prop) : Prop :=
  match x s with
  | .ok a s' => Q a s'
  | .error e s' => E e s'

variable {x : EStateM ε σ α} {Q Q' : α → σ → Prop} {E E' : ε → σ → Prop}

theorem Post.mono (h : Post x s Q E) (hQ : ∀ a t, Q a t → Q' a t) (hE : ∀ e t, E e t → E' e t) : Post x s Q' E' := by
  unfold Post at h ⊢
  rcases hx : x s with ⟨a, t⟩ | ⟨e, t⟩ <;> rw [hx] at h
  · exact hQ a t h
  · exact hE e t h

theorem Post.of_ok (h : Post x s Q E) {a : α} (hx : x s = .ok a s') : Q a s' := by
  unfold Post at h
  rwa [hx] at h

theorem Post.of_error (h : Post x s Q E) {e : ε} (hx : x s = .error e s') : E e s' := by
  unfold Post at h
  rwa [hx] at h

theorem post_bind {f : α → EStateM ε σ β} {R : β → σ → Prop} :
    Post (x >>= f) s R E ↔ Post x s (fun a t => Post (f a) t R E) E := by
  change (match EStateM.bind x f s with | .ok a s' => R a s' | .error e s' => E e s') ↔ _
  unfold Post EStateM.bind
  rcases x s with ⟨a, t⟩ | ⟨e, t⟩ <;> rfl

theorem post_lift {x : Except ε α} :
    Post (lift x) s Q E ↔ (∀ a, x = .ok a → Q a s) ∧ ∀ e, x = .error e → E e s := by
  rcases x with e | a
  · refine ⟨fun h => ⟨fun a ha => (nomatch ha), fun e' he => ?_⟩, fun h => h.2 e rfl⟩
    cases he
    exact h
  · refine ⟨fun h => ⟨fun a' ha => ?_, fun e he => (nomatch he)⟩, fun h => h.1 a rfl⟩
    cases ha
    exact h

theorem post_get {Q : σ → σ → Prop} : Post get s Q E ↔ Q s s := Iff.rfl

theorem post_set {t : σ} {Q : PUnit → σ → Prop} : Post (set t : EStateM ε σ PUnit) s Q E ↔ Q PUnit.unit t := Iff.rfl

/-- What every round keeps, whether it raises or not, the loop keeps. -/
theorem post_forM {f : α → EStateM ε σ PUnit} {P : σ → Prop} (hf : ∀ a s, P s → Post (f a) s (fun _ => P) fun _ => P)
    {as : List α} (hs : P s) : Post (as.forM f) s (fun _ => P) fun _ => P := by
  induction as generalizing s with
  | nil => exact hs
  | cons a as ih =>
    change Post (f a >>= fun _ => as.forM f) s _ _
    rw [post_bind]
    exact (hf a s hs).mono (fun _ t ht => ih ht) fun _ t ht => ht

/-! ### Before and after -/

/-- The state after `x` is related to the state before, whichever the outcome. -/
def Moves (R : σ → σ → Prop) (x : EStateM ε σ α) : Prop := ∀ s, Post x s (fun _ => R s) fun _ => R s

namespace Moves

variable {R : σ → σ → Prop}

theorem bind [IsTrans σ R] {x : EStateM ε σ α} {f : α → EStateM ε σ β} (hx : Moves R x) (hf : ∀ a, Moves R (f a)) :
    Moves R (x >>= f) := by
  intro s
  rw [post_bind]
  exact (hx s).mono
    (fun a t ht => (hf a t).mono (fun _ _ hu => IsTrans.trans _ _ _ ht hu) fun _ _ hu => IsTrans.trans _ _ _ ht hu)
    fun _ _ ht => ht

variable [Std.Refl R]

theorem pure (a : α) : Moves R (Pure.pure a : EStateM ε σ α) := fun s => Std.Refl.refl s

theorem get : Moves R (MonadState.get : EStateM ε σ σ) := fun s => Std.Refl.refl s

theorem throw (e : ε) : Moves R (MonadExcept.throw e : EStateM ε σ α) := fun s => Std.Refl.refl s

theorem lift (x : Except ε α) : Moves R (Exec.lift x : EStateM ε σ α) := fun s =>
  post_lift.2 ⟨fun _ _ => Std.Refl.refl s, fun _ _ => Std.Refl.refl s⟩

theorem forM [IsTrans σ R] {f : α → EStateM ε σ PUnit} (hf : ∀ a, Moves R (f a)) (as : List α) : Moves R (as.forM f) := by
  induction as with
  | nil => exact pure _
  | cons a as ih => exact (hf a).bind fun _ => ih

end Moves

end LeafDb.Exec
