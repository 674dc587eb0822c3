import Mathlib

/-!
# Runs of a labelled transition system

`step s a` is the state after the action `a`, `none` where `a` cannot be taken. `Run step ok s as t` is a
run from `s` to `t` through the actions `as`, each of which meets the side condition `ok` in the state it
is taken in; `fun _ _ => True` is no condition.
-/

namespace LeafDb

variable {σ α : Type*} {step : σ → α → Option σ} {ok ok' : σ → α → Prop}

inductive Run (step : σ → α → Option σ) (ok : σ → α → Prop) : σ → List α → σ → Prop
  | nil (s : σ) : Run step ok s [] s
  | cons {s s' t : σ} {a : α} {as : List α} (hok : ok s a) (hstep : step s a = some s')
      (hrun : Run step ok s' as t) : Run step ok s (a :: as) t

namespace Run

theorem single {s t : σ} {a : α} (hok : ok s a) (hstep : step s a = some t) : Run step ok s [a] t :=
  .cons hok hstep (.nil t)

theorem append {s t u : σ} {as bs : List α} (h1 : Run step ok s as t) (h2 : Run step ok t bs u) :
    Run step ok s (as ++ bs) u := by
  induction h1 with
  | nil => exact h2
  | cons hok hstep _ ih => exact .cons hok hstep (ih h2)

theorem mono (hle : ∀ s a, ok s a → ok' s a) {s t : σ} {as : List α} (h : Run step ok s as t) :
    Run step ok' s as t := by
  induction h with
  | nil s => exact .nil s
  | cons hok hstep _ ih => exact .cons (hle _ _ hok) hstep ih

theorem and_forall_mem {P : α → Prop} {s t : σ} {as : List α} (h : Run step ok s as t) (hP : ∀ a ∈ as, P a) :
    Run step (fun s a => P a ∧ ok s a) s as t := by
  induction h with
  | nil s => exact .nil s
  | cons hok hstep _ ih =>
    exact .cons ⟨hP _ List.mem_cons_self, hok⟩ hstep (ih fun a ha => hP a (List.mem_cons_of_mem _ ha))

/-- What every step keeps holds in every state reached. -/
theorem invariant {P : σ → Prop} (hP : ∀ s a t, P s → ok s a → step s a = some t → P t) {s t : σ} {as : List α}
    (h : Run step ok s as t) (hs : P s) : P t := by
  induction h with
  | nil => exact hs
  | cons hok hstep _ ih => exact ih (hP _ _ _ hs hok hstep)

end Run

end LeafDb
