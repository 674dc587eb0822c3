import Mathlib

/-!
# Traces of a machine

A machine takes an input, gives an output and goes on in the next state. Two machines whose states stay
related and whose outputs are equal step by step have equal traces.
-/

namespace LeafDb

namespace Trace

variable {σ τ ι ο : Type*}

/-- The inputs with their outputs. -/
def trace (step : σ → ι → ο × σ) : σ → List ι → List (ι × ο)
  | _, [] => []
  | s, i :: is => (i, (step s i).1) :: trace step (step s i).2 is

/-- The state after the inputs. -/
def after (step : σ → ι → ο × σ) (s : σ) (is : List ι) : σ := is.foldl (fun s i => (step s i).2) s

section Lemmas

variable {step : σ → ι → ο × σ} {s : σ}

@[simp] theorem trace_nil : trace step s [] = [] := rfl

@[simp] theorem trace_cons (i : ι) (is : List ι) :
    trace step s (i :: is) = (i, (step s i).1) :: trace step (step s i).2 is := rfl

@[simp] theorem after_nil : after step s [] = s := rfl

@[simp] theorem after_cons (i : ι) (is : List ι) : after step s (i :: is) = after step (step s i).2 is := rfl

theorem trace_concat (i : ι) (is : List ι) : trace step s (is ++ [i]) = trace step s is ++ [(i, (step (after step s is) i).1)] := by
  induction is generalizing s with
  | nil => rfl
  | cons i' is ih => rw [List.cons_append, trace_cons, trace_cons, ih, after_cons, List.cons_append]

theorem after_concat (i : ι) (is : List ι) : after step s (is ++ [i]) = (step (after step s is) i).2 := by
  rw [after, List.foldl_append]
  rfl

/-- A simulation: related states give equal outputs and stay related. -/
theorem sim {step' : τ → ι → ο × τ} {R : σ → τ → Prop}
    (h : ∀ s t i, R s t → (step s i).1 = (step' t i).1 ∧ R (step s i).2 (step' t i).2) {t : τ} (hst : R s t) (is : List ι) :
    trace step s is = trace step' t is ∧ R (after step s is) (after step' t is) := by
  induction is generalizing s t with
  | nil => exact ⟨rfl, hst⟩
  | cons i is ih =>
    obtain ⟨hout, hnext⟩ := h s t i hst
    obtain ⟨htrace, hafter⟩ := ih hnext
    exact ⟨by rw [trace_cons, trace_cons, hout, htrace], hafter⟩

/-- An entry of a trace is the output of the state reached before it. -/
theorem split {is : List ι} {pre post : List (ι × ο)} {i : ι} {o : ο} (h : trace step s is = pre ++ (i, o) :: post) :
    ∃ is₁, pre = trace step s is₁ ∧ o = (step (after step s is₁) i).1 := by
  induction pre generalizing s is with
  | nil =>
    rcases is with _ | ⟨i', is⟩
    · cases h
    · cases h
      exact ⟨[], rfl, rfl⟩
  | cons e pre ih =>
    rcases is with _ | ⟨i', is⟩
    · cases h
    · obtain ⟨rfl, htail⟩ := List.cons.inj h
      obtain ⟨is₁, rfl, ho⟩ := ih htail
      exact ⟨i' :: is₁, rfl, ho⟩

end Lemmas

end Trace

end LeafDb
