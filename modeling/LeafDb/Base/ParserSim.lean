import Mathlib

/-!
# Parsers that read the same from two inputs

A parser takes the tokens from its position on and gives a result and the tokens left. `Sim Q R p p'`: on inputs
related by `Q`, whatever `p` reads `p'` reads too, with results related by `R` and the tokens left related by `Q`
again. The rules follow the parsers' own shape: a result, an exception, one parser after another.
-/

namespace LeafDb

variable {τ τ' ε α α' β β' : Type}

/-- The second outcome is the first one again, if that is a result; `ts` is what the first parser started on. -/
def Agrees (Q : List τ → List τ' → Prop) (R : α → α' → Prop) (ts : List τ) (r : Except ε (α × List τ))
    (r' : Except ε (α' × List τ')) : Prop :=
  ∀ a left, r = .ok (a, left) → left <:+ ts ∧ ∃ a' left', r' = .ok (a', left') ∧ R a a' ∧ Q left left'

def Sim (Q : List τ → List τ' → Prop) (R : α → α' → Prop) (p : List τ → Except ε (α × List τ))
    (p' : List τ' → Except ε (α' × List τ')) : Prop :=
  ∀ ts ts', Q ts ts' → Agrees Q R ts (p ts) (p' ts')

namespace Agrees

variable {Q : List τ → List τ' → Prop} {R : α → α' → Prop} {S : β → β' → Prop} {ts left : List τ} {left' : List τ'}

theorem ok {a : α} {a' : α'} (hR : R a a') (hQ : Q left left') (hs : left <:+ ts) :
    Agrees (ε := ε) Q R ts (.ok (a, left)) (.ok (a', left')) := by
  rintro b left₁ h
  cases h
  exact ⟨hs, a', left', rfl, hR, hQ⟩

theorem error {e : ε} {r' : Except ε (α' × List τ')} : Agrees Q R ts (.error e) r' := by
  rintro b left₁ h
  cases h

theorem mono {ts₀ : List τ} {r : Except ε (α × List τ)} {r' : Except ε (α' × List τ')} (h : Agrees Q R ts₀ r r')
    (hs : ts₀ <:+ ts) : Agrees Q R ts r r' := by
  rintro a left₁ ha
  obtain ⟨hleft, hr⟩ := h a left₁ ha
  exact ⟨hleft.trans hs, hr⟩

theorem bind {r : Except ε (α × List τ)} {r' : Except ε (α' × List τ')} {f : α × List τ → Except ε (β × List τ)}
    {f' : α' × List τ' → Except ε (β' × List τ')} (h : Agrees Q R ts r r')
    (hf : ∀ a a' left left', left <:+ ts → R a a' → Q left left' → Agrees Q S ts (f (a, left)) (f' (a', left'))) :
    Agrees Q S ts (r >>= f) (r' >>= f') := by
  rcases r with e | ⟨a, left⟩
  · exact error
  · obtain ⟨hs, a', left', rfl, hR, hQ⟩ := h a left rfl
    exact hf a a' left left' hs hR hQ

theorem imp {R' : α → α' → Prop} {r : Except ε (α × List τ)} {r' : Except ε (α' × List τ')} (h : Agrees Q R ts r r')
    (hR : ∀ a a', R a a' → R' a a') : Agrees Q R' ts r r' := by
  rintro a left₁ ha
  obtain ⟨hleft, a', left', hr, hRa, hQ⟩ := h a left₁ ha
  exact ⟨hleft, a', left', hr, hR a a' hRa, hQ⟩

end Agrees

/-! ### Parsers in the state monad -/

namespace Sim

variable {Q : List τ → List τ' → Prop} {R : α → α' → Prop} {S : β → β' → Prop}

theorem pure {a : α} {a' : α'} (h : R a a') :
    Sim Q R (Pure.pure a : StateT (List τ) (Except ε) α) (Pure.pure a' : StateT (List τ') (Except ε) α') :=
  fun ts _ hQ => .ok h hQ (List.suffix_refl ts)

theorem throw {e : ε} {p' : StateT (List τ') (Except ε) α'} : Sim Q R (MonadExcept.throw e : StateT (List τ) (Except ε) α) p' :=
  fun _ _ _ => .error

theorem bind {p : StateT (List τ) (Except ε) α} {p' : StateT (List τ') (Except ε) α'}
    {f : α → StateT (List τ) (Except ε) β} {f' : α' → StateT (List τ') (Except ε) β'} (h : Sim Q R p p')
    (hf : ∀ a a', R a a' → Sim Q S (f a) (f' a')) : Sim Q S (p >>= f) (p' >>= f') := by
  intro ts ts' hQ
  refine Agrees.bind (h ts ts' hQ) ?_
  intro a a' left left' hs hR hleft
  exact (hf a a' hR left left' hleft).mono hs

end Sim

end LeafDb
