import Monotype.Generate

/-!
# Walks over terms

A walk takes type variables from a supply and may end in a fault of scope.  `Walk.eval` runs a walk,
and the lemmas on it open every clause of `Term.generate` into the walks over the parts.

`Term.induct` is the induction principle over a term and its parts.
-/

namespace Monotype

/-! ## Induction over terms -/

namespace Term

/-- Induction over terms: a property of a term may assume itself of every argument and of the value
of every binding. -/
@[elab_as_elim]
theorem induct {P : Term → Prop} (hole : P .hole) (lit : ∀ value, P (.lit value))
    (var : ∀ name, P (.var name))
    (cond : ∀ test yes no, P test → P yes → P no → P (.cond test yes no))
    (binop : ∀ op lhs rhs, P lhs → P rhs → P (.binop op lhs rhs))
    (lam : ∀ params body, P body → P (.lam params body))
    (app : ∀ function args, P function → (∀ a ∈ args, P a) → P (.app function args))
    (letIn : ∀ bindings body, (∀ x ∈ bindings, P x.value) → P body → P (.letIn bindings body))
    (letRec : ∀ bindings body, (∀ x ∈ bindings, P x.value) → P body → P (.letRec bindings body))
    (t : Term) : P t := by
  -- The motives for the lists of arguments and of bindings say it of every member.
  refine @Term.rec P (fun ts => ∀ t ∈ ts, P t) (fun bs => ∀ b ∈ bs, P b.value) (fun b => P b.value)
    hole lit var cond binop lam app letIn letRec ?_ ?_ ?_ ?_ ?_ t
  · simp
  · intro t ts ht hts
    simpa using ⟨ht, hts⟩
  · simp
  · intro b bs hb hbs
    simpa using ⟨hb, hbs⟩
  · intro _ _ value hvalue
    exact hvalue

end Term

/-! ## Running walks -/

namespace Walk

variable {α β : Type}

def eval (w : Walk α) (s : Supply) : Except ScopeFault α × Supply := w.run.run s

theorem eval_pure (a : α) (s : Supply) : (pure a : Walk α).eval s = (.ok a, s) := rfl

theorem eval_throw (e : ScopeFault) (s : Supply) : (throw e : Walk α).eval s = (.error e, s) := rfl

theorem eval_fresh (s : Supply) : fresh.eval s = (.ok s.fresh, s.advance) := rfl

/-- A walk goes on from the result and the supply of the one before. -/
theorem eval_bind (w : Walk α) (f : α → Walk β) (s : Supply) :
    (w >>= f).eval s =
      match w.eval s with
      | (.ok a, s') => (f a).eval s'
      | (.error e, s') => (.error e, s') := by
  rcases h : w.eval s with ⟨r, s'⟩
  have hrun : w.run.run s = (r, s') := h
  cases r with
  | ok a =>
      simp only [eval, ExceptT.run_bind, StateT.run_bind, hrun]
      rfl
  | error e =>
      simp only [eval, ExceptT.run_bind, StateT.run_bind, hrun]
      rfl

/-- Two walks in a row succeed if both do. -/
theorem eval_bind_ok {w : Walk α} {f : α → Walk β} {s s' : Supply} {b : β} :
    (w >>= f).eval s = (.ok b, s') ↔
      ∃ a s₁, w.eval s = (.ok a, s₁) ∧ (f a).eval s₁ = (.ok b, s') := by
  rw [eval_bind]
  rcases h : w.eval s with ⟨r, s₁⟩
  cases r with
  | ok a =>
      constructor
      · intro h'
        exact ⟨a, s₁, rfl, h'⟩
      · rintro ⟨a', s₁', heq, h'⟩
        cases heq
        exact h'
  | error e => simp

/-- Two walks in a row fail where the first of them fails. -/
theorem eval_bind_error {w : Walk α} {f : α → Walk β} {s s' : Supply} {e : ScopeFault} :
    (w >>= f).eval s = (.error e, s') ↔
      w.eval s = (.error e, s') ∨
        ∃ a s₁, w.eval s = (.ok a, s₁) ∧ (f a).eval s₁ = (.error e, s') := by
  rw [eval_bind]
  rcases h : w.eval s with ⟨r, s₁⟩
  cases r with
  | ok a =>
      constructor
      · intro h'
        exact Or.inr ⟨a, s₁, rfl, h'⟩
      · rintro (h' | ⟨a', s₁', heq, h'⟩)
        · simp at h'
        · cases heq
          exact h'
  | error e' => simp

theorem eval_pure_ok {a b : α} {s s' : Supply} :
    (pure a : Walk α).eval s = (.ok b, s') ↔ b = a ∧ s' = s := by
  simp [eval_pure, eq_comm]

theorem eval_throw_ok {e : ScopeFault} {b : α} {s s' : Supply} :
    ¬ (throw e : Walk α).eval s = (.ok b, s') := by
  simp [eval_throw]

theorem eval_fresh_ok {t : Ty} {s s' : Supply} :
    fresh.eval s = (.ok t, s') ↔ t = .var s.next ∧ s' = s.advance := by
  simp [eval_fresh, Supply.fresh, eq_comm]

end Walk

end Monotype
