import Monotype.Proofs.Typing.Walk

/-!
# Parts and paths

`Term.parts` lists the parts of a term in source order, each with the names that the term binds over
it, so that all rules of scope stand in one table:

* the parameters of a function are bound over its body;
* the names of a `let` are bound over its body, and not over its values;
* the names of a `letrec` are bound over its values and over its body.

A path is the number of a part of the term, the number of a part of that part, and so on.
`Term.locate?` follows a path and collects the names that are bound on the way.
-/

namespace Monotype

def inside (known : Text → Bool) (names : List Text) (x : Text) : Bool :=
  names.contains x || known x

theorem inside_nil (known : Text → Bool) : inside known [] = known := by
  funext x
  simp [inside]

namespace Term

/-- The parts of a term in source order, each with the names that the term binds over it. -/
def parts : Term → List (List Text × Term)
  | .hole => []
  | .lit _ => []
  | .var _ => []
  | .cond c t e => [([], c), ([], t), ([], e)]
  | .binop _ l r => [([], l), ([], r)]
  | .lam ps b => [(ps.map Param.name, b)]
  | .app f args => ([], f) :: args.map fun a => ([], a)
  -- The values of a `let` stand outside of it, those of a `letrec` inside.
  | .letIn bs b => bs.map (fun x => ([], x.value)) ++ [(bs.map Binding.name, b)]
  | .letRec bs b => bs.map (fun x => (bs.map Binding.name, x.value)) ++ [(bs.map Binding.name, b)]

/-- The subterm at a path, with the names that are bound over it on the way. -/
def locate? : List Nat → Term → Option (List Text × Term)
  | [], t => some ([], t)
  | i :: path, t =>
      match t.parts[i]? with
      | none => none
      | some (names, u) => (locate? path u).map fun found => (names ++ found.1, found.2)

/-- A path leads into a part first, and then goes on in it. -/
theorem locate?_cons {i : Nat} {path : List Nat} {t v : Term} {bound : List Text} :
    locate? (i :: path) t = some (bound, v) ↔
      ∃ names u inner, t.parts[i]? = some (names, u) ∧ locate? path u = some (inner, v) ∧
        bound = names ++ inner := by
  cases hpart : t.parts[i]? with
  | none => simp [locate?, hpart]
  | some part =>
      rcases part with ⟨names, u⟩
      cases hfound : locate? path u with
      | none => simp [locate?, hpart, hfound]
      | some found =>
          rcases found with ⟨inner, w⟩
          simp only [locate?, hpart, hfound, Option.map_some, Option.some.injEq, Prod.mk.injEq]
          constructor
          · rintro ⟨rfl, rfl⟩
            exact ⟨names, u, inner, ⟨rfl, rfl⟩, hfound, rfl⟩
          · rintro ⟨names', u', inner', ⟨rfl, rfl⟩, hfound', rfl⟩
            cases hfound.symm.trans hfound'
            exact ⟨rfl, rfl⟩

/-- A property that a term has if its parts have it is a property of all terms. -/
theorem induct_parts {P : Term → Prop} (h : ∀ t, (∀ p ∈ t.parts, P p.2) → P t) (t : Term) :
    P t := by
  induction t using Term.induct with
  | hole => exact h _ (by simp [parts])
  | lit v => exact h _ (by simp [parts])
  | var x => exact h _ (by simp [parts])
  | cond c t e ihc iht ihe => exact h _ (by simp [parts, ihc, iht, ihe])
  | binop op l r ihl ihr => exact h _ (by simp [parts, ihl, ihr])
  | lam ps b ihb => exact h _ (by simp [parts, ihb])
  | app f args ihf ihargs => exact h _ (by simpa [parts] using ⟨ihf, ihargs⟩)
  | letIn bs b ihbs ihb => exact h _ (by simpa [parts, or_imp, forall_and] using ⟨ihbs, ihb⟩)
  | letRec bs b ihbs ihb => exact h _ (by simpa [parts, or_imp, forall_and] using ⟨ihbs, ihb⟩)

end Term

end Monotype
