import Monotype.Proofs.Typing.Answers

/-!
# A let is an applied function

Nothing is generalised at a `let`, so `let x = v in b` has the types of `(fun x -> b) v`.  In the
type system this is a matter of rearranging one derivation (`Term.hasType_applied_iff`).  The walks
differ: the values of a `let` come before its body, the arguments of an application after the
function.  So the equations come in another order, and of several faults another one may be first.

Main statement: both have a type with the same normal form, or neither has one, and a fault of scope
is answered for both or for neither (`Term.sameAnswer_applied`).  For unbound names alone this needs
that no subterm is missing (`Term.applied_of_missing_body`).
-/

namespace Monotype

def Binding.param (x : Binding Term) : Param := ⟨x.name, x.declared⟩

namespace Term

/-- The function of the bound names, applied to the values. -/
def applied (bs : List (Binding Term)) (b : Term) : Term :=
  .app (.lam (bs.map Binding.param) b) (bs.map Binding.value)

section Applied

variable {bs : List (Binding Term)} {b : Term}

theorem map_name_param (bs : List (Binding Term)) :
    (bs.map Binding.param).map Param.name = bs.map Binding.name :=
  List.map_map

theorem map_declared_param (bs : List (Binding Term)) :
    (bs.map Binding.param).map Param.declared = bs.map Binding.declared :=
  List.map_map

/-- A `let` and the applied function have the same types, annotations included. -/
theorem hasType_applied_iff {Γ : Scope} {τ : Ty} :
    (Term.letIn bs b).HasType Γ τ ↔ (applied bs b).HasType Γ τ := by
  constructor
  · rintro ⟨_, hR, rfl⟩
    cases hR with
    | letIn hvalues hdeclared hb =>
        rw [← map_declared_param] at hdeclared
        rw [← map_name_param] at hb
        exact ⟨_, .app (.lam hdeclared hb) hvalues rfl, rfl⟩
  · rintro ⟨_, hR, rfl⟩
    cases hR with
    | app hf hvalues hfunction =>
        cases hf with
        | lam hdeclared hb =>
            -- The parameters have the types of the arguments, and the body that of the whole.
            obtain ⟨rfl, rfl⟩ := Ty.fn.inj hfunction
            rw [map_declared_param] at hdeclared
            rw [map_name_param] at hb
            exact ⟨_, .letIn hvalues hdeclared hb, rfl⟩

theorem annotated_applied_iff {Q : Ty → Prop} :
    (applied bs b).Annotated Q ↔ (Term.letIn bs b).Annotated Q := by
  simp only [applied, annotated_app, annotated_lam, annotated_letIn, map_declared_param,
    List.forall_mem_map]
  tauto

theorem complete_applied_iff : (applied bs b).Complete ↔ (Term.letIn bs b).Complete := by
  simp only [applied, Complete, completeAll_iff, completeBindings_iff, List.forall_mem_map]
  tauto

/-- The faults of scope are the same, in another order. -/
theorem perm_faults_applied (known : Text → Bool) :
    ((Term.letIn bs b).faults known).Perm ((applied bs b).faults known) := by
  have hlet : (Term.letIn bs b).faults known =
      bs.flatMap (fun x => x.value.faults known) ++
        b.faults (inside known (bs.map Binding.name)) := by
    simp [faults_eq known (.letIn bs b), ownFaults, parts, inside_nil, List.flatMap_map]
  have hlam : (Term.lam (bs.map Binding.param) b).faults known =
      b.faults (inside known (bs.map Binding.name)) := by
    rw [faults_eq, parts, map_name_param]
    simp [ownFaults]
  have happ : (applied bs b).faults known =
      b.faults (inside known (bs.map Binding.name)) ++
        bs.flatMap fun x => x.value.faults known := by
    rw [applied, faults_eq]
    simp [ownFaults, parts, inside_nil, hlam, List.flatMap_map]
  rw [hlet, happ]
  exact List.perm_append_comm

end Applied

/-- A `let` and the applied function have the same answer: types with one normal form, or faults, of
scope on both sides or on neither; and unbound names on both sides or on neither where no subterm is
missing.  Within the limits the same holds, unless a limit refuses one of the two. -/
theorem sameAnswer_applied (Γ : Scope) (bs : List (Binding Term)) (b : Term) (hΓ : Γ.All Ty.Ground)
    (ht : (Term.letIn bs b).Annotated Ty.Ground) :
    let blame : InferFault → InferFault → Prop := fun f f' =>
      (f.IsScope ↔ f'.IsScope) ∧ ((Term.letIn bs b).Complete → (f.IsUnbound ↔ f'.IsUnbound))
    SameAnswer blame ((Term.letIn bs b).principalType Γ) ((applied bs b).principalType Γ) ∧
      (SameAnswer blame ((Term.letIn bs b).checkType Γ) ((applied bs b).checkType Γ) ∨
        (Term.letIn bs b).Refused Γ ∨ (applied bs b).Refused Γ) := by
  intro blame
  have hblame : ∀ f f', (Term.letIn bs b).principalType Γ = .error f →
      (applied bs b).principalType Γ = .error f' → blame f f' := by
    intro f f' hf hf'
    have hscope : f.IsScope ↔ f'.IsScope := by
      rw [isScope_principalType_iff hf, isScope_principalType_iff hf', ← List.length_pos_iff,
        ← List.length_pos_iff, (perm_faults_applied _).length_eq]
    refine ⟨hscope, ?_⟩
    intro hcomplete
    rw [isUnbound_principalType_iff hcomplete hf,
      isUnbound_principalType_iff (complete_applied_iff.2 hcomplete) hf', hscope]
  have hanswer := sameAnswer_of_hasType_iff hΓ ht (annotated_applied_iff.2 ht)
    (fun τ => hasType_applied_iff) hblame
  exact ⟨hanswer, sameAnswer_checkType hanswer⟩

/-- A name that is bound twice, the second time with an annotation, beside a function:
`x = 1, (x : Bool) = true, f = fun y -> y`. -/
def repeatedBindings : List (Binding Term) :=
  [⟨"x", none, .lit (.int 1)⟩, ⟨"x", some .bool, .lit (.bool true)⟩,
    ⟨"f", none, .lam [⟨"y", none⟩] (.var "y")⟩]

/-- The choice between two uses of the function: `if x then f else f`. -/
def choice : Term := .cond (.var "x") (.var "f") (.var "f")

/-- Of the repeated name the last binding counts, in the `let` as in the application; the function
takes another variable there, and keeps its normal form. -/
theorem sameAnswer_repeatedBindings :
    Scope.empty.All Ty.Ground ∧ (Term.letIn repeatedBindings choice).Annotated Ty.Ground ∧
      (Term.letIn repeatedBindings choice).principalType .empty = .ok (.fn [.var 0] (.var 0)) ∧
      ∃ T, (applied repeatedBindings choice).principalType .empty = .ok T ∧
        T.normal = .fn [.var 0] (.var 0) := by
  have hΓ : Scope.empty.All Ty.Ground := Scope.all_empty
  have ht : (Term.letIn repeatedBindings choice).Annotated Ty.Ground := by
    simp only [Annotated]
    decide
  obtain ⟨g, s, hfrom, htype, hequations⟩ : ∃ g s,
      (Term.letIn repeatedBindings choice).generateFrom .empty .initial = (.ok g, s) ∧
        g.trees.type = .fn [.var 0] (.var 0) ∧
        g.equations =
          [⟨.bool, .bool, some (.letIn repeatedBindings choice)⟩, ⟨.bool, .bool, some choice⟩,
           ⟨.fn [.var 0] (.var 0), .fn [.var 0] (.var 0), some choice⟩] := ⟨_, _, rfl, rfl, rfl⟩
  have hsolve : (solve none g.equations).outcome = .ok .empty := by
    rw [hequations]
    cbv
  have hT :
      (Term.letIn repeatedBindings choice).principalType .empty = .ok (.fn [.var 0] (.var 0)) := by
    rw [principalType_of_solve hfrom hsolve, htype]
    rfl
  have hanswer := (sameAnswer_applied .empty repeatedBindings choice hΓ ht).1
  rw [hT] at hanswer
  refine ⟨hΓ, ht, hT, ?_⟩
  generalize (applied repeatedBindings choice).principalType .empty = answer at hanswer ⊢
  cases hanswer with
  | ok hnormal => exact ⟨_, rfl, hnormal.symm⟩

/-- Where the body is missing, its hole comes before the unbound value in the application, and after
it in the `let`: a name is reported for the one and not for the other. -/
theorem applied_of_missing_body :
    let bs : List (Binding Term) := [⟨"x", none, .var "y"⟩]
    Scope.empty.All Ty.Ground ∧ (Term.letIn bs .hole).Annotated Ty.Ground ∧
      (Term.letIn bs .hole).checkType .empty = .error (.unbound "y") ∧
      (applied bs .hole).checkType .empty = .error .hole ∧
      ¬ ((∃ x, (Term.letIn bs .hole).checkType .empty = .error (.unbound x)) ↔
        ∃ x, (applied bs .hole).checkType .empty = .error (.unbound x)) := by
  intro bs
  have hlet : (Term.letIn bs .hole).checkType .empty = .error (.unbound "y") := rfl
  have happ : (applied bs .hole).checkType .empty = .error .hole := rfl
  refine ⟨Scope.all_empty, by simp only [Annotated]; decide, hlet, happ, ?_⟩
  rw [hlet, happ]
  simp

end Term

end Monotype
