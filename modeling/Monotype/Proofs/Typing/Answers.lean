import Monotype.Proofs.Codec.Writing
import Monotype.Proofs.Ty.Variant
import Monotype.Proofs.Typing.Completeness
import Monotype.Proofs.Typing.Visits

/-!
# Answers of inference

Inference answers a type or a fault.  A fault of scope is found by the walk, before anything is
solved, and it is the first one on the itinerary: `Term.faults` lists them all without a walk, and
`Term.principalType_eq_scope_iff` says that the head of the list is what is answered.  Where no
subterm is missing, every fault of scope is an unbound name (`Term.isUnbound_of_mem_faults`).

Two answers are compared by `SameAnswer`: types by their normal forms, faults by a relation of
choice.  What is so compared without limits is so within them, unless a limit refuses one of the
terms (`Term.sameAnswer_checkType`).
-/

namespace Monotype

/-! ## Faults of scope in the order of the walk -/

namespace Term

/-- The faults of scope in a term, in the order of the walk; `known` tells the names in scope. -/
def faults (known : Text → Bool) (t : Term) : List ScopeFault :=
  t.itinerary.filterMap (Stop.fault? known)

def ownFaults (known : Text → Bool) : Term → List ScopeFault
  | .hole => [.hole]
  | .var x => if known x then [] else [.unbound x]
  | _ => []

/-- The faults of a part, seen from the whole: the names that the whole binds over it are known. -/
theorem filterMap_fault?_inPart (known : Text → Bool) (k : Nat) (names : List Text) (t : Term) :
    (t.itinerary.map (.inPart k names)).filterMap (Stop.fault? known) =
      t.faults (inside known names) := by
  simp [faults, List.filterMap_map, Stop.fault?_inPart]

/-- Taking variables is never a fault. -/
theorem filterMap_fault?_rootStops (known : Text → Bool) (slots : List (Option Nat)) :
    (rootStops slots).filterMap (Stop.fault? known) = [] := by
  simp [rootStops, Stop.fault?]

/-- What is listed for numbered parts without use of their numbers is listed for the parts. -/
theorem flatMap_zipIdx {α β : Type} (f : α → List β) (as : List α) (k : Nat) :
    ((as.zipIdx k).flatMap fun p => f p.1) = as.flatMap f := by
  rw [← List.flatMap_map, List.zipIdx_map_fst]

/-- The list of faults, part by part. -/
theorem faults_eq (known : Text → Bool) (t : Term) :
    t.faults known = t.ownFaults known ++ t.parts.flatMap
      fun p => p.2.faults (inside known p.1) := by
  rw [faults]
  -- Sites are no faults, and the stops in a part are its own, with more names known.
  cases t with
  | hole => rfl
  | lit v => rfl
  | var x =>
      cases hx : known x <;>
      simp [itinerary, Stop.fault?, inside_nil, hx, ownFaults, parts]
  | cond c t e =>
      simp only [itinerary, List.filterMap_append, filterMap_fault?_inPart, ownFaults, parts]
      simp
  | binop op l r =>
      simp only [itinerary, List.filterMap_append, filterMap_fault?_inPart, ownFaults, parts]
      simp
  | lam ps b =>
      simp only [itinerary, List.filterMap_append, filterMap_fault?_inPart,
        filterMap_fault?_rootStops, ownFaults, parts]
      simp
  | app f args =>
      simp only [itinerary, List.filterMap_append, filterMap_fault?_inPart,
        filterMap_fault?_rootStops,
        itineraryAll_eq, List.filterMap_flatMap, inside_nil, ownFaults, parts]
      simp [flatMap_zipIdx, List.flatMap_map, inside_nil]
  | letIn bs b =>
      simp only [itinerary, List.filterMap_append, filterMap_fault?_inPart, itineraryBindings_eq,
        List.filterMap_flatMap, ownFaults, parts]
      simp [flatMap_zipIdx
        (fun x : Binding Term => x.value.faults (inside known [])), List.flatMap_map]
  | letRec bs b =>
      simp only [itinerary, List.filterMap_append, filterMap_fault?_inPart,
        filterMap_fault?_rootStops, itineraryBindings_eq, List.filterMap_flatMap, ownFaults, parts]
      simp [flatMap_zipIdx
        (fun x : Binding Term => x.value.faults (inside known (bs.map Binding.name))),
        List.flatMap_map]

/-- Nothing is missing from a part if nothing is missing from the whole. -/
theorem complete_of_mem_parts {t : Term} (ht : t.Complete) {p : List Text × Term}
    (hp : p ∈ t.parts) :
    p.2.Complete := by
  cases t with
  | hole | lit _ | var _ => simp [parts] at hp
  | cond _ _ _ | binop _ _ _ | lam _ _ => grind [parts, Complete]
  | app _ _ => grind [parts, Complete, completeAll_iff]
  | letIn _ _ | letRec _ _ => grind [parts, Complete, completeBindings_iff]

/-- In a term from which nothing is missing, names are the only faults. -/
theorem isUnbound_of_mem_faults {t : Term} (ht : t.Complete) {known : Text → Bool} {e : ScopeFault}
    (he : e ∈ t.faults known) : IsUnbound e := by
  induction t using induct_parts generalizing known with
  | h t ih =>
      rw [faults_eq] at he
      rcases List.mem_append.1 he with he | he
      · -- A leaf that is a fault and not missing is a variable.
        cases t with
        | hole => exact absurd ht (by simp [Complete])
        | var x =>
            cases hx : known x with
            | true => simp [ownFaults, hx] at he
            | false => exact ⟨x, by simpa [ownFaults, hx] using he⟩
        | _ => simp [ownFaults] at he
      · obtain ⟨p, hp, he⟩ := List.mem_flatMap.1 he
        exact ih p hp (complete_of_mem_parts ht hp) he

/-! ## The fault that is answered -/

variable {Γ : Scope} {t : Term}

/-- The walk stops at the first of the faults. -/
theorem firstFault?_itinerary (known : Text → Bool) (t : Term) :
    Stop.firstFault? known t.itinerary = (t.faults known).head? :=
  List.head?_filterMap.symm

/-- Without a fault of scope the walk comes to a result. -/
theorem generateFrom_of_clean (h : t.faults Γ.contains = []) (s : Supply) :
    ∃ g s', t.generateFrom Γ s = (.ok g, s') := by
  obtain ⟨g, hg, _⟩ := (visits_generate t Γ).clean (by rw [firstFault?_itinerary, h]; rfl) s
  exact ⟨g, _, hg⟩

/-- The walk ends in the first fault of scope. -/
theorem generateFrom_of_fault {e : ScopeFault} {rest : List ScopeFault}
    (h : t.faults Γ.contains = e :: rest) (s : Supply) :
    ∃ s', t.generateFrom Γ s = (.error e, s') :=
  ⟨_, (visits_generate t Γ).fault (by rw [firstFault?_itinerary, h]; rfl) s⟩

end Term

def InferFault.IsScope (f : InferFault) : Prop := ∃ e : ScopeFault, f = e.toInfer

def InferFault.IsUnbound (f : InferFault) : Prop := ∃ x, f = .unbound x

/-- Faults of scope stay apart among those of inference. -/
theorem ScopeFault.toInfer_inj {e e' : ScopeFault} : e.toInfer = e'.toInfer ↔ e = e' := by
  cases e <;> cases e' <;> simp [toInfer]

/-- An equation that cannot be solved is no fault of scope. -/
theorem Unsolved.not_isScope (u : Unsolved) : ¬ u.toInfer.IsScope := by
  rcases u with ⟨_ | _, e⟩ <;> rintro ⟨_ | _, h⟩ <;> cases h

/-- Once there are equations, no fault of scope comes up. -/
theorem Generated.not_isScope_of_rootType {limit : Option Nat} {g : Generated TypedTerm}
    {f : InferFault} (h : g.rootType limit = .error f) : ¬ f.IsScope := by
  cases hsolve : (solve limit g.equations).outcome with
  | error u =>
      rw [rootType_of_error hsolve] at h
      exact Except.error.inj h ▸ u.not_isScope
  | ok σ =>
      rw [rootType_of_ok hsolve] at h
      cases hroot : σ.resolveWithin? limit g.trees.type with
      | none =>
          rw [hroot] at h
          rw [← Except.error.inj h]
          rintro ⟨_ | _, h⟩ <;> cases h
      | some τ =>
          rw [hroot] at h
          cases h

namespace Term

variable {Γ : Scope} {t : Term}

/-- A fault of scope is answered exactly if it is the first one. -/
theorem principalType_eq_scope_iff {e : ScopeFault} :
    t.principalType Γ = .error e.toInfer ↔ (t.faults Γ.contains).head? = some e := by
  cases hfaults : t.faults Γ.contains with
  | nil =>
      obtain ⟨g, s, hfrom⟩ := generateFrom_of_clean hfaults .initial
      rw [principalType_of_generated hfrom]
      exact ⟨fun h => absurd ⟨e, rfl⟩ (Generated.not_isScope_of_rootType h), fun h => by cases h⟩
  | cons e' rest =>
      obtain ⟨s, hfrom⟩ := generateFrom_of_fault hfaults .initial
      simp [principalType_of_fault hfrom, ScopeFault.toInfer_inj]

/-- Inference ends in a fault of scope exactly if the term has one. -/
theorem isScope_principalType_iff {f : InferFault} (hf : t.principalType Γ = .error f) :
    f.IsScope ↔ t.faults Γ.contains ≠ [] := by
  constructor
  · rintro ⟨e, rfl⟩ hnil
    have hhead := principalType_eq_scope_iff.1 hf
    simp [hnil] at hhead
  · intro hne
    obtain ⟨e, rest, hcons⟩ := List.exists_cons_of_ne_nil hne
    have he : t.principalType Γ = .error e.toInfer :=
      principalType_eq_scope_iff.2 (by rw [hcons]; rfl)
    exact ⟨e, Except.error.inj (hf.symm.trans he)⟩

/-- Where nothing is missing, the only faults of scope are unbound names. -/
theorem isUnbound_principalType_iff (ht : t.Complete) {f : InferFault}
    (hf : t.principalType Γ = .error f) : f.IsUnbound ↔ f.IsScope := by
  constructor
  · rintro ⟨x, rfl⟩
    exact ⟨.unbound x, rfl⟩
  · rintro ⟨e, rfl⟩
    have hmem := List.mem_of_mem_head? (principalType_eq_scope_iff.1 hf)
    obtain ⟨x, rfl⟩ := isUnbound_of_mem_faults ht hmem
    exact ⟨x, rfl⟩

end Term

/-! ## Comparing answers -/

/-- Both answers are types, with one normal form, or both are faults, and these are related. -/
inductive SameAnswer (R : InferFault → InferFault → Prop) :
    Except InferFault Ty → Except InferFault Ty → Prop where
  | ok {T T' : Ty} (h : T.normal = T'.normal) : SameAnswer R (.ok T) (.ok T')
  | error {f f' : InferFault} (h : R f f') : SameAnswer R (.error f) (.error f')

namespace Term

/-- Terms that have the same types have the same answer: each principal type is an instance of the
other. -/
theorem sameAnswer_of_hasType_iff {R : InferFault → InferFault → Prop} {Γ : Scope} {t t' : Term}
    (hΓ : Γ.All Ty.Ground) (ht : t.Annotated Ty.Ground) (ht' : t'.Annotated Ty.Ground)
    (hiff : ∀ τ, t.HasType Γ τ ↔ t'.HasType Γ τ)
    (hR : ∀ f f', t.principalType Γ = .error f → t'.principalType Γ = .error f' → R f f') :
    SameAnswer R (t.principalType Γ) (t'.principalType Γ) := by
  cases hT : t.principalType Γ with
  | ok T =>
      have hhas : t.HasType Γ T := hasType_of_principalType hΓ ht hT
      obtain ⟨T', hT', g, hg⟩ := exists_principalType_of_hasType hΓ ht' ((hiff T).1 hhas)
      have hhas' : t.HasType Γ T' := (hiff T').2 (hasType_of_principalType hΓ ht' hT')
      obtain ⟨T₀, hT₀, f, hf⟩ := exists_principalType_of_hasType hΓ ht hhas'
      cases hT.symm.trans hT₀
      rw [hT']
      exact .ok (Ty.normal_eq_of_instances hf hg)
  | error f =>
      cases hT' : t'.principalType Γ with
      | ok T' =>
          have hhas' : t.HasType Γ T' := (hiff T').2 (hasType_of_principalType hΓ ht' hT')
          obtain ⟨T, hT₀, _⟩ := exists_principalType_of_hasType hΓ ht hhas'
          simp [hT] at hT₀
      | error f' => exact .error (hR f f' hT hT')

/-- A limit stops inference: an application nests deeper than the limit for types, or a limit of the
walk is exceeded. -/
def Refused (Γ : Scope) (t : Term) : Prop :=
  (t.checkType Γ = .error .endless ∧ t.Strained Γ) ∨
    (t.checkType Γ = .error .tooDeep ∧ (depthLimit < t.depth ∨ layerLimit < Γ.layers.length))

/-- Terms with the same answer have it within the limits too, unless one of them is refused. -/
theorem sameAnswer_checkType {R : InferFault → InferFault → Prop} {Γ Γ' : Scope} {t t' : Term}
    (h : SameAnswer R (t.principalType Γ) (t'.principalType Γ')) :
    SameAnswer R (t.checkType Γ) (t'.checkType Γ') ∨ t.Refused Γ ∨ t'.Refused Γ' := by
  rcases checkType_eq_principalType Γ t with ht | ht
  · rcases checkType_eq_principalType Γ' t' with ht' | ht'
    · left
      rwa [ht, ht']
    · exact Or.inr (Or.inr ht')
  · exact Or.inr (Or.inl ht)

end Term

end Monotype
