import Mathlib.Data.Int.Range
import Mathlib.Data.List.TakeWhile
import Monotype.Proofs.Typing.Rename
import Monotype.Proofs.Typing.Sites
import Monotype.Proofs.TypedTerm.Listing

/-!
# The walk follows the itinerary

The walk over a term takes one variable for each site on the itinerary of the term, in order, until
it comes across a fault of scope, and ends in that fault; if it comes across none, it ends in a tree
that carries the variable of every site at that site (`Term.visits_generate`).

`Walk.Visits` says this of any walk.  It composes along `bind`: what the second walk comes across is
behind what the first one comes across, and the second one starts from the supply that the first one
leaves.
-/

namespace Monotype

/-! ## Handing out variables -/

namespace Supply

def assign (s : Supply) : List Site → List (Site × Int)
  | [] => []
  | σ :: sites => (σ, s.next) :: s.advance.assign sites

theorem shift_shift (s : Supply) (d e : Int) : (s.shift d).shift e = s.shift (d + e) := by
  simp [shift, Int.add_assoc]

theorem shift_zero (s : Supply) : s.shift 0 = s := by
  simp [shift]

/-- Variables are handed out one part after the other. -/
theorem assign_append (s : Supply) (sites more : List Site) :
    s.assign (sites ++ more) = s.assign sites ++ (s.shift sites.length).assign more := by
  induction sites generalizing s with
  | nil => simp [assign, shift_zero]
  | cons σ sites ih =>
      have hshift : s.advance.shift sites.length = s.shift (σ :: sites).length := by
        simp only [shift, advance, List.length_cons, mk.injEq]
        omega
      simp [assign, ih, hshift]

theorem assign_map (f : Site → Site) (s : Supply) (sites : List Site) :
    s.assign (sites.map f) = (s.assign sites).map (Prod.map f id) := by
  induction sites generalizing s with
  | nil => rfl
  | cons σ sites ih => simp [assign, ih]

/-- Every site gets a variable. -/
theorem map_fst_assign (s : Supply) (sites : List Site) :
    (s.assign sites).map Prod.fst = sites := by
  induction sites generalizing s with
  | nil => rfl
  | cons σ sites ih => simp [assign, ih]

/-- The variables are handed out one after the other. -/
theorem map_snd_assign (s : Supply) (sites : List Site) :
    (s.assign sites).map Prod.snd = Int.range s.next (s.next + sites.length) := by
  induction sites generalizing s with
  | nil => simp [assign, Int.range]
  | cons σ sites ih =>
      have hlen : (s.next + ((σ :: sites).length : Int) - s.next).toNat = sites.length + 1 := by
        simp
      have hlen' :
          (s.advance.next + (sites.length : Int) - s.advance.next).toNat = sites.length := by simp
      simp only [assign, List.map_cons, ih, Int.range, hlen, hlen', List.range_succ_eq_map,
        List.map_map]
      refine List.cons_eq_cons.2 ⟨by simp, List.map_congr_left ?_⟩
      intro k _
      simp only [advance, Function.comp_apply, Nat.succ_eq_add_one]
      push_cast
      omega

end Supply

/-! ## Up to the first fault -/

namespace Stop

variable {known : Text → Bool} {stops more : List Stop}

def firstFault? (known : Text → Bool) (stops : List Stop) : Option ScopeFault :=
  stops.findSome? (fault? known)

/-- The sites among stops that come before the first fault. -/
def reached (known : Text → Bool) (stops : List Stop) : List Site :=
  (stops.takeWhile fun stop => (stop.fault? known).isNone).filterMap site?

/-- The sites that are reached are some of the sites, in order. -/
theorem reached_sublist (known : Text → Bool) (stops : List Stop) :
    (reached known stops).Sublist (stops.filterMap site?) :=
  (List.takeWhile_sublist _).filterMap site?

theorem isNone_of_clean (h : firstFault? known stops = none) :
    ∀ stop ∈ stops, (stop.fault? known).isNone := by
  intro stop hstop
  simpa using List.findSome?_eq_none_iff.1 h stop hstop

/-- Without a fault all sites are reached. -/
theorem reached_of_clean (h : firstFault? known stops = none) :
    reached known stops = stops.filterMap site? := by
  rw [reached, List.takeWhile_eq_self_iff.2 (isNone_of_clean h)]

/-- The first fault of two parts is that of the first one, if it has one. -/
theorem firstFault?_append (known : Text → Bool) (stops more : List Stop) :
    firstFault? known (stops ++ more) = (firstFault? known stops).or (firstFault? known more) :=
  List.findSome?_append

/-- Behind stops without a fault the walk goes on. -/
theorem reached_append_of_clean (h : firstFault? known stops = none) :
    reached known (stops ++ more) = reached known stops ++ reached known more := by
  rw [reached_of_clean h, reached, reached, List.takeWhile_append_of_pos (isNone_of_clean h),
    List.filterMap_append]

/-- Behind a fault nothing is reached. -/
theorem reached_append_of_fault {e : ScopeFault} (h : firstFault? known stops = some e) :
    reached known (stops ++ more) = reached known stops := by
  -- The fault is among the first stops, so not all of these are kept.
  have hstops :
      ¬ (stops.takeWhile fun stop => (stop.fault? known).isNone).length = stops.length := by
    intro hlen
    obtain ⟨stop, hstop, hfault⟩ := List.exists_of_findSome?_eq_some h
    have hall :=
      List.takeWhile_eq_self_iff.1 ((List.takeWhile_sublist _).eq_of_length hlen) stop hstop
    simp [hfault] at hall
  rw [reached, reached, List.takeWhile_append, if_neg hstops]

/-- A stop in a part is a fault if it is one with the names that the whole binds over the part. -/
theorem fault?_inPart (k : Nat) (names : List Text) (stop : Stop) :
    (stop.inPart k names).fault? known = stop.fault? (inside known names) := by
  cases stop with
  | site σ => rfl
  | name x bound => simp [inPart, fault?, inside, Bool.or_assoc, Bool.or_left_comm]
  | hole => rfl

theorem firstFault?_inPart (k : Nat) (names : List Text) :
    firstFault? known (stops.map (.inPart k names)) = firstFault? (inside known names) stops := by
  simp only [firstFault?, List.findSome?_map, Function.comp_def, fault?_inPart]

/-- The sites that are reached in a part, seen from the whole. -/
theorem reached_inPart (k : Nat) (names : List Text) :
    reached known (stops.map (.inPart k names)) =
      (reached (inside known names) stops).map (.inPart k) := by
  simp only [reached, List.takeWhile_map, Function.comp_def, fault?_inPart, List.filterMap_map,
    site?_inPart, List.map_filterMap]

end Stop

/-! ## Walks along stops -/

namespace Walk

open Stop

variable {α β : Type} {known : Text → Bool} {stops more : List Stop}

/-- From every supply, the walk takes one variable for each site up to the first fault, and ends in
that fault; if there is none, it comes to a result with the property, which may speak of the
variables and their sites. -/
structure Visits (known : Text → Bool) (stops : List Stop) (P : List (Site × Int) → α → Prop)
    (w : Walk α) :
    Prop where
  clean : firstFault? known stops = none → ∀ s, ∃ a,
    w.eval s = (.ok a, s.shift (reached known stops).length) ∧ P (s.assign (reached known stops)) a
  fault : ∀ {e}, firstFault? known stops = some e → ∀ s,
    w.eval s = (.error e, s.shift (reached known stops).length)

/-- Stops that are neither sites nor faults leave no trace. -/
theorem visits_pure {P : List (Site × Int) → α → Prop} {a : α}
    (hclean : firstFault? known stops = none) (hsites : stops.filterMap site? = []) (h : P [] a) :
    Visits known stops P (pure a) where
  clean := by
    intro _ s
    rw [reached_of_clean hclean, hsites]
    exact ⟨a, congrArg (Prod.mk (Except.ok a)) s.shift_zero.symm, h⟩
  fault := by
    intro e he
    rw [hclean] at he
    cases he

/-- A fault is a stop of its own. -/
theorem visits_throw {P : List (Site × Int) → α → Prop} {stop : Stop} {e : ScopeFault}
    (h : stop.fault? known = some e) : Visits known [stop] P (throw e) where
  clean := by
    intro hclean
    simp [firstFault?, h] at hclean
  fault := by
    intro e' he s
    have hreached : reached known [stop] = [] := by simp [reached, h]
    obtain rfl : e = e' := by simpa [firstFault?, h] using he
    rw [eval_throw, hreached]
    exact congrArg _ s.shift_zero.symm

/-- One walk after another visits the stops of both; the records are put together. -/
theorem Visits.bind {P : List (Site × Int) → α → Prop} {Q : List (Site × Int) → β → Prop}
    {w : Walk α} {f : α → Walk β} (hw : Visits known stops P w)
    (hf : ∀ record a, P record a →
      Visits known more (fun record' b => Q (record ++ record') b) (f a)) :
    Visits known (stops ++ more) Q (w >>= f) where
  clean := by
    intro hclean s
    rw [firstFault?_append, Option.or_eq_none_iff] at hclean
    obtain ⟨a, ha, hP⟩ := hw.clean hclean.1 s
    -- The second walk starts from the supply that the first one leaves.
    obtain ⟨b, hb, hQ⟩ := (hf _ a hP).clean hclean.2 (s.shift (reached known stops).length)
    rw [Supply.shift_shift] at hb
    rw [← Supply.assign_append] at hQ
    rw [reached_append_of_clean hclean.1, List.length_append, Int.natCast_add]
    exact ⟨b, eval_bind_ok.2 ⟨a, _, ha, hb⟩, hQ⟩
  fault := by
    intro e he s
    rw [firstFault?_append] at he
    cases hfirst : firstFault? known stops with
    | some e' =>
        -- The first walk ends in a fault, and the second one is not begun.
        rw [hfirst] at he
        obtain rfl : e' = e := Option.some.inj he
        rw [reached_append_of_fault hfirst]
        exact eval_bind_error.2 (Or.inl (hw.fault hfirst s))
    | none =>
        rw [hfirst] at he
        have hsecond : firstFault? known more = some e := he
        obtain ⟨a, ha, hP⟩ := hw.clean hfirst s
        have hend := (hf _ a hP).fault hsecond (s.shift (reached known stops).length)
        rw [Supply.shift_shift] at hend
        rw [reached_append_of_clean hfirst, List.length_append, Int.natCast_add]
        exact eval_bind_error.2 (Or.inr ⟨a, _, ha, hend⟩)

/-- A last step that comes across nothing adds no stop. -/
theorem Visits.last {P : List (Site × Int) → α → Prop} {Q : List (Site × Int) → β → Prop}
    {w : Walk α} {f : α → β} (hw : Visits known stops P w)
    (hf : ∀ record a, P record a → Q record (f a)) :
    Visits known stops Q (do let a ← w; return f a) := by
  have hbind : Visits known (stops ++ []) Q (w >>= fun a => pure (f a)) := by
    refine hw.bind ?_
    intro record a ha
    exact visits_pure rfl rfl (by simpa using hf record a ha)
  rwa [List.append_nil] at hbind

/-- A walk over a part, seen from the whole. -/
theorem Visits.inPart {P Q : List (Site × Int) → α → Prop} {w : Walk α} {names : List Text}
    (hw : Visits (inside known names) stops P w) (k : Nat)
    (h : ∀ record a, P record a → Q (record.map (Prod.map (.inPart k) id)) a) :
    Visits known (stops.map (.inPart k names)) Q w where
  clean := by
    intro hclean s
    rw [firstFault?_inPart] at hclean
    obtain ⟨a, ha, hP⟩ := hw.clean hclean s
    rw [reached_inPart, Supply.assign_map, List.length_map]
    exact ⟨a, ha, h _ a hP⟩
  fault := by
    intro e he s
    rw [firstFault?_inPart] at he
    rw [reached_inPart, List.length_map]
    exact hw.fault he s

/-- Taking a variable is a stop at a slot of the root. -/
theorem visits_fresh (slot : Option Nat) :
    Visits known (Term.rootStops [slot]) (fun record t => ∃ i, record = [(.atRoot slot, i)] ∧
      t = .var i)
      fresh where
  clean := fun _ s => ⟨.var s.next, rfl, s.next, rfl, rfl⟩
  fault := by
    intro e he
    cases he

end Walk

/-! ## Trees that carry variables -/

namespace TypedTerm

def slotType? (T : TypedTerm) : Option Nat → Option Ty
  | none => some T.type
  | some i => T.bound[i]?.map Prod.snd

/-- The type at a site. -/
def typeAt? (T : TypedTerm) (σ : Site) : Option Ty :=
  (T.at? σ.path).bind fun n => n.slotType? σ.slot

/-- The tree has each variable at its site. -/
def Carries (T : TypedTerm) (record : List (Site × Int)) : Prop :=
  ∀ e ∈ record, T.typeAt? e.1 = some (.var e.2)

variable {i k : Nat} {Ts : List TypedTerm} {τs : List Ty} {record record' : List (Site × Int)}

/-- A tree carries two records exactly if it carries both. -/
theorem carries_append {T : TypedTerm} :
    T.Carries (record ++ record') ↔ T.Carries record ∧ T.Carries record' :=
  List.forall_mem_append

/-- However the tree goes on, it carries the variables if its children from a number on are the
given ones. -/
def CarriedFrom (k : Nat) (Ts : List TypedTerm) (record : List (Site × Int)) : Prop :=
  ∀ T : TypedTerm, (∀ i C, Ts[i]? = some C → T.children[k + i]? = some C) → T.Carries record

/-- What a tree carries it carries as a child, too. -/
theorem Carries.inPart {C : TypedTerm} (h : C.Carries record) (k : Nat) :
    CarriedFrom k [C] (record.map (Prod.map (.inPart k) id)) := by
  intro T hT e he
  obtain ⟨e', he', rfl⟩ := List.mem_map.1 he
  have hC : T.children[k]? = some C := hT 0 C rfl
  have hat : T.typeAt? (e'.1.inPart k) = C.typeAt? e'.1 := by
    simp [typeAt?, Site.inPart, at?, hC]
  exact hat.trans (h e' he')

/-- Children that carry records carry them together. -/
theorem CarriedFrom.cons {T : TypedTerm} (h : CarriedFrom k [T] record)
    (h' : CarriedFrom (k + 1) Ts record') :
    CarriedFrom k (T :: Ts) (record ++ record') := by
  intro U hU
  refine carries_append.2 ⟨h U ?_, h' U ?_⟩
  · intro i C hC
    obtain ⟨rfl, rfl⟩ : i = 0 ∧ T = C := by simpa [List.getElem?_singleton] using hC
    exact hU 0 T rfl
  · intro i C hC
    rw [Nat.add_assoc, Nat.add_comm 1 i]
    exact hU (i + 1) C hC

theorem CarriedFrom.carries (h : CarriedFrom 0 Ts record) (term : Term) (type : Ty)
    (bound : List (Text × Ty)) :
    (node term type Ts bound).Carries record :=
  h _ fun i C hC => by rwa [Nat.zero_add]

/-- The values of a binding group and its body. -/
theorem CarriedFrom.values_body {B : TypedTerm} (h : CarriedFrom 0 Ts record)
    (h' : CarriedFrom Ts.length [B] record') (term : Term) (type : Ty) (bound : List (Text × Ty)) :
    (node term type (Ts ++ [B]) bound).Carries (record ++ record') := by
  refine carries_append.2 ⟨h _ ?_, h' _ ?_⟩
  · intro i C hC
    rw [Nat.zero_add, children, List.getElem?_append_left (List.getElem?_eq_some_iff.1 hC).1, hC]
  · intro i C hC
    obtain ⟨rfl, rfl⟩ : i = 0 ∧ B = C := by simpa [List.getElem?_singleton] using hC
    simp [children]

def BoundFrom (i : Nat) (τs : List Ty) (record : List (Site × Int)) : Prop :=
  ∀ e ∈ record, ∃ j, e.1 = .atRoot (some (i + j)) ∧ τs[j]? = some (.var e.2)

theorem BoundFrom.cons (h : BoundFrom (i + 1) τs record) (τ : Ty) :
    BoundFrom i (τ :: τs) record := by
  intro e he
  obtain ⟨j, hsite, hj⟩ := h e he
  exact ⟨j + 1, by rw [hsite, Nat.add_assoc, Nat.add_comm 1 j], hj⟩

/-- A fresh variable in front is recorded in its slot. -/
theorem BoundFrom.cons_var (h : BoundFrom (i + 1) τs record) (v : Int) :
    BoundFrom i (.var v :: τs) ([(.atRoot (some i), v)] ++ record) := by
  refine List.forall_mem_append.2 ⟨?_, h.cons _⟩
  intro e he
  obtain rfl := List.mem_singleton.1 he
  exact ⟨0, rfl, rfl⟩

/-- What stands among the types of bound names is carried by the node. -/
theorem BoundFrom.carries (h : BoundFrom 0 τs record) {names : List Text}
    (hlen : τs.length = names.length) (term : Term) (type : Ty) (children : List TypedTerm) :
    (node term type children (names.zip τs)).Carries record := by
  intro e he
  obtain ⟨j, hsite, hj⟩ := h e he
  have hsnd : ((names.zip τs)[j]?).map Prod.snd = τs[j]? := by
    rw [← List.getElem?_map, List.map_snd_zip (Nat.le_of_eq hlen)]
  rw [hsite, Nat.zero_add]
  exact hsnd.trans hj

end TypedTerm

/-! ## Generating -/

/-- A binder makes its names known. -/
theorem Scope.contains_extend (Γ : Scope) {names : List Text} {τs : List Ty}
    (hlen : τs.length = names.length) :
    (Γ.extend (names.zip τs)).contains = inside Γ.contains names := by
  funext x
  simp only [Scope.contains, lookup_extend, Option.isSome_or, isSome_lookup_zip hlen, inside]

section Generate

open Walk TypedTerm

variable {known : Text → Bool}

/-- Parameters without an annotation are recorded in their slots. -/
theorem Param.visits_types (i : Nat) (ps : List Param) :
    Visits known (Term.rootStops (Term.openSlots i (ps.map Param.declared)))
      (fun record τs => τs.length = ps.length ∧ BoundFrom i τs record) (Param.types ps) := by
  induction ps generalizing i with
  | nil => exact visits_pure rfl rfl ⟨rfl, fun _ he => by cases he⟩
  | cons p ps ih =>
      rcases p with ⟨x, declared⟩
      cases declared with
      | some a =>
          refine (ih (i + 1)).last ?_
          rintro record τs ⟨hlen, hbound⟩
          exact ⟨by simp [hlen], hbound.cons a⟩
      | none =>
          refine Visits.bind (visits_fresh (some i)) ?_
          rintro _ _ ⟨v, rfl, rfl⟩
          refine (ih (i + 1)).last ?_
          rintro record τs ⟨hlen, hbound⟩
          exact ⟨by simp [hlen], hbound.cons_var v⟩

/-- Fresh variables for all names are recorded in their slots. -/
theorem Walk.visits_freshAll {α : Type} (i : Nat) (as : List α) :
    Visits known (Term.rootStops (Term.openSlots i (as.map fun _ => none)))
      (fun record τs => τs.length = as.length ∧ BoundFrom i τs record) (freshAll as) := by
  induction as generalizing i with
  | nil => exact visits_pure rfl rfl ⟨rfl, fun _ he => by cases he⟩
  | cons a as ih =>
      refine Visits.bind (visits_fresh (some i)) ?_
      rintro _ _ ⟨v, rfl, rfl⟩
      refine (ih (i + 1)).last ?_
      rintro record τs ⟨hlen, hbound⟩
      exact ⟨by simp [hlen], hbound.cons_var v⟩

namespace Term

def WalkVisits (t : Term) : Prop :=
  ∀ Γ : Scope, Visits Γ.contains t.itinerary (fun record g => g.trees.Carries record) (generate Γ t)

/-- The walk over a part, in a scope with the names that are bound over the part. -/
theorem WalkVisits.part {t : Term} (ht : WalkVisits t) {Γ : Scope} {names : List Text}
    (hΓ : Γ.contains = inside known names) (k : Nat) :
    Visits known (t.itinerary.map (.inPart k names))
      (fun record g => CarriedFrom k [g.trees] record)
      (generate Γ t) := by
  have hvisits := ht Γ
  rw [hΓ] at hvisits
  exact hvisits.inPart k fun record g hg => hg.inPart k

/-- The walk over parts visits their itineraries, one after the other. -/
theorem visits_generateAll {ts : List Term} (hts : ∀ t ∈ ts, WalkVisits t) (Γ : Scope) (k : Nat) :
    Visits Γ.contains (itineraryAll k ts) (fun record g => CarriedFrom k g.trees record)
      (generateAll Γ ts) := by
  induction ts generalizing k with
  | nil => exact visits_pure rfl rfl fun _ _ _ he => by cases he
  | cons t ts ih =>
      refine Visits.bind ((hts t (by simp)).part (inside_nil _).symm k) ?_
      intro record g hg
      refine (ih (fun u hu => hts u (by simp [hu])) (k + 1)).last ?_
      intro record' gs hgs
      exact hg.cons hgs

theorem visits_generateValues {bs : List (Binding Term)} (origin : Term)
    (hbs : ∀ x ∈ bs, WalkVisits x.value) (Γ : Scope) (k : Nat) :
    Visits Γ.contains (itineraryBindings [] k bs)
      (fun record g => g.trees.length = bs.length ∧ CarriedFrom k g.trees record)
        (generateValues Γ origin bs) := by
  induction bs generalizing k with
  | nil => exact visits_pure rfl rfl ⟨rfl, fun _ _ _ he => by cases he⟩
  | cons x bs ih =>
      refine Visits.bind ((hbs x (by simp)).part (inside_nil _).symm k) ?_
      intro record g hg
      refine (ih (fun y hy => hbs y (by simp [hy])) (k + 1)).last ?_
      rintro record' gs ⟨hlen, hgs⟩
      exact ⟨by simp [hlen], hg.cons hgs⟩

/-- The values of a `letrec` are visited with its names in scope. -/
theorem visits_generateRecursive {bs : List (Binding Term)} (origin : Term) {places : List Ty}
    (hlen : places.length = bs.length) (hbs : ∀ x ∈ bs, WalkVisits x.value) {Γ : Scope}
    {names : List Text} (hΓ : Γ.contains = inside known names) (k : Nat) :
    Visits known (itineraryBindings names k bs)
      (fun record g => g.trees.length = bs.length ∧ CarriedFrom k g.trees record)
      (generateRecursive Γ origin places bs) := by
  induction bs generalizing k places with
  | nil => exact visits_pure rfl rfl ⟨rfl, fun _ _ _ he => by cases he⟩
  | cons x bs ih =>
      cases places with
      | nil => simp at hlen
      | cons place places =>
          refine Visits.bind ((hbs x (by simp)).part hΓ k) ?_
          intro record g hg
          refine (ih (by simpa using hlen) (fun y hy => hbs y (by simp [hy])) (k + 1)).last ?_
          rintro record' gs ⟨hlen', hgs⟩
          exact ⟨by simp [hlen'], hg.cons hgs⟩

/-- The walk over a term follows its itinerary. -/
theorem visits_generate (t : Term) : WalkVisits t := by
  induction t using Term.induct with
  | hole => exact fun Γ => visits_throw rfl
  | lit v => exact fun Γ => visits_pure rfl rfl fun _ he => by cases he
  | var x =>
      intro Γ
      cases hx : Γ.lookup x with
      | none =>
          have hfault : (Stop.name x []).fault? Γ.contains = some (.unbound x) := by
            simp [Stop.fault?, inside, Scope.contains, hx]
          simp only [generate, hx]
          exact visits_throw hfault
      | some τ =>
          have hclean : Stop.firstFault? Γ.contains [.name x []] = none := by
            simp [Stop.firstFault?, Stop.fault?, inside, Scope.contains, hx]
          simp only [generate, hx]
          exact visits_pure hclean rfl fun _ he => by cases he
  | cond c t e ihc iht ihe =>
      intro Γ
      refine Visits.bind (ihc.part (inside_nil _).symm 0) ?_
      intro rc gc hc
      refine Visits.bind (iht.part (inside_nil _).symm 1) ?_
      intro rt gt ht
      refine (ihe.part (inside_nil _).symm 2).last ?_
      intro re ge he
      exact (hc.cons (ht.cons he)).carries _ _ _
  | binop op l r ihl ihr =>
      intro Γ
      -- The operands are walked over in the same way for all operators.
      refine Visits.bind (ihl.part (inside_nil _).symm 0) ?_
      intro rl gl hl
      cases op.signature? with
      | none =>
          refine (ihr.part (inside_nil _).symm 1).last ?_
          intro rr gr hr
          exact (hl.cons hr).carries _ _ _
      | some signature =>
          refine (ihr.part (inside_nil _).symm 1).last ?_
          intro rr gr hr
          exact (hl.cons hr).carries _ _ _
  | lam ps b ihb =>
      intro Γ
      refine Visits.bind (Param.visits_types 0 ps) ?_
      rintro rp τs ⟨hlen, hp⟩
      have hnames : τs.length = (ps.map Param.name).length := by simpa using hlen
      refine (ihb.part (Γ.contains_extend hnames) 0).last ?_
      intro rb gb hb
      exact carries_append.2 ⟨hp.carries hnames _ _ _, hb.carries _ _ _⟩
  | app f args ihf ihargs =>
      intro Γ
      refine Visits.bind (ihf.part (inside_nil _).symm 0) ?_
      intro rf gf hf
      refine Visits.bind (visits_generateAll ihargs Γ 1) ?_
      intro ra ga ha
      refine (visits_fresh none).last ?_
      rintro _ _ ⟨v, rfl, rfl⟩
      -- The variable of the result stands at the root, the others stand in the parts.
      rw [← List.append_assoc]
      refine carries_append.2 ⟨(hf.cons ha).carries _ _ _, ?_⟩
      intro e he
      obtain rfl := List.mem_singleton.1 he
      rfl
  | letIn bs b ihbs ihb =>
      intro Γ
      refine Visits.bind (visits_generateValues (.letIn bs b) ihbs Γ 0) ?_
      rintro rv gv ⟨hlen, hv⟩
      have hnames : (gv.trees.map TypedTerm.type).length = (bs.map Binding.name).length := by
        simpa using hlen
      refine (ihb.part (Γ.contains_extend hnames) bs.length).last ?_
      intro rb gb hb
      rw [← hlen] at hb
      exact hv.values_body hb _ _ _
  | letRec bs b ihbs ihb =>
      intro Γ
      refine Visits.bind (visits_freshAll 0 bs) ?_
      rintro rp places ⟨hplaces, hp⟩
      have hnames : places.length = (bs.map Binding.name).length := by simpa using hplaces
      -- Values and body are walked over in one scope, with all names in it.
      have hΓ := Γ.contains_extend hnames
      refine Visits.bind (visits_generateRecursive (.letRec bs b) hplaces ihbs hΓ 0) ?_
      rintro rv gv ⟨hlen, hv⟩
      refine (ihb.part hΓ bs.length).last ?_
      intro rb gb hb
      rw [← hlen] at hb
      exact carries_append.2 ⟨hp.carries hnames _ _ _, hv.values_body hb _ _ _⟩

end Term

end Generate

end Monotype
