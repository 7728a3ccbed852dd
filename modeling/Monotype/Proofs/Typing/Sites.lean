import Mathlib.Algebra.BigOperators.Group.List.Basic
import Mathlib.Algebra.GroupWithZero.Nat
import Mathlib.Data.List.Flatten
import Mathlib.Data.List.Nodup
import Monotype.Proofs.Typing.Alpha
import Monotype.Proofs.Typing.Parts

/-!
# Sites of type variables

Three things in a term get a type variable of their own: a parameter without an annotation, the
result of an application, and a name of a `letrec`, annotated or not.  A site is one of these, told
by the path to its node and by its slot there; `Term.IsSite` says so in terms of what stands at the
path.

`Term.itinerary` lists what a walk over the term comes across: the sites, and the leaves that may be
faults of scope.  The order matters.  A binder takes its variables before its parts are looked at,
and an application takes its variable after them.  As the rules of the walk are not mentioned here,
this is what the walk is held against.

* The sites on the itinerary are those of the term, each once (`Term.mem_sites_iff`,
  `Term.nodup_sites`).
* They are counted by a sum over all subterms (`Term.length_sites`).
-/

namespace Monotype

namespace Term

/-! ## Sums over subterms -/

mutual

/-- All subterms in source order, the term itself first; one that stands in several places is listed
for each. -/
def subterms : Term → List Term
  | .hole => [.hole]
  | .lit v => [.lit v]
  | .var x => [.var x]
  | .cond c t e => .cond c t e :: (subterms c ++ (subterms t ++ subterms e))
  | .binop op l r => .binop op l r :: (subterms l ++ subterms r)
  | .lam ps b => .lam ps b :: subterms b
  | .app f args => .app f args :: (subterms f ++ subtermsAll args)
  | .letIn bs b => .letIn bs b :: (subtermsBindings bs ++ subterms b)
  | .letRec bs b => .letRec bs b :: (subtermsBindings bs ++ subterms b)

def subtermsAll : List Term → List Term
  | [] => []
  | t :: ts => subterms t ++ subtermsAll ts

def subtermsBindings : List (Binding Term) → List Term
  | [] => []
  | ⟨_, _, v⟩ :: bs => subterms v ++ subtermsBindings bs

end

theorem subtermsAll_eq (ts : List Term) : subtermsAll ts = ts.flatMap subterms := by
  induction ts with
  | nil => rfl
  | cons t ts ih => simp [subtermsAll, ih]

theorem subtermsBindings_eq (bs : List (Binding Term)) :
    subtermsBindings bs = bs.flatMap fun x => x.value.subterms := by
  induction bs with
  | nil => rfl
  | cons x bs ih => simp [subtermsBindings, ih]

/-- The subterms of a term are the term itself and those of its parts. -/
theorem subterms_eq (t : Term) : t.subterms = t :: t.parts.flatMap fun p => p.2.subterms := by
  cases t with
  | hole | lit _ | var _ | cond _ _ _ | binop _ _ _ | lam _ _ => simp [subterms, parts]
  | app _ _ => simp [subterms, parts, subtermsAll_eq, List.flatMap_map]
  | letIn _ _ | letRec _ _ => simp [subterms, parts, subtermsBindings_eq, List.flatMap_map]

def total (f : Term → Nat) (t : Term) : Nat := (t.subterms.map f).sum

/-- A sum over all subterms is the root's share and the sums of the parts. -/
theorem total_eq (f : Term → Nat) (t : Term) :
    t.total f = f t + (t.parts.map fun p => p.2.total f).sum := by
  rw [total, subterms_eq, List.map_cons, List.sum_cons, List.map_flatMap, List.flatMap_def,
    List.sum_flatten, List.map_map]
  rfl

/-- What is counted part by part is a sum over all subterms. -/
theorem eq_total {F f : Term → Nat} (h : ∀ t, F t = f t + (t.parts.map fun p => F p.2).sum)
    (t : Term) :
    F t = t.total f := by
  induction t using induct_parts with
  | h t ih => rw [h, total_eq, List.map_congr_left ih]

def bareParams : Term → Nat
  | .lam ps _ => ps.countP fun p => p.declared.isNone
  | _ => 0

def applications : Term → Nat
  | .app _ _ => 1
  | _ => 0

def recursiveNames : Term → Nat
  | .letRec bs _ => bs.length
  | _ => 0

/-- The number of variables that typing a term takes. -/
def demand (t : Term) : Nat := t.total bareParams + t.total applications + t.total recursiveNames

end Term

/-! ## Sites -/

/-- Something in a term that gets a type variable of its own. -/
structure Site where
  path : List Nat
  -- A position among the names that the node binds, or none for the result of the node.
  slot : Option Nat
  deriving DecidableEq, Repr

def Site.inPart (k : Nat) (σ : Site) : Site := ⟨k :: σ.path, σ.slot⟩

def Site.atRoot (slot : Option Nat) : Site := ⟨[], slot⟩

theorem Site.inPart_injective (k : Nat) : Function.Injective (Site.inPart k) := by
  rintro ⟨path, slot⟩ ⟨path', slot'⟩ h
  simpa [inPart] using h

namespace Term

/-- The slots for which the root takes variables. -/
inductive Opens : Term → Option Nat → Prop where
  | param {ps : List Param} {b : Term} {i : Nat} {x : Text} (h : ps[i]? = some ⟨x, none⟩) :
      Opens (.lam ps b) (some i)
  | result (f : Term) (args : List Term) : Opens (.app f args) none
  | recursive {bs : List (Binding Term)} {b : Term} {i : Nat} (h : i < bs.length) :
      Opens (.letRec bs b) (some i)

/-- The term that stands at the path takes a variable for the slot. -/
def IsSite (t : Term) (σ : Site) : Prop :=
  ∃ bound u, locate? σ.path t = some (bound, u) ∧ Opens u σ.slot

/-- The sites at the root are the slots that it opens. -/
theorem isSite_atRoot {t : Term} {slot : Option Nat} : t.IsSite (.atRoot slot) ↔ Opens t slot := by
  simp [IsSite, Site.atRoot, locate?]

/-- The other sites are those of the parts. -/
theorem isSite_inPart {t : Term} {k : Nat} {σ : Site} :
    t.IsSite (σ.inPart k) ↔ ∃ part, t.parts[k]? = some part ∧ part.2.IsSite σ := by
  constructor
  · rintro ⟨bound, u, hfound, hopens⟩
    obtain ⟨names, v, inner, hpart, hfound, _⟩ := locate?_cons.1 hfound
    exact ⟨(names, v), hpart, inner, u, hfound, hopens⟩
  · rintro ⟨⟨names, v⟩, hpart, inner, u, hfound, hopens⟩
    exact ⟨names ++ inner, u, locate?_cons.2 ⟨names, v, inner, hpart, hfound, rfl⟩, hopens⟩

def openSlots : Nat → List (Option Ty) → List (Option Nat)
  | _, [] => []
  | i, none :: ds => some i :: openSlots (i + 1) ds
  | i, some _ :: ds => openSlots (i + 1) ds

/-- The open slots are the positions without an annotation. -/
theorem mem_openSlots {i : Nat} {ds : List (Option Ty)} {slot : Option Nat} :
    slot ∈ openSlots i ds ↔ ∃ j, ds[j]? = some none ∧ slot = some (i + j) := by
  induction ds generalizing i with
  | nil => simp [openSlots]
  | cons d ds ih =>
      -- The position is the first one or one after it.
      have hsplit : (∃ j, (d :: ds)[j]? = some none ∧ slot = some (i + j)) ↔
          (d = none ∧ slot = some i) ∨ ∃ j, ds[j]? = some none ∧ slot = some (i + 1 + j) := by
        constructor
        · rintro ⟨_ | j, hj, hslot⟩
          · exact Or.inl ⟨by simpa using hj, hslot⟩
          · exact Or.inr ⟨j, by simpa using hj, by rw [hslot]; congr 1; omega⟩
        · rintro (⟨rfl, hslot⟩ | ⟨j, hj, hslot⟩)
          · exact ⟨0, by simp, hslot⟩
          · exact ⟨j + 1, by simpa using hj, by rw [hslot]; congr 1; omega⟩
      rw [hsplit, ← ih]
      cases d <;> simp [openSlots]

theorem nodup_openSlots (i : Nat) (ds : List (Option Ty)) : (openSlots i ds).Nodup := by
  induction ds generalizing i with
  | nil => exact List.nodup_nil
  | cons d ds ih =>
      cases d with
      | some _ => exact ih (i + 1)
      | none =>
          refine List.nodup_cons.2 ⟨?_, ih (i + 1)⟩
          intro hmem
          obtain ⟨j, _, hslot⟩ := mem_openSlots.1 hmem
          have heq : i = i + 1 + j := Option.some.inj hslot
          omega

theorem length_openSlots (i : Nat) (ds : List (Option Ty)) :
    (openSlots i ds).length = ds.countP Option.isNone := by
  induction ds generalizing i with
  | nil => rfl
  | cons d ds ih => cases d <;> simp [openSlots, ih]

def slotsBefore : Term → List (Option Nat)
  | .lam ps _ => openSlots 0 (ps.map Param.declared)
  | .letRec bs _ => openSlots 0 (bs.map fun _ => none)
  | _ => []

def slotsAfter : Term → List (Option Nat)
  | .app _ _ => [none]
  | _ => []

/-- The slots in the order of the walk are those that the root opens. -/
theorem mem_slots_iff {t : Term} {slot : Option Nat} :
    slot ∈ t.slotsBefore ++ t.slotsAfter ↔ Opens t slot := by
  constructor
  · intro h
    cases t with
    | lam ps b =>
        obtain ⟨i, hi, rfl⟩ := mem_openSlots.1 (by simpa [slotsBefore, slotsAfter] using h)
        rw [List.getElem?_map, Option.map_eq_some_iff] at hi
        obtain ⟨⟨x, declared⟩, hp, rfl⟩ := hi
        rw [Nat.zero_add]
        exact .param hp
    | letRec bs b =>
        obtain ⟨i, hi, rfl⟩ := mem_openSlots.1 (by simpa [slotsBefore, slotsAfter] using h)
        have hlt : i < bs.length := by simpa using (List.getElem?_eq_some_iff.1 hi).1
        rw [Nat.zero_add]
        exact .recursive hlt
    | app f args =>
        obtain rfl : slot = none := by simpa [slotsBefore, slotsAfter] using h
        exact .result f args
    | hole | lit _ | var _ | cond _ _ _ | binop _ _ _ | letIn _ _ =>
        simp [slotsBefore, slotsAfter] at h
  · intro h
    cases h with
    | param hi =>
        refine List.mem_append_left _ (mem_openSlots.2 ⟨_, ?_, by rw [Nat.zero_add]⟩)
        rw [List.getElem?_map, hi]
        rfl
    | result f args => simp [slotsAfter]
    | recursive hi =>
        refine List.mem_append_left _ (mem_openSlots.2 ⟨_, ?_, by rw [Nat.zero_add]⟩)
        rw [List.getElem?_map, List.getElem?_eq_getElem hi]
        rfl

/-- No slot of the root comes up twice. -/
theorem nodup_slots (t : Term) : (t.slotsBefore ++ t.slotsAfter).Nodup := by
  cases t with
  | lam ps b => simpa [slotsBefore, slotsAfter] using nodup_openSlots 0 _
  | letRec bs b => simpa [slotsBefore, slotsAfter] using nodup_openSlots 0 _
  | hole | lit _ | var _ | cond _ _ _ | binop _ _ _ | app _ _ | letIn _ _ =>
      simp [slotsBefore, slotsAfter]

/-- The slots of the root, counted: parameters without annotations, applications and recursive
names. -/
theorem length_slots (t : Term) :
    (t.slotsBefore ++ t.slotsAfter).length = t.bareParams + t.applications + t.recursiveNames := by
  cases t with
  | lam ps b =>
      simp [slotsBefore, slotsAfter, length_openSlots, bareParams, applications, recursiveNames,
        List.countP_map, Function.comp_def]
  | letRec bs b =>
      simp [slotsBefore, slotsAfter, length_openSlots, bareParams, applications, recursiveNames,
        List.countP_replicate]
  | hole | lit _ | var _ | cond _ _ _ | binop _ _ _ | app _ _ | letIn _ _ =>
      simp [slotsBefore, slotsAfter, bareParams, applications, recursiveNames]

end Term

/-! ## Itineraries -/

/-- Something that a walk comes across. -/
inductive Stop where
  | site (σ : Site)
  -- A variable, which is looked up; the names are those that are bound over it on the way.
  | name (x : Text) (bound : List Text)
  | hole

namespace Stop

/-- The stop in a part, as a stop in the whole; the names are those that the whole binds over the
part. -/
def inPart (k : Nat) (names : List Text) : Stop → Stop
  | .site σ => .site (σ.inPart k)
  | .name x bound => .name x (names ++ bound)
  | .hole => .hole

def site? : Stop → Option Site
  | .site σ => some σ
  | .name _ _ => none
  | .hole => none

/-- A site of a part is a site of the whole. -/
theorem site?_inPart (k : Nat) (names : List Text) (stop : Stop) :
    (stop.inPart k names).site? = stop.site?.map (.inPart k) := by
  cases stop <;> rfl

/-- The fault that the stop is, if it is one; `known` tells the names that are in scope outside. -/
def fault? (known : Text → Bool) : Stop → Option ScopeFault
  | .site _ => none
  | .name x bound => if inside known bound x then none else some (.unbound x)
  | .hole => some .hole

end Stop

namespace Term

def rootStops (slots : List (Option Nat)) : List Stop := slots.map fun slot => .site (.atRoot slot)

mutual

/-- What a walk over the term comes across, in order. -/
def itinerary : Term → List Stop
  | .hole => [.hole]
  | .lit _ => []
  | .var x => [.name x []]
  | .cond c t e =>
      (itinerary c).map (.inPart 0 []) ++
        ((itinerary t).map (.inPart 1 []) ++ (itinerary e).map (.inPart 2 []))
  | .binop _ l r => (itinerary l).map (.inPart 0 []) ++ (itinerary r).map (.inPart 1 [])
  | .lam ps b =>
      rootStops (openSlots 0 (ps.map Param.declared)) ++
        (itinerary b).map (.inPart 0 (ps.map Param.name))
  | .app f args => (itinerary f).map (.inPart 0 []) ++ (itineraryAll 1 args ++ rootStops [none])
  | .letIn bs b =>
      itineraryBindings [] 0 bs ++ (itinerary b).map (.inPart bs.length (bs.map Binding.name))
  -- All names get their variables first, since they are in scope in all values.
  | .letRec bs b =>
      rootStops (openSlots 0 (bs.map fun _ => none)) ++
        (itineraryBindings (bs.map Binding.name) 0 bs ++
          (itinerary b).map (.inPart bs.length (bs.map Binding.name)))

def itineraryAll (k : Nat) : List Term → List Stop
  | [] => []
  | t :: ts => (itinerary t).map (.inPart k []) ++ itineraryAll (k + 1) ts

def itineraryBindings (names : List Text) (k : Nat) : List (Binding Term) → List Stop
  | [] => []
  | ⟨_, _, v⟩ :: bs => (itinerary v).map (.inPart k names) ++ itineraryBindings names (k + 1) bs

end

/-- An itinerary goes through the parts one after the other. -/
theorem itineraryAll_eq (k : Nat) (ts : List Term) :
    itineraryAll k ts = (ts.zipIdx k).flatMap fun p => p.1.itinerary.map (.inPart p.2 []) := by
  induction ts generalizing k with
  | nil => rfl
  | cons t ts ih => simp [itineraryAll, ih]

theorem itineraryBindings_eq (names : List Text) (k : Nat) (bs : List (Binding Term)) :
    itineraryBindings names k bs = (bs.zipIdx k).flatMap
      fun p => p.1.value.itinerary.map (.inPart p.2 names) := by
  induction bs generalizing k with
  | nil => rfl
  | cons x bs ih => simp [itineraryBindings, ih]

/-- The sites of a term, in the order in which they are come across. -/
def sites (t : Term) : List Site := t.itinerary.filterMap Stop.site?

theorem filterMap_site?_rootStops (slots : List (Option Nat)) :
    (rootStops slots).filterMap Stop.site? = slots.map .atRoot := by
  simp [rootStops, List.filterMap_map, Function.comp_def, Stop.site?]

/-- The sites, part by part. -/
theorem sites_eq (t : Term) :
    t.sites = t.slotsBefore.map .atRoot ++
      ((t.parts.zipIdx.flatMap fun p => p.1.2.sites.map (.inPart p.2)) ++
        t.slotsAfter.map .atRoot) := by
  cases t with
  | hole | lit _ | var _ => rfl
  | cond c t e =>
      simp [sites, itinerary, parts, slotsBefore, slotsAfter, Stop.site?_inPart, List.map_filterMap]
  | binop op l r =>
      simp [sites, itinerary, parts, slotsBefore, slotsAfter, Stop.site?_inPart, List.map_filterMap]
  | lam ps b =>
      simp [sites, itinerary, parts, slotsBefore, slotsAfter, Stop.site?_inPart, List.map_filterMap,
        filterMap_site?_rootStops]
  | app f args =>
      simp [sites, itinerary, parts, slotsBefore, slotsAfter, Stop.site?_inPart, List.map_filterMap,
        filterMap_site?_rootStops, itineraryAll_eq, List.filterMap_flatMap, List.zipIdx_map,
        List.flatMap_map]
  | letIn bs b =>
      simp [sites, itinerary, parts, slotsBefore, slotsAfter, Stop.site?_inPart, List.map_filterMap,
        itineraryBindings_eq, List.filterMap_flatMap, List.zipIdx_append, List.zipIdx_map,
        List.flatMap_map]
  | letRec bs b =>
      simp [sites, itinerary, parts, slotsBefore, slotsAfter, Stop.site?_inPart, List.map_filterMap,
        filterMap_site?_rootStops, itineraryBindings_eq, List.filterMap_flatMap, List.zipIdx_append,
        List.zipIdx_map, List.flatMap_map]

/-! ## The sites of a term -/

/-- Up to their order, the sites are those of the root and those of the parts. -/
theorem perm_sites (t : Term) :
    t.sites.Perm ((t.slotsBefore ++ t.slotsAfter).map .atRoot ++
      t.parts.zipIdx.flatMap fun p => p.1.2.sites.map (.inPart p.2)) := by
  rw [sites_eq t, List.map_append, List.append_assoc]
  exact List.perm_append_comm.append_left _

/-- A site stands at the root or in a part. -/
theorem mem_sites_cases {t : Term} {σ : Site} :
    σ ∈ t.sites ↔ (∃ slot, Opens t slot ∧ σ = .atRoot slot) ∨
      ∃ (k : Nat) (part : List Text × Term) (σ' : Site),
        t.parts[k]? = some part ∧ σ' ∈ part.2.sites ∧ σ = σ'.inPart k := by
  simp only [(perm_sites t).mem_iff, ← mem_slots_iff, List.mem_append, List.mem_map,
    List.mem_flatMap, Prod.exists, List.mem_zipIdx_iff_getElem?]
  grind

/-- What the walk takes variables for are exactly the sites of the term. -/
theorem mem_sites_iff {t : Term} {σ : Site} : σ ∈ t.sites ↔ t.IsSite σ := by
  induction t using induct_parts generalizing σ with
  | h t ih =>
      rw [mem_sites_cases]
      -- A path is empty at the root; otherwise it begins with the number of a part.
      rcases σ with ⟨_ | ⟨k, path⟩, slot⟩
      · have hroot : t.IsSite ⟨[], slot⟩ ↔ Opens t slot := isSite_atRoot
        rw [hroot]
        constructor
        · rintro (⟨slot', hopens, heq⟩ | ⟨k, part, σ', _, _, heq⟩)
          · cases heq
            exact hopens
          · cases heq
        · intro hopens
          exact Or.inl ⟨slot, hopens, rfl⟩
      · have hbelow : t.IsSite ⟨k :: path, slot⟩ ↔
            ∃ part, t.parts[k]? = some part ∧ part.2.IsSite ⟨path, slot⟩ :=
          isSite_inPart (σ := ⟨path, slot⟩)
        rw [hbelow]
        constructor
        · rintro (⟨slot', _, heq⟩ | ⟨k', part, σ', hpart, hσ', heq⟩)
          · cases heq
          · cases heq
            exact ⟨part, hpart, (ih part (List.mem_of_getElem? hpart)).1 hσ'⟩
        · rintro ⟨part, hpart, hsite⟩
          exact Or.inr ⟨k, part, ⟨path, slot⟩, hpart,
            (ih part (List.mem_of_getElem? hpart)).2 hsite, rfl⟩

/-- The sites of different parts differ in the number of the part. -/
theorem nodup_partSites {parts : List (List Text × Term)} (h : ∀ p ∈ parts, p.2.sites.Nodup) :
    (parts.zipIdx.flatMap fun p => p.1.2.sites.map (Site.inPart p.2)).Nodup := by
  rw [List.nodup_flatMap]
  constructor
  · rintro ⟨part, k⟩ hmem
    have hpart : part ∈ parts := List.mem_of_getElem? (List.mem_zipIdx_iff_getElem?.1 hmem)
    exact (h part hpart).map (Site.inPart_injective k)
  · have hnumbers : List.Pairwise (fun p q => p.2 < q.2) parts.zipIdx := by
      rw [← List.pairwise_map, List.zipIdx_map_snd]
      exact List.pairwise_lt_range'
    refine hnumbers.imp ?_
    rintro ⟨part, k⟩ ⟨part', k'⟩ hlt σ hσ hσ'
    obtain ⟨τ, _, rfl⟩ := List.mem_map.1 hσ
    obtain ⟨τ', _, heq⟩ := List.mem_map.1 hσ'
    have hk : k' = k := (List.cons.inj (congrArg Site.path heq)).1
    exact absurd hlt (by simp [hk])

/-- The walk comes across every site once. -/
theorem nodup_sites (t : Term) : t.sites.Nodup := by
  induction t using induct_parts with
  | h t ih =>
      rw [(perm_sites t).nodup_iff]
      have hroot : ((t.slotsBefore ++ t.slotsAfter).map Site.atRoot).Nodup :=
        (nodup_slots t).map fun _ _ h => congrArg Site.slot h
      refine hroot.append (nodup_partSites ih) ?_
      -- The sites of the root have the empty path, those of a part start with its number.
      intro σ hσ hσ'
      obtain ⟨slot, _, rfl⟩ := List.mem_map.1 hσ
      obtain ⟨p, _, hp⟩ := List.mem_flatMap.1 hσ'
      obtain ⟨τ, _, heq⟩ := List.mem_map.1 hp
      cases heq

/-- A term has as many sites as it has parameters without annotations, applications and recursive
names. -/
theorem length_sites (t : Term) : t.sites.length = t.demand := by
  have hparts : ∀ u : Term, u.sites.length =
      (u.bareParams + u.applications + u.recursiveNames) +
        (u.parts.map fun p => p.2.sites.length).sum := by
    intro u
    -- The numbers of the parts do not count.
    have hnumbers : (u.parts.zipIdx.map fun p => p.1.2.sites.length) =
        u.parts.map fun p => p.2.sites.length := by
      have hfst := congrArg (List.map fun p => p.2.sites.length) (List.zipIdx_map_fst 0 u.parts)
      rwa [List.map_map] at hfst
    rw [(perm_sites u).length_eq, List.length_append, List.length_map, length_slots]
    simp only [List.length_flatMap, List.length_map, hnumbers]
  rw [eq_total hparts t, demand]
  simp only [total, List.sum_map_add]

/-! ## Pruned terms -/

theorem slotsBefore_prune (n : Nat) (t : Term) : (t.prune (n + 1)).slotsBefore = t.slotsBefore := by
  cases t with
  | letRec bs b => simp [prune, slotsBefore, List.map_const', length_pruneBindings]
  | _ => rfl

theorem slotsAfter_prune (n : Nat) (t : Term) : (t.prune (n + 1)).slotsAfter = t.slotsAfter := by
  cases t <;> rfl

/-- Pruning goes down into the parts. -/
theorem parts_prune (n : Nat) (t : Term) :
    (t.prune (n + 1)).parts = t.parts.map fun p => (p.1, p.2.prune n) := by
  have hvalues : ∀ (names : List Text) (bs : List (Binding Term)),
      (pruneBindings n bs).map (fun x => (names, x.value)) =
        bs.map fun x => (names, x.value.prune n) := by
    intro names bs
    have hmap := congrArg (List.map fun v => (names, v)) (map_value_pruneBindings n bs)
    simpa [Function.comp_def] using hmap
  cases t with
  | hole | lit _ | var _ | cond _ _ _ | binop _ _ _ | lam _ _ => rfl
  | app f args => simp [prune, parts, pruneAll_eq, Function.comp_def]
  | letIn bs b => simp [prune, parts, hvalues, map_name_pruneBindings, Function.comp_def]
  | letRec bs b => simp [prune, parts, hvalues, map_name_pruneBindings, Function.comp_def]

/-- Pruning a term takes sites away and moves none. -/
theorem sites_prune_sublist (n : Nat) (t : Term) : (t.prune n).sites.Sublist t.sites := by
  induction t using induct_parts generalizing n with
  | h t ih =>
      cases n with
      | zero =>
          have hnone : (t.prune 0).sites = [] := by
            rw [prune]
            rfl
          rw [hnone]
          exact List.nil_sublist _
      | succ n =>
          rw [sites_eq, sites_eq t, slotsBefore_prune, slotsAfter_prune, parts_prune,
            List.zipIdx_map, List.flatMap_map]
          refine (List.Sublist.flatMap_right _ ?_).append_right _ |>.append_left _
          rintro ⟨part, k⟩ hmem
          have hpart : part ∈ t.parts := List.mem_of_getElem? (List.mem_zipIdx_iff_getElem?.1 hmem)
          exact (ih part hpart n).map _

/-- The sites within the limit are among those of the term, in the same order. -/
theorem sites_visible_sublist (t : Term) : t.visible.sites.Sublist t.sites := by
  rw [visible]
  split
  · exact List.Sublist.refl _
  · exact sites_prune_sublist depthLimit t

end Term

end Monotype
