import Monotype.Proofs.Typing.Walk
import Monotype.Proofs.Unify.Solve

/-!
# Inference within limits

Limits only ever replace an answer by a refusal.  A walk over the part of a term that is within the
depth limit, in the nearest layers of its scope, does what the walk over the whole does until it
meets something that was cut off (`Walk.Tracks`): a hole where a subterm was, or a name whose layer
is not looked at.  Solving within a limit takes the same steps as solving without one until the
limit stops it.

Main statements: within the limits, generating comes to what it comes to without them
(`Term.generateWithin_cases`), and the type is the principal type
(`Term.checkType_eq_principalType`), each unless a limit is reported.
-/

namespace Monotype

open Unify (run_unify)

/-! ## Walks that track each other -/

namespace Walk

variable {α β γ δ : Type} {excuse : ScopeFault → Prop}

/-- What the first walk comes to, the second one comes to as well, with a related result and the
same supply, unless the first one ends in a fault that is excused. -/
structure Tracks (excuse : ScopeFault → Prop) (R : α → β → Prop) (w : Walk α) (w' : Walk β) :
    Prop where
  ok : ∀ {s s' : Supply} {a : α}, w.eval s = (.ok a, s') → ∃ b, w'.eval s = (.ok b, s') ∧ R a b
  error : ∀ {s s' : Supply} {e : ScopeFault}, w.eval s = (.error e, s') → ¬ excuse e →
    w'.eval s = (.error e, s')

/-- A result is tracked by a related one. -/
theorem tracks_pure {R : α → β → Prop} {a : α} {b : β} (h : R a b) :
    Tracks excuse R (pure a) (pure b) where
  ok := by
    intro s s' a' h'
    rcases eval_pure_ok.1 h' with ⟨rfl, rfl⟩
    exact ⟨b, rfl, h⟩
  error := by
    intro s s' e h'
    simp [eval_pure] at h'

/-- A fault is tracked by itself. -/
theorem tracks_throw {R : α → β → Prop} (e : ScopeFault) : Tracks excuse R (throw e) (throw e) where
  ok := fun h => absurd h eval_throw_ok
  error := by
    intro s s' e' h _
    simpa [eval_throw] using h

/-- Anything tracks an excused fault. -/
theorem tracks_throw_of_excuse {R : α → β → Prop} {e : ScopeFault} (he : excuse e) (w : Walk β) :
    Tracks excuse R (throw e) w where
  ok := fun h => absurd h eval_throw_ok
  error := by
    intro s s' e' h hne
    have heq : e = e' ∧ s = s' := by simpa [eval_throw] using h
    exact absurd (heq.1 ▸ he) hne

theorem tracks_rfl {R : α → α → Prop} (h : ∀ a, R a a) (w : Walk α) : Tracks excuse R w w where
  ok := fun {_ _ a} ha => ⟨a, ha, h a⟩
  error := fun he _ => he

/-- One walk after another tracks step by step. -/
theorem Tracks.bind {R : α → β → Prop} {S : γ → δ → Prop} {w : Walk α} {w' : Walk β}
    {f : α → Walk γ} {f' : β → Walk δ} (hw : Tracks excuse R w w')
    (hf : ∀ a b, R a b → Tracks excuse S (f a) (f' b)) : Tracks excuse S (w >>= f) (w' >>= f') where
  ok := by
    intro s s' c h
    obtain ⟨a, s₁, ha, hc⟩ := eval_bind_ok.1 h
    obtain ⟨b, hb, hab⟩ := hw.ok ha
    obtain ⟨d, hd, hcd⟩ := (hf a b hab).ok hc
    exact ⟨d, eval_bind_ok.2 ⟨b, s₁, hb, hd⟩, hcd⟩
  error := by
    intro s s' e h hne
    rcases eval_bind_error.1 h with he | ⟨a, s₁, ha, he⟩
    · exact eval_bind_error.2 (Or.inl (hw.error he hne))
    · obtain ⟨b, hb, hab⟩ := hw.ok ha
      exact eval_bind_error.2 (Or.inr ⟨b, s₁, hb, (hf a b hab).error he hne⟩)

theorem tracks_freshAll {as : List α} {bs : List β} (hlen : as.length = bs.length) :
    Tracks excuse (fun ts us => ts = us ∧ us.length = bs.length) (freshAll as) (freshAll bs) := by
  induction as generalizing bs with
  | nil =>
      cases bs with
      | nil => exact tracks_pure ⟨rfl, rfl⟩
      | cons b bs => simp at hlen
  | cons a as ih =>
      cases bs with
      | nil => simp at hlen
      | cons b bs =>
          refine (tracks_rfl (fun _ => rfl) fresh).bind ?_
          rintro t _ rfl
          refine (ih (by simpa using hlen)).bind ?_
          rintro ts _ ⟨rfl, hts⟩
          exact tracks_pure ⟨rfl, by simp [hts]⟩

end Walk

/-! ## Fewer layers -/

namespace Scope

/-- What the first scope says about a name, the second one says too. -/
def Within (Γ' Γ : Scope) : Prop := ∀ x τ, Γ'.lookup x = some τ → Γ.lookup x = some τ

/-- A new layer is asked first. -/
theorem lookup_extend_layer (Γ : Scope) (bound : List (Text × Ty)) (x : Text) :
    (Γ.extend bound).lookup x = ((OrderedMap.ofList bound).get? x).or (Γ.lookup x) := by
  cases h : (OrderedMap.ofList bound).get? x <;> simp [extend, lookup, h]

/-- A binder keeps one scope within another. -/
theorem Within.extend {Γ' Γ : Scope} (h : Γ'.Within Γ) (bound : List (Text × Ty)) :
    (Γ'.extend bound).Within (Γ.extend bound) := by
  intro x τ hx
  rw [lookup_extend_layer] at hx ⊢
  cases hget : (OrderedMap.ofList bound).get? x with
  | none =>
      rw [hget] at hx
      exact h x τ hx
  | some t =>
      rw [hget] at hx
      exact hx

/-- The innermost layers are part of the scope. -/
theorem nearest_within (n : Nat) (Γ : Scope) : (Γ.nearest n).Within Γ := by
  intro x τ hx
  have hsplit :
      Γ.lookup x = ((Γ.nearest n).lookup x).or ((Γ.layers.drop n).findSome? (·.get? x)) := by
    rw [lookup, lookup, nearest, ← List.findSome?_append, List.take_append_drop]
  rw [hsplit, hx]
  rfl

theorem nearest_eq_self {n : Nat} {Γ : Scope} (h : Γ.layers.length ≤ n) : Γ.nearest n = Γ := by
  simp [nearest, List.take_of_length_le h]

end Scope

namespace Term

open Walk

def IsUnbound (e : ScopeFault) : Prop := ∃ x, e = .unbound x

section FewerLayers

variable {Γ' Γ : Scope}

/-- In a smaller scope a list of terms has the same walk, until a name is missing. -/
theorem tracks_generateAll_within {ts : List Term}
    (hts : ∀ t ∈ ts, Tracks IsUnbound Eq (generate Γ' t) (generate Γ t)) :
    Tracks IsUnbound Eq (generateAll Γ' ts) (generateAll Γ ts) := by
  induction ts with
  | nil => exact tracks_pure rfl
  | cons t ts ih =>
      refine (hts t (by simp)).bind ?_
      rintro t' _ rfl
      refine (ih fun u hu => hts u (by simp [hu])).bind ?_
      rintro ts' _ rfl
      exact tracks_pure rfl

theorem tracks_generateValues_within {bs : List (Binding Term)} (origin : Term)
    (hbs : ∀ x ∈ bs, Tracks IsUnbound Eq (generate Γ' x.value) (generate Γ x.value)) :
    Tracks IsUnbound Eq (generateValues Γ' origin bs) (generateValues Γ origin bs) := by
  induction bs with
  | nil => exact tracks_pure rfl
  | cons x bs ih =>
      refine (hbs x (by simp)).bind ?_
      rintro v' _ rfl
      refine (ih fun y hy => hbs y (by simp [hy])).bind ?_
      rintro bs' _ rfl
      exact tracks_pure rfl

theorem tracks_generateRecursive_within {bs : List (Binding Term)} (origin : Term)
    (places : List Ty)
    (hbs : ∀ x ∈ bs, Tracks IsUnbound Eq (generate Γ' x.value) (generate Γ x.value)) :
    Tracks IsUnbound Eq (generateRecursive Γ' origin places bs)
      (generateRecursive Γ origin places bs) := by
  induction bs generalizing places with
  | nil => exact tracks_pure rfl
  | cons x bs ih =>
      cases places with
      | nil => exact tracks_pure rfl
      | cons place places =>
          refine (hbs x (by simp)).bind ?_
          rintro v' _ rfl
          refine (ih places fun y hy => hbs y (by simp [hy])).bind ?_
          rintro bs' _ rfl
          exact tracks_pure rfl

/-- A walk in a smaller scope does the same until it misses a name. -/
theorem tracks_generate_within (t : Term) (h : Γ'.Within Γ) :
    Tracks IsUnbound Eq (generate Γ' t) (generate Γ t) := by
  -- Only a variable looks into the scope; a binder adds the same layer to both.
  induction t using Term.induct generalizing Γ' Γ with
  | hole => exact tracks_throw _
  | lit v => exact tracks_pure rfl
  | var x =>
      cases hx : Γ'.lookup x with
      | none =>
          simp only [generate, hx]
          exact tracks_throw_of_excuse ⟨x, rfl⟩ _
      | some τ =>
          simp only [generate, hx, h x τ hx]
          exact tracks_pure rfl
  | cond c t e ihc iht ihe =>
      refine (ihc h).bind ?_
      rintro c' _ rfl
      refine (iht h).bind ?_
      rintro t' _ rfl
      refine (ihe h).bind ?_
      rintro e' _ rfl
      exact tracks_pure rfl
  | binop op l r ihl ihr =>
      refine (ihl h).bind ?_
      rintro l' _ rfl
      refine (ihr h).bind ?_
      rintro r' _ rfl
      exact tracks_rfl (fun _ => rfl) _
  | lam ps b ihb =>
      refine (tracks_rfl (fun _ => rfl) (Param.types ps)).bind ?_
      rintro types _ rfl
      refine (ihb (h.extend _)).bind ?_
      rintro b' _ rfl
      exact tracks_pure rfl
  | app f args ihf ihargs =>
      refine (ihf h).bind ?_
      rintro f' _ rfl
      refine (tracks_generateAll_within fun a ha => ihargs a ha h).bind ?_
      rintro args' _ rfl
      exact tracks_rfl (fun _ => rfl) _
  | letIn bs b ihbs ihb =>
      refine (tracks_generateValues_within _ fun x hx => ihbs x hx h).bind ?_
      rintro bs' _ rfl
      refine (ihb (h.extend _)).bind ?_
      rintro b' _ rfl
      exact tracks_pure rfl
  | letRec bs b ihbs ihb =>
      refine (tracks_rfl (fun _ => rfl) (freshAll bs)).bind ?_
      rintro places _ rfl
      refine (tracks_generateRecursive_within _ places fun x hx => ihbs x hx (h.extend _)).bind ?_
      rintro bs' _ rfl
      refine (ihb (h.extend _)).bind ?_
      rintro b' _ rfl
      exact tracks_pure rfl

end FewerLayers

/-! ## Pruned terms -/

section Pruned

def SameTypes (g g' : Generated (List TypedTerm)) : Prop :=
  g.trees.map TypedTerm.type = g'.trees.map TypedTerm.type

theorem length_pruneBindings (n : Nat) (bs : List (Binding Term)) :
    (pruneBindings n bs).length = bs.length := by
  induction bs with
  | nil => rfl
  | cons x bs ih => simp [pruneBindings, ih]

theorem map_name_pruneBindings (n : Nat) (bs : List (Binding Term)) :
    (pruneBindings n bs).map Binding.name = bs.map Binding.name := by
  induction bs with
  | nil => rfl
  | cons x bs ih => simp [pruneBindings, ih]

variable {n : Nat} {Γ : Scope}

/-- The walk over the pruned term does what the walk over the term does until it meets a hole; if it
meets none, nothing was pruned. -/
abbrev PruneTracks (n : Nat) (Γ : Scope) (t : Term) : Prop :=
  Tracks (· = .hole) (fun g g' => g.trees.type = g'.trees.type ∧ t.prune n = t)
    (generate Γ (t.prune n)) (generate Γ t)

/-- Of a term that is pruned at its root nothing is left to track. -/
theorem pruneTracks_zero (Γ : Scope) (t : Term) : PruneTracks 0 Γ t := by
  simp only [PruneTracks, prune, generate]
  exact tracks_throw_of_excuse (by rfl) _

theorem PruneTracks.of_succ {t : Term} (h : ∀ n Γ, PruneTracks (n + 1) Γ t) (n : Nat) (Γ : Scope) :
    PruneTracks n Γ t := by
  cases n with
  | zero => exact pruneTracks_zero Γ t
  | succ n => exact h n Γ

/-- Pruned terms of a list track the terms, one by one. -/
theorem tracks_generateAll_prune {ts : List Term} (hts : ∀ t ∈ ts, PruneTracks n Γ t) :
    Tracks (· = .hole) (fun g g' => SameTypes g g' ∧ pruneAll n ts = ts)
      (generateAll Γ (pruneAll n ts)) (generateAll Γ ts) := by
  induction ts with
  | nil => exact tracks_pure ⟨rfl, rfl⟩
  | cons t ts ih =>
      refine (hts t (by simp)).bind ?_
      rintro t₁ t₂ ⟨htype, hprune⟩
      refine (ih fun u hu => hts u (by simp [hu])).bind ?_
      rintro ts₁ ts₂ ⟨htypes, hprunes⟩
      exact tracks_pure ⟨List.cons_eq_cons.2 ⟨htype, htypes⟩, by rw [pruneAll, hprune, hprunes]⟩

/-- Pruned values of a `let` track the values. -/
theorem tracks_generateValues_prune {bs : List (Binding Term)} (origin origin' : Term)
    (hbs : ∀ x ∈ bs, PruneTracks n Γ x.value) :
    Tracks (· = .hole) (fun g g' => SameTypes g g' ∧ pruneBindings n bs = bs)
      (generateValues Γ origin (pruneBindings n bs)) (generateValues Γ origin' bs) := by
  induction bs with
  | nil => exact tracks_pure ⟨rfl, rfl⟩
  | cons x bs ih =>
      refine (hbs x (by simp)).bind ?_
      rintro v₁ v₂ ⟨htype, hprune⟩
      refine (ih fun y hy => hbs y (by simp [hy])).bind ?_
      rintro bs₁ bs₂ ⟨htypes, hprunes⟩
      exact tracks_pure ⟨List.cons_eq_cons.2 ⟨htype, htypes⟩,
        by rw [pruneBindings, hprune, hprunes]⟩

/-- Pruned values of a `letrec` track the values. -/
theorem tracks_generateRecursive_prune {bs : List (Binding Term)} (origin origin' : Term)
    {places : List Ty} (hlen : places.length = bs.length)
    (hbs : ∀ x ∈ bs, PruneTracks n Γ x.value) :
    Tracks (· = .hole) (fun g g' => SameTypes g g' ∧ pruneBindings n bs = bs)
      (generateRecursive Γ origin places (pruneBindings n bs))
      (generateRecursive Γ origin' places bs) := by
  induction bs generalizing places with
  | nil => exact tracks_pure ⟨rfl, rfl⟩
  | cons x bs ih =>
      cases places with
      | nil => simp at hlen
      | cons place places =>
          refine (hbs x (by simp)).bind ?_
          rintro v₁ v₂ ⟨htype, hprune⟩
          refine (ih (by simpa using hlen) fun y hy => hbs y (by simp [hy])).bind ?_
          rintro bs₁ bs₂ ⟨htypes, hprunes⟩
          exact tracks_pure
            ⟨List.cons_eq_cons.2 ⟨htype, htypes⟩, by rw [pruneBindings, hprune, hprunes]⟩

/-- The walk over a pruned term tracks the walk over the term, up to the first hole. -/
theorem tracks_generate_prune (n : Nat) (Γ : Scope) (t : Term) : PruneTracks n Γ t := by
  -- A level is left in every case, since of a term that is cut off nothing is to be shown.
  refine PruneTracks.of_succ ?_ n Γ
  clear n Γ
  induction t using Term.induct with
  | hole => exact fun n Γ => tracks_throw _
  | lit v => exact fun n Γ => tracks_pure ⟨rfl, rfl⟩
  | var x => exact fun n Γ => tracks_rfl (fun _ => ⟨rfl, rfl⟩) _
  | cond c t e ihc iht ihe =>
      intro n Γ
      refine (PruneTracks.of_succ ihc n Γ).bind ?_
      rintro c₁ c₂ ⟨_, hprunec⟩
      refine (PruneTracks.of_succ iht n Γ).bind ?_
      rintro t₁ t₂ ⟨htype, hprunet⟩
      refine (PruneTracks.of_succ ihe n Γ).bind ?_
      rintro e₁ e₂ ⟨_, hprunee⟩
      exact tracks_pure ⟨htype, by rw [prune, hprunec, hprunet, hprunee]⟩
  | binop op l r ihl ihr =>
      intro n Γ
      refine (PruneTracks.of_succ ihl n Γ).bind ?_
      rintro l₁ l₂ ⟨_, hprunel⟩
      refine (PruneTracks.of_succ ihr n Γ).bind ?_
      rintro r₁ r₂ ⟨_, hpruner⟩
      have hprune : (Term.binop op l r).prune (n + 1) = .binop op l r := by
        rw [prune, hprunel, hpruner]
      cases op.signature? with
      | none => exact tracks_pure ⟨rfl, hprune⟩
      | some signature => exact tracks_pure ⟨rfl, hprune⟩
  | lam ps b ihb =>
      intro n Γ
      refine (tracks_rfl (fun _ => rfl) (Param.types ps)).bind ?_
      rintro types _ rfl
      refine (PruneTracks.of_succ ihb n _).bind ?_
      rintro b₁ b₂ ⟨htype, hprune⟩
      exact tracks_pure ⟨congrArg (Ty.fn types) htype, by rw [prune, hprune]⟩
  | app f args ihf ihargs =>
      intro n Γ
      refine (PruneTracks.of_succ ihf n Γ).bind ?_
      rintro f₁ f₂ ⟨_, hprunef⟩
      refine (tracks_generateAll_prune fun a ha => PruneTracks.of_succ (ihargs a ha) n Γ).bind ?_
      rintro args₁ args₂ ⟨_, hpruneargs⟩
      refine (tracks_rfl (fun _ => rfl) fresh).bind ?_
      rintro result _ rfl
      exact tracks_pure ⟨rfl, by rw [prune, hprunef, hpruneargs]⟩
  | letIn bs b ihbs ihb =>
      intro n Γ
      have hvalues := fun x hx => PruneTracks.of_succ (ihbs x hx) n Γ
      refine (tracks_generateValues_prune _ _ hvalues).bind ?_
      rintro bs₁ bs₂ ⟨htypes, hprunebs⟩
      -- Both bodies stand in the same scope, since names and types of the values are the same.
      simp only [map_name_pruneBindings, show bs₁.trees.map TypedTerm.type = _ from htypes]
      refine (PruneTracks.of_succ ihb n _).bind ?_
      rintro b₁ b₂ ⟨htype, hpruneb⟩
      exact tracks_pure ⟨htype, by rw [prune, hprunebs, hpruneb]⟩
  | letRec bs b ihbs ihb =>
      intro n Γ
      -- As many places are taken for the pruned bindings, so they are the same ones.
      refine (tracks_freshAll (length_pruneBindings n bs)).bind ?_
      rintro places _ ⟨rfl, hlen⟩
      simp only [map_name_pruneBindings]
      have hvalues := fun x hx => PruneTracks.of_succ (ihbs x hx) n
      refine (tracks_generateRecursive_prune _ _ hlen fun x hx => hvalues x hx _).bind ?_
      rintro bs₁ bs₂ ⟨_, hprunebs⟩
      refine (PruneTracks.of_succ ihb n _).bind ?_
      rintro b₁ b₂ ⟨htype, hpruneb⟩
      exact tracks_pure ⟨htype, by rw [prune, hprunebs, hpruneb]⟩

end Pruned

/-! ## Generating within the limits -/

def visible (t : Term) : Term := if t.depth ≤ depthLimit then t else t.prune depthLimit

/-- The walk over what is visible does what the walk over the whole does, except for holes in a deep
term. -/
theorem tracks_generate_visible (Γ : Scope) (t : Term) :
    Tracks (fun e => e = .hole ∧ ¬ t.depth ≤ depthLimit) (fun _ _ => t.visible = t)
      (generate Γ t.visible) (generate Γ t) := by
  by_cases hdepth : t.depth ≤ depthLimit
  · have hvisible : t.visible = t := if_pos hdepth
    simp only [hvisible]
    exact tracks_rfl (fun _ => trivial) _
  · have hvisible : t.visible = t.prune depthLimit := if_neg hdepth
    have hprune := tracks_generate_prune depthLimit Γ t
    rw [hvisible]
    constructor
    · intro s s' g hg
      obtain ⟨g', hg', _, heq⟩ := hprune.ok hg
      exact ⟨g', hg', heq⟩
    · intro s s' e he hne
      exact hprune.error he fun hhole => hne ⟨hhole, hdepth⟩

/-- Within the limits, the walk is the one over what is visible. -/
theorem generateWithin_eq (Γ : Scope) (t : Term) (s : Supply) :
    t.generateWithin Γ s =
      match t.visible.generateFrom (Γ.nearest layerLimit) s with
      | (.ok g, s') => (.ok g, s')
      | (.error (.unbound x), s') =>
          (.error (if Γ.layers.length ≤ layerLimit then .unbound x else .tooDeep), s')
      | (.error .hole, s') => (.error (if t.depth ≤ depthLimit then .hole else .tooDeep), s') := by
  have hseen : (if decide (t.depth ≤ depthLimit) then t else t.prune depthLimit) = t.visible := by
    simp [visible]
  unfold generateWithin
  simp only [hseen]
  rcases t.visible.generateFrom (Γ.nearest layerLimit) s with ⟨e | g, s'⟩
  · cases e with
    | unbound x => simp only [decide_eq_true_eq]
    | hole => simp only [decide_eq_true_eq]
  · rfl

/-- Within the limits, generating comes to what it comes to without them, or a limit that is
exceeded is reported. -/
theorem generateWithin_cases (Γ : Scope) (t : Term) (s : Supply) :
    (∃ g s', t.generateWithin Γ s = (.ok g, s') ∧ t.generateFrom Γ s = (.ok g, s')) ∨
    (∃ e s', t.generateWithin Γ s = (.error e.toInfer, s') ∧ t.generateFrom Γ s = (.error e, s')) ∨
    ∃ s', t.generateWithin Γ s = (.error .tooDeep, s') ∧
      (depthLimit < t.depth ∨ layerLimit < Γ.layers.length) := by
  have hlayers := tracks_generate_within t (Γ.nearest_within layerLimit)
  have hdepths := tracks_generate_visible (Γ.nearest layerLimit) t
  rw [generateWithin_eq]
  rcases hrun : t.visible.generateFrom (Γ.nearest layerLimit) s with ⟨r, s'⟩
  cases r with
  | ok g =>
      left
      obtain ⟨_, _, hvisible⟩ := hdepths.ok hrun
      obtain ⟨_, hg, rfl⟩ := hlayers.ok (hvisible ▸ hrun)
      exact ⟨g, s', rfl, hg⟩
  | error e =>
      right
      cases e with
      | unbound x =>
          by_cases hnear : Γ.layers.length ≤ layerLimit
          · -- All layers are looked at, so the name is missing from the scope itself.
            left
            refine ⟨.unbound x, s', by simp [hnear, ScopeFault.toInfer], ?_⟩
            rw [Scope.nearest_eq_self hnear] at hdepths hrun
            exact hdepths.error hrun (by simp)
          · right
            exact ⟨s', by simp [hnear], Or.inr (Nat.lt_of_not_le hnear)⟩
      | hole =>
          by_cases hdepth : t.depth ≤ depthLimit
          · -- Nothing was pruned, so the hole stands in the term itself.
            left
            refine ⟨.hole, s', by simp [hdepth, ScopeFault.toInfer], ?_⟩
            refine hlayers.error (hdepths.error hrun (by simp [hdepth])) ?_
            rintro ⟨x, hx⟩
            cases hx
          · right
            exact ⟨s', by simp [hdepth], Or.inl (Nat.lt_of_not_le hdepth)⟩

end Term

/-! ## What solving meets -/

namespace Unify

/-- Without a limit, a run from a substitution over pending equations comes to apply a substitution
to a type. -/
inductive Meets : Subst → List (Ty × Ty) → Subst → Ty → Prop where
  | left {σ : Subst} {a b : Ty} {work : List (Ty × Ty)} : Meets σ ((a, b) :: work) σ a
  | right {σ : Subst} {a b : Ty} {work : List (Ty × Ty)} : Meets σ ((a, b) :: work) σ b
  -- A new binding is applied to all values that are there.
  | value {σ : Subst} {a b a' b' t : Ty} {i : Int} {work : List (Ty × Ty)} {e : Int × Ty}
      (ha : σ.resolve? a = some a') (hb : σ.resolve? b = some b') (hm : move a' b' = .bind i t)
      (he : e ∈ σ.entries) : Meets σ ((a, b) :: work) (OrderedMap.single i t) e.2
  | skip {σ τ : Subst} {a b a' b' u : Ty} {work : List (Ty × Ty)} (ha : σ.resolve? a = some a')
      (hb : σ.resolve? b = some b') (hm : move a' b' = .skip) (rest : Meets σ work τ u) :
      Meets σ ((a, b) :: work) τ u
  | split {σ τ : Subst} {a b a' b' u : Ty} {parts work : List (Ty × Ty)}
      (ha : σ.resolve? a = some a') (hb : σ.resolve? b = some b') (hm : move a' b' = .split parts)
      (rest : Meets σ (parts ++ work) τ u) : Meets σ ((a, b) :: work) τ u
  | bind {σ σ' τ : Subst} {a b a' b' t u : Ty} {i : Int} {work : List (Ty × Ty)}
      (ha : σ.resolve? a = some a') (hb : σ.resolve? b = some b') (hm : move a' b' = .bind i t)
      (he : σ.extend? i t = some σ') (rest : Meets σ' work τ u) : Meets σ ((a, b) :: work) τ u

section Limited

variable {n : Nat} {σ : Subst}

/-- If an application without cycles does not come to a result within a limit, it nests deeper. -/
theorem not_fits_of_resolveWithin? (hσ : σ.Acyclic) {t : Ty}
    (h : σ.resolveWithin? (some n) t = none) : ¬ σ.fits n t := by
  intro hfits
  simp [Subst.resolveWithin?, hfits, hσ.resolve?_eq] at h

/-- If an entry cannot be added within a limit, its replacement in some value nests deeper. -/
theorem exists_not_fits_of_extendWithin? {i : Int} {t : Ty} (hi : i ∉ t.vars)
    (h : σ.extendWithin? (some n) i t = none) :
    ∃ e ∈ σ.entries, ¬ Subst.fits (OrderedMap.single i t) n e.2 := by
  cases hall : σ.entries.all fun e => Subst.fits (OrderedMap.single i t) n e.2 with
  | true =>
      obtain ⟨σ', hσ'⟩ := σ.exists_extend? hi
      simp [Subst.extendWithin?, hall, hσ'] at h
  | false => simpa using hall

/-- A run that a limit stops has met an application that nests deeper than the limit. -/
theorem Run.exists_meets {work : List (Ty × Ty)} {r : Except Obstacle Subst}
    (h : Run (some n) σ work r) (hσ : σ.Acyclic) (hr : r = .error .endless) :
    ∃ τ u, Meets σ work τ u ∧ ¬ τ.fits n u := by
  have hresolve {σ : Subst} {t u : Ty} (h : σ.resolveWithin? (some n) t = some u) :
      σ.resolve? t = some u := Subst.resolve?_of_resolveWithin? h
  -- Until the limit stops it, the run makes the steps of the one without a limit.
  induction h with
  | done σ => cases hr
  | skip ha hb hm _ ih =>
      obtain ⟨τ, u, hmeets, hdeep⟩ := ih hσ hr
      exact ⟨τ, u, .skip (hresolve ha) (hresolve hb) hm hmeets, hdeep⟩
  | split ha hb hm _ ih =>
      obtain ⟨τ, u, hmeets, hdeep⟩ := ih hσ hr
      exact ⟨τ, u, .split (hresolve ha) (hresolve hb) hm hmeets, hdeep⟩
  | bind ha hb hm he _ ih =>
      obtain ⟨τ, u, hmeets, hdeep⟩ := ih (keptByBinding_acyclic.move_bind hσ ha hb hm he) hr
      have he' := Subst.extend?_of_extendWithin? he
      exact ⟨τ, u, .bind (hresolve ha) (hresolve hb) hm he' hmeets, hdeep⟩
  | clash => cases hr
  | unresolved h =>
      rcases h with h | h
      · exact ⟨_, _, .left, not_fits_of_resolveWithin? hσ h⟩
      · exact ⟨_, _, .right, not_fits_of_resolveWithin? hσ h⟩
  | unextended ha hb hm he =>
      obtain ⟨e, hmem, hdeep⟩ := exists_not_fits_of_extendWithin? (of_move_bind hm).1 he
      exact ⟨_, _, .value (hresolve ha) (hresolve hb) hm hmem, hdeep⟩

end Limited

end Unify

inductive SolvingMeets : Subst → List Equation → Subst → Ty → Prop where
  | here {σ τ : Subst} {e : Equation} {es : List Equation} {u : Ty}
      (h : Unify.Meets σ [(e.left, e.right)] τ u) : SolvingMeets σ (e :: es) τ u
  | later {σ σ' τ : Subst} {e : Equation} {es : List Equation} {u : Ty}
      (h : (Unify.unify none σ [(e.left, e.right)]).outcome = .ok σ')
      (rest : SolvingMeets σ' es τ u) : SolvingMeets σ (e :: es) τ u

/-- If solving stops at a limit, an application that it comes to nests deeper. -/
theorem exists_solvingMeets {n : Nat} {σ : Subst} {es : List Equation} (hσ : σ.Acyclic)
    {e : Equation} (h : (solveFrom (some n) σ es).outcome = .error ⟨.endless, e⟩) :
    ∃ τ u, SolvingMeets σ es τ u ∧ ¬ τ.fits n u := by
  induction es generalizing σ with
  | nil => simp [solveFrom] at h
  | cons d es ih =>
      have hrun := run_unify (some n) σ [(d.left, d.right)]
      cases hout : (Unify.unify (some n) σ [(d.left, d.right)]).outcome with
      | error o =>
          obtain ⟨rfl, -⟩ : o = .endless ∧ d = e := by simpa [solveFrom, hout] using h
          obtain ⟨τ, u, hmeets, hdeep⟩ := hrun.exists_meets hσ hout
          exact ⟨τ, u, .here hmeets, hdeep⟩
      | ok σ' =>
          rw [hout] at hrun
          obtain ⟨τ, u, hmeets, hdeep⟩ :=
            ih (hrun.acyclic hσ rfl) (by simpa [solveFrom, hout] using h)
          exact ⟨τ, u, .later (hrun.unlimited (by simp)).outcome_eq hmeets, hdeep⟩

/-! ## Solving within a limit -/

/-- A limit leaves the outcome of solving alone, or stops it. -/
theorem solveFrom_unlimited (limit : Option Nat) (σ : Subst) (es : List Equation) :
    (solveFrom limit σ es).outcome = (solveFrom none σ es).outcome ∨
      ∃ e, (solveFrom limit σ es).outcome = .error ⟨.endless, e⟩ := by
  induction es generalizing σ with
  | nil => exact Or.inl rfl
  | cons e es ih =>
      have hrun := run_unify limit σ [(e.left, e.right)]
      by_cases hend : (Unify.unify limit σ [(e.left, e.right)]).outcome = .error .endless
      · right
        exact ⟨e, by simp [solveFrom, hend]⟩
      · have heq := (hrun.unlimited hend).outcome_eq
        cases hout : (Unify.unify limit σ [(e.left, e.right)]).outcome with
        | error o =>
            left
            simp [solveFrom, heq, hout]
        | ok σ' => simpa [solveFrom, heq, hout] using ih σ'

/-- Reading the type of the whole term off its equations comes to apply a substitution to a type. -/
def Generated.Meets (g : Generated TypedTerm) (τ : Subst) (u : Ty) : Prop :=
  SolvingMeets .empty g.equations τ u ∨
    (solve none g.equations).outcome = .ok τ ∧ u = g.trees.type

/-- A limit leaves the type of the whole term alone, or an application that is met nests deeper. -/
theorem Generated.rootType_limited (n : Nat) (g : Generated TypedTerm) :
    g.rootType (some n) = g.rootType none ∨
      (g.rootType (some n) = .error .endless ∧ ∃ τ u, g.Meets τ u ∧ ¬ τ.fits n u) := by
  rcases solveFrom_unlimited (some n) .empty g.equations with heq | ⟨e, hend⟩
  · cases hout : (solveFrom none .empty g.equations).outcome with
    | error u =>
        left
        rw [rootType_of_error (heq.trans hout), rootType_of_error hout]
    | ok σ =>
        rw [rootType_of_ok (heq.trans hout), rootType_of_ok hout]
        cases hroot : σ.resolveWithin? (some n) g.trees.type with
        | none =>
            right
            refine ⟨rfl, σ, _, Or.inr ⟨hout, rfl⟩, ?_⟩
            exact Unify.not_fits_of_resolveWithin? (resolved_of_solve hout).acyclic hroot
        | some τ =>
            left
            rw [Subst.resolveWithin?_none, Subst.resolve?_of_resolveWithin? hroot]
  · right
    obtain ⟨τ, u, hmeets, hdeep⟩ := exists_solvingMeets Subst.resolved_empty.acyclic hend
    exact ⟨rootType_of_error hend, τ, u, Or.inl hmeets, hdeep⟩

section Checked

variable {Γ : Scope} {t : Term} {s : Supply}

/-- Once there are equations, the checker reads their type off, or refuses the term. -/
theorem Term.checkType_of_generateFrom_ok {g : Generated TypedTerm}
    (h : t.generateFrom Γ .initial = (.ok g, s)) :
    t.checkType Γ = g.rootType (some Ty.depthLimit) ∨
      (t.checkType Γ = .error .tooDeep ∧
        (depthLimit < t.depth ∨ layerLimit < Γ.layers.length)) := by
  rcases generateWithin_cases Γ t .initial with
    ⟨g', s', hwithin, hfrom⟩ | ⟨e, s', _, hfrom⟩ | ⟨s', hwithin, hlimit⟩
  · cases h.symm.trans hfrom
    exact Or.inl (checkType_of_generated (congrArg Prod.fst hwithin))
  · cases h.symm.trans hfrom
  · exact Or.inr ⟨checkType_of_fault (congrArg Prod.fst hwithin), hlimit⟩

/-- A fault of scope is what the checker reports, unless it refuses the term. -/
theorem Term.checkType_of_generateFrom_error {e : ScopeFault}
    (h : t.generateFrom Γ .initial = (.error e, s)) :
    t.checkType Γ = .error e.toInfer ∨
      (t.checkType Γ = .error .tooDeep ∧
        (depthLimit < t.depth ∨ layerLimit < Γ.layers.length)) := by
  rcases generateWithin_cases Γ t .initial with
    ⟨g, s', _, hfrom⟩ | ⟨e', s', hwithin, hfrom⟩ | ⟨s', hwithin, hlimit⟩
  · cases h.symm.trans hfrom
  · cases h.symm.trans hfrom
    exact Or.inl (checkType_of_fault (congrArg Prod.fst hwithin))
  · exact Or.inr ⟨checkType_of_fault (congrArg Prod.fst hwithin), hlimit⟩

end Checked

/-- Inference without limits comes to an application that nests deeper than the limit for types. -/
def Term.Strained (Γ : Scope) (t : Term) : Prop :=
  ∃ g s, t.generateFrom Γ .initial = (.ok g, s) ∧ ∃ τ u, g.Meets τ u ∧ ¬ τ.fits Ty.depthLimit u

/-- The type within the limits is the principal type, unless a limit is exceeded and reported. -/
theorem Term.checkType_eq_principalType (Γ : Scope) (t : Term) :
    t.checkType Γ = t.principalType Γ ∨ (t.checkType Γ = .error .endless ∧ t.Strained Γ) ∨
      (t.checkType Γ = .error .tooDeep ∧
        (depthLimit < t.depth ∨ layerLimit < Γ.layers.length)) := by
  rcases hfrom : t.generateFrom Γ .initial with ⟨e | g, s⟩
  · rcases checkType_of_generateFrom_error hfrom with hcheck | hrefused
    · exact Or.inl (hcheck.trans (principalType_of_fault hfrom).symm)
    · exact Or.inr (Or.inr hrefused)
  · rcases checkType_of_generateFrom_ok hfrom with hcheck | hrefused
    · rcases g.rootType_limited Ty.depthLimit with h | ⟨h, hmeets⟩
      · exact Or.inl (hcheck.trans (h.trans (principalType_of_generated hfrom).symm))
      · exact Or.inr (Or.inl ⟨hcheck.trans h, g, s, hfrom, hmeets⟩)
    · exact Or.inr (Or.inr hrefused)

end Monotype
