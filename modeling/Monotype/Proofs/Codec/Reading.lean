import Mathlib.Data.List.Forall2
import Monotype.Proofs.Codec.Writing

/-!
# What reading accepts

A reader can end in four ways, and `Settles` says what each of them means for the value it reads: an
answer means that the value belongs to the grammar, a malformed value does not, a budget is used up
only by a value that nests as deeply, and an overflow needs a literal that is too large.  Rules for
the steps of a reader (`Settles.bind`, `settles_mapM`, `settles_required`) carry this from the parts
of a value to the whole, one lemma per node.

Main statements: `Ty.settles_ofJson` and `Term.settles_ofJson`.  What is read can be written, and
reading it back needs no larger budget.
-/

namespace Monotype

open Json (Below Inside IsType IsAnnotated IsParam IsLiteral IsTerm IsBinding Part HasLargeFloat)

/-! ## Outcomes of reading -/

/-- What the outcome of reading inside `d` with a budget of `n` says: whether a condition is met,
and a property of the answer. -/
def Settles {α : Type} (n : Nat) (d : Json) (large met : Prop) (result : α → Prop) :
    Except DecodeFault α → Prop
  | .ok a => met ∧ result a
  | .error (.malformed m) => ¬ met ∧ ∀ v ∈ m.found?, Inside v d
  | .error .tooDeep => n ≤ d.depth
  | .error .overflow => large

section Rules

variable {α β γ : Type} {n : Nat} {d : Json} {large met : Prop} {result : α → Prop}

/-- A reading that succeeds settles a condition that is met. -/
theorem settles_pure {a : α} (hmet : met) (hresult : result a) :
    Settles n d large met result (pure a) :=
  ⟨hmet, hresult⟩

/-- A reading that stops settles a condition that is not met, if its wording shows a value from
inside. -/
theorem settles_stop {m : Malformed} (hmet : ¬ met) (hfound : ∀ v ∈ m.found?, Inside v d) :
    Settles n d large met result m.stop :=
  ⟨hmet, hfound⟩

/-- A first step settles a necessary condition, and the next step settles the rest. -/
theorem Settles.bind {x : Except DecodeFault α} {f : α → Except DecodeFault β} {whole : Prop}
    {last : β → Prop} (hx : Settles n d large met result x) (hwhole : whole → met)
    (hf : ∀ a, met → result a → Settles n d large whole last (f a)) :
    Settles n d large whole last (x >>= f) := by
  cases x with
  | ok a => exact hf a hx.1 hx.2
  | error e =>
      cases e with
      | malformed m => exact ⟨fun h => hx.1 (hwhole h), hx.2⟩
      | tooDeep => exact hx
      | overflow => exact hx

/-- What a reading settles may be put in other words. -/
theorem Settles.imp {x : Except DecodeFault α} {whole : Prop} {last : α → Prop}
    (hx : Settles n d large met result x) (hmet : met ↔ whole) (hresult : ∀ a, result a → last a) :
    Settles n d large whole last x := by
  cases x with
  | ok a => exact ⟨hmet.1 hx.1, hresult a hx.2⟩
  | error e =>
      cases e with
      | malformed m => exact ⟨fun h => hx.1 (hmet.2 h), hx.2⟩
      | tooDeep => exact hx
      | overflow => exact hx

/-- What is settled about a value inside another is settled inside the other. -/
theorem Settles.enclose {x : Except DecodeFault α} {v : Json} {k : Nat} {inner : Prop}
    (hx : Settles k v inner met result x) (hv : Inside v d) (hbudget : k ≤ v.depth → n ≤ d.depth)
    (hlarge : inner → large) : Settles n d large met result x := by
  cases x with
  | ok a => exact hx
  | error e =>
      cases e with
      | malformed m => exact ⟨hx.1, fun w hw => (hx.2 w hw).trans hv⟩
      | tooDeep => exact hbudget hx
      | overflow => exact hlarge hx

/-- Reading every item of a list settles the condition on all items. -/
theorem settles_mapM {xs : List γ} {f : γ → Except DecodeFault α} {met : γ → Prop}
    {result : γ → α → Prop} (h : ∀ x ∈ xs, Settles n d large (met x) (result x) (f x)) :
    Settles n d large (∀ x ∈ xs, met x) (List.Forall₂ result xs) (xs.mapM f) := by
  induction xs with
  | nil => exact settles_pure (by simp) .nil
  | cons x xs ih =>
      rw [List.mapM_cons]
      refine (h x (by simp)).bind (fun hall => hall x (by simp)) fun a hmet ha => ?_
      refine (ih fun y hy => h y (by simp [hy])).bind (fun hall y hy => hall y (by simp [hy])) ?_
      intro as hmets has
      exact settles_pure (List.forall_mem_cons.2 ⟨hmet, hmets⟩) (.cons ha has)

end Rules

section Members

variable {n : Nat} {ms : List (Text × Json)} {large : Prop}

/-- A required member settles whether there is one. -/
theorem settles_required (key : String) :
    Settles n (.obj ms) large (∃ v, Json.get? ms key = some v) (fun v => Json.get? ms key = some v)
      (Json.required ms key) := by
  cases hkey : Json.get? ms key with
  | some v =>
      simp only [Json.required, hkey]
      exact ⟨⟨v, rfl⟩, rfl⟩
  | none =>
      simp only [Json.required, hkey]
      exact settles_stop (by simp) fun v hv => (Json.below_of_lookup hv).inside

theorem settles_requiredList (key : String) :
    Settles n (.obj ms) large (∃ items, Json.get? ms key = some (.arr items))
      (fun items => Json.get? ms key = some (.arr items)) (Json.requiredList ms key) := by
  refine (settles_required key).bind (fun ⟨items, h⟩ => ⟨_, h⟩) fun v _ hv => ?_
  cases v with
  | arr items => exact settles_pure ⟨items, hv⟩ hv
  | _ => exact settles_stop (by simp [hv]) (by simp [Malformed.found?])

theorem settles_requiredText (key : String) :
    Settles n (.obj ms) large (∃ s, Json.get? ms key = some (.str s))
      (fun s => Json.get? ms key = some (.str s)) (Json.requiredText ms key) := by
  refine (settles_required key).bind (fun ⟨s, h⟩ => ⟨_, h⟩) fun v _ hv => ?_
  cases v with
  | str s => exact settles_pure ⟨s, hv⟩ hv
  | _ => exact settles_stop (by simp [hv]) (by simp [Malformed.found?])

end Members

theorem greatest_le_iff {α : Type} {need : α → Nat} {xs : List α} {n : Nat} :
    greatest need xs ≤ n ↔ ∀ x ∈ xs, need x ≤ n := by
  induction xs with
  | nil => simp [greatest]
  | cons x xs ih =>
      have hcons : greatest need (x :: xs) = max (need x) (greatest need xs) := rfl
      rw [hcons, Nat.max_le, ih, List.forall_mem_cons]

theorem forall_mem_of_forall₂ {α β : Type} {R : α → β → Prop} {P : β → Prop} {xs : List α}
    {ys : List β} (h : List.Forall₂ R xs ys) (hP : ∀ x y, R x y → P y) : ∀ y ∈ ys, P y := by
  induction h with
  | nil => simp
  | cons hxy _ ih => exact List.forall_mem_cons.2 ⟨hP _ _ hxy, ih⟩

/-! ## Types -/

namespace Ty

/-- A name that is no base type's is not read as one. -/
theorem ofBaseName?_eq_none {name : Text} (h : ∀ s ∈ Json.baseNames, name ≠ .plain s) :
    ofBaseName? name = none := by
  have hne : ∀ s ∈ Json.baseNames, Text.plain s ≠ name := fun s hs h' => h s hs h'.symm
  have hint := hne "Int" (by decide)
  have hfloat := hne "Float" (by decide)
  have hbool := hne "Bool" (by decide)
  simp [ofBaseName?, LiteralKind.ofName?, LiteralKind.name, hint, hfloat, hbool]

def WritableWithin (n : Nat) (t : Ty) : Prop := t.Writable ∧ t.depth ≤ n

/-- The case of a function type. -/
theorem settles_fn {n : Nat} {ms : List (Text × Json)} {ps : List Json} {r : Json} {large : Prop}
    (hread : ∀ v, Settles n v large v.IsType (WritableWithin n) (ofJson n v))
    (hvar : Json.get? ms "var" = none) (hps : Json.get? ms "params" = some (.arr ps))
    (hr : Json.get? ms "result" = some r) :
    Settles (n + 1) (.obj ms) large (IsType (.obj ms)) (WritableWithin (n + 1))
      (ps.mapM (ofJson n) >>= fun params => ofJson n r >>= fun result =>
        pure (Ty.fn params result)) := by
  -- A budget that is too small for a part is too small for the whole, which is deeper.
  have hpart : ∀ v, Below v (.obj ms) →
      Settles (n + 1) (.obj ms) large v.IsType (WritableWithin n) (ofJson n v) := by
    intro v hv
    have hlt := Json.depth_lt_of_below hv
    exact (hread v).enclose hv.inside (fun hn => by omega) id
  have hiff : IsType (.obj ms) ↔ (∀ p ∈ ps, IsType p) ∧ IsType r := by
    simp [Json.isType_fn_iff hvar, hps, hr]
  refine (settles_mapM fun p hp => hpart p (Json.below_of_mem_lookup hps hp)).bind
    (fun h => (hiff.1 h).1) fun params hall hparams => ?_
  refine (hpart r (Json.below_of_lookup hr)).bind (fun h => (hiff.1 h).2)
    fun result hres hresult => ?_
  refine settles_pure (hiff.2 ⟨hall, hres⟩) ⟨.fn ?_ hresult.1, ?_⟩
  · exact forall_mem_of_forall₂ hparams fun _ _ h => h.1
  · have hdepths : greatest depth params ≤ n :=
      greatest_le_iff.2 (forall_mem_of_forall₂ hparams fun _ _ h => h.2)
    have hdepth : result.depth ≤ n := hresult.2
    rw [depth, depthAll_eq]
    omega

/-- Reading a type accepts exactly the grammar of types, and gives a type that can be written. -/
theorem settles_ofJson (n : Nat) (v : Json) (large : Prop) :
    Settles n v large v.IsType (WritableWithin n) (ofJson n v) := by
  induction n generalizing v with
  | zero => exact Nat.zero_le _
  | succ n ih =>
      -- A fault shows the value itself, or something inside of it.
      have hself : ∀ u ∈ (Malformed.notType v).found?, Inside u v := by
        intro u hu
        exact Option.some.inj hu ▸ .refl
      cases v with
      | str name =>
          by_cases hname : ∃ s ∈ Json.baseNames, name = .plain s
          · obtain ⟨s, hs, rfl⟩ := hname
            simp only [ofJson, ofBaseName?_of_mem hs]
            exact ⟨.base hs, .base hs, by simp [depth]⟩
          · simp only [ofJson, ofBaseName?_eq_none fun s hs h => hname ⟨s, hs, h⟩]
            refine settles_stop ?_ (by simp [Malformed.found?])
            rintro (h | _ | _)
            exact hname ⟨_, h, rfl⟩
      | obj ms =>
          cases hvar : Json.get? ms "var" with
          | some w =>
              cases w with
              | int i =>
                  simp only [ofJson, hvar]
                  exact ⟨.var hvar, .var i, by simp [depth]⟩
              | _ =>
                  simp only [ofJson, hvar]
                  refine settles_stop ?_ ?_
                  · intro h
                    cases h <;> simp_all
                  · intro u hu
                    have heq := Option.some.inj hu
                    exact (Json.below_of_lookup (heq ▸ hvar)).inside
          | none =>
              -- What is no variable has to be a function type, with both of its members.
              have hiff := Json.isType_fn_iff hvar
              cases hps : Json.get? ms "params" with
              | none =>
                  simp only [ofJson, hvar, hps]
                  exact settles_stop (by simp [hiff, hps]) hself
              | some w =>
                  cases hr : Json.get? ms "result" with
                  | none =>
                      simp only [ofJson, hvar, hps, hr]
                      exact settles_stop (by simp [hiff, hr]) hself
                  | some r =>
                      cases w with
                      | arr ps =>
                          simp only [ofJson, hvar, hps, hr]
                          exact settles_fn ih hvar hps hr
                      | _ =>
                          simp only [ofJson, hvar, hps, hr]
                          exact settles_stop (by simp [hiff, hps]) (by simp [Malformed.found?])
      | _ => exact settles_stop (by rintro ⟨⟩) hself

end Ty

/-! ## Annotations and parameters -/

namespace Term

def DeclaredWithin (n : Nat) (declared : Option Ty) : Prop :=
  DeclaredWritable declared ∧ declaredDepth declared ≤ n

theorem declaredWithin_none (n : Nat) : DeclaredWithin n none := by
  simp [DeclaredWithin, DeclaredWritable, declaredDepth]

theorem declaredWithin_some {n : Nat} {t : Ty} (h : t.WritableWithin n) :
    DeclaredWithin n (some t) := by
  refine ⟨?_, h.2⟩
  intro a ha
  exact Option.some.inj ha ▸ h.1

/-- An annotation settles whether there is a good one. -/
theorem settles_declared (n : Nat) (ms : List (Text × Json)) (large : Prop) :
    Settles (n + 1) (.obj ms) large (IsAnnotated ms) (DeclaredWithin n) (Json.declared n ms) := by
  have hsome : ∀ v, Json.get? ms "annotation" = some v → v ≠ .null →
      Settles (n + 1) (.obj ms) large (IsAnnotated ms) (DeclaredWithin n)
        ((Ty.ofJson n v).map some) := by
    intro v hv hnull
    have hlt := Json.depth_lt_of_below (Json.below_of_lookup hv)
    have htype := (Ty.settles_ofJson n v large).enclose (n := n + 1)
      (Json.below_of_lookup hv).inside (fun hn => by omega) id
    have hmap : (Ty.ofJson n v).map some = (Ty.ofJson n v >>= fun t => pure (some t)) := by
      cases Ty.ofJson n v <;> rfl
    have hiff : IsAnnotated ms ↔ v.IsType := by simp [IsAnnotated, hv, hnull]
    rw [hmap]
    refine htype.bind hiff.1 fun t hmet ht => ?_
    exact settles_pure (hiff.2 hmet) (declaredWithin_some ht)
  -- A missing annotation and `null` count the same.
  cases hv : Json.get? ms "annotation" with
  | none =>
      simp only [Json.declared, hv]
      exact ⟨by simp [IsAnnotated, hv], declaredWithin_none n⟩
  | some v =>
      cases v with
      | null =>
          simp only [Json.declared, hv]
          exact ⟨by simp [IsAnnotated, hv], declaredWithin_none n⟩
      | _ =>
          simp only [Json.declared, hv]
          exact hsome _ hv (by simp)

/-- A parameter settles whether it is a good one. -/
theorem settles_param {n : Nat} {d v : Json} {large : Prop} (hv : Below v d) :
    Settles (n + 1) d large v.IsParam (fun p => DeclaredWithin n p.declared)
      (Param.ofJson n v) := by
  cases v with
  | str name => exact ⟨.name name, declaredWithin_none n⟩
  | obj ms =>
      have hlt := Json.depth_lt_of_below hv
      have hiff :
          IsParam (.obj ms) ↔ (∃ x, Json.get? ms "name" = some (.str x)) ∧ IsAnnotated ms := by
        constructor
        · rintro (_ | ⟨hname, hdeclared⟩)
          exact ⟨⟨_, hname⟩, hdeclared⟩
        · rintro ⟨⟨x, hname⟩, hdeclared⟩
          exact .object hname hdeclared
      have hparam : Settles (n + 1) (.obj ms) large (IsParam (.obj ms))
          (fun p => DeclaredWithin n p.declared) (Param.ofJson n (.obj ms)) := by
        refine (settles_requiredText "name").bind (fun h => (hiff.1 h).1) fun x hname _ => ?_
        refine (settles_declared n ms large).bind (fun h => (hiff.1 h).2) fun a hdeclared ha => ?_
        exact settles_pure (hiff.2 ⟨hname, hdeclared⟩) ha
      exact hparam.enclose hv.inside (fun hn => by omega) id
  | _ => exact settles_stop (by rintro ⟨⟩) (by simp [Malformed.found?])

/-! ## Literals -/

/-- The term can be written, a budget is enough to read it back, and it is a function exactly if the
tag of the value says so. -/
def ReadFrom (n : Nat) (v : Json) (t : Term) : Prop :=
  t.Writable ∧ t.readDepth ≤ n ∧ (t.isLam = true ↔ v.tag? = some (.str "lambda"))

/-- What is left to show of a node that was read: its tag tells whether it is a function. -/
theorem readFrom_obj {n : Nat} {ms : List (Text × Json)} {tag : Text} {t : Term}
    (hnode : Json.get? ms "node" = some (.str tag)) (ht : t.Writable) (hdepth : t.readDepth ≤ n)
    (hlam : t.isLam = true ↔ tag = "lambda") : ReadFrom n (.obj ms) t := by
  refine ⟨ht, hdepth, ?_⟩
  simpa [Json.tag?, Json.member?, hnode] using hlam

/-- A kind is found by its own name only. -/
theorem ofName?_eq_some_iff {s : Text} {kind : LiteralKind} :
    LiteralKind.ofName? s = some kind ↔ s = kind.name := by
  constructor
  · intro h
    have hname := List.find?_some h
    exact (eq_of_beq hname).symm
  · rintro rfl
    cases kind <;> decide

/-- The value of a literal is accepted exactly if it fits the kind. -/
theorem settles_literalValue {n : Nat} {d v : Json} {large : Prop} {kind : LiteralKind}
    (hv : Inside v d)
    (hlarge : ∀ i, kind = .float → v = .int i → Binary64.ofInt? i = none → large) :
    Settles n d large (IsLiteral kind.name v) (fun _ => True)
      (Literal.promote kind v >>= fun v => (Literal.ofJson kind v).mapError .malformed) := by
  have hbad : ¬ IsLiteral kind.name v →
      Settles (α := Literal) n d large (IsLiteral kind.name v) (fun _ => True)
        (Malformed.stop (.badLiteral kind v)) := by
    intro h
    refine settles_stop h ?_
    intro u hu
    exact Option.some.inj hu ▸ hv
  cases kind with
  | int =>
      cases v with
      | int i => exact ⟨.int i, trivial⟩
      | _ => exact hbad (by simp [Json.isLiteral_iff, LiteralKind.name])
  | float =>
      cases v with
      | float x => exact ⟨.float x, trivial⟩
      | int i =>
          -- An integer stands for a floating-point number, unless it is too large for one.
          cases hi : Binary64.ofInt? i with
          | some x =>
              simp only [Literal.promote, hi]
              exact ⟨.whole i, trivial⟩
          | none =>
              simp only [Literal.promote, hi]
              exact hlarge i rfl rfl hi
      | _ => exact hbad (by simp [Json.isLiteral_iff, LiteralKind.name])
  | bool =>
      cases v with
      | bool b => exact ⟨.bool b, trivial⟩
      | _ => exact hbad (by simp [Json.isLiteral_iff, LiteralKind.name])

section Nodes

variable {n : Nat} {read : Json → Except DecodeFault Term} {ms : List (Text × Json)}

/-- The case of a literal, where an overlarge integer may come up. -/
theorem settles_literal (hnode : Json.get? ms "node" = some (.str "literal")) :
    Settles (n + 1) (.obj ms) (HasLargeFloat (.obj ms)) (IsTerm (.obj ms))
      (ReadFrom (n + 1) (.obj ms))
      (ofMembers n read ms (.str "literal")) := by
  have hiff := Json.isTerm_literal_iff hnode
  have hliteral : Settles (n + 1) (.obj ms) (HasLargeFloat (.obj ms)) (IsTerm (.obj ms))
      (fun _ => True) (Literal.ofMembers ms) := by
    refine (settles_required "kind").bind (fun h => ?_) fun k _ hk => ?_
    · obtain ⟨kind, _, hkind, _⟩ := hiff.1 h
      exact ⟨_, hkind⟩
    -- The kind decides which values are good, so it is settled first.
    cases hname : k.text?.bind LiteralKind.ofName? with
    | none =>
        dsimp only
        refine settles_stop ?_ ?_
        · intro h
          obtain ⟨kind, v, hkind, _, hvalue⟩ := hiff.1 h
          obtain rfl : k = .str kind := by simpa [hk] using hkind
          have hnone : LiteralKind.ofName? kind = none := hname
          cases hvalue <;> simp [LiteralKind.ofName?, LiteralKind.name] at hnone
        · intro u hu
          have heq := Option.some.inj hu
          exact (Json.below_of_lookup (heq ▸ hk)).inside
    | some kind =>
        dsimp only
        obtain rfl : k = .str kind.name := by
          cases k with
          | str s => exact congrArg Json.str (ofName?_eq_some_iff.1 hname)
          | _ => simp [Json.text?] at hname
        refine (settles_required "value").bind (fun h => ?_) fun v _ hv => ?_
        · obtain ⟨_, v, _, hvalue, _⟩ := hiff.1 h
          exact ⟨v, hvalue⟩
        have hvalue : IsTerm (.obj ms) ↔ IsLiteral kind.name v := by
          simp [hiff, hk, hv]
        refine (settles_literalValue (Json.below_of_lookup hv).inside ?_).imp hvalue.symm
          fun _ h => h
        rintro i rfl rfl hlarge
        exact .literal hnode hk hv hlarge
  refine hliteral.bind id fun v hmet _ => ?_
  exact settles_pure hmet
    (readFrom_obj hnode (writable_lit v) (by simp [readDepth]) (by simp [isLam]))

theorem settles_var (hnode : Json.get? ms "node" = some (.str "var")) :
    Settles (n + 1) (.obj ms) (HasLargeFloat (.obj ms)) (IsTerm (.obj ms))
      (ReadFrom (n + 1) (.obj ms))
      (ofMembers n read ms (.str "var")) := by
  have hiff := Json.isTerm_var_iff hnode
  refine (settles_requiredText "name").bind hiff.1 fun x hname _ => ?_
  exact settles_pure (hiff.2 hname)
    (readFrom_obj hnode (writable_var x) (by simp [readDepth]) (by simp [isLam]))

def PartsSettle (n : Nat) (read : Json → Except DecodeFault Term) (ms : List (Text × Json)) :
    Prop :=
  ∀ v, Part v (.obj ms) → Settles n v v.HasLargeFloat v.IsTerm (ReadFrom n v) (read v)

/-- A part of a node is settled within the node as it is by itself. -/
theorem PartsSettle.part (hparts : PartsSettle n read ms) {v : Json} (hv : Part v (.obj ms)) :
    Settles (n + 1) (.obj ms) (HasLargeFloat (.obj ms)) v.IsTerm (ReadFrom n v) (read v) := by
  have hlt := Json.depth_lt_of_below hv.below
  exact (hparts v hv).enclose hv.below.inside (fun hn => by omega) fun h => .part hv h

/-- A member that should be a term is looked up and read. -/
theorem PartsSettle.member {α : Type} (hparts : PartsSettle n read ms) {tag : Text} {key : String}
    (hnode : Json.get? ms "node" = some (.str tag)) (hkey : (tag, key) ∈ Json.termKeys)
    {whole : Prop} {last : α → Prop} {f : Term → Except DecodeFault α}
    (hwhole : whole → ∃ v, Json.get? ms key = some v ∧ v.IsTerm)
    (hf : ∀ v t, Json.get? ms key = some v → v.IsTerm → ReadFrom n v t →
      Settles (n + 1) (.obj ms) (HasLargeFloat (.obj ms)) whole last (f t)) :
    Settles (n + 1) (.obj ms) (HasLargeFloat (.obj ms)) whole last
      (Json.required ms key >>= fun v => read v >>= f) := by
  refine (settles_required key).bind (fun h => ?_) fun v _ hv => ?_
  · obtain ⟨v, hv, _⟩ := hwhole h
    exact ⟨v, hv⟩
  refine (hparts.part (.member hnode hkey hv)).bind (fun h => ?_) fun t hmet ht => hf v t hv hmet ht
  obtain ⟨w, hw, hterm⟩ := hwhole h
  obtain rfl : v = w := by simpa [hv] using hw
  exact hterm

theorem settles_cond (hparts : PartsSettle n read ms)
    (hnode : Json.get? ms "node" = some (.str "if")) :
    Settles (n + 1) (.obj ms) (HasLargeFloat (.obj ms)) (IsTerm (.obj ms))
      (ReadFrom (n + 1) (.obj ms))
      (ofMembers n read ms (.str "if")) := by
  have hiff := Json.isTerm_cond_iff hnode
  -- The members are settled in turn: if the whole is in the grammar, each of them is.
  refine hparts.member hnode (by simp [Json.termKeys]) (fun h => ?_) fun c t₁ hc htest h₁ => ?_
  · obtain ⟨c, _, _, hc, _, _, htest, _⟩ := hiff.1 h
    exact ⟨c, hc, htest⟩
  refine hparts.member hnode (by simp [Json.termKeys]) (fun h => ?_) fun t t₂ ht hyes h₂ => ?_
  · obtain ⟨_, t, _, _, ht, _, _, hyes, _⟩ := hiff.1 h
    exact ⟨t, ht, hyes⟩
  refine hparts.member hnode (by simp [Json.termKeys]) (fun h => ?_) fun e t₃ he hno h₃ => ?_
  · obtain ⟨_, _, e, _, _, he, _, _, hno⟩ := hiff.1 h
    exact ⟨e, he, hno⟩
  have hdepth : (Term.cond t₁ t₂ t₃).readDepth ≤ n + 1 := by
    have hd₁ := h₁.2.1
    have hd₂ := h₂.2.1
    have hd₃ := h₃.2.1
    rw [readDepth]
    omega
  exact settles_pure (hiff.2 ⟨c, t, e, hc, ht, he, htest, hyes, hno⟩)
    (readFrom_obj hnode (writable_cond.2 ⟨h₁.1, h₂.1, h₃.1⟩) hdepth (by simp [isLam]))

/-- The symbols of the grammar are those that name an operator. -/
theorem mem_symbols_iff {s : Text} : s ∈ Json.symbols ↔ ∃ op, Operator.ofSymbol? s = some op := by
  have hsymbols : Json.symbols = Operator.all.map fun op => Text.plain op.symbol := by decide
  rw [hsymbols, List.mem_map, ← Option.isSome_iff_exists, Operator.ofSymbol?, List.find?_isSome]
  simp

theorem settles_binop (hparts : PartsSettle n read ms)
    (hnode : Json.get? ms "node" = some (.str "binop")) :
    Settles (n + 1) (.obj ms) (HasLargeFloat (.obj ms)) (IsTerm (.obj ms))
      (ReadFrom (n + 1) (.obj ms))
      (ofMembers n read ms (.str "binop")) := by
  have hiff := Json.isTerm_binop_iff hnode
  refine (settles_required "op").bind (fun h => ?_) fun k _ hk => ?_
  · obtain ⟨s, _, _, hs, _⟩ := hiff.1 h
    exact ⟨_, hs⟩
  -- The symbols of the grammar are those of the operators.
  cases hop : k.text?.bind Operator.ofSymbol? with
  | none =>
      dsimp only
      refine settles_stop ?_ ?_
      · intro h
        obtain ⟨s, _, _, hs, _, _, hsymbol, _⟩ := hiff.1 h
        obtain ⟨op, hsome⟩ := mem_symbols_iff.1 hsymbol
        obtain rfl : k = .str s := by simpa [hk] using hs
        simp [Json.text?, hsome] at hop
      · intro u hu
        have heq := Option.some.inj hu
        exact (Json.below_of_lookup (heq ▸ hk)).inside
  | some op =>
      dsimp only
      obtain ⟨s, rfl, hs⟩ : ∃ s, k = .str s ∧ s ∈ Json.symbols := by
        cases k with
        | str s => exact ⟨s, rfl, mem_symbols_iff.2 ⟨op, hop⟩⟩
        | _ => simp [Json.text?] at hop
      refine hparts.member hnode (by simp [Json.termKeys]) (fun h => ?_) fun l t₁ hl hlhs h₁ => ?_
      · obtain ⟨_, l, _, _, hl, _, _, hlhs, _⟩ := hiff.1 h
        exact ⟨l, hl, hlhs⟩
      refine hparts.member hnode (by simp [Json.termKeys]) (fun h => ?_) fun r t₂ hr hrhs h₂ => ?_
      · obtain ⟨_, _, r, _, _, hr, _, _, hrhs⟩ := hiff.1 h
        exact ⟨r, hr, hrhs⟩
      have hdepth : (Term.binop op t₁ t₂).readDepth ≤ n + 1 := by
        have hd₁ := h₁.2.1
        have hd₂ := h₂.2.1
        rw [readDepth]
        omega
      exact settles_pure (hiff.2 ⟨s, l, r, hk, hl, hr, hs, hlhs, hrhs⟩)
        (readFrom_obj hnode (writable_binop.2 ⟨h₁.1, h₂.1⟩) hdepth (by simp [isLam]))

theorem settles_lambda (hparts : PartsSettle n read ms)
    (hnode : Json.get? ms "node" = some (.str "lambda")) :
    Settles (n + 1) (.obj ms) (HasLargeFloat (.obj ms)) (IsTerm (.obj ms))
      (ReadFrom (n + 1) (.obj ms))
      (ofMembers n read ms (.str "lambda")) := by
  have hiff := Json.isTerm_lambda_iff hnode
  refine (settles_requiredList "params").bind (fun h => ?_) fun vs _ hvs => ?_
  · obtain ⟨ps, _, hps, _⟩ := hiff.1 h
    exact ⟨ps, hps⟩
  refine (settles_mapM fun v hv => settles_param (Json.below_of_mem_lookup hvs hv)).bind
    (fun h => ?_)
    fun ps hparams hps => ?_
  · obtain ⟨vs', _, hvs', _, hparams, _⟩ := hiff.1 h
    obtain rfl : vs = vs' := by simpa [hvs] using hvs'
    exact hparams
  refine hparts.member hnode (by simp [Json.termKeys]) (fun h => ?_) fun v b hv hbody hb => ?_
  · obtain ⟨_, v, _, hv, _, hbody⟩ := hiff.1 h
    exact ⟨v, hv, hbody⟩
  have hwritable : (Term.lam ps b).Writable :=
    writable_lam.2 ⟨forall_mem_of_forall₂ hps fun _ _ h => h.1, hb.1⟩
  have hdepth : (Term.lam ps b).readDepth ≤ n + 1 := by
    have hds : greatest (fun p => declaredDepth p.declared) ps ≤ n :=
      greatest_le_iff.2 (forall_mem_of_forall₂ hps fun _ _ h => h.2)
    have hd := hb.2.1
    rw [readDepth]
    omega
  exact settles_pure (hiff.2 ⟨vs, v, hvs, hv, hparams, hbody⟩)
    (readFrom_obj hnode hwritable hdepth (by simp [isLam]))

theorem settles_app (hparts : PartsSettle n read ms)
    (hnode : Json.get? ms "node" = some (.str "app")) :
    Settles (n + 1) (.obj ms) (HasLargeFloat (.obj ms)) (IsTerm (.obj ms))
      (ReadFrom (n + 1) (.obj ms))
      (ofMembers n read ms (.str "app")) := by
  have hiff := Json.isTerm_app_iff hnode
  refine hparts.member hnode (by simp [Json.termKeys]) (fun h => ?_) fun v f hv hfun hf => ?_
  · obtain ⟨v, _, hv, _, hfun, _⟩ := hiff.1 h
    exact ⟨v, hv, hfun⟩
  refine (settles_requiredList "arguments").bind (fun h => ?_) fun vs _ hvs => ?_
  · obtain ⟨_, vs, _, hvs, _⟩ := hiff.1 h
    exact ⟨vs, hvs⟩
  refine (settles_mapM fun w hw => hparts.part (.argument hnode hvs hw)).bind (fun h => ?_)
    fun args hterms hargs => ?_
  · obtain ⟨_, vs', _, hvs', _, hterms⟩ := hiff.1 h
    obtain rfl : vs = vs' := by simpa [hvs] using hvs'
    exact hterms
  have hwritable : (Term.app f args).Writable :=
    writable_app.2 ⟨hf.1, forall_mem_of_forall₂ hargs fun _ _ h => h.1⟩
  have hdepth : (Term.app f args).readDepth ≤ n + 1 := by
    have hds : greatest readDepth args ≤ n :=
      greatest_le_iff.2 (forall_mem_of_forall₂ hargs fun _ _ h => h.2.1)
    have hd := hf.2.1
    rw [readDepth, readDepthAll_eq]
    omega
  exact settles_pure (hiff.2 ⟨v, vs, hv, hvs, hfun, hterms⟩)
    (readFrom_obj hnode hwritable hdepth (by simp [isLam]))

/-! ## Binding blocks -/

def BindingReadFrom (n : Nat) (v : Json) (x : Binding Term) : Prop :=
  BindingWritable x ∧ bindingDepth x ≤ n ∧ (x.value.isLam = true ↔ v.BindsLambda)

/-- A binding settles whether it is a good one, given that its value does. -/
theorem settles_binding (hparts : PartsSettle n read ms) {v : Json} (hv : Below v (.obj ms))
    (hpart : ∀ xs w, v = .obj xs → Json.get? xs "value" = some w → Part w (.obj ms)) :
    Settles (n + 1) (.obj ms) (HasLargeFloat (.obj ms)) v.IsBinding (BindingReadFrom n v)
      (bindingOfJson n read v) := by
  cases v with
  | obj xs =>
      have hlt := Json.depth_lt_of_below hv
      have hiff : IsBinding (.obj xs) ↔ ∃ x w, Json.get? xs "name" = some (.str x) ∧
          Json.get? xs "value" = some w ∧ w.IsTerm ∧ IsAnnotated xs := by
        constructor
        · rintro ⟨hname, hvalue, value, hdeclared⟩
          exact ⟨_, _, hname, hvalue, value, hdeclared⟩
        · rintro ⟨x, w, hname, hvalue, value, hdeclared⟩
          exact .object hname hvalue value hdeclared
      -- A budget that is too small for the binding is too small for the block around it.
      have hbudget : n + 1 ≤ (Json.obj xs).depth → n + 1 ≤ (Json.obj ms).depth := by omega
      refine ((settles_requiredText "name").enclose hv.inside hbudget id).bind (fun h => ?_)
        fun x _ hname => ?_
      · obtain ⟨x, _, hname, _⟩ := hiff.1 h
        exact ⟨x, hname⟩
      refine ((settles_required "value").enclose hv.inside hbudget id).bind (fun h => ?_)
        fun w _ hw => ?_
      · obtain ⟨_, w, _, hw, _⟩ := hiff.1 h
        exact ⟨w, hw⟩
      refine (hparts.part (hpart xs w rfl hw)).bind (fun h => ?_) fun t hterm ht => ?_
      · obtain ⟨_, w', _, hw', hterm, _⟩ := hiff.1 h
        obtain rfl : w = w' := by simpa [hw] using hw'
        exact hterm
      refine ((settles_declared n xs (HasLargeFloat (.obj ms))).enclose hv.inside hbudget id).bind
        (fun h => ?_) fun a hdeclared ha => ?_
      · obtain ⟨_, _, _, _, _, hdeclared⟩ := hiff.1 h
        exact hdeclared
      refine settles_pure (hiff.2 ⟨x, w, hname, hw, hterm, hdeclared⟩) ⟨⟨ht.1, ha.1⟩, ?_, ?_⟩
      · have hd := ht.2.1
        have hda := ha.2
        simp only [bindingDepth]
        omega
      · simpa [Json.BindsLambda, Json.member?, hw] using ht.2.2
  | _ => exact settles_stop (by rintro ⟨⟩) (by simp [Malformed.found?])

/-- Both kinds of binding blocks are read in the same way; `fits` is what their check asks for. -/
theorem settles_block {node : List (Binding Term) → Term → Term} {tag : Text}
    {fits : List Json → Prop} (hparts : PartsSettle n read ms)
    (hnode : Json.get? ms "node" = some (.str tag)) (htag : tag = "let" ∨ tag = "letrec")
    (hiff : IsTerm (.obj ms) ↔ ∃ vs v, Json.get? ms "bindings" = some (.arr vs) ∧
      Json.get? ms "body" = some v ∧ fits vs ∧ (∀ x ∈ vs, IsBinding x) ∧ IsTerm v)
    (hfault : ∀ vs bs b, List.Forall₂ (BindingReadFrom n) vs bs →
      ((node bs b).nodeFault? = none ↔ fits vs))
    (hwritable : ∀ bs b, (node bs b).nodeFault? = none → (∀ x ∈ bs, BindingWritable x) →
      b.Writable →
      (node bs b).Writable)
    (hdepth : ∀ bs b, (node bs b).readDepth = max (readDepthBindings bs) b.readDepth + 1)
    (hlam : ∀ bs b, (node bs b).isLam = false) :
    Settles (n + 1) (.obj ms) (HasLargeFloat (.obj ms)) (IsTerm (.obj ms))
      (ReadFrom (n + 1) (.obj ms))
      (Json.requiredList ms "bindings" >>= fun vs => vs.mapM (bindingOfJson n read) >>= fun bs =>
        Json.required ms "body" >>= fun v => read v >>= fun b =>
          (fitted (node bs b)).mapError .malformed) := by
  refine (settles_requiredList "bindings").bind (fun h => ?_) fun vs _ hvs => ?_
  · obtain ⟨vs, _, hvs, _⟩ := hiff.1 h
    exact ⟨vs, hvs⟩
  have hbinding : ∀ v ∈ vs, Settles (n + 1) (.obj ms) (HasLargeFloat (.obj ms)) v.IsBinding
      (BindingReadFrom n v) (bindingOfJson n read v) := by
    intro v hv
    refine settles_binding hparts (Json.below_of_mem_lookup hvs hv) ?_
    rintro xs w rfl hw
    exact .value hnode htag hvs hv hw
  refine (settles_mapM hbinding).bind (fun h => ?_) fun bs hbindings hbs => ?_
  · obtain ⟨vs', _, hvs', _, _, hbindings, _⟩ := hiff.1 h
    obtain rfl : vs = vs' := by simpa [hvs] using hvs'
    exact hbindings
  have hkey : (tag, "body") ∈ Json.termKeys := by
    rcases htag with rfl | rfl <;> simp [Json.termKeys]
  refine hparts.member hnode hkey (fun h => ?_) fun v b hv hbody hb => ?_
  · obtain ⟨_, v, _, hv, _, _, hbody⟩ := hiff.1 h
    exact ⟨v, hv, hbody⟩
  -- With good bindings and a good body, the check of the block is all that is left.
  have hwhole : IsTerm (.obj ms) ↔ fits vs := by
    constructor
    · intro h
      obtain ⟨vs', _, hvs', _, hfits, _⟩ := hiff.1 h
      obtain rfl : vs = vs' := by simpa [hvs] using hvs'
      exact hfits
    · intro hfits
      exact hiff.2 ⟨vs, v, hvs, hv, hfits, hbindings, hbody⟩
  cases hcheck : (node bs b).nodeFault? with
  | some fault =>
      simp only [fitted, hcheck]
      refine settles_stop ?_ (by simp [Malformed.found?])
      rw [hwhole, ← hfault vs bs b hbs]
      simp [hcheck]
  | none =>
      have hfits : fits vs := (hfault vs bs b hbs).1 hcheck
      have hds : greatest bindingDepth bs ≤ n :=
        greatest_le_iff.2 (forall_mem_of_forall₂ hbs fun _ _ h => h.2.1)
      have hd := hb.2.1
      have hneed := hdepth bs b
      rw [readDepthBindings_eq] at hneed
      simp only [fitted, hcheck]
      refine settles_pure (hwhole.2 hfits) (readFrom_obj hnode ?_ (by omega) ?_)
      · exact hwritable bs b hcheck (forall_mem_of_forall₂ hbs fun _ _ h => h.1) hb.1
      · rcases htag with rfl | rfl <;> simp [hlam]

theorem settles_letIn (hparts : PartsSettle n read ms)
    (hnode : Json.get? ms "node" = some (.str "let")) :
    Settles (n + 1) (.obj ms) (HasLargeFloat (.obj ms)) (IsTerm (.obj ms))
      (ReadFrom (n + 1) (.obj ms))
      (ofMembers n read ms (.str "let")) := by
  refine settles_block hparts hnode (Or.inl rfl) (Json.isTerm_letIn_iff hnode) ?_ ?_
    (fun _ _ => rfl)
    fun _ _ => rfl
  · intro vs bs b hbs
    rw [nodeFault?_letIn_eq_none]
    cases hbs <;> simp
  · intro bs b hcheck hbs hb
    exact writable_letIn.2 ⟨nodeFault?_letIn_eq_none.1 hcheck, hbs, hb⟩

/-- The case of a `letrec`: all values have to be functions, which their tags tell. -/
theorem settles_letRec (hparts : PartsSettle n read ms)
    (hnode : Json.get? ms "node" = some (.str "letrec")) :
    Settles (n + 1) (.obj ms) (HasLargeFloat (.obj ms)) (IsTerm (.obj ms))
      (ReadFrom (n + 1) (.obj ms))
      (ofMembers n read ms (.str "letrec")) := by
  -- The check looks at the terms that were read, the grammar at the tags of their values.
  have hfunctions : ∀ vs bs, List.Forall₂ (BindingReadFrom n) vs bs →
      ((∀ x ∈ bs, x.value.isLam = true) ↔ ∀ v ∈ vs, v.BindsLambda) := by
    intro vs bs hbs
    induction hbs with
    | nil => simp
    | cons h _ ih => rw [List.forall_mem_cons, List.forall_mem_cons, ih, h.2.2]
  refine settles_block hparts hnode (Or.inr rfl) (Json.isTerm_letRec_iff hnode) ?_ ?_
    (fun _ _ => rfl)
    fun _ _ => rfl
  · intro vs bs b hbs
    rw [nodeFault?_letRec_eq_none, hfunctions vs bs hbs]
    cases hbs <;> simp
  · intro bs b hcheck hbs hb
    exact writable_letRec.2 ⟨nodeFault?_letRec_eq_none.1 hcheck, hbs, hb⟩

/-- One case per tag; any other tag settles that there is no term. -/
theorem settles_ofMembers (hparts : PartsSettle n read ms) {tag : Json}
    (hnode : Json.get? ms "node" = some tag) :
    Settles (n + 1) (.obj ms) (HasLargeFloat (.obj ms)) (IsTerm (.obj ms))
      (ReadFrom (n + 1) (.obj ms))
      (ofMembers n read ms tag) := by
  unfold ofMembers
  split
  · exact @settles_literal n read ms hnode
  · exact @settles_var n read ms hnode
  · exact settles_cond hparts hnode
  · exact settles_binop hparts hnode
  · exact settles_lambda hparts hnode
  · exact settles_app hparts hnode
  · exact settles_letIn hparts hnode
  · exact settles_letRec hparts hnode
  · refine settles_stop ?_ ?_
    · intro h
      cases h <;> simp_all
    · intro u hu
      have heq := Option.some.inj hu
      exact (Json.below_of_lookup (heq ▸ hnode)).inside

end Nodes

/-! ## Terms -/

/-- Reading a term accepts exactly the grammar, and gives a term that can be written. -/
theorem settles_ofJson (n : Nat) (v : Json) :
    Settles n v v.HasLargeFloat v.IsTerm (ReadFrom n v) (ofJson n v) := by
  induction n generalizing v with
  | zero => exact Nat.zero_le _
  | succ n ih =>
      cases v with
      | obj ms =>
          refine (settles_required "node").bind (fun h => ?_) fun tag _ hnode =>
            settles_ofMembers (fun w _ => ih w) hnode
          cases h <;> exact ⟨_, ‹_›⟩
      | _ => exact settles_stop (by rintro ⟨⟩) (by simp [Malformed.found?])

end Term

end Monotype
