import Monotype.Proofs.Typing.Answers

/-!
# The first fault of scope

A leaf is a fault of scope if it is missing, or if it is a variable that is neither bound on the way
to it nor in the scope of the whole (`Term.FaultAt`).  Types, equations and the walk have no part in
this.

Main statement: the walk ends in a fault exactly if some leaf is one, and its fault is that of the
first such leaf in source order (`Term.generateFrom_error_iff_firstFaultAt`).  So an unbound
variable is answered whatever the types of the rest are.
-/

namespace Monotype

namespace Term

/-! ## Paths -/

/-- Where the paths part, the first one takes an earlier part. -/
inductive Before : List Nat → List Nat → Prop where
  | earlier {i j : Nat} (h : i < j) (path path' : List Nat) : Before (i :: path) (j :: path')
  | inside (i : Nat) {path path' : List Nat} (h : Before path path') :
      Before (i :: path) (i :: path')

/-- Of two paths at most one comes before the other. -/
theorem Before.asymm {path path' : List Nat} (h : Before path path') : ¬ Before path' path := by
  induction h with
  | earlier hij path path' =>
      intro h'
      cases h' with
      | earlier hji => omega
      | inside _ _ => omega
  | inside i _ ih =>
      intro h'
      cases h' with
      | earlier hii => omega
      | inside _ h' => exact ih h'

/-! ## Faults at paths -/

/-- The leaf at the path is missing, or it is a variable that is neither bound over it nor known
outside. -/
inductive FaultAt (known : Text → Bool) (t : Term) (path : List Nat) : ScopeFault → Prop where
  | hole {bound : List Text} (h : locate? path t = some (bound, .hole)) : FaultAt known t path .hole
  | unbound {bound : List Text} {x : Text} (h : locate? path t = some (bound, .var x))
      (hbound : x ∉ bound) (hknown : known x = false) : FaultAt known t path (.unbound x)

/-- The leaf at the path is a fault, and every other one comes after it in source order. -/
structure FirstFaultAt (known : Text → Bool) (t : Term) (path : List Nat) (e : ScopeFault) :
    Prop where
  fault : FaultAt known t path e
  first : ∀ {path' e'}, FaultAt known t path' e' → path' = path ∨ Before path path'

variable {known : Text → Bool} {t : Term}

/-- There is at most one fault at a path. -/
theorem faultAt_unique {path : List Nat} {e e' : ScopeFault} (h : FaultAt known t path e)
    (h' : FaultAt known t path e') : e = e' := by
  -- What stands at the path tells the fault.
  cases h with
  | hole hfound =>
      cases h' with
      | hole _ => rfl
      | unbound hfound' => cases hfound.symm.trans hfound'
  | unbound hfound =>
      cases h' with
      | hole hfound' => cases hfound.symm.trans hfound'
      | unbound hfound' =>
          cases hfound.symm.trans hfound'
          rfl

/-- A leaf is a fault of the term that it is. -/
theorem faultAt_nil {e : ScopeFault} : FaultAt known t [] e ↔ e ∈ t.ownFaults known := by
  constructor
  · intro h
    cases h with
    | hole h =>
        cases h
        simp [ownFaults]
    | unbound h _ hknown =>
        cases h
        simp [ownFaults, hknown]
  · intro h
    cases t with
    | hole =>
        cases List.mem_singleton.1 h
        exact .hole rfl
    | var x =>
        by_cases hx : known x = true
        · simp [ownFaults, hx] at h
        · obtain rfl : e = .unbound x := by simpa [ownFaults, hx] using h
          exact .unbound rfl (by simp) (by simpa using hx)
    | lit _ | cond _ _ _ | binop _ _ _ | lam _ _ | app _ _ | letIn _ _ | letRec _ _ =>
        simp [ownFaults] at h

/-- The fault below a part is a fault of the part, where the names bound over it are known too. -/
theorem faultAt_cons {i : Nat} {path : List Nat} {e : ScopeFault} :
    FaultAt known t (i :: path) e ↔
      ∃ names u, t.parts[i]? = some (names, u) ∧ FaultAt (inside known names) u path e := by
  constructor
  · intro h
    cases h with
    | hole h =>
        obtain ⟨names, u, inner, hpart, hfound, _⟩ := locate?_cons.1 h
        exact ⟨names, u, hpart, .hole hfound⟩
    | unbound h hbound hknown =>
        obtain ⟨names, u, inner, hpart, hfound, rfl⟩ := locate?_cons.1 h
        simp only [List.mem_append, not_or] at hbound
        refine ⟨names, u, hpart, .unbound hfound hbound.2 ?_⟩
        simp [inside, hbound.1, hknown]
  · rintro ⟨names, u, hpart, h⟩
    cases h with
    | hole h => exact .hole (locate?_cons.2 ⟨names, u, _, hpart, h, rfl⟩)
    | unbound h hbound hknown =>
        simp only [inside, Bool.or_eq_false_iff] at hknown
        refine .unbound (locate?_cons.2 ⟨names, u, _, hpart, h, rfl⟩) ?_ hknown.2
        simpa [hbound] using hknown.1

/-! ## The list of all faults -/

/-- A term that is a fault by itself has no parts. -/
theorem parts_eq_nil_of_ownFaults {e : ScopeFault} {rest : List ScopeFault}
    (h : t.ownFaults known = e :: rest) : t.parts = [] := by
  cases t <;> simp [ownFaults, parts] at h ⊢

theorem not_faultAt_of_faults_eq_nil {path : List Nat} {e : ScopeFault} (h : t.faults known = []) :
    ¬ FaultAt known t path e := by
  induction t using induct_parts generalizing known path with
  | h t ih =>
      rw [faults_eq, List.append_eq_nil_iff, List.flatMap_eq_nil_iff] at h
      intro hfault
      cases path with
      | nil => simp [faultAt_nil, h.1] at hfault
      | cons i path =>
          obtain ⟨names, u, hpart, hfault⟩ := faultAt_cons.1 hfault
          have hmem : (names, u) ∈ t.parts := List.mem_of_getElem? hpart
          exact ih _ hmem (h.2 _ hmem) hfault

/-- The head of the list of faults is the first fault in source order. -/
theorem exists_firstFaultAt_of_head? {e : ScopeFault} (h : (t.faults known).head? = some e) :
    ∃ path, FirstFaultAt known t path e := by
  induction t using induct_parts generalizing known with
  | h t ih =>
      rw [faults_eq] at h
      cases hown : t.ownFaults known with
      | cons e' rest =>
          -- A leaf has no parts, so there is no other path.
          obtain rfl : e' = e := by simpa [hown] using h
          refine ⟨[], faultAt_nil.2 (by simp [hown]), ?_⟩
          intro path' e' hfault
          cases path' with
          | nil => exact Or.inl rfl
          | cons i path' =>
              obtain ⟨names, u, hpart, _⟩ := faultAt_cons.1 hfault
              simp [parts_eq_nil_of_ownFaults hown] at hpart
      | nil =>
          rw [hown, List.nil_append, List.head?_flatMap, List.findSome?_eq_some_iff] at h
          obtain ⟨before, ⟨names, u⟩, after, hparts, hhead, hbefore⟩ := h
          have hpart : t.parts[before.length]? = some (names, u) := by simp [hparts]
          obtain ⟨path, hfirst⟩ := ih (names, u) (List.mem_of_getElem? hpart) hhead
          refine ⟨before.length :: path, faultAt_cons.2 ⟨names, u, hpart, hfirst.fault⟩, ?_⟩
          intro path' e' hfault
          cases path' with
          | nil => simp [faultAt_nil, hown] at hfault
          | cons j path' =>
              obtain ⟨names', u', hpart', hfault⟩ := faultAt_cons.1 hfault
              rcases Nat.lt_trichotomy j before.length with hlt | rfl | hgt
              · -- The parts before the one with the first fault have none.
                have hmem : (names', u') ∈ before := by
                  rw [hparts, List.getElem?_append_left hlt] at hpart'
                  exact List.mem_of_getElem? hpart'
                have hnone := List.head?_eq_none_iff.1 (hbefore _ hmem)
                exact absurd hfault (not_faultAt_of_faults_eq_nil hnone)
              · cases hpart.symm.trans hpart'
                rcases hfirst.first hfault with rfl | hlater
                · exact Or.inl rfl
                · exact Or.inr (.inside _ hlater)
              · exact Or.inr (.earlier hgt path path')

/-- The first of the faults is the one whose path comes first. -/
theorem head?_faults_iff {e : ScopeFault} :
    (t.faults known).head? = some e ↔ ∃ path, FirstFaultAt known t path e := by
  refine ⟨exists_firstFaultAt_of_head?, ?_⟩
  rintro ⟨path, hfirst⟩
  cases hfaults : t.faults known with
  | nil => exact absurd hfirst.fault (not_faultAt_of_faults_eq_nil hfaults)
  | cons e' rest =>
      obtain ⟨path', hfirst'⟩ : ∃ path', FirstFaultAt known t path' e' :=
        exists_firstFaultAt_of_head? (by rw [hfaults]; rfl)
      -- Of two first faults, neither comes after the other.
      have hpath : path' = path := by
        rcases hfirst.first hfirst'.fault with heq | hafter
        · exact heq
        · rcases hfirst'.first hfirst.fault with heq | hafter'
          · exact heq.symm
          · exact absurd hafter' hafter.asymm
      subst hpath
      exact congrArg some (faultAt_unique hfirst'.fault hfirst.fault)

/-! ## The fault of the walk -/

/-- The walk fails exactly with the first of the faults, whatever the supply. -/
theorem generateFrom_error_iff {Γ : Scope} {s : Supply} {e : ScopeFault} :
    (∃ s', t.generateFrom Γ s = (.error e, s')) ↔ (t.faults Γ.contains).head? = some e := by
  cases hfaults : t.faults Γ.contains with
  | nil =>
      obtain ⟨g, s', hfrom⟩ := generateFrom_of_clean hfaults s
      simp [hfrom]
  | cons e' rest =>
      obtain ⟨s', hfrom⟩ := generateFrom_of_fault hfaults s
      simp [hfrom]

/-- The walk ends in a fault exactly if a leaf is a fault of scope, and its fault is that of the
first such leaf in source order.  That fault is the answer for the term, whatever its types are;
within the limits, a limit that is exceeded may be the answer instead. -/
theorem generateFrom_error_iff_firstFaultAt (Γ : Scope) (t : Term) :
    (∀ s, (∃ e s', t.generateFrom Γ s = (.error e, s')) ↔ ∃ path e, t.FaultAt Γ.contains path e) ∧
    (∀ s e, (∃ s', t.generateFrom Γ s = (.error e, s')) ↔
      ∃ path, t.FirstFaultAt Γ.contains path e) ∧
    (∀ e, t.principalType Γ = .error e.toInfer ↔ ∃ path, t.FirstFaultAt Γ.contains path e) ∧
    ∀ path e, t.FirstFaultAt Γ.contains path e →
      t.checkType Γ = .error e.toInfer ∨
        (t.checkType Γ = .error .tooDeep ∧
          (depthLimit < t.depth ∨ layerLimit < Γ.layers.length)) := by
  have hwalk : ∀ s e, (∃ s', t.generateFrom Γ s = (.error e, s')) ↔
      ∃ path, t.FirstFaultAt Γ.contains path e :=
    fun s e => generateFrom_error_iff.trans head?_faults_iff
  refine ⟨?_, hwalk, fun e => principalType_eq_scope_iff.trans head?_faults_iff, ?_⟩
  · intro s
    constructor
    · rintro ⟨e, hs⟩
      obtain ⟨path, hfirst⟩ := (hwalk s e).1 hs
      exact ⟨path, e, hfirst.fault⟩
    · rintro ⟨path, e, hfault⟩
      cases hfaults : t.faults Γ.contains with
      | nil => exact absurd hfault (not_faultAt_of_faults_eq_nil hfaults)
      | cons e' rest => exact ⟨e', generateFrom_error_iff.2 (by rw [hfaults]; rfl)⟩
  · intro path e hfirst
    obtain ⟨s, hfrom⟩ := (hwalk .initial e).2 ⟨path, hfirst⟩
    exact checkType_of_generateFrom_error hfrom

/-- A test that is a number, a name that is bound too late and a missing term:
`if 1 then (let x = x in x) else ?`. -/
def boundTooLate : Term :=
  .cond (.lit (.int 1)) (.letIn [⟨"x", none, .var "x"⟩] (.var "x")) .hole

/-- The value of the `let` does not see its name.  It stands before the missing term, and the test
is never compared with a truth value. -/
theorem checkType_of_boundTooLate :
    boundTooLate.FirstFaultAt Scope.builtin.contains [1, 0] (.unbound "x") ∧
      boundTooLate.FaultAt Scope.builtin.contains [2] .hole ∧
      boundTooLate.checkType .builtin = .error (.unbound "x") := by
  have hhead : (boundTooLate.faults Scope.builtin.contains).head? = some (.unbound "x") := by decide
  obtain ⟨path, hfirst⟩ := head?_faults_iff.1 hhead
  have hvalue : boundTooLate.FaultAt Scope.builtin.contains [1, 0] (.unbound "x") :=
    .unbound rfl (by decide) (by decide)
  have hpath : path = [1, 0] := by
    rcases hfirst.first hvalue with heq | hbefore
    · exact heq.symm
    · cases hbefore with
      | earlier hi p =>
          -- Only the test comes before, and it is a literal.
          obtain rfl := Nat.lt_one_iff.1 hi
          obtain ⟨names, u, hpart, hfault⟩ := faultAt_cons.1 hfirst.fault
          cases hpart
          exact absurd hfault (not_faultAt_of_faults_eq_nil rfl)
      | inside _ hbefore =>
          cases hbefore with
          | earlier hj => exact absurd hj (Nat.not_lt_zero _)
          | inside _ hbefore => cases hbefore
  subst hpath
  refine ⟨hfirst, .hole rfl, ?_⟩
  rcases (generateFrom_error_iff_firstFaultAt .builtin boundTooLate).2.2.2 _ _ hfirst with hcheck |
    ⟨_, hlimit⟩
  · exact hcheck
  · exact absurd hlimit (by decide)

end Term

end Monotype
