import Monotype.Proofs.Codec.RoundTrip

/-!
# Literals that are too large

A `Float` literal may hold an integer, and an integer may be beyond the largest floating-point
number.  Reading a term reads all of its parts (`Term.exists_ofJson_of_part`), so such a literal
anywhere in a value keeps it from being read (`Term.not_hasLargeFloat_of_ofJson`), and nothing else
keeps a value of the grammar from it, short of the limit of depth.

Main statement: `Term.decode_of_isTerm`.
-/

namespace Monotype

open Json (Part HasLargeFloat IsTerm)

section Steps

variable {ε α β : Type}

/-- Two readings in a row succeed exactly if each of them does. -/
theorem bind_eq_ok_iff {x : Except ε α} {f : α → Except ε β} {b : β} :
    (x >>= f) = .ok b ↔ ∃ a, x = .ok a ∧ f a = .ok b := by
  cases x with
  | error e => simp [bind, Except.bind]
  | ok a => simp [bind, Except.bind]

/-- Two readings in a row fail where the first one does, or where the second one does after it. -/
theorem bind_eq_error_iff {x : Except ε α} {f : α → Except ε β} {e : ε} :
    (x >>= f) = .error e ↔ x = .error e ∨ ∃ a, x = .ok a ∧ f a = .error e := by
  cases x with
  | error e' => simp [bind, Except.bind]
  | ok a => simp [bind, Except.bind]

/-- If a whole list is read, every item is. -/
theorem exists_of_mapM {f : α → Except ε β} {xs : List α} {ys : List β} (h : xs.mapM f = .ok ys)
    {x : α} (hx : x ∈ xs) : ∃ y, f x = .ok y := by
  induction xs generalizing ys with
  | nil => cases hx
  | cons x' xs ih =>
      rw [List.mapM_cons] at h
      obtain ⟨y, hy, h⟩ := bind_eq_ok_iff.1 h
      obtain ⟨ys', hys, _⟩ := bind_eq_ok_iff.1 h
      rcases List.mem_cons.1 hx with rfl | hx
      · exact ⟨y, hy⟩
      · exact ih hys hx

end Steps

namespace Term

/-- A required member that is there is found. -/
theorem required_of_lookup {ms : List (Text × Json)} {key : String} {v : Json}
    (h : Json.get? ms key = some v) : Json.required ms key = .ok v := by
  simp [Json.required, h]

theorem requiredList_of_lookup {ms : List (Text × Json)} {key : String} {items : List Json}
    (h : Json.get? ms key = some (.arr items)) : Json.requiredList ms key = .ok items := by
  rw [Json.requiredList, required_of_lookup h]
  rfl

/-- Reading a node with a text for its tag is reading its members. -/
theorem ofMembers_of_ofJson {n : Nat} {ms : List (Text × Json)} {tag : Text} {t : Term}
    (hnode : Json.get? ms "node" = some (.str tag)) (h : ofJson (n + 1) (.obj ms) = .ok t) :
    ofMembers n (ofJson n) ms (.str tag) = .ok t := by
  simpa [ofJson, required_of_lookup hnode, bind, Except.bind] using h

/-- What is read of a node was read of its parts. -/
theorem exists_ofJson_of_part {n : Nat} {d v : Json} {t : Term} (h : ofJson n d = .ok t)
    (hv : Part v d) :
    ∃ m t', ofJson m v = .ok t' := by
  cases n with
  | zero => cases h
  | succ n =>
      cases hv with
      | member hnode hkey hlookup =>
          have hread := ofMembers_of_ofJson hnode h
          have hrequired := required_of_lookup hlookup
          -- Each member that holds a term is required, and then read.
          simp only [Json.termKeys, List.mem_cons, Prod.mk.injEq, List.not_mem_nil, or_false]
            at hkey
          rcases hkey with ⟨rfl, rfl⟩ | ⟨rfl, rfl⟩ | ⟨rfl, rfl⟩ | ⟨rfl, rfl⟩ | ⟨rfl, rfl⟩ |
            ⟨rfl, rfl⟩ | ⟨rfl, rfl⟩ | ⟨rfl, rfl⟩ | ⟨rfl, rfl⟩ <;>
          simp only [ofMembers, bind_eq_ok_iff, hrequired] at hread <;>
            grind [bind_eq_ok_iff, Malformed.stop]
      | argument hnode hargs hmem =>
          have hread := ofMembers_of_ofJson hnode h
          simp only [ofMembers, bind_eq_ok_iff, requiredList_of_lookup hargs, Except.ok.injEq]
            at hread
          obtain ⟨_, _, _, _, _, rfl, _, hall, _⟩ := hread
          exact ⟨n, exists_of_mapM hall hmem⟩
      | @value ms ys tag bs _ hnode htag hbs hx hlookup =>
          have hread := ofMembers_of_ofJson hnode h
          have hall : ∃ xs, bs.mapM (bindingOfJson n (ofJson n)) = .ok xs := by
            rcases htag with rfl | rfl <;>
            simp only [ofMembers, bind_eq_ok_iff, requiredList_of_lookup hbs, Except.ok.injEq]
              at hread <;>
            obtain ⟨_, rfl, xs, hall, _⟩ := hread <;>
            exact ⟨xs, hall⟩
          obtain ⟨xs, hall⟩ := hall
          obtain ⟨x, hbinding⟩ := exists_of_mapM hall hx
          simp only [bindingOfJson, bind_eq_ok_iff, required_of_lookup hlookup, Except.ok.injEq]
            at hbinding
          obtain ⟨_, _, _, rfl, t', ht', _⟩ := hbinding
          exact ⟨n, t', ht'⟩

/-- No term is read from a value with an overlarge `Float` literal. -/
theorem not_hasLargeFloat_of_ofJson {n : Nat} {v : Json} {t : Term} (h : ofJson n v = .ok t) :
    ¬ v.HasLargeFloat := by
  intro hlarge
  induction hlarge generalizing n t with
  | literal hnode hkind hvalue large =>
      cases n with
      | zero => cases h
      | succ n =>
          have hread := ofMembers_of_ofJson hnode h
          have hfloat : LiteralKind.ofName? "Float" = some .float := by decide
          simp only [ofMembers, bind_eq_ok_iff, Literal.ofMembers, required_of_lookup hkind]
            at hread
          simp [Json.text?, hfloat, required_of_lookup hvalue, Literal.promote, large, bind,
            Except.bind] at hread
  | part hpart _ ih =>
      obtain ⟨m, t', ht'⟩ := exists_ofJson_of_part h hpart
      exact ih ht'

/-- A value of the grammar that nests less deeply than the limit is read, unless a literal is too
large; then reading breaks off. -/
theorem decode_of_isTerm {limit : Nat} {v : Json} (hterm : v.IsTerm) (hdepth : v.depth < limit) :
    ((∃ t, decode limit v = .ok t) ↔ ¬ v.HasLargeFloat) ∧
      (decode limit v = .error .overflow ↔ v.HasLargeFloat) := by
  have hsettles := settles_ofJson limit v
  cases hout : decode limit v with
  | ok t =>
      have hsmall := not_hasLargeFloat_of_ofJson (decode_eq_ok_iff.1 hout)
      simp [hsmall]
  | error e =>
      cases e with
      | malformed m =>
          rw [ofJson_of_decode_error hout (by simp)] at hsettles
          exact absurd hterm hsettles.1
      | tooDeep => exact absurd hout (decode_ne_tooDeep hdepth)
      | overflow =>
          rw [ofJson_of_decode_error hout (by simp)] at hsettles
          have hlarge : v.HasLargeFloat := hsettles
          simp [hlarge]

end Term

end Monotype
