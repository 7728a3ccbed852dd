import Monotype.Codec.File
import Monotype.Proofs.Codec.Reading

/-!
# Decoding and encoding terms

Decoding reads within a limit of depth, and refuses to show what nests deeper than that.

Main statements: within its limits, decoding accepts exactly the grammar and calls every other value
malformed (`decode_ok_iff_isTerm`); writable terms survive being encoded and decoded, and whatever
is decoded is writable (`decode_toJson_of_writable_or_decoded`).
-/

namespace Monotype

open Json (HasLargeFloat)

namespace Term

/-- The check of the wording turns no term away. -/
theorem decode_eq_ok_iff {limit : Nat} {d : Json} {t : Term} :
    decode limit d = .ok t ↔ ofJson limit d = .ok t := by
  unfold decode
  cases ofJson limit d <;> simp [Except.mapError]

/-- Unless it is too deep, a fault is the reader's own. -/
theorem ofJson_of_decode_error {limit : Nat} {d : Json} {fault : DecodeFault}
    (h : decode limit d = .error fault) (hdeep : fault ≠ .tooDeep) :
    ofJson limit d = .error fault := by
  unfold decode at h
  cases hout : ofJson limit d with
  | ok t => simp [hout, Except.mapError] at h
  | error e =>
      have hwithin : e.within limit = fault := by simpa [hout, Except.mapError] using h
      cases e with
      | malformed m =>
          by_cases hshown : m.isShowable limit = true
          · simpa [DecodeFault.within, hshown] using hwithin
          · exact absurd (by simpa [DecodeFault.within, hshown] using hwithin.symm) hdeep
      | tooDeep => exact absurd hwithin.symm hdeep
      | overflow => simpa [DecodeFault.within] using hwithin

/-- A value that does not nest as deeply as the limit is never refused for its depth. -/
theorem decode_ne_tooDeep {limit : Nat} {d : Json} (hdepth : d.depth < limit) :
    decode limit d ≠ .error .tooDeep := by
  have hsettles := settles_ofJson limit d
  unfold decode
  cases hout : ofJson limit d with
  | ok t => simp [Except.mapError]
  | error e =>
      rw [hout] at hsettles
      cases e with
      | malformed m =>
          -- What a message shows is inside the value, so it does not nest deeper.
          have hshown : m.isShowable limit = true := by
            cases hfound : m.found? with
            | none => simp [Malformed.isShowable, hfound]
            | some v =>
                have hle := Json.depth_le_of_inside (hsettles.2 v hfound)
                have hv : v.depth ≤ limit := by omega
                simp [Malformed.isShowable, hfound, hv]
          simp [Except.mapError, DecodeFault.within, hshown]
      | tooDeep =>
          have hle : limit ≤ d.depth := hsettles
          omega
      | overflow => simp [Except.mapError, DecodeFault.within]

/-- Where no `Float` literal is too large and no integer has too many digits to be shown, a term is
read from exactly the values of the grammar, and every other value is malformed, with a message that
can be shown.  A limit of depth can only refuse a value that nests as deeply. -/
theorem decode_ok_iff_isTerm (limit : Nat) (d : Json) (hfloat : ¬ d.HasLargeFloat)
    (hdigits : d.toDocument.isShowable = true) :
    (∀ t, decode limit d = .ok t → d.IsTerm) ∧
    (∀ m, decode limit d = .error (.malformed m) →
      ¬ d.IsTerm ∧ ∀ v ∈ m.found?, v.toDocument.isShowable = true) ∧
    decode limit d ≠ .error .overflow ∧
    (d.depth < limit →
      ((∃ t, decode limit d = .ok t) ↔ d.IsTerm) ∧
      ((∃ m, decode limit d = .error (.malformed m)) ↔ ¬ d.IsTerm)) := by
  have hsettles := settles_ofJson limit d
  have hok : ∀ t, decode limit d = .ok t → d.IsTerm := by
    intro t ht
    rw [decode_eq_ok_iff.1 ht] at hsettles
    exact hsettles.1
  have hmalformed : ∀ m, decode limit d = .error (.malformed m) →
      ¬ d.IsTerm ∧ ∀ v ∈ m.found?, v.toDocument.isShowable = true := by
    intro m hm
    rw [ofJson_of_decode_error hm (by simp)] at hsettles
    exact ⟨hsettles.1, fun v hv => Json.isShowable_of_inside (hsettles.2 v hv) hdigits⟩
  have hoverflow : decode limit d ≠ .error .overflow := by
    intro ho
    rw [ofJson_of_decode_error ho (by simp)] at hsettles
    exact hfloat hsettles
  refine ⟨hok, hmalformed, hoverflow, ?_⟩
  intro hdepth
  cases hout : decode limit d with
  | ok t => simp [hok t hout]
  | error e =>
      cases e with
      | malformed m => simp [(hmalformed m hout).1]
      | tooDeep => exact absurd hout (decode_ne_tooDeep hdepth)
      | overflow => exact absurd hout hoverflow

def wholeFloat : Json := .obj [("node", .str "literal"), ("kind", .str "Float"), ("value", .int 3)]

/-- A function that returns it, with a bare name for its parameter. -/
def wholeFloatLambda : Json :=
  .obj [("node", .str "lambda"), ("params", .arr [.str "x"]), ("body", wholeFloat)]

/-- An integer may stand for a floating-point number, and a bare name for a parameter. -/
theorem decode_ok_iff_isTerm_of_wholeFloatLambda :
    ¬ wholeFloatLambda.HasLargeFloat ∧ wholeFloatLambda.toDocument.isShowable = true ∧
      wholeFloatLambda.depth < readLimit ∧ wholeFloatLambda.IsTerm := by
  have hliteral : ¬ wholeFloat.HasLargeFloat := by
    unfold wholeFloat
    rintro (⟨_, _, hvalue, hlarge⟩ | ⟨hpart, _⟩)
    · obtain rfl : (3 : Int) = _ := by simpa [Entries.lookup_cons] using hvalue
      exact absurd hlarge (by decide +kernel)
    · cases hpart with
      | member hnode hkey _ =>
          obtain rfl : Text.plain "literal" = _ := by simpa [Entries.lookup_cons] using hnode
          simp [Json.termKeys] at hkey
      | argument hnode _ _ => simp at hnode
      | value hnode htag _ _ _ =>
          obtain rfl : Text.plain "literal" = _ := by simpa [Entries.lookup_cons] using hnode
          simp at htag
  have hfloat : ¬ wholeFloatLambda.HasLargeFloat := by
    unfold wholeFloatLambda
    rintro (⟨hnode, _, _, _⟩ | ⟨hpart, hlarge⟩)
    · simp at hnode
    · cases hpart with
      | member hnode hkey h =>
          obtain rfl : Text.plain "lambda" = _ := by simpa [Entries.lookup_cons] using hnode
          obtain rfl : _ = "body" := by simpa [Json.termKeys] using hkey
          obtain rfl : wholeFloat = _ := by simpa [Entries.lookup_cons] using h
          exact hliteral hlarge
      | argument hnode _ _ => simp at hnode
      | value hnode htag _ _ _ =>
          obtain rfl : Text.plain "lambda" = _ := by simpa [Entries.lookup_cons] using hnode
          simp at htag
  have hdigits : wholeFloatLambda.toDocument.isShowable = true := by decide +kernel
  have hdepth : wholeFloatLambda.depth < readLimit := by decide
  have hread : ∃ t, decode readLimit wholeFloatLambda = .ok t :=
    ⟨.lam [⟨"x", none⟩] (.lit (.float _)), by rfl⟩
  have hexact := (decode_ok_iff_isTerm readLimit wholeFloatLambda hfloat hdigits).2.2.2 hdepth
  exact ⟨hfloat, hdigits, hdepth, hexact.1.1 hread⟩

/-- Values that are read, each with what is written for the term: with a member that nothing uses,
with a null annotation, with a bare name for a parameter, and with an integer for a floating-point
number. -/
def respellings : List (Json × Json) :=
  [(.obj [("node", .str "var"), ("name", .str "x"), ("line", .int 1)],
    .obj [("node", .str "var"), ("name", .str "x")]),
   (.obj [("node", .str "lambda"),
      ("params", .arr [.obj [("name", .str "x"), ("annotation", .null)]]),
      ("body", .obj [("node", .str "var"), ("name", .str "x")])],
    .obj [("node", .str "lambda"), ("params", .arr [.obj [("name", .str "x")]]),
      ("body", .obj [("node", .str "var"), ("name", .str "x")])]),
   (.obj [("node", .str "lambda"), ("params", .arr [.str "x"]),
      ("body", .obj [("node", .str "var"), ("name", .str "x")])],
    .obj [("node", .str "lambda"), ("params", .arr [.obj [("name", .str "x")]]),
      ("body", .obj [("node", .str "var"), ("name", .str "x")])]),
   (.obj [("node", .str "literal"), ("kind", .str "Float"), ("value", .int 0)],
    .obj [("node", .str "literal"), ("kind", .str "Float"), ("value", .float (.zero false))])]

/-- A writable term is written, and read back from what is written whenever the limit of depth
allows it.  What is read from any value is writable, and reading it back stays within the same
limit; what is written for it may be spelled otherwise than the value. -/
theorem decode_toJson_of_writable_or_decoded :
    (∀ t : Term, t.Writable → ∃ v, t.toJson = .ok v ∧
      ∀ limit, decode limit v = if t.readDepth ≤ limit then .ok t else .error .tooDeep) ∧
    (∀ limit d t, decode limit d = .ok t →
      t.Writable ∧ ∃ v, t.toJson = .ok v ∧ decode limit v = .ok t) ∧
    ∀ p ∈ respellings, p.1 ≠ p.2 ∧ ∃ t, decode readLimit p.1 = .ok t ∧ t.toJson = .ok p.2 := by
  have hwritable : ∀ t : Term, t.Writable → ∃ v, t.toJson = .ok v ∧
      ∀ limit, decode limit v = if t.readDepth ≤ limit then .ok t else .error .tooDeep := by
    intro t ht
    obtain ⟨v, hv, hread⟩ := ht.readsBack
    refine ⟨v, hv, ?_⟩
    intro limit
    rw [decode, hread limit, readWithin]
    by_cases hdepth : t.readDepth ≤ limit <;> simp [hdepth, Except.mapError, DecodeFault.within]
  refine ⟨hwritable, ?_, ?_⟩
  · intro limit d t h
    have hsettles := settles_ofJson limit d
    rw [decode_eq_ok_iff.1 h] at hsettles
    obtain ⟨_, ht, hdepth, _⟩ := hsettles
    obtain ⟨v, hv, hread⟩ := hwritable t ht
    exact ⟨ht, v, hv, by simpa [hdepth] using hread limit⟩
  · simp only [respellings, List.forall_mem_cons]
    refine ⟨⟨by simp, .var "x", rfl, rfl⟩, ⟨by simp, .lam [⟨"x", none⟩] (.var "x"), rfl, rfl⟩,
      ⟨by simp, .lam [⟨"x", none⟩] (.var "x"), rfl, rfl⟩,
      ⟨by simp, .lit (.float (.zero false)), rfl, rfl⟩, by simp⟩

/-- A `letrec` that binds a function, with annotations on the binding and on the parameter. -/
def annotatedLetRec : Term :=
  .letRec [⟨"f", some (.fn [.var 0] .int), .lam [⟨"x", some (.var 0)⟩] (.lit (.int 1))⟩]
    (.app (.var "f") [.lit (.bool true)])

/-- A `letrec` with annotations is written and read back. -/
theorem decode_toJson_of_annotatedLetRec :
    annotatedLetRec.Writable ∧
      ∃ v, annotatedLetRec.toJson = .ok v ∧ decode readLimit v = .ok annotatedLetRec := by
  have ht : annotatedLetRec.Writable := by
    have hint : Ty.Writable .int := .base (by simp [Json.baseNames])
    refine writable_letRec.2 ⟨⟨by simp, by simp [isLam]⟩, ?_, ?_⟩
    · refine List.forall_mem_singleton.2 ⟨writable_lam.2 ⟨?_, writable_lit _⟩, ?_⟩
      · simpa [DeclaredWritable] using Ty.Writable.var 0
      · simpa [DeclaredWritable] using Ty.Writable.fn (by simpa using Ty.Writable.var 0) hint
    · refine writable_app.2 ⟨writable_var _, List.forall_mem_singleton.2 (writable_lit _)⟩
  obtain ⟨v, hv, hread⟩ := decode_toJson_of_writable_or_decoded.1 annotatedLetRec ht
  exact ⟨ht, v, hv, (hread readLimit).trans (if_pos (by decide))⟩

end Term

end Monotype
