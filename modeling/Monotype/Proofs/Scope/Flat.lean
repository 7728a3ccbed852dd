import Mathlib.Data.List.Induction
import Mathlib.Data.List.Nodup
import Monotype.Proofs.Subst.Composition
import Monotype.Scope

/-!
# Scopes as flat maps

A scope is a chain of layers that is searched from the inside out.  `Scope.flat` is one map in its
place: the layers are written over each other from the outside in, so that an inner layer has the
last word.

The names of a scope are collected by a loop over the layers, from the inside out, that leaves out
what it has collected before.  What the loop has collected is known after every layer: one more
layer outside adds, behind the names that are there, those of its own names that are new
(`Scope.names_concat`).  All that is said here about the names follows from this step by induction
on the number of layers.

Main statement: `Scope.extendAll_flat_and_names`.
-/

namespace Monotype

namespace Scope

/-- The layers written over each other in one map, from the outermost to the innermost. -/
def flat (Γ : Scope) : Layer :=
  Γ.layers.foldr (fun layer outside => outside.insertAll layer.entries) .empty

/-- The number of the innermost layer that has the name, counted from the inside. -/
def home (Γ : Scope) (name : Text) : Nat := Γ.layers.findIdx (·.contains name)

/-- The scope without its innermost layers. -/
def outer (n : Nat) (Γ : Scope) : Scope := ⟨Γ.layers.drop n⟩

/-- Extend a scope again and again. -/
def extendAll (Γ : Scope) (bounds : List (List (Text × Ty))) : Scope := bounds.foldl extend Γ

/-! ## Lookup -/

/-- The innermost layer with a name is the one that was written last. -/
theorem lookup_eq_get?_flat (Γ : Scope) (x : Text) : Γ.lookup x = Γ.flat.get? x := by
  rcases Γ with ⟨layers⟩
  induction layers with
  | nil => rfl
  | cons layer layers ih =>
      -- The innermost layer is asked first, and it was written last.
      have hflat : flat ⟨layer :: layers⟩ = (flat ⟨layers⟩).insertAll layer.entries := rfl
      rw [hflat, OrderedMap.get?_insertAll, ← ih]
      cases hx : layer.get? x <;> simp [lookup, hx]

theorem extendAll_concat (Γ : Scope) (bounds : List (List (Text × Ty))) (bound : List (Text × Ty)) :
    Γ.extendAll (bounds ++ [bound]) = (Γ.extendAll bounds).extend bound := by
  rw [extendAll, extendAll, List.foldl_append, List.foldl_cons, List.foldl_nil]

/-- The last type that a new layer gives to a name counts; other names keep theirs. -/
theorem get?_flat_extend (Γ : Scope) (bound : List (Text × Ty)) (x : Text) :
    (Γ.extend bound).flat.get? x = (bound.reverse.lookup x).or (Γ.flat.get? x) := by
  have hlayer : (OrderedMap.ofList bound).get? x = bound.reverse.lookup x := by
    have hput := Entries.lookup_putAll [] bound x
    rw [List.lookup_nil, Option.or_none] at hput
    exact hput
  have hflat : (Γ.extend bound).flat = Γ.flat.insertAll (OrderedMap.ofList bound).entries := rfl
  rw [hflat, OrderedMap.get?_insertAll, hlayer]

/-- Extending a scope layer by layer is writing all entries into one map. -/
theorem get?_flat_extendAll (Γ : Scope) (bounds : List (List (Text × Ty))) (x : Text) :
    (Γ.extendAll bounds).flat.get? x = (bounds.foldl OrderedMap.insertAll Γ.flat).get? x := by
  induction bounds using List.reverseRecOn with
  | nil => rfl
  | append_singleton bounds bound ih =>
      have hwrite : ((bounds.foldl OrderedMap.insertAll Γ.flat).insertAll bound).get? x =
          (bound.reverse.lookup x).or ((bounds.foldl OrderedMap.insertAll Γ.flat).get? x) :=
        Entries.lookup_putAll _ bound x
      rw [extendAll_concat, get?_flat_extend, ih, List.foldl_append, List.foldl_cons,
        List.foldl_nil, hwrite]

/-! ## Names -/

/-- The inner loop adds the names that are new, in their order. -/
theorem addNames_eq (seen : List Text) {names : List Text} (hnodup : names.Nodup) :
    addNames seen names = seen ++ names.filter (· ∉ seen) := by
  induction names generalizing seen with
  | nil => simp [addNames]
  | cons x names ih =>
      obtain ⟨hx, hnodup⟩ := List.nodup_cons.1 hnodup
      by_cases hseen : x ∈ seen
      · have hstep : addNames seen (x :: names) = addNames seen names := by simp [addNames, hseen]
        simp [hstep, ih seen hnodup, hseen]
      · have hstep : addNames seen (x :: names) = addNames (seen ++ [x]) names := by
          simp [addNames, hseen]
        -- What comes after `x` is not `x`, so it is as new as it was before.
        have hrest : names.filter (· ∉ seen ++ [x]) = names.filter (· ∉ seen) := by
          apply List.filter_congr
          intro y hy
          have hyx : y ≠ x := fun h => hx (h ▸ hy)
          simp [hyx]
        rw [hstep, ih (seen ++ [x]) hnodup, hrest]
        simp [hseen]

/-- A further layer on the outside adds the names that are not there yet. -/
theorem names_concat (layers : List Layer) (layer : Layer) :
    names ⟨layers ++ [layer]⟩ = names ⟨layers⟩ ++ layer.keys.filter (· ∉ names ⟨layers⟩) := by
  have hloop : names ⟨layers ++ [layer]⟩ = addNames (names ⟨layers⟩) layer.keys := by
    rw [names, List.foldl_append]
    rfl
  exact hloop.trans (addNames_eq _ layer.nodup)

/-- No name is listed twice. -/
theorem nodup_names (Γ : Scope) : Γ.names.Nodup := by
  rcases Γ with ⟨layers⟩
  induction layers using List.reverseRecOn with
  | nil => exact List.nodup_nil
  | append_singleton layers layer ih =>
      have hnew : (layer.keys.filter (· ∉ names ⟨layers⟩)).Nodup := List.Nodup.filter _ layer.nodup
      rw [names_concat]
      refine ih.append hnew ?_
      intro x hx hx'
      simp [hx] at hx'

/-- The names are those of all layers. -/
theorem mem_names_iff_exists_layer {Γ : Scope} {x : Text} :
    x ∈ Γ.names ↔ ∃ layer ∈ Γ.layers, layer.contains x := by
  rcases Γ with ⟨layers⟩
  induction layers using List.reverseRecOn with
  | nil => simp [names]
  | append_singleton layers layer ih =>
      have hkeys : x ∈ layer.keys ↔ layer.contains x := OrderedMap.mem_keys_iff
      rw [names_concat, List.mem_append, List.mem_filter, hkeys]
      by_cases hx : x ∈ names ⟨layers⟩
      · obtain ⟨inner, hinner, hhas⟩ := ih.1 hx
        simp only [hx, true_or, true_iff]
        exact ⟨inner, List.mem_append_left _ hinner, hhas⟩
      · have hnone : ¬ ∃ inner ∈ layers, inner.contains x := fun h => hx (ih.2 h)
        simp only [List.mem_append, List.mem_singleton, or_and_right, exists_or, hnone, false_or]
        simp [hx]

/-- The names are those that have a type. -/
theorem mem_names_iff_lookup {Γ : Scope} {x : Text} : x ∈ Γ.names ↔ Γ.lookup x ≠ none := by
  rw [mem_names_iff_exists_layer, ← Option.isSome_iff_ne_none, lookup, List.findSome?_isSome_iff]
  rfl

/-- A name has a layer that it is found in exactly if it is listed. -/
theorem home_lt_iff {Γ : Scope} {x : Text} : Γ.home x < Γ.layers.length ↔ x ∈ Γ.names := by
  rw [mem_names_iff_exists_layer, home, List.findIdx_lt_length]

/-- A layer outside is no name's home that has one already, and otherwise it is the home of its
names. -/
theorem home_concat (layers : List Layer) (layer : Layer) (x : Text) :
    home ⟨layers ++ [layer]⟩ x =
      if x ∈ names ⟨layers⟩ then home ⟨layers⟩ x else home ⟨[layer]⟩ x + layers.length := by
  rw [home, List.findIdx_append]
  simp only [← home_lt_iff]
  rfl

/-- The names stand layer by layer from the inside out, each with its innermost layer and in its
order there. -/
theorem names_eq_flatMap_home (Γ : Scope) :
    Γ.names = Γ.layers.zipIdx.flatMap fun p => p.1.keys.filter fun x => Γ.home x = p.2 := by
  rcases Γ with ⟨layers⟩
  induction layers using List.reverseRecOn with
  | nil => rfl
  | append_singleton layers layer ih =>
      rw [List.zipIdx_append, List.flatMap_append, names_concat]
      congr 1
      · -- Names of inner layers keep their homes.
        rw [ih]
        apply List.flatMap_congr
        rintro ⟨inner, i⟩ hinner
        apply List.filter_congr
        intro x hx
        have hmem : inner ∈ layers := List.mem_of_getElem? (List.mem_zipIdx_iff_getElem?.1 hinner)
        have hnames : x ∈ names ⟨layers⟩ :=
          mem_names_iff_exists_layer.2 ⟨inner, hmem, OrderedMap.mem_keys_iff.1 hx⟩
        simp [home_concat, hnames]
      · rw [List.zipIdx_singleton, List.flatMap_singleton, Nat.zero_add]
        apply List.filter_congr
        intro x hx
        have hhome : home ⟨[layer]⟩ x = 0 := by
          have hhas : layer.contains x := OrderedMap.mem_keys_iff.1 hx
          simp [home, List.findIdx_cons, hhas]
        by_cases hnames : x ∈ names ⟨layers⟩
        · have hlt : home ⟨layers⟩ x < layers.length := home_lt_iff.2 hnames
          simp [home_concat, hnames, Nat.ne_of_lt hlt]
        · simp [home_concat, hnames, hhome]

/-! ## Parents -/

/-- The layers of an extended scope, innermost first. -/
theorem layers_extendAll (Γ : Scope) (bounds : List (List (Text × Ty))) :
    (Γ.extendAll bounds).layers = (bounds.map OrderedMap.ofList).reverse ++ Γ.layers := by
  induction bounds using List.reverseRecOn with
  | nil => rfl
  | append_singleton bounds bound ih => simp [extendAll_concat, extend, ih]

/-- Behind the layers that were added last stands the scope that they were added to. -/
theorem outer_extendAll (Γ : Scope) (bounds more : List (List (Text × Ty))) :
    (Γ.extendAll (bounds ++ more)).outer more.length = Γ.extendAll bounds := by
  have hall : Γ.extendAll (bounds ++ more) = (Γ.extendAll bounds).extendAll more :=
    List.foldl_append
  rw [hall, outer, layers_extendAll, List.drop_left' (by simp)]

/-- A scope that was extended again and again answers like one flat map, in which its layers are
written over each other from the outermost to the innermost.  Its names are those that have a type,
each once, with the innermost layer that has them.  Every scope on the way still stands behind the
layers that came after it. -/
theorem extendAll_flat_and_names (Γ : Scope) (bounds : List (List (Text × Ty))) :
    (∀ x, (Γ.extendAll bounds).lookup x = (Γ.extendAll bounds).flat.get? x ∧
      (Γ.extendAll bounds).lookup x = (bounds.foldl OrderedMap.insertAll Γ.flat).get? x) ∧
    (Γ.extendAll bounds).names.Nodup ∧
    (∀ x, (x ∈ (Γ.extendAll bounds).names ↔ (Γ.extendAll bounds).lookup x ≠ none) ∧
      (x ∈ (Γ.extendAll bounds).names ↔ (Γ.extendAll bounds).contains x = true)) ∧
    (Γ.extendAll bounds).names =
      ((Γ.extendAll bounds).layers.zipIdx.flatMap fun p =>
        p.1.keys.filter fun x => (Γ.extendAll bounds).home x = p.2) ∧
    ∀ n, (Γ.extendAll bounds).outer (bounds.length - n) = Γ.extendAll (bounds.take n) := by
  refine ⟨?_, nodup_names _, ?_, names_eq_flatMap_home _, ?_⟩
  · intro x
    have hflat := lookup_eq_get?_flat (Γ.extendAll bounds) x
    exact ⟨hflat, hflat.trans (get?_flat_extendAll Γ bounds x)⟩
  · intro x
    refine ⟨mem_names_iff_lookup, ?_⟩
    rw [mem_names_iff_lookup, contains, Option.isSome_iff_ne_none]
  · intro n
    have houter := outer_extendAll Γ (bounds.take n) (bounds.drop n)
    rwa [List.take_append_drop, List.length_drop] at houter

-- A name of an outer layer keeps its place there only if no inner layer has it.
example :
    (Scope.extendAll .empty
      [[("x", .int), ("y", .int)], [("z", .int), ("y", .bool)], [("x", .bool)]]).names =
      ["x", "z", "y"] := by decide

end Scope

end Monotype
