import Mathlib.Data.List.Nodup
import Monotype.TypedTerm

/-!
# The annotated listing of a typed tree

The listing is made with a stack of pending trees: the top one gives its lines and is replaced by
its children, which are pushed from the last to the first.  `TypedTerm.outline` is the same listing
by plain recursion.  What the stack still has to give is the outlines of its trees, from the top
down (`stackLines_eq`); a step of the loop does not change that.

A place is a path to a node, as a list of child numbers.  `TypedTerm.places` lists all nodes with
their places, so the length of a path is the depth of its node.

Main statement: `TypedTerm.lines_eq_outline_and_places`.
-/

namespace Monotype

namespace TypedTerm

/-- A property that a tree has if its children have it is a property of all trees. -/
@[elab_as_elim]
theorem induct {P : TypedTerm → Prop}
    (node : ∀ term type children bound, (∀ c ∈ children, P c) → P (.node term type children bound))
    (t : TypedTerm) : P t := by
  refine @TypedTerm.rec P (fun ts => ∀ t ∈ ts, P t) node ?_ ?_ t
  · simp
  · intro t ts ht hts
    simpa using ⟨ht, hts⟩

/-! ## Outlines -/

mutual

/-- The lines of a tree that stands at a level: that of the root, then one for each name that it
binds, a level deeper, then the lines of the children.  Every level is worth two spaces. -/
def outline (level : Nat) : TypedTerm → List Text
  | .node term type children bound =>
      Text.plain (String.ofList (List.replicate (2 * level) ' ') ++ term.kind ++ ": " ++
        type.text) ::
        (bound.map fun b =>
          String.ofList (List.replicate (2 * (level + 1)) ' ') ++ b.1 ++ " : " ++ b.2.text) ++
        outlineAll (level + 1) children

def outlineAll (level : Nat) : List TypedTerm → List Text
  | [] => []
  | t :: ts => outline level t ++ outlineAll level ts

end

theorem outlineAll_eq (level : Nat) (ts : List TypedTerm) :
    outlineAll level ts = ts.flatMap (outline level) := by
  induction ts with
  | nil => rfl
  | cons t ts ih => simp [outlineAll, ih]

theorem outline_node (level : Nat) (term : Term) (type : Ty) (children : List TypedTerm)
    (bound : List (Text × Ty)) :
    (node term type children bound).outline level =
      nodeLines level (.node term type children bound) ++
        children.flatMap (outline (level + 1)) := by
  rw [outline, outlineAll_eq]
  simp only [nodeLines, indent, line, TypedTerm.term, TypedTerm.type, TypedTerm.bound,
    String.append_assoc, List.cons_append]

/-- What a stack still has to give. -/
def pendingLines (stack : List (TypedTerm × Nat)) : List Text :=
  stack.flatMap fun e => e.1.outline e.2

/-- A step of the loop gives the lines of the top node, and leaves the rest of what was pending. -/
theorem pendingLines_step (term : Term) (type : Ty) (children : List TypedTerm)
    (bound : List (Text × Ty)) (level : Nat) (stack : List (TypedTerm × Nat)) :
    pendingLines ((.node term type children bound, level) :: stack) =
      nodeLines level (.node term type children bound) ++
        pendingLines (pushReversed (level + 1) children stack) := by
  have hchildren :
      pendingLines (atLevel (level + 1) children) = children.flatMap (outline (level + 1)) := by
    simp [pendingLines, atLevel, List.flatMap_map]
  calc pendingLines ((.node term type children bound, level) :: stack)
      = (node term type children bound).outline level ++ pendingLines stack := rfl
    _ = nodeLines level (.node term type children bound) ++
          (children.flatMap (outline (level + 1)) ++ pendingLines stack) := by
        rw [outline_node, List.append_assoc]
    _ = nodeLines level (.node term type children bound) ++
          pendingLines (pushReversed (level + 1) children stack) := by
        rw [pushReversed_eq, ← hchildren]
        simp only [pendingLines, List.flatMap_append]

/-- The loop gives what is pending. -/
theorem stackLines_eq (stack : List (TypedTerm × Nat)) : stackLines stack = pendingLines stack := by
  fun_induction stackLines stack with
  | case1 => rfl
  | case2 term type children bound level stack ih => rw [ih, pendingLines_step]

/-- The loop over a stack gives the lines that the recursion over the tree gives. -/
theorem lines_eq_outline (t : TypedTerm) : t.lines = t.outline 0 := by
  rw [lines, stackLines_eq]
  simp [pendingLines]

/-! ## Places -/

def at? : TypedTerm → List Nat → Option TypedTerm
  | T, [] => some T
  | T, k :: path => T.children[k]?.bind fun C => C.at? path

mutual

/-- All nodes in pre-order, each with the path to it. -/
def places : TypedTerm → List (List Nat × TypedTerm)
  | .node term type children bound => ([], .node term type children bound) :: placesAll 0 children

def placesAll (k : Nat) : List TypedTerm → List (List Nat × TypedTerm)
  | [] => []
  | t :: ts => (places t).map (Prod.map (k :: ·) id) ++ placesAll (k + 1) ts

end

/-- The places in a list of trees are those of each tree, with its number in front. -/
theorem mem_placesAll {k : Nat} {ts : List TypedTerm} {path : List Nat} {n : TypedTerm} :
    (path, n) ∈ placesAll k ts ↔
      ∃ i c rest, ts[i]? = some c ∧ (rest, n) ∈ c.places ∧ path = (k + i) :: rest := by
  induction ts generalizing k with
  | nil => simp [placesAll]
  | cons t ts ih =>
      rw [placesAll, List.mem_append, ih]
      constructor
      · rintro (hfirst | ⟨i, c, rest, hc, hmem, rfl⟩)
        · obtain ⟨⟨rest, m⟩, hmem, heq⟩ := List.mem_map.1 hfirst
          cases heq
          exact ⟨0, t, rest, rfl, hmem, rfl⟩
        · exact ⟨i + 1, c, rest, hc, hmem, by rw [Nat.add_right_comm, Nat.add_assoc]⟩
      · rintro ⟨i, c, rest, hc, hmem, rfl⟩
        cases i with
        | zero =>
            cases hc
            exact Or.inl (List.mem_map.2 ⟨(rest, n), hmem, rfl⟩)
        | succ i => exact Or.inr ⟨i, c, rest, hc, hmem, by rw [Nat.add_right_comm, Nat.add_assoc]⟩

/-- The places are the paths that lead to a node. -/
theorem mem_places {t n : TypedTerm} {path : List Nat} :
    (path, n) ∈ t.places ↔ t.at? path = some n := by
  induction t using induct generalizing path with
  | node term type children bound ih =>
      cases path with
      | nil =>
          have hbelow : ([], n) ∉ placesAll 0 children := by
            intro hmem
            obtain ⟨_, _, _, _, _, hpath⟩ := mem_placesAll.1 hmem
            cases hpath
          simp [places, at?, hbelow, eq_comm]
      | cons k path =>
          rw [places, List.mem_cons, mem_placesAll, at?, Option.bind_eq_some_iff]
          constructor
          · rintro (hroot | ⟨i, c, rest, hc, hmem, hpath⟩)
            · cases hroot
            · obtain ⟨rfl, rfl⟩ : k = i ∧ path = rest := by simpa using hpath
              exact ⟨c, hc, (ih c (List.mem_of_getElem? hc)).1 hmem⟩
          · rintro ⟨c, hc, hat⟩
            refine Or.inr ⟨k, c, path, hc, (ih c (List.mem_of_getElem? hc)).2 hat,
              by rw [Nat.zero_add]⟩

mutual

/-- The nodes with their places come in pre-order. -/
theorem map_snd_places : ∀ t : TypedTerm, t.places.map Prod.snd = t.nodes
  | .node term type children bound => by
      rw [places, nodes, List.map_cons, map_snd_placesAll 0 children]

/-- Without their paths, the places are the nodes of the pre-order. -/
theorem map_snd_placesAll :
    ∀ (k : Nat) (ts : List TypedTerm), (placesAll k ts).map Prod.snd = nodesAll ts
  | _, [] => rfl
  | k, t :: ts => by
      have ht : (t.places.map (Prod.map (k :: ·) id)).map Prod.snd = t.nodes := by
        rw [← map_snd_places t, List.map_map]
        rfl
      rw [placesAll, nodesAll, List.map_append, ht, map_snd_placesAll (k + 1) ts]

end

mutual

/-- No place is listed twice. -/
theorem nodup_places : ∀ t : TypedTerm, (t.places.map Prod.fst).Nodup
  | .node term type children bound => by
      rw [places, List.map_cons, List.nodup_cons]
      refine ⟨?_, nodup_placesAll 0 children⟩
      intro hroot
      obtain ⟨⟨path, n⟩, hmem, hpath⟩ := List.mem_map.1 hroot
      obtain ⟨_, _, _, _, _, rfl⟩ := mem_placesAll.1 hmem
      cases hpath

/-- No two places have one path. -/
theorem nodup_placesAll : ∀ (k : Nat) (ts : List TypedTerm), ((placesAll k ts).map Prod.fst).Nodup
  | _, [] => .nil
  | k, t :: ts => by
      have ht : (t.places.map (Prod.map (k :: ·) id)).map Prod.fst =
        (t.places.map Prod.fst).map (k :: ·) := by
        simp [Function.comp_def]
      rw [placesAll, List.map_append, ht, List.nodup_append']
      refine ⟨(nodup_places t).map List.cons_injective, nodup_placesAll (k + 1) ts, ?_⟩
      -- The paths into the first tree start with another number than those into the others.
      intro path hfirst hrest
      obtain ⟨p, _, rfl⟩ := List.mem_map.1 hfirst
      obtain ⟨⟨q, n⟩, hmem, hpath⟩ := List.mem_map.1 hrest
      obtain ⟨i, c, rest, _, _, rfl⟩ := mem_placesAll.1 hmem
      have hk : k + 1 + i = k := (List.cons.inj hpath).1
      omega

end

mutual

/-- The outline goes through the nodes in pre-order, and every node stands as deep as its place is
long. -/
theorem outline_eq_flatMap_places :
    ∀ (level : Nat) (t : TypedTerm),
      t.outline level = t.places.flatMap fun e => nodeLines (level + e.1.length) e.2
  | level, .node term type children bound => by
      rw [outline_node, ← outlineAll_eq, outlineAll_eq_flatMap_places level 0 children, places,
        List.flatMap_cons]
      rfl

/-- The level of a node in the outline is the length of its path. -/
theorem outlineAll_eq_flatMap_places :
    ∀ (level k : Nat) (ts : List TypedTerm),
      outlineAll (level + 1) ts = (placesAll k ts).flatMap
        fun e => nodeLines (level + e.1.length) e.2
  | _, _, [] => rfl
  | level, k, t :: ts => by
      have ht : t.outline (level + 1) =
          (t.places.map (Prod.map (k :: ·) id)).flatMap
            fun e => nodeLines (level + e.1.length) e.2 := by
        rw [outline_eq_flatMap_places (level + 1) t, List.flatMap_map]
        simp only [Prod.map_fst, Prod.map_snd, id, List.length_cons, Nat.add_assoc, Nat.add_comm 1]
      rw [outlineAll, placesAll, List.flatMap_append, ht,
        outlineAll_eq_flatMap_places level (k + 1) ts]

end

/-! ## Main statement -/

/-- The listing that the stack gives is the recursive one.  It consists of the lines of the nodes in
pre-order, each with two spaces per level of its depth; every node of the tree has its place in it,
and exactly one. -/
theorem lines_eq_outline_and_places (t : TypedTerm) :
    t.lines = t.outline 0 ∧
    t.lines = t.places.flatMap (fun e =>
      Text.plain (String.ofList (List.replicate (2 * e.1.length) ' ') ++ e.2.term.kind ++ ": " ++
          e.2.type.text) ::
        e.2.bound.map fun b =>
          String.ofList (List.replicate (2 * (e.1.length + 1)) ' ') ++ b.1 ++ " : " ++ b.2.text) ∧
    t.places.map Prod.snd = t.nodes ∧
    (t.places.map Prod.fst).Nodup ∧
    ∀ path n, (path, n) ∈ t.places ↔ t.at? path = some n := by
  refine ⟨lines_eq_outline t, ?_, map_snd_places t, nodup_places t, fun _ _ => mem_places⟩
  rw [lines_eq_outline, outline_eq_flatMap_places]
  simp only [Nat.zero_add, nodeLines, indent, line, String.append_assoc]

end TypedTerm

end Monotype
