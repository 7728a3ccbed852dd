import Mathlib.Data.List.Basic
import Monotype.Proofs.Ty.Rename
import Monotype.Ty.Normal

/-!
# Normal forms and first occurrences

The walk that numbers the variables of a type carries a table.  After any part of the type, the
table holds exactly the variables that have come up, in the order of their first occurrences, each
with its place in that order (`NumberTable.Numbers`).  One variable keeps this
(`NumberTable.Numbers.number`), and so does a whole type (`Ty.numbered_eq`); a place is never given
anew, so the numbers written early on are still right at the end (`Ty.rename_place_append`).

Hence the normal form is the type renamed by the places of first occurrence (`Ty.normal_eq_rename`),
and an injective renaming of the type does not change it (`Ty.normal_rename`).
-/

namespace Monotype

/-- The table holds the variables of a list of occurrences in the order of their first occurrences,
each with its place in that order. -/
structure NumberTable.Numbers (table : NumberTable) (is : List Int) : Prop where
  keys_eq : table.keys = is.eraseDups
  get?_eq : ∀ i ∈ is, table.get? i = some (is.eraseDups.idxOf i : Int)

namespace NumberTable

variable {table : NumberTable} {is : List Int}

theorem numbers_empty : Numbers .empty [] where
  keys_eq := rfl
  get?_eq _ hi := absurd hi List.not_mem_nil

/-- A new occurrence counts only if it is the first one of its variable. -/
theorem eraseDups_concat (is : List Int) (i : Int) :
    (is ++ [i]).eraseDups = if i ∈ is then is.eraseDups else is.eraseDups ++ [i] := by
  by_cases hi : i ∈ is
  · simp [List.eraseDups_append, List.removeAll, hi]
  · simp [List.eraseDups_append, List.removeAll, hi, List.eraseDups_cons]

/-- One more variable: its number is the place of its first occurrence, be it this one or an earlier
one, and the table then holds the longer list. -/
theorem Numbers.number (h : Numbers table is) (i : Int) :
    (table.number i).1 = (is ++ [i]).eraseDups.idxOf i ∧
      Numbers (table.number i).2 (is ++ [i]) := by
  by_cases hi : i ∈ is
  · have hdups : (is ++ [i]).eraseDups = is.eraseDups := by rw [eraseDups_concat, if_pos hi]
    have hnumber : table.number i = ((is.eraseDups.idxOf i : Int), table) := by
      rw [NumberTable.number, h.get?_eq i hi]
    rw [hnumber, hdups]
    refine ⟨rfl, h.keys_eq.trans hdups.symm, ?_⟩
    intro j hj
    have hj' : j ∈ is := by
      rcases List.mem_append.1 hj with hj | hj
      · exact hj
      · exact List.mem_singleton.1 hj ▸ hi
    rw [h.get?_eq j hj', hdups]
  · have hdups : (is ++ [i]).eraseDups = is.eraseDups ++ [i] := by
      rw [eraseDups_concat, if_neg hi]
    have hkey : i ∉ table.keys := by simpa [h.keys_eq] using hi
    have hget : table.get? i = none := by simpa [OrderedMap.mem_keys_iff] using hkey
    have hsize : table.size = is.eraseDups.length := by
      rw [← OrderedMap.length_keys, h.keys_eq]
    have hnumber : table.number i =
        ((is.eraseDups.length : Int), table.insert i is.eraseDups.length) := by
      rw [NumberTable.number, hget, hsize]
    -- The new variable comes last, so its place is the number of the variables before it.
    have hlast : (is.eraseDups ++ [i]).idxOf i = is.eraseDups.length := by
      rw [List.idxOf_append_of_notMem (by simpa using hi), List.idxOf_cons_self, Nat.add_zero]
    rw [hnumber, hdups, hlast]
    refine ⟨rfl, ?_, ?_⟩
    · rw [OrderedMap.keys_insert, if_neg hkey, h.keys_eq, hdups]
    · intro j hj
      rw [OrderedMap.get?_insert, hdups]
      by_cases hji : j = i
      · rw [if_pos hji, hji, hlast]
      · have hj' : j ∈ is := by simpa [hji] using hj
        rw [if_neg hji, h.get?_eq j hj',
          List.idxOf_append_of_mem (List.mem_eraseDups.2 hj')]

end NumberTable

namespace Ty

open NumberTable (Numbers)

variable {table : NumberTable} {is : List Int}

def place (is : List Int) (i : Int) : Int := (is.eraseDups.idxOf i : Nat)

/-- Further occurrences do not move the variables that have come up. -/
theorem rename_place_append {t : Ty} (h : ∀ i ∈ t.vars, i ∈ is) (js : List Int) :
    t.rename (place (is ++ js)) = t.rename (place is) := by
  apply rename_congr
  intro i hi
  rw [place, place, List.eraseDups_append,
    List.idxOf_append_of_mem (List.mem_eraseDups.2 (h i hi))]

/-- What the walk makes of types one after the other, if each of them is numbered by first
occurrence after whatever came before it. -/
theorem numberedAll_eq {ts : List Ty}
    (hts : ∀ t ∈ ts, ∀ {table : NumberTable} {is : List Int}, Numbers table is →
      (t.numbered table).1 = t.rename (place (is ++ t.vars)) ∧
        Numbers (t.numbered table).2 (is ++ t.vars))
    (h : Numbers table is) :
    (numberedAll table ts).1 = ts.map (rename (place (is ++ ts.flatMap vars))) ∧
      Numbers (numberedAll table ts).2 (is ++ ts.flatMap vars) := by
  induction ts generalizing table is with
  | nil => exact ⟨rfl, by simpa [numberedAll] using h⟩
  | cons t ts ih =>
      obtain ⟨ht, hmid⟩ := hts t List.mem_cons_self h
      obtain ⟨hrest, hlast⟩ := ih (fun u hu => hts u (List.mem_cons_of_mem t hu)) hmid
      -- What comes later does not change the numbers of the first type.
      have hearly : t.rename (place (is ++ t.vars)) =
          t.rename (place (is ++ t.vars ++ ts.flatMap vars)) :=
        (rename_place_append (fun i hi => List.mem_append_right is hi) _).symm
      have hvars : is ++ (t :: ts).flatMap vars = is ++ t.vars ++ ts.flatMap vars := by simp
      rw [hvars]
      refine ⟨?_, hlast⟩
      calc
        (numberedAll table (t :: ts)).1
            = (t.numbered table).1 :: (numberedAll (t.numbered table).2 ts).1 := rfl
        _ = _ := by rw [ht, hrest, hearly, List.map_cons]

/-- The walk renames a type by the places of first occurrence, counted from the variables that were
in the table, and hands on the table of all variables so far. -/
theorem numbered_eq (t : Ty) : ∀ {table : NumberTable} {is : List Int}, Numbers table is →
    (t.numbered table).1 = t.rename (place (is ++ t.vars)) ∧
      Numbers (t.numbered table).2 (is ++ t.vars) := by
  induction t with
  | unknown => exact fun h => ⟨rfl, by simpa [numbered] using h⟩
  | const c => exact fun h => ⟨rfl, by simpa [numbered] using h⟩
  | var i =>
      intro table is h
      obtain ⟨hplace, hnumbers⟩ := h.number i
      exact ⟨congrArg Ty.var hplace, hnumbers⟩
  | fn ps r ihp ihr =>
      intro table is h
      obtain ⟨hps, hmid⟩ := numberedAll_eq ihp h
      obtain ⟨hr, hlast⟩ := ihr hmid
      -- Nor does the result change those of the parameters.
      have hearly : ps.map (rename (place (is ++ ps.flatMap vars))) =
          ps.map (rename (place (is ++ ps.flatMap vars ++ r.vars))) := by
        apply List.map_congr_left
        intro p hp
        refine (rename_place_append (fun i hi => ?_) _).symm
        exact List.mem_append_right is (List.mem_flatMap.2 ⟨p, hp, hi⟩)
      rw [vars_fn, ← List.append_assoc]
      refine ⟨?_, hlast⟩
      calc
        ((Ty.fn ps r).numbered table).1
            = .fn (numberedAll table ps).1 (r.numbered (numberedAll table ps).2).1 := rfl
        _ = _ := by rw [hps, hr, hearly, rename_fn]

/-- The normal form puts the place of its first occurrence for every variable. -/
theorem normal_eq_rename (t : Ty) :
    t.normal = t.rename fun i => (t.distinctVars.idxOf i : Nat) :=
  (numbered_eq t NumberTable.numbers_empty).1

/-! ## Renamed types -/

theorem beq_rename (ρ : Int ↪ Int) (i j : Int) : (ρ i == ρ j) = (i == j) := by
  by_cases hij : i = j
  · simp [hij]
  · simp [hij, ρ.injective.ne hij]

/-- An injective renaming keeps first occurrences. -/
theorem eraseDups_map (ρ : Int ↪ Int) (is : List Int) :
    (is.map ρ).eraseDups = is.eraseDups.map ρ := by
  -- What is left after the first element is shorter, but no sublist at the front.
  induction hn : is.length using Nat.strongRecOn generalizing is with
  | ind n ih =>
      cases is with
      | nil => rfl
      | cons i is =>
          have hfilter : (is.map ρ).filter (fun j => !j == ρ i) =
              (is.filter fun j => !j == i).map ρ := by
            simp only [List.filter_map, Function.comp_def, beq_rename]
          have hlt : (is.filter fun j => !j == i).length < n :=
            hn ▸ Nat.lt_succ_of_le (List.length_filter_le _ _)
          simp only [List.map_cons, List.eraseDups_cons, hfilter, ih _ hlt _ rfl]

/-- An injective renaming keeps places. -/
theorem idxOf_map (ρ : Int ↪ Int) (i : Int) (is : List Int) :
    (is.map ρ).idxOf (ρ i) = is.idxOf i := by
  induction is with
  | nil => rfl
  | cons j is ih => simp only [List.map_cons, List.idxOf_cons, beq_rename, ih]

/-- The distinct variables of a renamed type are the renamed ones, in the same order. -/
theorem distinctVars_rename (ρ : Int ↪ Int) (t : Ty) :
    (t.rename ρ).distinctVars = t.distinctVars.map ρ := by
  rw [distinctVars, vars_rename, eraseDups_map]
  rfl

/-- Types that differ by an injective renaming have the same normal form. -/
theorem normal_rename (ρ : Int ↪ Int) (t : Ty) : (t.rename ρ).normal = t.normal := by
  rw [normal_eq_rename, rename_rename, normal_eq_rename]
  apply rename_congr
  intro i _
  rw [distinctVars_rename, idxOf_map]

end Ty

end Monotype
