/-!
# Finite maps in insertion order

A map whose entries stand in the order in which their keys first arrived.  Writing a key that is
already there replaces the value and leaves the key in its place, so the order of the keys depends
only on their first arrivals.

- `Entries.put` is the write on a bare list of entries;
- `OrderedMap` packages a list of entries with the proof that no key is repeated.

Main statements: `Entries.lookup_put` (a write is seen at its own key and nowhere else) and
`Entries.keys_put` (the order of the keys after a write).
-/

namespace Monotype

/-! ## Bare lists of entries -/

namespace Entries

variable {κ ν μ : Type}

def keys (es : List (κ × ν)) : List κ :=
  es.map Prod.fst

/-- Write `v` at key `k`: in place if the key is there, at the end otherwise. -/
def put [DecidableEq κ] (k : κ) (v : ν) : List (κ × ν) → List (κ × ν)
  | [] => [(k, v)]
  | (k₁, v₁) :: es => if k₁ = k then (k, v) :: es else (k₁, v₁) :: put k v es

def putAll [DecidableEq κ] (base : List (κ × ν)) (es : List (κ × ν)) : List (κ × ν) :=
  es.foldl (fun acc e => put e.1 e.2 acc) base

@[simp] theorem keys_nil : keys ([] : List (κ × ν)) = [] := rfl

@[simp] theorem keys_cons (e : κ × ν) (es : List (κ × ν)) : keys (e :: es) = e.1 :: keys es := rfl

/-- A key that is there already keeps its place; a new one comes last. -/
theorem keys_put [DecidableEq κ] (k : κ) (v : ν) (es : List (κ × ν)) :
    keys (put k v es) = if k ∈ keys es then keys es else keys es ++ [k] := by
  induction es with
  | nil => simp [put]
  | cons e es ih =>
      obtain ⟨k₁, v₁⟩ := e
      by_cases h : k₁ = k
      · simp [put, h]
      · have h' : ¬ k = k₁ := fun hk => h hk.symm
        by_cases hm : k ∈ keys es
        · simp [put, h, ih, hm]
        · simp [put, h, h', ih, hm]

/-- Writing an entry never repeats a key. -/
theorem nodup_keys_put [DecidableEq κ] (k : κ) (v : ν) {es : List (κ × ν)} (h : (keys es).Nodup) :
    (keys (put k v es)).Nodup := by
  rw [keys_put]
  by_cases hm : k ∈ keys es
  · simpa [hm] using h
  · rw [if_neg hm, List.nodup_append]
    refine ⟨h, by simp, ?_⟩
    intro a ha b hb
    rw [List.mem_singleton] at hb
    exact fun hab => hm (hb ▸ hab ▸ ha)

theorem nodup_keys_putAll [DecidableEq κ] (es : List (κ × ν)) {base : List (κ × ν)}
    (h : (keys base).Nodup) : (keys (putAll base es)).Nodup := by
  induction es generalizing base with
  | nil => exact h
  | cons e es ih => exact ih (nodup_keys_put e.1 e.2 h)

theorem lookup_cons [DecidableEq κ] (k : κ) (v : ν) (es : List (κ × ν)) (j : κ) :
    ((k, v) :: es).lookup j = if j = k then some v else es.lookup j := by
  by_cases h : j = k
  · simp [h]
  · have hb : (j == k) = false := by simpa using h
    simp [List.lookup_cons, h, hb]

theorem mem_keys_iff [DecidableEq κ] {k : κ} {es : List (κ × ν)} :
    k ∈ keys es ↔ (es.lookup k).isSome := by
  induction es with
  | nil => simp
  | cons e es ih =>
      rcases e with ⟨j, v⟩
      by_cases hk : k = j
      · simp [hk]
      · simp [lookup_cons, hk, ih]

/-- The last entry that is written at a key is the one that is found. -/
theorem lookup_put [DecidableEq κ] (k : κ) (v : ν) (es : List (κ × ν)) (j : κ) :
    (put k v es).lookup j = if j = k then some v else es.lookup j := by
  induction es with
  | nil => simp [put, lookup_cons]
  | cons e es ih =>
      obtain ⟨k₁, v₁⟩ := e
      by_cases h : k₁ = k
      · subst h
        by_cases hj : j = k₁ <;> simp [put, lookup_cons, hj]
      · by_cases hj : j = k₁
        · subst hj
          simp [put, h]
        · simp [put, lookup_cons, h, hj, ih]

/-- Of several writes at a key the last one is seen. -/
theorem lookup_putAll [DecidableEq κ] (base es : List (κ × ν)) (k : κ) :
    (putAll base es).lookup k = (es.reverse.lookup k).or (base.lookup k) := by
  induction es generalizing base with
  | nil => rfl
  | cons e es ih =>
      rcases e with ⟨j, v⟩
      have hput : putAll base ((j, v) :: es) = putAll (put j v base) es := rfl
      rw [hput, ih, lookup_put, List.reverse_cons, List.lookup_append, Option.or_assoc, lookup_cons]
      by_cases hk : k = j
      · simp [hk]
      · simp [hk]

/-- The order of the entries does not matter for a key that stands in one of them only. -/
theorem lookup_reverse [DecidableEq κ] {es : List (κ × ν)} {k : κ} (h : (keys es).count k ≤ 1) :
    es.reverse.lookup k = es.lookup k := by
  induction es with
  | nil => rfl
  | cons e es ih =>
      rcases e with ⟨j, v⟩
      rw [keys_cons, List.count_cons] at h
      rw [List.reverse_cons, List.lookup_append, ih (by omega), lookup_cons, lookup_cons]
      by_cases hk : k = j
      · -- The first entry has the key, so no other one does.
        subst hk
        have hcount : (keys es).count k = 0 := by
          rw [beq_self_eq_true, if_pos rfl] at h
          omega
        have hnone : es.lookup k = none := by
          rw [List.lookup_eq_none_iff]
          intro e he
          have hmem : e.1 ∈ keys es := List.mem_map_of_mem he
          have hne : k ≠ e.1 := fun hke => List.count_eq_zero.1 hcount (hke ▸ hmem)
          simpa using hne
        simp [hnone]
      · simp [hk]

/-- Replace every value by what `f` makes of it, or fail if `f` fails on one of them.  The keys stay
as they are. -/
def traverse (f : ν → Option μ) :
    (es : List (κ × ν)) → Option { out : List (κ × μ) // keys out = keys es }
  | [] => some ⟨[], rfl⟩
  | (k, v) :: es =>
      match f v, traverse f es with
      | some w, some ⟨out, h⟩ => some ⟨(k, w) :: out, by simp [h]⟩
      | _, _ => none

end Entries

/-! ## Maps without repeated keys -/

/-- A finite map in insertion order. -/
structure OrderedMap (κ ν : Type) where
  -- The entries, in the order in which their keys first arrived.
  entries : List (κ × ν)
  nodup : (Entries.keys entries).Nodup

namespace OrderedMap

variable {κ ν : Type}

def empty : OrderedMap κ ν := ⟨[], List.nodup_nil⟩

instance : Inhabited (OrderedMap κ ν) := ⟨empty⟩

def single (k : κ) (v : ν) : OrderedMap κ ν := ⟨[(k, v)], by simp⟩

def keys (m : OrderedMap κ ν) : List κ := Entries.keys m.entries

def size (m : OrderedMap κ ν) : Nat := m.entries.length

def get? [DecidableEq κ] (m : OrderedMap κ ν) (k : κ) : Option ν := m.entries.lookup k

def contains [DecidableEq κ] (m : OrderedMap κ ν) (k : κ) : Bool := (m.get? k).isSome

def insert [DecidableEq κ] (m : OrderedMap κ ν) (k : κ) (v : ν) : OrderedMap κ ν :=
  ⟨Entries.put k v m.entries, Entries.nodup_keys_put k v m.nodup⟩

def insertAll [DecidableEq κ] (m : OrderedMap κ ν) (es : List (κ × ν)) : OrderedMap κ ν :=
  ⟨Entries.putAll m.entries es, Entries.nodup_keys_putAll es m.nodup⟩

/-- The map of a list of entries: a repeated key keeps its first place and its last value. -/
def ofList [DecidableEq κ] (es : List (κ × ν)) : OrderedMap κ ν := empty.insertAll es

def traverse (f : ν → Option ν) (m : OrderedMap κ ν) : Option (OrderedMap κ ν) :=
  (Entries.traverse f m.entries).map fun out =>
    ⟨out.val, by rw [out.property]; exact m.nodup⟩

/-- Whether two maps hold the same value at every key, whatever the order of their entries. -/
def sameMap [DecidableEq κ] [DecidableEq ν] (m n : OrderedMap κ ν) : Bool :=
  m.size == n.size && m.entries.all fun e => n.get? e.1 == some e.2

@[simp] theorem get?_empty [DecidableEq κ] (k : κ) : (empty : OrderedMap κ ν).get? k = none := rfl

/-- What is written at a key is read back there, and nothing else changes. -/
theorem get?_insert [DecidableEq κ] (m : OrderedMap κ ν) (k : κ) (v : ν) (j : κ) :
    (m.insert k v).get? j = if j = k then some v else m.get? j :=
  Entries.lookup_put k v m.entries j

theorem mem_keys_iff [DecidableEq κ] {m : OrderedMap κ ν} {k : κ} :
    k ∈ m.keys ↔ (m.get? k).isSome :=
  Entries.mem_keys_iff

theorem length_keys (m : OrderedMap κ ν) : m.keys.length = m.size := List.length_map Prod.fst

/-- The keys stay in the order in which they first arrived. -/
theorem keys_insert [DecidableEq κ] (m : OrderedMap κ ν) (k : κ) (v : ν) :
    (m.insert k v).keys = if k ∈ m.keys then m.keys else m.keys ++ [k] :=
  Entries.keys_put k v m.entries

end OrderedMap

end Monotype
