import Monotype.Json.Reader

/-!
# Room for reading JSON

A text has no more levels of lists and objects than characters, so reading it without a limit of
depth never runs out of room.
-/

namespace Monotype

namespace Json

namespace Reader

theorem unicodeEscape_ne_tooDeep (s : List Char) : unicodeEscape s ≠ .error .tooDeep := by
  fun_cases unicodeEscape s <;> simp

/-- Reading a string needs no room for levels. -/
theorem stringBody_ne_tooDeep (start : List Char) (n : Nat) (read : List Point) (s : List Char)
    (h : s.length ≤ n) : stringBody start n read s h ≠ .error .tooDeep := by
  fun_induction stringBody start n read s h <;> simp_all [stopAt]
  rename_i hstop _
  rintro rfl
  exact unicodeEscape_ne_tooDeep _ hstop

theorem numeral_value_ne_tooDeep (limits : Limits) (x : Numeral) :
    x.value limits ≠ .error .tooDeep := by
  fun_cases Numeral.value limits x <;> simp

/-- Words and numbers need no room for levels. -/
theorem atom_ne_tooDeep (limits : Limits) (s : List Char) : atom limits s ≠ .error .tooDeep := by
  fun_cases atom limits s <;> simp_all [stopAt]
  rename_i hstop
  rintro rfl
  exact numeral_value_ne_tooDeep limits _ hstop

section Steps

variable {limits : Limits} {room : Nat} {s : List Char}

/-- One item and the rest of a list, which is shorter. -/
theorem items_step (hvalue : value limits room s ≠ .error .tooDeep)
    (hitems : ∀ t, t.length < s.length → items limits room t ≠ .error .tooDeep) :
    items limits room s ≠ .error .tooDeep := by
  intro hout
  unfold items at hout
  split at hout
  next stop hstop =>
    cases hout
    exact hvalue hstop
  next v r hr _ =>
    split at hout
    · cases hout
    next t hs =>
      have h₁ := length_skip_le r
      have h₂ := length_skip_le t
      simp only [hs, List.length_cons] at h₁
      split at hout
      next stop hstop =>
        cases hout
        exact hitems (skip t) (by omega) hstop
      next => cases hout
    next => cases hout

/-- A list or an object is one level deeper than what stands behind its bracket, which is
shorter. -/
theorem value_step
    (hitems : ∀ room t, t.length < s.length → t.length ≤ room →
      items limits room t ≠ .error .tooDeep)
    (hmembers : ∀ room t, t.length < s.length → t.length ≤ room →
      membersFrom limits room t ≠ .error .tooDeep)
    (h : s.length ≤ room) : value limits room s ≠ .error .tooDeep := by
  intro hout
  unfold value at hout
  -- A string, a list, an object, or a word or number.
  split at hout
  · split at hout
    next stop hstop =>
      cases hout
      exact stringBody_ne_tooDeep _ _ _ _ _ hstop
    next => cases hout
  next t =>
    split at hout
    next => simp at h
    next room =>
      split at hout
      · cases hout
      · split at hout
        next stop hstop =>
          cases hout
          have := length_skip_le t
          simp only [List.length_cons] at h
          exact hitems room (skip t) (by simp only [List.length_cons]; omega) (by omega) hstop
        next => cases hout
  next t =>
    split at hout
    next => simp at h
    next room =>
      split at hout
      · cases hout
      · split at hout
        next stop hstop =>
          cases hout
          have := length_skip_le t
          simp only [List.length_cons] at h
          exact hmembers room (skip t) (by simp only [List.length_cons]; omega) (by omega) hstop
        next => cases hout
  · exact atom_ne_tooDeep limits _ hout

/-- One member and the rest of an object, both of which are shorter. -/
theorem membersFrom_step
    (hvalue : ∀ t, t.length < s.length → value limits room t ≠ .error .tooDeep)
    (hmembers : ∀ t, t.length < s.length → membersFrom limits room t ≠ .error .tooDeep) :
    membersFrom limits room s ≠ .error .tooDeep := by
  intro hout
  unfold membersFrom at hout
  split at hout
  · split at hout
    next stop hstop =>
      cases hout
      exact stringBody_ne_tooDeep _ _ _ _ _ hstop
    next name r hr _ =>
      split at hout
      next u hr' =>
        have h₁ := length_skip_le r
        have h₂ := length_skip_le u
        simp only [hr', List.length_cons] at h₁
        split at hout
        next stop hstop =>
          cases hout
          exact hvalue (skip u) (by simp only [List.length_cons]; omega) hstop
        next v w hw _ =>
          split at hout
          · cases hout
          next x hw' =>
            have h₃ := length_skip_le w
            have h₄ := length_skip_le x
            simp only [hw', List.length_cons] at h₃
            split at hout
            next stop hstop =>
              cases hout
              exact hmembers (skip x) (by simp only [List.length_cons]; omega) hstop
            next => cases hout
          next => cases hout
      next => cases hout
  · cases hout

end Steps

/-- Reading does not run out of room where there are no more characters than levels. -/
theorem value_ne_tooDeep (limits : Limits) (n : Nat) :
    ∀ (room : Nat) (s : List Char), s.length = n →
    n ≤ room → value limits room s ≠ .error .tooDeep ∧ items limits room s ≠ .error .tooDeep ∧
      membersFrom limits room s ≠ .error .tooDeep := by
  induction n using Nat.strongRecOn with
  | ind n ih =>
      rintro room s rfl hroom
      have hvalue : value limits room s ≠ .error .tooDeep :=
        value_step (fun room t ht hroom => (ih _ ht room t rfl hroom).2.1)
          (fun room t ht hroom => (ih _ ht room t rfl hroom).2.2) hroom
      refine ⟨hvalue, items_step hvalue ?_, membersFrom_step ?_ ?_⟩
      · exact fun t ht => (ih _ ht room t rfl (by omega)).2.1
      · exact fun t ht => (ih _ ht room t rfl (by omega)).1
      · exact fun t ht => (ih _ ht room t rfl (by omega)).2.2

end Reader

/-- Without a limit of depth no text is too deep: it has no more levels than characters. -/
theorem read_ne_tooDeep {limits : Limits} (h : limits.depth = none) (s : List Char) :
    read limits s ≠ .error .tooDeep := by
  intro hout
  unfold read at hout
  split at hout
  · cases hout
  · split at hout
    next stop hstop =>
      cases hout
      rw [h] at hstop
      exact (Reader.value_ne_tooDeep limits _ _ _ rfl (Reader.length_skip_le s)).1 hstop
    next =>
      split at hout
      · cases hout
      · cases hout

end Json

end Monotype
