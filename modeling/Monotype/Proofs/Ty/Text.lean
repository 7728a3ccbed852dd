import Monotype.Proofs.Codec.Writing

/-!
# One reading for every text of a type

The arrow form of a type can be read in one way only.  Parentheses have two uses in it: they enclose
a list of parameters, none or several, and they enclose a single parameter that is a function.  Both
are one rule, since parameters are enclosed unless there is exactly one and that one is no function
(`Ty.spelled_fn_cases`).

What decides the reading is where a text ends:

* variables and base types are words, in which no delimiter occurs, and a delimiter or the end comes
  after them (`Delimited.append_inj`);
* after a type comes the end, a comma or a closing parenthesis (`Ends`), and never an arrow.  So a
  word with an arrow after it is a parameter, and a word without one is a type.

Main statement: `Ty.text_inj_of_writable`, by induction on the first of two types whose texts, each
with something after it, are the same.
-/

namespace Monotype

/-! ## Words and what follows them -/

def isDelimiter (c : Char) : Bool := c == ' ' || c == ',' || c == '(' || c == ')'

def Delimited (cs : List Char) : Prop := ∀ c ∈ cs.head?, isDelimiter c = true

def IsWord (cs : List Char) : Prop := ∀ c ∈ cs, isDelimiter c = false

/-- What may follow a type: nothing, a comma or a closing parenthesis. -/
def Ends (cs : List Char) : Prop := ∀ c ∈ cs.head?, c = ',' ∨ c = ')'

/-- What may follow a type is a delimiter, if it is anything. -/
theorem Ends.delimited {cs : List Char} (h : Ends cs) : Delimited cs := by
  intro c hc
  rcases h c hc with rfl | rfl <;> rfl

/-- A word ends at the first delimiter. -/
theorem Delimited.append_inj {v w x y : List Char} (hx : Delimited x) (hy : Delimited y)
    (hv : IsWord v) (hw : IsWord w) (h : v ++ x = w ++ y) : v = w ∧ x = y := by
  -- If one word ends before the other, its delimiter is a character of the other.
  induction v generalizing w with
  | nil =>
      cases w with
      | nil => exact ⟨rfl, h⟩
      | cons d w =>
          obtain rfl : x = d :: (w ++ y) := h
          have hd : isDelimiter d = true := hx d rfl
          simp [hw d List.mem_cons_self] at hd
  | cons c v ih =>
      cases w with
      | nil =>
          obtain rfl : c :: (v ++ x) = y := h
          have hc : isDelimiter c = true := hy c rfl
          simp [hv c List.mem_cons_self] at hc
      | cons d w =>
          obtain ⟨rfl, hrest⟩ := List.cons_eq_cons.1 h
          obtain ⟨rfl, rfl⟩ := ih (fun e he => hv e (List.mem_cons_of_mem _ he))
            (fun e he => hw e (List.mem_cons_of_mem _ he)) hrest
          exact ⟨rfl, rfl⟩

namespace Ty

/-! ## The characters of a text -/

def spelled (t : Ty) : List Char := t.text.toList

def arrow : List Char := [' ', '-', '>', ' ']

def spelledRest (ts : List Ty) : List Char := ts.flatMap fun t => ',' :: ' ' :: t.spelled

def spelledList : List Ty → List Char
  | [] => []
  | t :: ts => t.spelled ++ spelledRest ts

/-- The text of a list of types, character by character. -/
theorem toList_intercalate_texts (ts : List Ty) :
    (", ".intercalate (texts ts)).toList = spelledList ts := by
  cases ts with
  | nil => simp [texts, spelledList]
  | cons t ts =>
      rw [spelledList]
      induction ts generalizing t with
      | nil => simp [texts, spelledRest, spelled]
      | cons u ts ih =>
          have hrest := ih u
          simp only [texts, String.intercalate_cons_cons, String.toList_append] at hrest ⊢
          rw [hrest]
          simp [spelledRest, spelled]

/-- Parameters are enclosed, unless there is one only and it is no function. -/
theorem spelled_fn_cases (ps : List Ty) (r : Ty) :
    (∃ p, ps = [p] ∧ p.isFn = false ∧ (fn ps r).spelled = p.spelled ++ (arrow ++ r.spelled)) ∨
      (fn ps r).spelled = '(' :: (spelledList ps ++ ')' :: (arrow ++ r.spelled)) := by
  cases ps with
  | nil => exact Or.inr (by simp [spelled, text, texts, spelledList, arrow])
  | cons p ps =>
      cases ps with
      | nil =>
          cases hp : p.isFn with
          | false => exact Or.inl ⟨p, rfl, hp, by simp [spelled, text, hp, arrow]⟩
          | true => exact Or.inr (by simp [spelled, text, hp, spelledList, spelledRest, arrow])
      | cons q ps =>
          refine Or.inr ?_
          rw [← toList_intercalate_texts]
          simp [spelled, text, arrow]

/-! ## Types that are words -/

theorem isDelimiter_of_isDigit {c : Char} (h : c.isDigit = true) : isDelimiter c = false := by
  cases hc : isDelimiter c with
  | false => rfl
  | true =>
      simp only [isDelimiter, Bool.or_eq_true, beq_iff_eq] at hc
      rcases hc with ((rfl | rfl) | rfl) | rfl <;> cases h

/-- No delimiter occurs in a number. -/
theorem isWord_repr (i : Int) : IsWord i.repr.toList := by
  have hdigits : ∀ n : Nat, IsWord n.repr.toList := by
    intro n c hc
    rw [Nat.toList_repr] at hc
    exact isDelimiter_of_isDigit (Nat.isDigit_of_mem_toDigits (by decide) (by decide) hc)
  rw [Int.repr_eq_if]
  split
  · exact hdigits _
  · intro c hc
    rw [String.toList_append, List.mem_append] at hc
    rcases hc with hc | hc
    · obtain rfl : c = '-' := by simpa using hc
      rfl
    · exact hdigits _ c hc

theorem spelled_var (i : Int) : (var i).spelled = 't' :: i.repr.toList := by
  simp [spelled, text]

section Reading

variable {a b : Ty} {x y : List Char}

/-- A type that is no function is written as a word, which is not empty. -/
theorem Writable.exists_word (ha : a.Writable) (hword : a.isFn = false) :
    ∃ c cs, a.spelled = c :: cs ∧ IsWord (c :: cs) := by
  cases ha with
  | var i =>
      refine ⟨'t', i.repr.toList, spelled_var i, ?_⟩
      intro c hc
      rcases List.mem_cons.1 hc with rfl | hc
      · rfl
      · exact isWord_repr i c hc
  | base h =>
      simp only [Json.baseNames, List.mem_cons, List.not_mem_nil, or_false] at h
      rcases h with rfl | rfl | rfl
      · exact ⟨'I', ['n', 't'], rfl, by simp [IsWord, isDelimiter]⟩
      · exact ⟨'F', ['l', 'o', 'a', 't'], rfl, by simp [IsWord, isDelimiter]⟩
      · exact ⟨'B', ['o', 'o', 'l'], rfl, by simp [IsWord, isDelimiter]⟩
  | fn _ _ => cases hword

/-- A type that is no function is written as one word. -/
theorem Writable.isWord (ha : a.Writable) (hword : a.isFn = false) : IsWord a.spelled := by
  obtain ⟨c, cs, hcs, hw⟩ := ha.exists_word hword
  rwa [hcs]

/-- No word begins with a delimiter. -/
theorem Writable.word_append_ne {d : Char} (ha : a.Writable) (hword : a.isFn = false)
    (hd : isDelimiter d = true) :
    a.spelled ++ x ≠ d :: y := by
  intro h
  obtain ⟨c, cs, hcs, hw⟩ := ha.exists_word hword
  rw [hcs] at h
  obtain ⟨rfl, -⟩ := List.cons_eq_cons.1 h
  rw [hw c List.mem_cons_self] at hd
  cases hd

/-- No base type is spelled like a variable. -/
theorem spelled_var_ne_base {i : Int} {name : String} (hname : name ∈ Json.baseNames) :
    (var i).spelled ≠ (const name).spelled := by
  simp only [Json.baseNames, List.mem_cons, List.not_mem_nil, or_false] at hname
  rw [spelled_var]
  rcases hname with rfl | rfl | rfl <;> simp [spelled, text]

/-! Numbers are spelled in one way only: digits are read back, and only a negative number has a
sign. -/

/-- Decimal digits tell a natural number. -/
theorem eq_of_natRepr {m n : Nat} (h : m.repr = n.repr) : m = n := by
  rw [Nat.repr_eq_ofList_toDigits, Nat.repr_eq_ofList_toDigits, String.ofList_inj] at h
  rw [← @Nat.ofDigitChars_ten_toDigits m, h, Nat.ofDigitChars_ten_toDigits]

/-- No natural number is written with a sign. -/
theorem signed_ne_natRepr (m n : Nat) : "-" ++ m.repr ≠ n.repr := by
  intro h
  have hmem : '-' ∈ n.repr.toList := by simp [← h]
  rw [Nat.repr_eq_ofList_toDigits, String.toList_ofList] at hmem
  exact absurd (Nat.isDigit_of_mem_toDigits (by decide) (by decide) hmem) (by decide)

/-- The text of an integer tells the integer. -/
theorem eq_of_intRepr {i j : Int} (h : i.repr = j.repr) : i = j := by
  rw [Int.repr_eq_if, Int.repr_eq_if] at h
  split at h <;> split at h
  · have hnat := eq_of_natRepr h
    omega
  · exact absurd h.symm (signed_ne_natRepr _ _)
  · exact absurd h (signed_ne_natRepr _ _)
  · have hnat := eq_of_natRepr ((String.append_right_inj _).1 h)
    omega

/-- Different words stand for different types. -/
theorem Writable.eq_of_word (ha : a.Writable) (hb : b.Writable) (hword : a.isFn = false)
    (hword' : b.isFn = false) (h : a.spelled = b.spelled) : a = b := by
  cases ha with
  | var i =>
      cases hb with
      | var j =>
          rw [spelled_var, spelled_var] at h
          rw [eq_of_intRepr (String.toList_inj.1 (List.cons_eq_cons.1 h).2)]
      | base hname => exact absurd h (spelled_var_ne_base hname)
      | fn _ _ => cases hword'
  | base hname =>
      cases hb with
      | var j => exact absurd h.symm (spelled_var_ne_base hname)
      | base _ => exact congrArg const (String.toList_inj.1 h)
      | fn _ _ => cases hword'
  | fn _ _ => cases hword

/-! ## One reading -/

/-- Nothing but the type itself begins, as the type does, a text that goes on where a type may
end. -/
def ReadOneWay (a : Ty) : Prop :=
  ∀ ⦃b : Ty⦄ ⦃x y : List Char⦄, b.Writable → Ends x → Ends y →
    a.spelled ++ x = b.spelled ++ y → a = b ∧ x = y

/-- A word with something after it is no function with something after it. -/
theorem word_append_ne_fn {ps : List Ty} {r : Ty} (ha : a.Writable) (hword : a.isFn = false)
    (hps : ∀ p ∈ ps, p.Writable) (hx : Ends x) : a.spelled ++ x ≠ (fn ps r).spelled ++ y := by
  intro h
  rcases spelled_fn_cases ps r with ⟨p, rfl, hp, htext⟩ | htext
  · -- After the parameter comes the blank of an arrow, and no type has a blank after it.
    rw [htext, List.append_assoc] at h
    have hy : Delimited ((arrow ++ r.spelled) ++ y) := by simp [Delimited, arrow, isDelimiter]
    obtain ⟨-, rfl⟩ := hx.delimited.append_inj hy (ha.isWord hword)
      ((hps p List.mem_cons_self).isWord hp) h
    simp [Ends, arrow] at hx
  · rw [htext] at h
    exact absurd h (ha.word_append_ne hword rfl)

/-- A type of one word can be read in one way only: the word ends where a delimiter stands. -/
theorem readOneWay_of_word (ha : a.Writable) (hword : a.isFn = false) : a.ReadOneWay := by
  intro b x y hb hx hy h
  cases hfn : b.isFn with
  | false =>
      obtain ⟨hsame, rfl⟩ :=
        hx.delimited.append_inj hy.delimited (ha.isWord hword) (hb.isWord hfn) h
      exact ⟨ha.eq_of_word hb hword hfn hsame, rfl⟩
  | true =>
      cases hb with
      | var i => cases hfn
      | base _ => cases hfn
      | fn hps _ => exact absurd h (word_append_ne_fn ha hword hps hx)

/-- The text of a type does not begin with a closing parenthesis.  So an empty list of parameters is
told from any other by its first character. -/
theorem Writable.spelled_append_ne (ha : a.Writable) : a.spelled ++ x ≠ ')' :: y := by
  cases ha with
  | var i => exact (Writable.var i).word_append_ne rfl rfl
  | base hname => exact (Writable.base hname).word_append_ne rfl rfl
  | @fn ps r hps _ =>
      rcases spelled_fn_cases ps r with ⟨p, rfl, hp, htext⟩ | htext
      · rw [htext, List.append_assoc]
        exact (hps p List.mem_cons_self).word_append_ne hp rfl
      · rw [htext]
        simp

end Reading

section Lists

variable {ps qs : List Ty} {x y : List Char}

theorem ends_spelledRest (ps : List Ty) (x : List Char) : Ends (spelledRest ps ++ ')' :: x) := by
  cases ps <;> simp [Ends, spelledRest]

theorem spelledRest_cons (p : Ty) (ps : List Ty) :
    spelledRest (p :: ps) = ',' :: ' ' :: (p.spelled ++ spelledRest ps) := by
  simp [spelledRest]

/-- The types behind the first one of a list can be told from their text, one comma after the
other. -/
theorem spelledRest_inj (hps : ∀ p ∈ ps, p.ReadOneWay) (hqs : ∀ q ∈ qs, q.Writable)
    (h : spelledRest ps ++ ')' :: x = spelledRest qs ++ ')' :: y) : ps = qs ∧ x = y := by
  induction ps generalizing qs with
  | nil =>
      cases qs with
      | nil => exact ⟨rfl, (List.cons_eq_cons.1 h).2⟩
      | cons q qs => simp [spelledRest] at h
  | cons p ps ih =>
      cases qs with
      | nil => simp [spelledRest] at h
      | cons q qs =>
          simp only [spelledRest_cons, List.cons_append, List.append_assoc, List.cons_eq_cons,
            true_and] at h
          obtain ⟨rfl, hrest⟩ := hps p List.mem_cons_self (hqs q List.mem_cons_self)
            (ends_spelledRest ps x) (ends_spelledRest qs y) h
          obtain ⟨rfl, rfl⟩ := ih (fun r hr => hps r (List.mem_cons_of_mem _ hr))
            (fun r hr => hqs r (List.mem_cons_of_mem _ hr)) hrest
          exact ⟨rfl, rfl⟩

/-- The types of a list can be told from their text. -/
theorem spelledList_inj (hps : ∀ p ∈ ps, p.ReadOneWay) (hps' : ∀ p ∈ ps, p.Writable)
    (hqs : ∀ q ∈ qs, q.Writable) (h : spelledList ps ++ ')' :: x = spelledList qs ++ ')' :: y) :
    ps = qs ∧ x = y := by
  cases ps with
  | nil =>
      cases qs with
      | nil => exact ⟨rfl, (List.cons_eq_cons.1 h).2⟩
      | cons q qs =>
          rw [spelledList, spelledList, List.append_assoc] at h
          exact absurd h.symm (hqs q List.mem_cons_self).spelled_append_ne
  | cons p ps =>
      cases qs with
      | nil =>
          rw [spelledList, spelledList, List.append_assoc] at h
          exact absurd h (hps' p List.mem_cons_self).spelled_append_ne
      | cons q qs =>
          rw [spelledList, spelledList, List.append_assoc, List.append_assoc] at h
          obtain ⟨rfl, hrest⟩ := hps p List.mem_cons_self (hqs q List.mem_cons_self)
            (ends_spelledRest ps x) (ends_spelledRest qs y) h
          obtain ⟨rfl, rfl⟩ := spelledRest_inj (fun r hr => hps r (List.mem_cons_of_mem _ hr))
            (fun r hr => hqs r (List.mem_cons_of_mem _ hr)) hrest
          exact ⟨rfl, rfl⟩

/-- The texts of two functions, each with something after it, are the same only if the parameters
are the same, and so is what comes after the arrow. -/
theorem spelled_fn_append_inj {r s : Ty} (hps : ∀ p ∈ ps, p.ReadOneWay)
    (hps' : ∀ p ∈ ps, p.Writable) (hqs : ∀ q ∈ qs, q.Writable)
    (h : (fn ps r).spelled ++ x = (fn qs s).spelled ++ y) :
    ps = qs ∧ r.spelled ++ x = s.spelled ++ y := by
  have harrow : ∀ (t : Ty) (z : List Char), Delimited (arrow ++ (t.spelled ++ z)) := by
    simp [Delimited, arrow, isDelimiter]
  -- Both are enclosed or neither, since no word begins with a parenthesis.
  rcases spelled_fn_cases ps r with ⟨p, rfl, hp, htext⟩ | htext <;>
    rcases spelled_fn_cases qs s with ⟨q, rfl, hq, htext'⟩ | htext' <;>
    simp only [htext, htext', List.append_assoc, List.cons_append] at h
  · have hp' := hps' p List.mem_cons_self
    have hq' := hqs q List.mem_cons_self
    obtain ⟨hsame, hrest⟩ := (harrow r x).append_inj (harrow s y) (hp'.isWord hp) (hq'.isWord hq) h
    rw [hp'.eq_of_word hq' hp hq hsame]
    exact ⟨rfl, List.append_cancel_left hrest⟩
  · exact absurd h ((hps' p List.mem_cons_self).word_append_ne hp rfl)
  · exact absurd h.symm ((hqs q List.mem_cons_self).word_append_ne hq rfl)
  · obtain ⟨rfl, hrest⟩ := spelledList_inj hps hps' hqs (List.cons_eq_cons.1 h).2
    exact ⟨rfl, List.append_cancel_left hrest⟩

end Lists

/-- A type that can be written can be read in one way only. -/
theorem Writable.readOneWay {a : Ty} (ha : a.Writable) : a.ReadOneWay := by
  induction ha with
  | var i => exact readOneWay_of_word (.var i) rfl
  | base hname => exact readOneWay_of_word (.base hname) rfl
  | fn hps hr ihp ihr =>
      intro b x y hb hx hy h
      cases hb with
      | var j => exact absurd h.symm (word_append_ne_fn (.var j) rfl hps hy)
      | base hname => exact absurd h.symm (word_append_ne_fn (.base hname) rfl hps hy)
      | fn hqs hs =>
          -- The parameters end before the arrow, and what follows both results is still the same.
          obtain ⟨rfl, hresult⟩ := spelled_fn_append_inj ihp hps hqs h
          obtain ⟨rfl, rfl⟩ := ihr hs hx hy hresult
          exact ⟨rfl, rfl⟩

/-- Types that are built from variables, the base types and functions are told apart by their
texts. -/
theorem text_inj_of_writable (a b : Ty) (ha : a.Writable) (hb : b.Writable) :
    a.text = b.text ↔ a = b := by
  constructor
  · intro h
    have hend : Ends [] := by simp [Ends]
    have hspelled : a.spelled ++ [] = b.spelled ++ [] := by rw [spelled, spelled, h]
    exact (ha.readOneWay hb hend hend hspelled).1
  · exact congrArg text

/-- Written `(Int -> () -> Bool) -> t-1`. -/
def takesFunction : Ty := fn [fn [int] (fn [] bool)] (var (-1))

/-- Written `Int -> (() -> Bool) -> t-1`. -/
def returnsFunction : Ty := fn [int] (fn [fn [] bool] (var (-1)))

/-- Two types that differ in the place of a parenthesis have different texts. -/
theorem text_inj_of_writable_takesFunction :
    takesFunction.Writable ∧ returnsFunction.Writable ∧ takesFunction ≠ returnsFunction ∧
      (takesFunction.text = returnsFunction.text ↔ takesFunction = returnsFunction) := by
  have hint : int.Writable := .base (by simp [Json.baseNames])
  have hthunk : (fn [] bool).Writable := .fn (by simp) (.base (by simp [Json.baseNames]))
  have htakes : takesFunction.Writable :=
    .fn (by simpa using Writable.fn (by simpa using hint) hthunk) (.var (-1))
  have hreturns : returnsFunction.Writable :=
    .fn (by simpa using hint) (.fn (by simpa using hthunk) (.var (-1)))
  exact ⟨htakes, hreturns, by decide, text_inj_of_writable _ _ htakes hreturns⟩

end Ty

end Monotype
