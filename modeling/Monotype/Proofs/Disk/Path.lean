import Mathlib.Data.List.DropRight
import Mathlib.Logic.Function.Iterate
import Monotype.Disk.Path

/-!
# Texts of paths in normal form

Programs go up from a path by cutting its text at the last slash (`Disk.directoryOf`), and down by
putting a name behind it (`Disk.join`).  On the texts of absolute paths in normal form:

* the text spells the path, and a path that is resolved from a working directory is in normal form
  (`Normal.ofText_text`, `normal_resolve`);
* going down adds a component (`Normal.text_child`), and going up takes the last one off
  (`Normal.directoryOf_child`);
* going up and up ends at the root, which is its own directory, and no path before it is
  (`Normal.iterate_directoryOf_eq_lead`, `Normal.iterate_directoryOf_fixed_iff`).
-/

namespace Monotype

namespace Disk

/-! ## Directories -/

/-- The directory of a path, as a text: what stands up to the last slash, without the slashes that
it ends with.  If it is nothing but slashes, then they stay. -/
def directoryOf (path : String) : String :=
  let upToSlash := path.toList.rdropWhile (· != '/')
  let trimmed := upToSlash.rdropWhile (· == '/')
  String.ofList (if trimmed.isEmpty then upToSlash else trimmed)

/-- What stands behind the last slash does not count. -/
theorem directoryOf_append (dir : String) {name : String} (hname : '/' ∉ name.toList) :
    directoryOf (dir ++ name) = directoryOf dir := by
  have hall : ∀ d ∈ name.toList.reverse, (d != '/') = true := by
    intro d hd
    have hne : d ≠ '/' := fun heq => hname (heq ▸ List.mem_reverse.1 hd)
    simpa using hne
  have hdrop :
      (dir.toList ++ name.toList).rdropWhile (· != '/') = dir.toList.rdropWhile (· != '/') := by
    rw [List.rdropWhile, List.reverse_append, List.dropWhile_append_of_pos hall, ← List.rdropWhile]
  simp only [directoryOf, String.toList_append, hdrop]

/-- A single slash at the end is taken off. -/
theorem directoryOf_append_slash {dir : String} {d : Char} (hlast : dir.toList.getLast? = some d)
    (hd : d ≠ '/') :
    directoryOf (dir ++ "/") = dir := by
  have hchars : dir.toList ≠ [] := by
    intro hnil
    simp [hnil] at hlast
  have hcut : (dir.toList ++ ['/']).rdropWhile (· != '/') = dir.toList ++ ['/'] :=
    List.rdropWhile_concat_neg _ _ _ (by simp)
  have htrim : (dir.toList ++ ['/']).rdropWhile (· == '/') = dir.toList := by
    rw [List.rdropWhile_concat_pos _ _ _ (by simp), List.rdropWhile_eq_self_iff]
    intro hne
    rw [List.getLast?_eq_some_getLast hne, Option.some_inj] at hlast
    simpa [hlast] using hd
  have hslash : "/".toList = ['/'] := rfl
  simp [directoryOf, hslash, hcut, htrim, hchars]

theorem isAbsolute_eq_false {name : String} (hname : '/' ∉ name.toList) :
    isAbsolute name = false := by
  rw [isAbsolute, String.startsWith_string_eq_false_iff]
  intro hstart
  exact hname (hstart.subset (by decide))

/-! ## Components -/

structure IsComponent (c : String) : Prop where
  ne_empty : c ≠ ""
  ne_here : c ≠ "."
  ne_above : c ≠ ".."
  noSlash : '/' ∉ c.toList

/-- No piece between slashes has a slash in it. -/
theorem notMem_of_mem_cutAtSlashes {part cs : List Char} (hpart : '/' ∉ part) {c : String}
    (h : c ∈ cutAtSlashes part cs) : '/' ∉ c.toList := by
  fun_induction cutAtSlashes part cs with
  | case1 part =>
      obtain rfl := List.mem_singleton.1 h
      simpa using hpart
  | case2 part cs ih =>
      rcases List.mem_cons.1 h with rfl | h
      · simpa using hpart
      · exact ih (by simp) h
  | case3 part d cs hd ih => exact ih (by simpa [hpart, eq_comm] using hd) h

/-- Following components leaves proper components only. -/
theorem isComponent_of_mem_followComponents {above cs : List String}
    (habove : ∀ c ∈ above, IsComponent c) (hcs : ∀ c ∈ cs, '/' ∉ c.toList) {c : String}
    (h : c ∈ followComponents above cs) : IsComponent c := by
  fun_induction followComponents above cs with
  | case1 above => exact habove c (List.mem_reverse.1 h)
  | case2 above d cs _ ih => exact ih habove (fun e he => hcs e (List.mem_cons_of_mem _ he)) h
  | case3 above cs _ ih =>
      exact ih (fun e he => habove e (List.mem_of_mem_tail he))
        (fun e he => hcs e (List.mem_cons_of_mem _ he)) h
  | case4 above d cs hd habv ih =>
      refine ih ?_ (fun e he => hcs e (List.mem_cons_of_mem _ he)) h
      intro e he
      rcases List.mem_cons.1 he with rfl | he
      · exact ⟨fun hempty => hd (Or.inl hempty), fun hhere => hd (Or.inr hhere), habv,
          hcs e (by simp)⟩
      · exact habove e he

/-- Proper components are followed one by one. -/
theorem followComponents_of_isComponent {above cs : List String} (hcs : ∀ c ∈ cs, IsComponent c) :
    followComponents above cs = above.reverse ++ cs := by
  induction cs generalizing above with
  | nil => simp [followComponents]
  | cons c cs ih =>
      obtain ⟨hc, hrest⟩ := List.forall_mem_cons.1 hcs
      simp [followComponents, hc.ne_empty, hc.ne_here, hc.ne_above, ih hrest]

/-- Characters without a slash all go to the piece that is being cut. -/
theorem cutAtSlashes_append {part name rest : List Char} (hname : '/' ∉ name) :
    cutAtSlashes part (name ++ rest) = cutAtSlashes (name.reverse ++ part) rest := by
  induction name generalizing part with
  | nil => rfl
  | cons d name ih =>
      obtain ⟨hd, hrest⟩ := not_or.1 (mt List.mem_cons.2 hname)
      rw [List.cons_append, cutAtSlashes, ih hrest]
      · simp
      · exact fun heq => hd heq.symm

theorem splitPath_of_noSlash {name : String} (hname : '/' ∉ name.toList) :
    splitPath name = [name] := by
  rw [splitPath, ← List.append_nil name.toList, cutAtSlashes_append hname]
  simp [cutAtSlashes]

/-- A name in front of a slash is the first piece. -/
theorem splitPath_append {name : String} (hname : '/' ∉ name.toList) (rest : String) :
    splitPath (name ++ "/" ++ rest) = name :: splitPath rest := by
  have hslash : "/".toList = ['/'] := rfl
  rw [splitPath, String.toList_append, String.toList_append, hslash, List.append_assoc,
    cutAtSlashes_append hname]
  simp [cutAtSlashes, splitPath]

/-- Components that are put together with slashes are cut apart again. -/
theorem splitPath_intercalate {c : String} {cs : List String} (hcs : ∀ d ∈ c :: cs, IsComponent d) :
    splitPath ("/".intercalate (c :: cs)) = c :: cs := by
  induction cs generalizing c with
  | nil => rw [String.intercalate_singleton, splitPath_of_noSlash (hcs c (by simp)).noSlash]
  | cons d cs ih =>
      obtain ⟨hc, hrest⟩ := List.forall_mem_cons.1 hcs
      rw [String.intercalate_cons_cons, splitPath_append hc.noSlash, ih hrest]

-- Of no components at all the cut gives one empty text, which is passed over.
/-- Components survive being written and read. -/
theorem followComponents_splitPath {cs : List String} (hcs : ∀ c ∈ cs, IsComponent c) :
    followComponents [] (splitPath ("/".intercalate cs)) = cs := by
  cases cs with
  | nil => decide
  | cons c cs =>
      rw [splitPath_intercalate hcs, followComponents_of_isComponent hcs, List.reverse_nil,
      List.nil_append]

namespace AbsolutePath

structure Normal (p : AbsolutePath) : Prop where
  lead : p.lead = "/" ∨ p.lead = "//"
  components : ∀ c ∈ p.components, IsComponent c

/-- A path that starts at the root is brought into normal form. -/
theorem normal_ofText (path : String) : (ofText path).Normal where
  lead := by
    simp only [ofText]
    split
    · exact Or.inr rfl
    · exact Or.inl rfl
  components := by
    intro c hc
    exact isComponent_of_mem_followComponents (by simp)
      (fun d hd => notMem_of_mem_cutAtSlashes (by simp) hd) hc

/-- However a path is given, resolving it leads to a normal form. -/
theorem normal_resolve (cwd path : String) : (resolve cwd path).Normal := normal_ofText _

theorem length_child (p : AbsolutePath) (name : String) :
    (p.child name).components.length = p.components.length + 1 := by
  simp [child]

/-- Every path is a root, or a name in a directory. -/
@[elab_as_elim]
theorem child_induction {motive : AbsolutePath → Prop}
    (root : ∀ p : AbsolutePath, p.components = [] → motive p)
    (child : ∀ (p : AbsolutePath) (name : String), motive p → motive (p.child name))
    (p : AbsolutePath) :
    motive p := by
  obtain ⟨lead, cs⟩ := p
  induction cs using List.reverseRecOn with
  | nil => exact root _ rfl
  | append_singleton cs c ih => exact child ⟨lead, cs⟩ c ih

namespace Normal

variable {p : AbsolutePath}

theorem child (hp : p.Normal) {name : String} (hname : IsComponent name) :
    (p.child name).Normal where
  lead := hp.lead
  components := by
    intro c hc
    rcases List.mem_append.1 hc with hc | hc
    · exact hp.components c hc
    · exact List.mem_singleton.1 hc ▸ hname

/-- A path in normal form has its directory in normal form, and a proper last component. -/
theorem of_child {name : String} (hp : (p.child name).Normal) : p.Normal ∧ IsComponent name := by
  refine ⟨⟨hp.lead, fun c hc => hp.components c (List.mem_append_left _ hc)⟩, ?_⟩
  exact hp.components name (by simp [AbsolutePath.child])

/-! ## A text spells one path -/

/-- Behind its lead, a path in normal form does not start with a slash. -/
theorem not_slash_first (hp : p.Normal) : ¬ ['/'] <+: ("/".intercalate p.components).toList := by
  cases hcs : p.components with
  | nil => simp
  | cons c cs =>
      have hc : IsComponent c := hp.components c (by simp [hcs])
      obtain ⟨rest, hrest⟩ : ∃ rest, "/".intercalate (c :: cs) = c ++ rest := by
        cases cs with
        | nil => exact ⟨"", by simp⟩
        | cons d cs => exact ⟨_, by rw [String.intercalate_cons_cons, String.append_assoc]⟩
      rw [hrest, String.toList_append]
      cases hchars : c.toList with
      | nil => exact absurd (String.toList_eq_nil_iff.1 hchars) hc.ne_empty
      | cons d ds =>
          have hd : '/' ≠ d := by
            rintro rfl
            exact hc.noSlash (by simp [hchars])
          simpa using hd

/-- The path that the text of a path spells is that path. -/
theorem ofText_text (hp : p.Normal) : ofText p.text = p := by
  have hbody := hp.not_slash_first
  have hfollow := followComponents_splitPath hp.components
  have hslash : ∀ rest, splitPath ("/" ++ rest) = "" :: splitPath rest := by
    intro rest
    simpa using splitPath_append (by simp : '/' ∉ "".toList) rest
  have hone : "/".toList = ['/'] := rfl
  have htwo : "//".toList = ['/', '/'] := rfl
  have hthree : "///".toList = ['/', '/', '/'] := rfl
  obtain ⟨lead, cs⟩ := p
  -- Two slashes lead only where no third one follows, and components do not start with one.
  rcases hp.lead with rfl | rfl
  · have hdouble : (text ⟨"/", cs⟩).startsWith "//" = false := by
      rw [String.startsWith_string_eq_false_iff, text, String.toList_append, hone, htwo]
      simpa using hbody
    rw [ofText, hdouble, text, hslash]
    simpa [followComponents] using hfollow
  · have hdouble : (text ⟨"//", cs⟩).startsWith "//" = true := by
      rw [String.startsWith_string_iff, text, String.toList_append]
      exact List.prefix_append _ _
    have htriple : (text ⟨"//", cs⟩).startsWith "///" = false := by
      rw [String.startsWith_string_eq_false_iff, text, String.toList_append, htwo, hthree]
      simpa using hbody
    have hlead : "//" = "/" ++ "/" := rfl
    rw [ofText, hdouble, htriple, text, hlead, String.append_assoc, hslash, hslash]
    simpa [followComponents] using hfollow

/-! ## Down and up -/

theorem getLast?_lead (hp : p.Normal) : p.lead.toList.getLast? = some '/' := by
  rcases hp.lead with hlead | hlead
  · rw [hlead]
    decide
  · rw [hlead]
    decide

/-- The text of a path other than the root ends with its last component, so not with a slash. -/
theorem exists_getLast?_text (hp : p.Normal) (hne : p.components ≠ []) :
    ∃ d, p.text.toList.getLast? = some d ∧ d ≠ '/' := by
  obtain ⟨cs, c, hcs⟩ := (List.eq_nil_or_concat' p.components).resolve_left hne
  have hc : IsComponent c := hp.components c (by simp [hcs])
  obtain ⟨front, hfront⟩ : ∃ front, p.text = front ++ c := by
    cases cs with
    | nil => exact ⟨p.lead, by simp [text, hcs]⟩
    | cons b cs =>
        refine ⟨p.lead ++ ("/".intercalate (b :: cs) ++ "/"), ?_⟩
        rw [text, hcs, String.intercalate_append_of_ne_nil (by simp) (by simp)]
        simp [String.append_assoc]
  have hchars : c.toList ≠ [] := by simpa using hc.ne_empty
  refine ⟨c.toList.getLast hchars, ?_, fun hlast => hc.noSlash (hlast ▸ List.getLast_mem hchars)⟩
  rw [hfront, String.toList_append, List.getLast?_append, List.getLast?_eq_some_getLast hchars]
  rfl

/-- A name in the root directory comes right behind the slash. -/
theorem join_root (hp : p.Normal) (hroot : p.components = []) {name : String}
    (hname : '/' ∉ name.toList) :
    join p.text name = p.text ++ name := by
  have htext : p.text = p.lead := by simp [text, hroot]
  simp [join, isAbsolute_eq_false hname, htext, hp.getLast?_lead]

/-- A name in any other directory comes behind a slash of its own. -/
theorem join_below (hp : p.Normal) (hne : p.components ≠ []) {name : String}
    (hname : '/' ∉ name.toList) :
    join p.text name = p.text ++ "/" ++ name := by
  obtain ⟨d, hlast, hd⟩ := hp.exists_getLast?_text hne
  have hempty : p.text.isEmpty = false := by
    rw [String.isEmpty_eq_false_iff]
    intro htext
    simp [htext] at hlast
  simp [join, isAbsolute_eq_false hname, hempty, hlast, hd]

/-- Putting a name behind the text of a directory adds a component. -/
theorem text_child (hp : p.Normal) {name : String} (hname : '/' ∉ name.toList) :
    (p.child name).text = join p.text name := by
  by_cases hroot : p.components = []
  · rw [hp.join_root hroot hname]
    simp [text, AbsolutePath.child, hroot]
  · rw [hp.join_below hroot hname, text, AbsolutePath.child,
      String.intercalate_append_of_ne_nil hroot (by simp)]
    simp [text, String.append_assoc]

/-- The root is its own directory. -/
theorem directoryOf_root (hp : p.Normal) (hroot : p.components = []) :
    directoryOf p.text = p.text := by
  have htext : p.text = p.lead := by simp [text, hroot]
  rw [htext]
  rcases hp.lead with hlead | hlead
  · rw [hlead]
    decide
  · rw [hlead]
    decide

/-- The directory takes the last component off. -/
theorem directoryOf_child {name : String} (hp : (p.child name).Normal) :
    directoryOf (p.child name).text = p.text := by
  obtain ⟨hdir, hname⟩ := hp.of_child
  rw [hdir.text_child hname.noSlash]
  by_cases hroot : p.components = []
  · rw [hdir.join_root hroot hname.noSlash, directoryOf_append _ hname.noSlash,
      hdir.directoryOf_root hroot]
  · obtain ⟨d, hlast, hd⟩ := hdir.exists_getLast?_text hroot
    rw [hdir.join_below hroot hname.noSlash, directoryOf_append _ hname.noSlash,
      directoryOf_append_slash hlast hd]

/-- Nothing but the root is its own directory. -/
theorem directoryOf_child_ne {name : String} (hp : (p.child name).Normal) :
    directoryOf (p.child name).text ≠ (p.child name).text := by
  obtain ⟨hdir, -⟩ := hp.of_child
  intro heq
  have hpath : p = p.child name :=
    calc
      p = ofText p.text := hdir.ofText_text.symm
      _ = ofText (p.child name).text := by rw [← heq, hp.directoryOf_child]
      _ = p.child name := hp.ofText_text
  have hlength := congrArg (fun q => q.components.length) hpath
  simp [length_child] at hlength

/-- Of a path below the root, one step up leads to the directory that it was made from. -/
theorem iterate_directoryOf_child {name : String} (hp : (p.child name).Normal) (n : Nat) :
    directoryOf^[n + 1] (p.child name).text = directoryOf^[n] p.text := by
  rw [Function.iterate_succ_apply, hp.directoryOf_child]

/-- Going up as often as there are components leads to the root. -/
theorem iterate_directoryOf_eq_lead (hp : p.Normal) :
    directoryOf^[p.components.length] p.text = p.lead := by
  induction p using child_induction with
  | root p hroot => simp [text, hroot]
  | child p name ih =>
      rw [length_child, hp.iterate_directoryOf_child, ih hp.of_child.1]
      rfl

/-- A step up changes nothing from the root on, and not before. -/
theorem iterate_directoryOf_fixed_iff (hp : p.Normal) (n : Nat) :
    directoryOf^[n + 1] p.text = directoryOf^[n] p.text ↔ p.components.length ≤ n := by
  induction p using child_induction generalizing n with
  | root p hroot =>
      have hfixed := hp.directoryOf_root hroot
      simp [Function.iterate_fixed hfixed, hroot]
  | child p name ih =>
      rw [length_child]
      cases n with
      | zero => simpa using hp.directoryOf_child_ne
      | succ n =>
          rw [hp.iterate_directoryOf_child, hp.iterate_directoryOf_child, ih hp.of_child.1,
            Nat.add_le_add_iff_right]

end Normal

end AbsolutePath

end Disk

end Monotype
