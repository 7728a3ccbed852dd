import Mathlib.Data.List.Find
import Monotype.Config.Load
import Monotype.Proofs.Disk.Path

/-!
# The nearest settings file

The search for a file of one of some names is a loop on texts (`Config.Climbs`): try the names in a
directory, go up to the directory of its text, and stop once that is the same text again.  On every
disk and from every starting directory the loop for the names of settings files ends, and
`Config.findFrom?` is its answer.

The answer is the nearest file (`Config.FirstAt`): there is no settings file in any directory below,
and no file of an earlier name in the same directory.
-/

namespace Monotype

namespace Config

open Disk (AbsolutePath IsComponent directoryOf join)

/-! ## The loop -/

/-- Whether there is a regular file at the absolute path that a text spells. -/
def isFileAt (disk : Disk) (path : String) : Bool := disk.isFile (AbsolutePath.ofText path)

/-- The first file of a directory with one of some names. -/
def firstIn? (disk : Disk) (names : List String) (dir : String) : Option String :=
  (names.map (join dir)).find? (isFileAt disk)

/-- The runs of the search from a directory for a file of one of some names, with their answers. -/
inductive Climbs (disk : Disk) (names : List String) : String → Option String → Prop where
  | here {dir path : String} (hfirst : firstIn? disk names dir = some path) :
      Climbs disk names dir (some path)
  | top {dir : String} (hfirst : firstIn? disk names dir = none) (htop : directoryOf dir = dir) :
      Climbs disk names dir none
  | up {dir : String} {answer : Option String} (hfirst : firstIn? disk names dir = none)
      (hbelow : directoryOf dir ≠ dir) (hrest : Climbs disk names (directoryOf dir) answer) :
      Climbs disk names dir answer

variable {disk : Disk} {names : List String} {dir path : String}

/-- A run has only one answer. -/
theorem Climbs.unique {answer other : Option String} (h : Climbs disk names dir answer)
    (hother : Climbs disk names dir other) : answer = other := by
  induction h with
  | here hfirst =>
      cases hother with
      | here hfirst' => exact hfirst.symm.trans hfirst'
      | top hfirst' => simp [hfirst] at hfirst'
      | up hfirst' => simp [hfirst] at hfirst'
  | top hfirst htop =>
      cases hother with
      | here hfirst' => simp [hfirst] at hfirst'
      | top => rfl
      | up _ hbelow => exact absurd htop hbelow
  | up hfirst hbelow _ ih =>
      cases hother with
      | here hfirst' => simp [hfirst] at hfirst'
      | top _ htop => exact absurd htop hbelow
      | up _ _ hrest => exact ih hrest

/-! ## The search is the loop -/

theorem isComponent_of_mem_fileNames {name : String} (h : name ∈ fileNames) : IsComponent name := by
  have hall : ∀ name ∈ fileNames, name ≠ "" ∧ name ≠ "." ∧ name ≠ ".." ∧ '/' ∉ name.toList := by
    decide
  obtain ⟨hempty, hhere, habove, hslash⟩ := hall name h
  exact ⟨hempty, hhere, habove, hslash⟩

/-- On texts, the first settings file of a directory is the first of its candidates. -/
theorem firstIn?_text {p : AbsolutePath} (hp : p.Normal) :
    firstIn? disk fileNames p.text = ((candidates p).find? disk.isFile).map AbsolutePath.text := by
  have htexts : fileNames.map (join p.text) = (candidates p).map AbsolutePath.text := by
    rw [candidates, List.map_map]
    refine List.map_congr_left fun name hname => ?_
    exact (hp.text_child (isComponent_of_mem_fileNames hname).noSlash).symm
  have hfile : ∀ q ∈ candidates p, (isFileAt disk ∘ AbsolutePath.text) q = disk.isFile q := by
    intro q hq
    obtain ⟨name, hname, rfl⟩ := List.mem_map.1 hq
    have hchild := hp.child (isComponent_of_mem_fileNames hname)
    rw [Function.comp_apply, isFileAt, hchild.ofText_text]
  calc firstIn? disk fileNames p.text
      = ((candidates p).map AbsolutePath.text).find? (isFileAt disk) := by rw [firstIn?, htexts]
    _ = ((candidates p).find? (isFileAt disk ∘ AbsolutePath.text)).map AbsolutePath.text :=
        List.find?_map
    _ = ((candidates p).find? disk.isFile).map AbsolutePath.text := by rw [List.find?_congr hfile]

/-- At the root the search looks at one directory only. -/
theorem find?_root {isFile : AbsolutePath → Bool} {p : AbsolutePath} (hroot : p.components = []) :
    find? isFile p = (candidates p).find? isFile := by
  obtain ⟨lead, cs⟩ := p
  obtain rfl : cs = [] := hroot
  simp [find?, searchOrder, AbsolutePath.ancestors, AbsolutePath.chain]

/-- Below the root the search goes on with the directory above. -/
theorem find?_child {isFile : AbsolutePath → Bool} (p : AbsolutePath) (name : String) :
    find? isFile (p.child name) = ((candidates (p.child name)).find? isFile).or
      (find? isFile p) := by
  simp [find?, searchOrder, AbsolutePath.ancestors, AbsolutePath.chain, AbsolutePath.child,
    List.find?_append]

/-- The search gives the answer of the loop, by induction on the directory from the root down. -/
theorem climbs_find? {p : AbsolutePath} (hp : p.Normal) :
    Climbs disk fileNames p.text ((find? disk.isFile p).map AbsolutePath.text) := by
  induction p using AbsolutePath.child_induction with
  | root p hroot =>
      rw [find?_root hroot, ← firstIn?_text hp]
      cases hfirst : firstIn? disk fileNames p.text with
      | some path => exact .here hfirst
      | none => exact .top hfirst (hp.directoryOf_root hroot)
  | child p name ih =>
      rw [find?_child, Option.map_or, ← firstIn?_text hp]
      cases hfirst : firstIn? disk fileNames (p.child name).text with
      | some path => exact .here hfirst
      | none =>
          refine .up hfirst hp.directoryOf_child_ne ?_
          rw [hp.directoryOf_child]
          exact ih hp.of_child.1

/-! ## The answer is the nearest file -/

/-- So many directories above a directory there is a file of that name, and the search meets no
other one before it: the names that come first are no files there, and the directories below hold no
file of any of the names. -/
structure FirstAt (disk : Disk) (names : List String) (dir : String) (n : Nat) (name : String) :
    Prop where
  isFile : isFileAt disk (join (directoryOf^[n] dir) name) = true
  first : ∃ before after, names = before ++ name :: after ∧
    ∀ other ∈ before, isFileAt disk (join (directoryOf^[n] dir) other) = false
  nearest : ∀ m < n, ∀ other ∈ names, isFileAt disk (join (directoryOf^[m] dir) other) = false

theorem FirstAt.mem_names {n : Nat} {name : String} (h : FirstAt disk names dir n name) :
    name ∈ names := by
  obtain ⟨before, after, hnames, -⟩ := h.first
  simp [hnames]

/-- A directory holds no settings file exactly if none of the names is a file there. -/
theorem firstIn?_eq_none :
    firstIn? disk names dir = none ↔ ∀ name ∈ names, isFileAt disk (join dir name) = false := by
  simp [firstIn?]

theorem firstAt_zero_iff {name : String} :
    FirstAt disk names dir 0 name ↔ names.find? (isFileAt disk ∘ join dir) = some name := by
  rw [List.find?_eq_some_iff_append]
  constructor
  · intro h
    obtain ⟨before, after, hnames, hbefore⟩ := h.first
    exact ⟨h.isFile, before, after, hnames, fun other hother => by simpa using hbefore other hother⟩
  · rintro ⟨hfile, before, after, hnames, hbefore⟩
    refine ⟨hfile, ⟨before, after, hnames, ?_⟩, by simp⟩
    exact fun other hother => by simpa using hbefore other hother

/-- The first file further up is the first one seen from the directory above, if there is none
here. -/
theorem firstAt_succ_iff {n : Nat} {name : String} :
    FirstAt disk names dir (n + 1) name ↔
      firstIn? disk names dir = none ∧ FirstAt disk names (directoryOf dir) n name := by
  rw [firstIn?_eq_none]
  constructor
  · rintro ⟨hfile, hfirst, hnearest⟩
    refine ⟨hnearest 0 (by simp), hfile, hfirst, fun m hm => ?_⟩
    exact hnearest (m + 1) (by simpa using hm)
  · rintro ⟨hnone, hfile, hfirst, hnearest⟩
    refine ⟨hfile, hfirst, fun m hm => ?_⟩
    cases m with
    | zero => exact hnone
    | succ m => exact hnearest m (by simpa using hm)

theorem firstIn?_eq_some :
    firstIn? disk names dir = some path ↔
      ∃ name, FirstAt disk names dir 0 name ∧ join dir name = path := by
  simp only [firstAt_zero_iff, firstIn?, List.find?_map, Option.map_eq_some_iff]

/-- What a run finds is the nearest file. -/
theorem Climbs.exists_firstAt (h : Climbs disk names dir (some path)) :
    ∃ n name, FirstAt disk names dir n name ∧ join (directoryOf^[n] dir) name = path := by
  generalize hanswer : some path = answer at h
  induction h with
  | here hfirst =>
      obtain rfl := Option.some_inj.1 hanswer
      obtain ⟨name, hname, hpath⟩ := firstIn?_eq_some.1 hfirst
      exact ⟨0, name, hname, hpath⟩
  | top => simp at hanswer
  | up hfirst _ _ ih =>
      obtain ⟨n, name, hname, hpath⟩ := ih hanswer
      exact ⟨n + 1, name, firstAt_succ_iff.2 ⟨hfirst, hname⟩, hpath⟩

/-- The nearest file is found. -/
theorem FirstAt.climbs {n : Nat} {name : String} (h : FirstAt disk names dir n name) :
    Climbs disk names dir (some (join (directoryOf^[n] dir) name)) := by
  induction n generalizing dir with
  | zero => exact .here (firstIn?_eq_some.2 ⟨name, h, rfl⟩)
  | succ n ih =>
      obtain ⟨hnone, hrest⟩ := firstAt_succ_iff.1 h
      refine .up hnone ?_ (ih hrest)
      -- At the root the file further up would be one of the directory itself.
      intro htop
      have hfile := h.isFile
      rw [Function.iterate_fixed htop, firstIn?_eq_none.1 hnone name h.mem_names] at hfile
      exact Bool.false_ne_true hfile

/-- A search without an answer has met no file at any level. -/
theorem Climbs.no_file (h : Climbs disk names dir none) (n : Nat) {name : String}
    (hname : name ∈ names) : isFileAt disk (join (directoryOf^[n] dir) name) = false := by
  generalize hanswer : none = answer at h
  induction h generalizing n with
  | here => simp at hanswer
  | top hfirst htop =>
      rw [Function.iterate_fixed htop]
      exact firstIn?_eq_none.1 hfirst name hname
  | up hfirst _ _ ih =>
      cases n with
      | zero => exact firstIn?_eq_none.1 hfirst name hname
      | succ n => exact ih n hanswer

/-- From every starting directory and on every disk the search ends, at the latest at the root, with
the nearest file of one of three names.  There is an answer if and only if the directory or one of
those above it, up to and including the root, holds such a file. -/
theorem findFrom?_nearest (disk : Disk) (start : String) :
    let names := [".simplrc.yml", ".simplrc.yaml", ".simplrc.json"]
    let dir := (AbsolutePath.resolve disk.cwd start).text
    let found := (findFrom? disk start).map AbsolutePath.text
    (∀ answer, Climbs disk names dir answer ↔ answer = found) ∧
      ((∃ path, found = some path) ↔
        ∃ n, ∃ name ∈ names, isFileAt disk (join (directoryOf^[n] dir) name) = true) ∧
      (∀ path, found = some path ↔
        ∃ n name, FirstAt disk names dir n name ∧ join (directoryOf^[n] dir) name = path) ∧
      ∃ height, (directoryOf^[height] dir = "/" ∨ directoryOf^[height] dir = "//") ∧
        ∀ n, directoryOf^[n + 1] dir = directoryOf^[n] dir ↔ height ≤ n := by
  intro names dir found
  have hnormal : (AbsolutePath.resolve disk.cwd start).Normal := AbsolutePath.normal_resolve _ _
  have hrun : Climbs disk names dir found := climbs_find? hnormal
  refine ⟨fun answer => ⟨fun h => h.unique hrun, fun h => h ▸ hrun⟩, ⟨?_, ?_⟩,
    fun path => ⟨?_, ?_⟩, _, ?_, hnormal.iterate_directoryOf_fixed_iff⟩
  · rintro ⟨path, hpath⟩
    obtain ⟨n, name, hname, -⟩ := Climbs.exists_firstAt (hpath ▸ hrun)
    exact ⟨n, name, hname.mem_names, hname.isFile⟩
  · rintro ⟨n, name, hname, hfile⟩
    refine Option.ne_none_iff_exists'.1 fun hnone => ?_
    rw [Climbs.no_file (hnone ▸ hrun) n hname] at hfile
    exact Bool.false_ne_true hfile
  · intro hpath
    exact Climbs.exists_firstAt (hpath ▸ hrun)
  · rintro ⟨n, name, hname, rfl⟩
    exact hrun.unique hname.climbs
  · rw [hnormal.iterate_directoryOf_eq_lead]
    exact hnormal.lead

end Config

end Monotype
