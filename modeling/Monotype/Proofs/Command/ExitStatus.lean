import Monotype.Proofs.Command.Input
import Monotype.Proofs.Json.Room
import Monotype.Yaml.Reader

/-!
# The exit status of a check

A check goes through the settings, the term file, inference and printing.  For each of these stages
the ways that it can end are said in terms of what it reads and of what the host does, and `Ends`
puts them together: which ending the stages give.  There is always one and only one, the ending of
the run (`ends_iff`).

Main statement: `exitStatus_runCheck`, for every host.  On a host that keeps to its promises
(`Host.Regular`), and apart from a few inputs that break a run off, the exit status tells whether
the input was bad, the term has no type, or its type was printed.
-/

namespace Monotype

/-- A host that keeps to its promises: a YAML text gives settings whose values can be written out,
or it is not YAML; there is room for every task; and the output takes every text. -/
structure Host.Regular (host : Host) : Prop where
  yaml {text : List Char} {fault : Yaml.Fault} :
    host.readYaml text = .error fault → fault = .malformed
  shown {text : List Char} {value? : String → Option Setting} {key : String} {s : Setting} :
    host.readYaml text = .ok (.mapping value?) → value? key = some s →
      s.shown ≠ .error .tooDeep ∧ s.plain ≠ .error .tooDeep
  room (task : Task) : host.hasRoom task = true
  uncut (c : Config) (t : Term) : host.cutShort? c t = none
  writes (text : Text) : (host.write? text).isSome = true

def Host.unlimited : Host where
  readYaml text := (Yaml.read text).toOption.elim (.error .malformed) fun d =>
    .ok (d.settings fun _ => true)
  hasRoom _ := true
  cutShort? _ _ := none
  write? text := some text.escaped

/-- A value that fits is not too deep to be written out. -/
theorem Document.ne_tooDeep_of_settings {fits : Document → Bool} (hfits : ∀ d, fits d = true)
    {d : Document} {value? : String → Option Setting} (h : d.settings fits = .mapping value?)
    {key : String} {s : Setting} (hs : value? key = some s) :
    s.shown ≠ .error .tooDeep ∧ s.plain ≠ .error .tooDeep := by
  cases d with
  | map entries =>
      obtain rfl := Settings.mapping.inj h
      obtain ⟨v, _, rfl⟩ := Option.map_eq_some_iff.1 hs
      cases hshow : v.isShowable <;> simp [setting, hfits, hshow]
  | _ => cases h

/-- A regular host exists: one without limits that writes ASCII. -/
theorem Host.regular_unlimited : unlimited.Regular where
  yaml {text fault} h := by
    cases hread : Yaml.read text with
    | error stop => simpa [unlimited, hread, Except.toOption] using h.symm
    | ok d => simp [unlimited, hread, Except.toOption] at h
  shown {text value? key s} h hs := by
    cases hread : Yaml.read text with
    | error fault => simp [unlimited, hread, Except.toOption] at h
    | ok d =>
        have hd : d.settings (fun _ => true) = .mapping value? := by
          simpa [unlimited, hread, Except.toOption] using h
        exact Document.ne_tooDeep_of_settings (fun _ => rfl) hd hs
  room _ := rfl
  uncut _ _ := rfl
  writes _ := rfl

namespace Command

/-! ## Printing -/

/-- The output takes a text. -/
def Takes (host : Host) (text : Text) : Prop := (host.write? text).isSome = true

section Printing

variable {host : Host} {code : Nat} {lines : List Text} {rest : List Block}

/-- Lines that the output takes one by one can be written all together. -/
theorem mapM_write?_of_takes (h : ∀ line ∈ lines, Takes host line) :
    ∃ written, lines.mapM host.write? = some written := by
  induction lines with
  | nil => exact ⟨[], rfl⟩
  | cons line lines ih =>
      obtain ⟨s, hs⟩ := Option.isSome_iff_exists.1 (h line (by simp))
      obtain ⟨written, hwritten⟩ := ih fun l hl => h l (by simp [hl])
      exact ⟨s :: written, by simp [hs, hwritten]⟩

/-- One line that the output does not take spoils all of them. -/
theorem mapM_write?_of_not_takes {line : Text} (hline : line ∈ lines) (h : ¬ Takes host line) :
    lines.mapM host.write? = none := by
  induction lines with
  | nil => cases hline
  | cons l lines ih =>
      rcases List.mem_cons.1 hline with rfl | hline
      · simp [Option.not_isSome_iff_eq_none.1 h]
      · cases host.write? l <;> simp [ih hline]

/-- A block that is written leaves the ending to the rest. -/
theorem ending_blocks_of_takes (h : ∀ line ∈ lines, Takes host line) :
    (Run.blocks host code (some lines :: rest)).ending = (Run.blocks host code rest).ending := by
  obtain ⟨written, hwritten⟩ := mapM_write?_of_takes h
  simp [Run.blocks, hwritten]

/-- A line that the output does not take breaks the run off, even if more blocks follow. -/
theorem ending_blocks_of_not_takes {line : Text} (hline : line ∈ lines) (h : ¬ Takes host line) :
    (Run.blocks host code (some lines :: rest)).ending = .broken .unwritable := by
  simp [Run.blocks, mapM_write?_of_not_takes hline h, Run.breakOff]

theorem lines_cases (host : Host) (lines : List Text) :
    (∀ line ∈ lines, Takes host line) ∨ ∃ line ∈ lines, ¬ Takes host line := by
  by_cases h : ∀ line ∈ lines, Takes host line
  · exact Or.inl h
  · exact Or.inr (by simpa using h)

/-- A report can be given in a format. -/
def Reported (host : Host) (format : OutputFormat) (report : Report) : Prop :=
  format = .pretty → Takes host report.line

/-- A report ends the run with its status, unless the output does not take it. -/
theorem ending_reportRun (host : Host) (format : OutputFormat) (code : Nat) (report : Report) :
    (Reported host format report → (reportRun host format code report).ending = .status code) ∧
    (¬ Reported host format report →
      (reportRun host format code report).ending = .broken .unwritable) := by
  cases format with
  | json => exact ⟨fun _ => rfl, fun h => absurd (fun hformat => nomatch hformat) h⟩
  | pretty =>
      constructor
      · intro h
        exact ending_blocks_of_takes (by simpa using h rfl)
      · intro h
        exact ending_blocks_of_not_takes (List.mem_singleton.2 rfl) fun ht => h fun _ => ht

end Printing

/-! ## Inference -/

/-- Inference finds out about a term. -/
def Infers (host : Host) (c : Config) (t : Term) (r : Inference) : Prop :=
  host.cutShort? c t = none ∧ t.infer (scopeFor c) = .ok r

/-- Inference finds a fault in a term. -/
def Fails (host : Host) (c : Config) (t : Term) (f : InferFault) : Prop :=
  host.cutShort? c t = none ∧ t.infer (scopeFor c) = .error f

/-- A fault of inference can be told in a format. -/
inductive Told (host : Host) (f : InferFault) : OutputFormat → Prop where
  | json (hroom : ∀ e, equationOf? f = some e → host.hasRoom (.equation e) = true) :
      Told host f .json
  | pretty (hline : Takes host f.report.line)
      (hequation : ∀ e, equationOf? f = some e → host.hasRoom (.equation e) = true ∧
        ∀ line ∈ f.report.equationLine?.toList, Takes host line) : Told host f .pretty

inductive TellingBreaks (host : Host) (f : InferFault) : OutputFormat → Breakdown → Prop where
  | line (hline : ¬ Takes host f.report.line) : TellingBreaks host f .pretty .unwritable
  | equation {format : OutputFormat} {e : Equation} (hline : Reported host format f.report)
      (he : equationOf? f = some e) (hroom : host.hasRoom (.equation e) = false) :
      TellingBreaks host f format .tooDeep
  | equationLine {e : Equation} {line : Text} (hline : Takes host f.report.line)
      (he : equationOf? f = some e) (hroom : host.hasRoom (.equation e) = true)
      (hmem : line ∈ f.report.equationLine?.toList) (h : ¬ Takes host line) :
      TellingBreaks host f .pretty .unwritable

/-- What was found out can be printed. -/
inductive Printed (host : Host) (c : Config) (r : Inference) : Prop where
  | json (hformat : c.format = .json) (hsummary : host.hasRoom (.summary r) = true)
      (htype : host.hasRoom (.typeJson r.type) = true)
      (hwrite : host.hasRoom (.writeJson r.type (shownTree? c r)) = true)
  | pretty (hformat : c.format = .pretty) (hsummary : host.hasRoom (.summary r) = true)
      (htype : host.hasRoom (.typeText r.type) = true) (hline : Takes host r.type.text)
      (htree : c.everyType = true → host.hasRoom (.listing r.tree) = true ∧
        ∀ line ∈ r.tree.lines, Takes host line)

/-- What was found out cannot be written as JSON, though its type can. -/
structure Unlisted (host : Host) (c : Config) (r : Inference) : Prop where
  format : c.format = .json
  summary : host.hasRoom (.summary r) = true
  type : host.hasRoom (.typeJson r.type) = true
  write : host.hasRoom (.writeJson r.type (shownTree? c r)) = false

/-- Printing what was found out breaks the run off. -/
inductive PrintingBreaks (host : Host) (c : Config) (r : Inference) : Breakdown → Prop where
  | summary (h : host.hasRoom (.summary r) = false) : PrintingBreaks host c r .tooDeep
  | typeJson (hformat : c.format = .json) (hsummary : host.hasRoom (.summary r) = true)
      (h : host.hasRoom (.typeJson r.type) = false) : PrintingBreaks host c r .tooDeep
  | typeText (hformat : c.format = .pretty) (hsummary : host.hasRoom (.summary r) = true)
      (h : host.hasRoom (.typeText r.type) = false) : PrintingBreaks host c r .tooDeep
  | line (hformat : c.format = .pretty) (hsummary : host.hasRoom (.summary r) = true)
      (htype : host.hasRoom (.typeText r.type) = true) (h : ¬ Takes host r.type.text) :
      PrintingBreaks host c r .unwritable
  | listing (hformat : c.format = .pretty) (hsummary : host.hasRoom (.summary r) = true)
      (htype : host.hasRoom (.typeText r.type) = true) (hline : Takes host r.type.text)
      (hevery : c.everyType = true) (h : host.hasRoom (.listing r.tree) = false) :
      PrintingBreaks host c r .tooDeep
  | listed {line : Text} (hformat : c.format = .pretty)
      (hsummary : host.hasRoom (.summary r) = true)
      (htype : host.hasRoom (.typeText r.type) = true) (hline : Takes host r.type.text)
      (hevery : c.everyType = true) (hlisting : host.hasRoom (.listing r.tree) = true)
      (hmem : line ∈ r.tree.lines) (h : ¬ Takes host line) : PrintingBreaks host c r .unwritable

section Checking

variable {host : Host} {c : Config} {t : Term} {f : InferFault} {r : Inference} {path : String}
  {format : OutputFormat} {cause : Breakdown} {code : Nat}

/-- Telling a fault succeeds or breaks the run off. -/
theorem telling_cases (host : Host) (f : InferFault) (format : OutputFormat) :
    Told host f format ∨ ∃ cause, TellingBreaks host f format cause := by
  -- The line of the fault comes first, and then the equation if there is one.
  by_cases hline : Reported host format f.report
  · cases he : equationOf? f with
    | none =>
        cases format with
        | json => exact Or.inl (.json (by simp [he]))
        | pretty => exact Or.inl (.pretty (hline rfl) (by simp [he]))
    | some e =>
        cases hroom : host.hasRoom (.equation e) with
        | false => exact Or.inr ⟨_, .equation hline he hroom⟩
        | true =>
            cases format with
            | json => exact Or.inl (.json (by simp [he, hroom]))
            | pretty =>
                rcases lines_cases host f.report.equationLine?.toList with h | ⟨line, hmem, h⟩
                · refine Or.inl (.pretty (hline rfl) ?_)
                  intro e' he'
                  obtain rfl : e = e' := Option.some.inj (he.symm.trans he')
                  exact ⟨hroom, h⟩
                · exact Or.inr ⟨_, .equationLine (hline rfl) he hroom hmem h⟩
  · cases format with
    | json => exact absurd (fun hformat => nomatch hformat) hline
    | pretty => exact Or.inr ⟨_, .line fun h => hline fun _ => h⟩

/-- A fault that can be told ends the run with its status. -/
theorem ending_faultRun_of_told (h : Told host f format) :
    (faultRun host format code f).ending = .status code := by
  cases h with
  | json hroom =>
      cases he : equationOf? f with
      | none => simp [faultRun, he, Run.exit]
      | some e => simp [faultRun, he, hroom e he, Run.exit]
  | pretty hline hequation =>
      rw [faultRun, ending_blocks_of_takes (by simpa using hline)]
      cases he : equationOf? f with
      | none => simp [equationBlocks, he, Run.blocks, Run.exit]
      | some e =>
          obtain ⟨hroom, hlines⟩ := hequation e he
          simp only [equationBlocks, he, blockFor, hroom, if_true]
          rw [ending_blocks_of_takes hlines]
          rfl

theorem ending_faultRun_of_tellingBreaks (h : TellingBreaks host f format cause) :
    (faultRun host format code f).ending = .broken cause := by
  cases h with
  | line hline => exact ending_blocks_of_not_takes (List.mem_singleton.2 rfl) hline
  | @equation _ e hline he hroom =>
      cases format with
      | json => simp [faultRun, he, hroom, Run.breakOff]
      | pretty =>
          rw [faultRun, ending_blocks_of_takes (by simpa using hline rfl)]
          simp [equationBlocks, he, blockFor, hroom, Run.blocks, Run.breakOff]
  | equationLine hline he hroom hmem h =>
      rw [faultRun, ending_blocks_of_takes (by simpa using hline)]
      simp only [equationBlocks, he, blockFor, hroom, if_true]
      exact ending_blocks_of_not_takes hmem h

/-- Printing a result succeeds, gives way to a report, or breaks the run off. -/
theorem printing_cases (host : Host) (c : Config) (r : Inference) :
    Printed host c r ∨ Unlisted host c r ∨ ∃ cause, PrintingBreaks host c r cause := by
  -- The questions are asked in the order of the run, and the first bad answer ends it.
  cases hsummary : host.hasRoom (.summary r) with
  | false => exact Or.inr (Or.inr ⟨_, .summary hsummary⟩)
  | true =>
  cases hformat : c.format with
  | json =>
      cases htype : host.hasRoom (.typeJson r.type) with
      | false => exact Or.inr (Or.inr ⟨_, .typeJson hformat hsummary htype⟩)
      | true =>
          cases hwrite : host.hasRoom (.writeJson r.type (shownTree? c r)) with
          | true => exact Or.inl (.json hformat hsummary htype hwrite)
          | false => exact Or.inr (Or.inl ⟨hformat, hsummary, htype, hwrite⟩)
  | pretty =>
  cases htype : host.hasRoom (.typeText r.type) with
  | false => exact Or.inr (Or.inr ⟨_, .typeText hformat hsummary htype⟩)
  | true =>
  by_cases hline : Takes host r.type.text
  · cases hevery : c.everyType with
    | false => exact Or.inl (.pretty hformat hsummary htype hline (by simp [hevery]))
    | true =>
        cases hlisting : host.hasRoom (.listing r.tree) with
        | false => exact Or.inr (Or.inr ⟨_, .listing hformat hsummary htype hline hevery hlisting⟩)
        | true =>
            rcases lines_cases host r.tree.lines with h | ⟨line, hmem, h⟩
            · exact Or.inl (.pretty hformat hsummary htype hline fun _ => ⟨hlisting, h⟩)
            · exact Or.inr (Or.inr ⟨_, .listed hformat hsummary htype hline hevery hlisting hmem h⟩)
  · exact Or.inr (Or.inr ⟨_, .line hformat hsummary htype hline⟩)

/-- A result that can be printed ends the run with status 0. -/
theorem ending_resultRun_of_printed (h : Printed host c r) :
    (resultRun host c r).ending = .status 0 := by
  cases h with
  | json hformat _ htype hwrite => simp [resultRun, hformat, htype, hwrite, Run.exit]
  | pretty hformat _ htype hline htree =>
      simp only [resultRun, hformat, resultBlocks, blockFor, htype, if_true]
      rw [ending_blocks_of_takes (by simpa using hline)]
      cases hevery : c.everyType with
      | false => simp [shownTree?, hevery, Run.blocks, Run.exit]
      | true =>
          obtain ⟨hlisting, hlines⟩ := htree hevery
          simp only [shownTree?, hevery, if_true, hlisting]
          rw [ending_blocks_of_takes hlines]
          rfl

theorem ending_resultRun_of_printingBreaks (hsummary : host.hasRoom (.summary r) = true)
    (h : PrintingBreaks host c r cause) : (resultRun host c r).ending = .broken cause := by
  cases h with
  | summary h => simp [h] at hsummary
  | typeJson hformat _ h => simp [resultRun, hformat, h, Run.breakOff]
  | typeText hformat _ h =>
      simp [resultRun, hformat, resultBlocks, blockFor, h, Run.blocks, Run.breakOff]
  | line hformat _ htype h =>
      simp only [resultRun, hformat, resultBlocks, blockFor, htype, if_true]
      exact ending_blocks_of_not_takes (List.mem_singleton.2 rfl) h
  | listing hformat _ htype hline hevery h =>
      simp only [resultRun, hformat, resultBlocks, blockFor, htype, if_true]
      rw [ending_blocks_of_takes (by simpa using hline)]
      simp [shownTree?, hevery, h, Run.blocks, Run.breakOff]
  | listed hformat _ htype hline hevery hlisting hmem h =>
      simp only [resultRun, hformat, resultBlocks, blockFor, htype, if_true]
      rw [ending_blocks_of_takes (by simpa using hline)]
      simp only [shownTree?, hevery, if_true, hlisting]
      exact ending_blocks_of_not_takes hmem h

/-- Inference that is cut short ends as the report of a term that is too deep does. -/
theorem ending_checkTerm_of_cutShort {events : List Event}
    (h : host.cutShort? c t = some events) :
    (checkTerm host c path t).ending =
      (reportRun host c.format 2 (.tooDeep shownLimit)).ending := by
  simp [checkTerm, h, Run.logged, tooDeepRun]

/-- A fault of inference ends the run as telling it does. -/
theorem ending_checkTerm_of_fails (h : Fails host c t f) :
    (checkTerm host c path t).ending = (faultRun host c.format 1 f).ending := by
  obtain ⟨hcut, hf⟩ := h
  rw [checkTerm, hcut]
  cases htrace : t.inferTraced (scopeFor c) with
  | mk events outcome =>
  obtain rfl : outcome = _ := by simpa [Term.infer, htrace] using hf
  rfl

/-- A result ends the run as printing it does, once there is room to sum it up. -/
theorem ending_checkTerm_of_infers (h : Infers host c t r) :
    (checkTerm host c path t).ending =
      if host.hasRoom (.summary r) then (resultRun host c r).ending else .broken .tooDeep := by
  obtain ⟨hcut, hr⟩ := h
  rw [checkTerm, hcut]
  cases htrace : t.inferTraced (scopeFor c) with
  | mk events outcome =>
  obtain rfl : outcome = _ := by simpa [Term.infer, htrace] using hr
  cases hsummary : host.hasRoom (.summary r) <;> simp [Run.logged, Run.breakOff, hsummary]

end Checking

/-! ## The whole run -/

/-- The input is refused, with the report about it: the file holds no term, or there is no room for
its inference or for its listing. -/
inductive Refuses (host : Host) (disk : Disk) (path : String) (c : Config) : Report → Prop where
  | noTerm {report : Report} (h : HoldsNone host disk path report) :
      Refuses host disk path c report
  | cutShort {t : Term} {events : List Event} (ht : Holds host disk path t)
      (h : host.cutShort? c t = some events) : Refuses host disk path c (.tooDeep shownLimit)
  | unlisted {t : Term} {r : Inference} (ht : Holds host disk path t) (hr : Infers host c t r)
      (h : Unlisted host c r) : Refuses host disk path c (.tooDeep shownLimit)

/-- How the stages of a check end it. -/
inductive Ends (host : Host) (disk : Disk) (a : Arguments) : Ending → Prop where
  | unusable (h : Unusable host disk a) : Ends host disk a (.status 2)
  | settingsBreak {cause : Breakdown} (h : SettingsBreak host disk a cause) :
      Ends host disk a (.broken cause)
  | unread {c : Config} (hc : Uses host disk a c) (h : Unread disk a.file) :
      Ends host disk a (.status 2)
  | fileBreaks {c : Config} {cause : Breakdown} (hc : Uses host disk a c)
      (h : FileBreaks host disk a.file cause) : Ends host disk a (.broken cause)
  | refused {c : Config} {report : Report} (hc : Uses host disk a c)
      (h : Refuses host disk a.file c report) (hreport : Reported host c.format report) :
      Ends host disk a (.status 2)
  | refusedUnsaid {c : Config} {report : Report} (hc : Uses host disk a c)
      (h : Refuses host disk a.file c report) (hreport : ¬ Reported host c.format report) :
      Ends host disk a (.broken .unwritable)
  | told {c : Config} {t : Term} {f : InferFault} (hc : Uses host disk a c)
      (ht : Holds host disk a.file t) (hf : Fails host c t f) (h : Told host f c.format) :
      Ends host disk a (.status 1)
  | tellingBreaks {c : Config} {t : Term} {f : InferFault} {cause : Breakdown}
      (hc : Uses host disk a c) (ht : Holds host disk a.file t) (hf : Fails host c t f)
      (h : TellingBreaks host f c.format cause) : Ends host disk a (.broken cause)
  | printed {c : Config} {t : Term} {r : Inference} (hc : Uses host disk a c)
      (ht : Holds host disk a.file t) (hr : Infers host c t r) (h : Printed host c r) :
      Ends host disk a (.status 0)
  | printingBreaks {c : Config} {t : Term} {r : Inference} {cause : Breakdown}
      (hc : Uses host disk a c) (ht : Holds host disk a.file t) (hr : Infers host c t r)
      (h : PrintingBreaks host c r cause) : Ends host disk a (.broken cause)

section Run

variable {host : Host} {disk : Disk} {a : Arguments}

/-- With settings and a term, the run is the check of that term. -/
theorem runCheck_of_holds {c : Config} {t : Term} (hc : Uses host disk a c)
    (ht : Holds host disk a.file t) : runCheck host disk a = checkTerm host c a.file t := by
  rw [runCheck, withConfig_of_uses hc, withTerm, load_of_holds ht]

/-- Input that is refused ends the run the way its report does. -/
theorem ending_of_refuses {c : Config} {report : Report} (hc : Uses host disk a c)
    (h : Refuses host disk a.file c report) :
    (runCheck host disk a).ending = (reportRun host c.format 2 report).ending := by
  cases h with
  | noTerm h => rw [runCheck, withConfig_of_uses hc, withTerm_of_holdsNone h]
  | cutShort ht h => rw [runCheck_of_holds hc ht, ending_checkTerm_of_cutShort h]
  | unlisted ht hr h =>
      obtain ⟨hformat, hsummary, htype, hwrite⟩ := h
      rw [runCheck_of_holds hc ht, ending_checkTerm_of_infers hr, if_pos hsummary]
      simp [resultRun, hformat, htype, hwrite, tooDeepRun]

/-- A stage that ends the run ends it in its own way. -/
theorem ending_of_ends {e : Ending} (h : Ends host disk a e) :
    (runCheck host disk a).ending = e := by
  cases h with
  | unusable h =>
      obtain ⟨fault, hrun⟩ := withConfig_of_unusable h
      rw [runCheck, hrun]
      rfl
  | settingsBreak h =>
      rw [runCheck, withConfig_of_settingsBreak h]
      rfl
  | unread hc h =>
      obtain ⟨message, hrun⟩ := withTerm_of_unread h
      rw [runCheck, withConfig_of_uses hc, hrun]
      rfl
  | fileBreaks hc h =>
      rw [runCheck, withConfig_of_uses hc, withTerm_of_fileBreaks h]
      rfl
  | refused hc h hreport => rw [ending_of_refuses hc h, (ending_reportRun ..).1 hreport]
  | refusedUnsaid hc h hreport => rw [ending_of_refuses hc h, (ending_reportRun ..).2 hreport]
  | told hc ht hf h =>
      rw [runCheck_of_holds hc ht, ending_checkTerm_of_fails hf, ending_faultRun_of_told h]
  | tellingBreaks hc ht hf h =>
      rw [runCheck_of_holds hc ht, ending_checkTerm_of_fails hf, ending_faultRun_of_tellingBreaks h]
  | @printed c t r hc ht hr h =>
      have hsummary : host.hasRoom (.summary r) = true := by cases h <;> assumption
      rw [runCheck_of_holds hc ht, ending_checkTerm_of_infers hr, if_pos hsummary,
        ending_resultRun_of_printed h]
  | @printingBreaks c t r cause hc ht hr h =>
      rw [runCheck_of_holds hc ht, ending_checkTerm_of_infers hr]
      cases hsummary : host.hasRoom (.summary r) with
      | true => rw [if_pos rfl, ending_resultRun_of_printingBreaks hsummary h]
      | false =>
          -- Without room for the summary nothing else is tried.
          obtain rfl : cause = .tooDeep := by cases h <;> simp_all
          rfl

/-- Some stage ends the run: the settings, then the file, then inference, then printing. -/
theorem exists_ends (host : Host) (disk : Disk) (a : Arguments) : ∃ e, Ends host disk a e := by
  -- What is refused is reported, unless the output does not take the report.
  have refused {c : Config} {report : Report} (hc : Uses host disk a c)
      (h : Refuses host disk a.file c report) : ∃ e, Ends host disk a e := by
    by_cases hreport : Reported host c.format report
    · exact ⟨_, .refused hc h hreport⟩
    · exact ⟨_, .refusedUnsaid hc h hreport⟩
  rcases settings_cases host disk a with ⟨c, hc⟩ | h | ⟨cause, h⟩
  · rcases file_cases host disk a.file with ⟨t, ht⟩ | h | ⟨report, h⟩ | ⟨cause, h⟩
    · cases hcut : host.cutShort? c t with
      | some events => exact refused hc (.cutShort ht hcut)
      | none =>
          cases hout : t.infer (scopeFor c) with
          | error f =>
              rcases telling_cases host f c.format with h | ⟨cause, h⟩
              · exact ⟨_, .told hc ht ⟨hcut, hout⟩ h⟩
              · exact ⟨_, .tellingBreaks hc ht ⟨hcut, hout⟩ h⟩
          | ok r =>
              rcases printing_cases host c r with h | h | ⟨cause, h⟩
              · exact ⟨_, .printed hc ht ⟨hcut, hout⟩ h⟩
              · exact refused hc (.unlisted ht ⟨hcut, hout⟩ h)
              · exact ⟨_, .printingBreaks hc ht ⟨hcut, hout⟩ h⟩
    · exact ⟨_, .unread hc h⟩
    · exact refused hc (.noTerm h)
    · exact ⟨_, .fileBreaks hc h⟩
  · exact ⟨_, .unusable h⟩
  · exact ⟨_, .settingsBreak h⟩

/-- The stages are exhaustive, so that they tell every ending exactly. -/
theorem ends_iff {e : Ending} : Ends host disk a e ↔ (runCheck host disk a).ending = e := by
  constructor
  · exact ending_of_ends
  · rintro rfl
    obtain ⟨e, he⟩ := exists_ends host disk a
    rwa [ending_of_ends he]

theorem ending_eq_zero_iff :
    (runCheck host disk a).ending = .status 0 ↔ ∃ c t r, Uses host disk a c ∧
      Holds host disk a.file t ∧ Infers host c t r ∧ Printed host c r := by
  rw [← ends_iff]
  constructor
  · intro h
    cases h with
    | printed hc ht hr h => exact ⟨_, _, _, hc, ht, hr, h⟩
  · rintro ⟨c, t, r, hc, ht, hr, h⟩
    exact .printed hc ht hr h

theorem ending_eq_one_iff :
    (runCheck host disk a).ending = .status 1 ↔ ∃ c t f, Uses host disk a c ∧
      Holds host disk a.file t ∧ Fails host c t f ∧ Told host f c.format := by
  rw [← ends_iff]
  constructor
  · intro h
    cases h with
    | told hc ht hf h => exact ⟨_, _, _, hc, ht, hf, h⟩
  · rintro ⟨c, t, f, hc, ht, hf, h⟩
    exact .told hc ht hf h

theorem ending_eq_two_iff :
    (runCheck host disk a).ending = .status 2 ↔ Unusable host disk a ∨ ∃ c, Uses host disk a c ∧
      (Unread disk a.file ∨ ∃ report, Refuses host disk a.file c report ∧
        Reported host c.format report) := by
  rw [← ends_iff]
  constructor
  · intro h
    cases h with
    | unusable h => exact Or.inl h
    | unread hc h => exact Or.inr ⟨_, hc, Or.inl h⟩
    | refused hc h hreport => exact Or.inr ⟨_, hc, Or.inr ⟨_, h, hreport⟩⟩
  · rintro (h | ⟨c, hc, h | ⟨report, h, hreport⟩⟩)
    · exact .unusable h
    · exact .unread hc h
    · exact .refused hc h hreport

/-- No status above 2 comes up, since no stage has one. -/
theorem code_le_two {code : Nat} (h : (runCheck host disk a).ending = .status code) : code ≤ 2 := by
  cases ends_iff.2 h <;> decide

/-- A stage after the settings breaks the run off. -/
inductive WorkBreaks (host : Host) (disk : Disk) (path : String) (c : Config) :
    Breakdown → Prop where
  | file {cause : Breakdown} (h : FileBreaks host disk path cause) :
      WorkBreaks host disk path c cause
  | unsaid {report : Report} (h : Refuses host disk path c report)
      (hreport : ¬ Reported host c.format report) : WorkBreaks host disk path c .unwritable
  | telling {t : Term} {f : InferFault} {cause : Breakdown} (ht : Holds host disk path t)
      (hf : Fails host c t f) (h : TellingBreaks host f c.format cause) :
      WorkBreaks host disk path c cause
  | printing {t : Term} {r : Inference} {cause : Breakdown} (ht : Holds host disk path t)
      (hr : Infers host c t r) (h : PrintingBreaks host c r cause) :
        WorkBreaks host disk path c cause

theorem ending_eq_broken_iff {cause : Breakdown} :
    (runCheck host disk a).ending = .broken cause ↔ SettingsBreak host disk a cause ∨
      ∃ c, Uses host disk a c ∧ WorkBreaks host disk a.file c cause := by
  rw [← ends_iff]
  constructor
  · intro h
    cases h with
    | settingsBreak h => exact Or.inl h
    | fileBreaks hc h => exact Or.inr ⟨_, hc, .file h⟩
    | refusedUnsaid hc h hreport => exact Or.inr ⟨_, hc, .unsaid h hreport⟩
    | tellingBreaks hc ht hf h => exact Or.inr ⟨_, hc, .telling ht hf h⟩
    | printingBreaks hc ht hr h => exact Or.inr ⟨_, hc, .printing ht hr h⟩
  · rintro (h | ⟨c, hc, h⟩)
    · exact .settingsBreak h
    · cases h with
      | file h => exact .fileBreaks hc h
      | unsaid h hreport => exact .refusedUnsaid hc h hreport
      | telling ht hf h => exact .tellingBreaks hc ht hf h
      | printing ht hr h => exact .printingBreaks hc ht hr h

end Run

/-! ## Regular hosts -/

/-- The breakdowns that come from what is in the input. -/
def Breakdown.FromInput : Breakdown → Prop
  | .notUtf8 _ | .tooLong _ | .overflow | .unshowable | .badPath | .nameless => True
  | .tooDeep | .noValue _ | .unwritable => False

section Regular

variable {host : Host} {disk : Disk} {a : Arguments} {path : String} {c : Config}

section Showing

variable {value? : String → Option Setting} {key : String} {why : ShowStop}

theorem eq_of_mapError_unshowable {α : Type} {x : Except ShowStop α}
    (h : x.mapError .unshowable = .error (ConfigStop.unshowable why)) : x = .error why := by
  cases x with
  | ok a => cases h
  | error stop =>
      cases h
      rfl

/-- A flag is written out only if it has no truth value. -/
theorem exists_of_flag? (h : Config.flag? value? key = .error (.unshowable why)) :
    ∃ s, value? key = some s ∧ s.shown = .error why := by
  cases hs : value? key with
  | none => simp [Config.flag?, hs] at h
  | some s =>
      cases htruth : s.truth? with
      | some b => simp [Config.flag?, hs, htruth] at h
      | none =>
          simp only [Config.flag?, hs, htruth, bind_eq_error_iff] at h
          rcases h with hshown | ⟨text, _, hbad⟩
          · exact ⟨s, rfl, eq_of_mapError_unshowable hshown⟩
          · cases hbad

theorem exists_of_format? (h : Config.format? value? = .error (.unshowable why)) :
    ∃ s, value? "format" = some s ∧ s.plain = .error why := by
  cases hs : value? "format" with
  | none => simp [Config.format?, hs] at h
  | some s =>
      simp only [Config.format?, hs, bind_eq_error_iff] at h
      rcases h with hplain | ⟨text, _, hname⟩
      · exact ⟨s, rfl, eq_of_mapError_unshowable hplain⟩
      · cases hformat : OutputFormat.ofName? text <;> rw [hformat] at hname <;> cases hname

theorem exists_of_logLevel? (h : Config.logLevel? value? = .error (.unshowable why)) :
    ∃ s, value? "log_level" = some s ∧ s.plain = .error why := by
  cases hs : value? "log_level" with
  | none => simp [Config.logLevel?, hs] at h
  | some s =>
      simp only [Config.logLevel?, hs, bind_eq_error_iff] at h
      rcases h with hplain | ⟨text, _, hlevel⟩
      · exact ⟨s, rfl, eq_of_mapError_unshowable hplain⟩
      · cases hlevel

/-- A mapping that cannot be used because something cannot be written out has a setting of which
this is true. -/
theorem exists_setting_of_unshowable (h : Config.ofMapping value? = .error (.unshowable why)) :
    ∃ key s, value? key = some s ∧ (s.shown = .error why ∨ s.plain = .error why) := by
  simp only [Config.ofMapping, bind_eq_error_iff] at h
  rcases h with hbuiltin | ⟨_, _, hformat | ⟨_, _, hevery | ⟨_, _, hlevel | ⟨_, _, hdone⟩⟩⟩⟩
  · obtain ⟨s, hs, hshown⟩ := exists_of_flag? hbuiltin
    exact ⟨_, s, hs, Or.inl hshown⟩
  · obtain ⟨s, hs, hplain⟩ := exists_of_format? hformat
    exact ⟨_, s, hs, Or.inr hplain⟩
  · obtain ⟨s, hs, hshown⟩ := exists_of_flag? hevery
    exact ⟨_, s, hs, Or.inl hshown⟩
  · obtain ⟨s, hs, hplain⟩ := exists_of_logLevel? hlevel
    exact ⟨_, s, hs, Or.inr hplain⟩
  · cases hdone

end Showing

/-- A regular host reads JSON as if there were no limit of depth. -/
theorem readJson_of_regular (h : host.Regular) (text : List Char) :
    host.readJson text = Json.read .forFiles text :=
  if_pos (h.room _)

/-- On a regular host a settings file that is not in its format is a fault, or it holds an integer
of too many digits. -/
theorem settingsIn_of_regular (h : host.Regular) {text : List Char} {stop : Config.LoadStop}
    (hstop : Config.settingsIn host path text = .error stop) :
    (∃ fault, stop = .fault fault) ∨ ∃ n, stop = .tooLong n := by
  rw [Config.settingsIn, readJson_of_regular h] at hstop
  by_cases hjson : path.endsWith ".json" = true
  · rw [if_pos hjson] at hstop
    cases hread : Json.read .forFiles text with
    | ok v => simp [hread] at hstop
    | error why =>
        cases why with
        | tooDeep => exact absurd hread (Json.read_ne_tooDeep rfl text)
        | fault fault left => exact Or.inl ⟨_, by simpa [hread] using hstop.symm⟩
        | tooLong n => exact Or.inr ⟨n, by simpa [hread] using hstop.symm⟩
  · rw [if_neg hjson] at hstop
    cases hread : host.readYaml text with
    | ok s => simp [hread, Except.mapError] at hstop
    | error fault =>
        obtain rfl := h.yaml hread
        refine Or.inl ⟨.notYaml path, ?_⟩
        simpa [hread, Except.mapError, Config.LoadStop.ofYaml] using hstop.symm

/-- On a regular host a setting that cannot be written out holds an integer of too many digits. -/
theorem unshowable_of_regular (h : host.Regular) {value? : String → Option Setting}
    (hs : HoldsSettings host disk path (.mapping value?)) {why : ShowStop}
    (hwhy : Config.ofMapping value? = .error (.unshowable why)) : why = .tooLong := by
  obtain ⟨key, s, hkey, hshown⟩ := exists_setting_of_unshowable hwhy
  obtain ⟨text, _, hs⟩ := hs
  cases why with
  | tooLong => rfl
  | tooDeep =>
      -- Whatever the format, a regular host finds room for every value.
      rw [Config.settingsIn, readJson_of_regular h] at hs
      by_cases hjson : path.endsWith ".json" = true
      · rw [if_pos hjson] at hs
        cases hread : Json.read .forFiles text with
        | error why => cases why <;> simp [hread] at hs
        | ok v =>
            rw [hread] at hs
            have hshows :=
              Document.ne_tooDeep_of_settings (fun d => h.room _) (Except.ok.inj hs) hkey
            exact absurd hshown (not_or.2 hshows)
      · rw [if_neg hjson] at hs
        cases hread : host.readYaml text with
        | error fault => simp [hread, Except.mapError] at hs
        | ok content =>
            obtain rfl : content = .mapping value? := by
              simpa [hread, Except.mapError] using hs
            exact absurd hshown (not_or.2 (h.shown hread hkey))

/-- On a regular host, what breaks the settings is in the input. -/
theorem fromInput_of_settingsBreak (h : host.Regular) {cause : Breakdown}
    (hbreak : SettingsBreak host disk a cause) : cause.FromInput := by
  cases hbreak with
  | nameless | badPath | notUtf8 => trivial
  | notParsed _ _ hstop hcause =>
      rcases settingsIn_of_regular h hstop with ⟨fault, rfl⟩ | ⟨n, rfl⟩
      · simp [Breakdown.ofStop] at hcause
      · obtain rfl : Breakdown.tooLong n = cause := by simpa [Breakdown.ofStop] using hcause
        trivial
  | unshowable _ hs hwhy =>
      obtain rfl := unshowable_of_regular h hs hwhy
      trivial

/-- A regular host can give every report. -/
theorem reported_of_regular (h : host.Regular) (format : OutputFormat) (report : Report) :
    Reported host format report :=
  fun _ => h.writes _

/-- A regular host can tell every fault of inference. -/
theorem told_of_regular (h : host.Regular) (f : InferFault) (format : OutputFormat) :
    Told host f format := by
  cases format with
  | json => exact .json fun e _ => h.room _
  | pretty => exact .pretty (h.writes _) fun e _ => ⟨h.room _, fun line _ => h.writes _⟩

/-- A regular host can print every result. -/
theorem printed_of_regular (h : host.Regular) (r : Inference) : Printed host c r := by
  cases hformat : c.format with
  | json => exact .json hformat (h.room _) (h.room _) (h.room _)
  | pretty =>
      exact .pretty hformat (h.room _) (h.room _) (h.writes _)
        fun _ => ⟨h.room _, fun line _ => h.writes _⟩

/-- On a regular host only a file without a term is refused. -/
theorem holdsNone_of_refuses (h : host.Regular) {report : Report}
    (hrefuses : Refuses host disk path c report) : HoldsNone host disk path report := by
  cases hrefuses with
  | noTerm hnone => exact hnone
  | cutShort _ hcut => simp [h.uncut] at hcut
  | unlisted _ _ hlist => exact absurd hlist.write (by simp [h.room])

/-- On a regular host only the term file can break the work off. -/
theorem fileBreaks_of_workBreaks (h : host.Regular) {cause : Breakdown}
    (hbreak : WorkBreaks host disk path c cause) : FileBreaks host disk path cause := by
  cases hbreak with
  | file hfile => exact hfile
  | unsaid _ hreport => exact absurd (reported_of_regular h _ _) hreport
  | telling _ _ htelling =>
      generalize c.format = format at htelling
      cases htelling with
      | line hline => exact absurd (h.writes _) hline
      | equation _ _ hroom => simp [h.room] at hroom
      | equationLine _ _ _ _ hline => exact absurd (h.writes _) hline
  | printing _ _ hprinting =>
      cases hprinting with
      | summary hroom | typeJson _ _ hroom | typeText _ _ hroom => simp [h.room] at hroom
      | listing _ _ _ _ _ hroom => simp [h.room] at hroom
      | line _ _ _ hline => exact absurd (h.writes _) hline
      | listed _ _ _ _ _ _ _ hline => exact absurd (h.writes _) hline

/-- The exit status on a regular host: 0 and 1 tell whether inference finds a type for the term in
the file, and 2 that there is no such term or no such settings.  What breaks a run off is in the
input. -/
theorem ending_of_regular (h : host.Regular) :
    ((runCheck host disk a).ending = .status 0 ↔ ∃ c t r, Uses host disk a c ∧
      Holds host disk a.file t ∧ t.infer (scopeFor c) = .ok r) ∧
    ((runCheck host disk a).ending = .status 1 ↔ ∃ c t f, Uses host disk a c ∧
      Holds host disk a.file t ∧ t.infer (scopeFor c) = .error f) ∧
    ((runCheck host disk a).ending = .status 2 ↔ Unusable host disk a ∨ ∃ c, Uses host disk a c ∧
      (Unread disk a.file ∨ ∃ report, HoldsNone host disk a.file report)) ∧
    ∀ cause, ((runCheck host disk a).ending = .broken cause ↔ SettingsBreak host disk a cause ∨
      ∃ c, Uses host disk a c ∧ FileBreaks host disk a.file cause) ∧
      ((runCheck host disk a).ending = .broken cause → cause.FromInput) := by
  refine ⟨ending_eq_zero_iff.trans ?_, ending_eq_one_iff.trans ?_, ending_eq_two_iff.trans ?_, ?_⟩
  · simp only [Infers, h.uncut, true_and, printed_of_regular h, and_true]
  · simp only [Fails, h.uncut, true_and, told_of_regular h, and_true]
  · simp only [reported_of_regular h, and_true]
    -- All other refusals are for want of room, or of an inference that is cut short.
    have hrefuses (c : Config) (report : Report) :
        Refuses host disk a.file c report ↔ HoldsNone host disk a.file report :=
      ⟨holdsNone_of_refuses h, .noTerm⟩
    simp only [hrefuses]
  · intro cause
    have hwork (c : Config) :
        WorkBreaks host disk a.file c cause ↔ FileBreaks host disk a.file cause :=
      ⟨fileBreaks_of_workBreaks h, .file⟩
    have hiff : (runCheck host disk a).ending = .broken cause ↔ SettingsBreak host disk a cause ∨
        ∃ c, Uses host disk a c ∧ FileBreaks host disk a.file cause := by
      simp only [ending_eq_broken_iff, hwork]
    refine ⟨hiff, ?_⟩
    intro hbroken
    rcases hiff.1 hbroken with hsettings | ⟨_, _, hfile⟩
    · exact fromInput_of_settingsBreak h hsettings
    · cases hfile <;> trivial

end Regular

/-- The contract of the exit status, for every host.  A check ends with 0 exactly if the settings
can be used, the file holds a term, inference succeeds and the result can be printed; with 1 exactly
if inference finds a fault in the term and the fault can be told; and with 2 exactly if the settings
cannot be used, the file cannot be read, or the input is refused with a report.  No other status
comes up, and what breaks a run off is told exactly.

A value that there is room to decode is a term exactly if it belongs to the grammar and no `Float`
literal in it is too large; such a literal in a value of the grammar breaks the run off.

On a regular host nothing depends on room or on the output: the status is 0 or 1 exactly as
inference goes, 2 exactly for bad input, and only what is in the input breaks a run off. -/
theorem exitStatus_runCheck (host : Host) (disk : Disk) (a : Arguments) :
    ((runCheck host disk a).ending = .status 0 ↔ ∃ c t r, Uses host disk a c ∧
      Holds host disk a.file t ∧ Infers host c t r ∧ Printed host c r) ∧
    ((runCheck host disk a).ending = .status 1 ↔ ∃ c t f, Uses host disk a c ∧
      Holds host disk a.file t ∧ Fails host c t f ∧ Told host f c.format) ∧
    ((runCheck host disk a).ending = .status 2 ↔ Unusable host disk a ∨ ∃ c, Uses host disk a c ∧
      (Unread disk a.file ∨ ∃ report, Refuses host disk a.file c report ∧
        Reported host c.format report)) ∧
    (∀ code, (runCheck host disk a).ending = .status code → code ≤ 2) ∧
    (∀ cause, (runCheck host disk a).ending = .broken cause ↔ SettingsBreak host disk a cause ∨
      ∃ c, Uses host disk a c ∧ WorkBreaks host disk a.file c cause) ∧
    (∀ v, Stored host disk a.file v → host.hasRoom (.decode v) = true →
      ((∃ t, Holds host disk a.file t) ↔ v.IsTerm ∧ ¬ v.HasLargeFloat) ∧
      (∀ report, HoldsNone host disk a.file report → ¬ v.IsTerm) ∧
      (v.IsTerm → (FileBreaks host disk a.file .overflow ↔ v.HasLargeFloat))) ∧
    (host.Regular →
      ((runCheck host disk a).ending = .status 0 ↔ ∃ c t r, Uses host disk a c ∧
        Holds host disk a.file t ∧ t.infer (scopeFor c) = .ok r) ∧
      ((runCheck host disk a).ending = .status 1 ↔ ∃ c t f, Uses host disk a c ∧
        Holds host disk a.file t ∧ t.infer (scopeFor c) = .error f) ∧
      ((runCheck host disk a).ending = .status 2 ↔ Unusable host disk a ∨ ∃ c, Uses host disk a c ∧
        (Unread disk a.file ∨ ∃ report, HoldsNone host disk a.file report)) ∧
      ∀ cause, ((runCheck host disk a).ending = .broken cause ↔ SettingsBreak host disk a cause ∨
        ∃ c, Uses host disk a c ∧ FileBreaks host disk a.file cause) ∧
        ((runCheck host disk a).ending = .broken cause → cause.FromInput)) := by
  refine ⟨ending_eq_zero_iff, ending_eq_one_iff, ending_eq_two_iff, fun _ => code_le_two,
    fun _ => ending_eq_broken_iff, ?_, ending_of_regular⟩
  intro v hv hroom
  refine ⟨exists_holds_iff_of_stored hv hroom, fun _ => not_isTerm_of_holdsNone hv hroom, ?_⟩
  intro hterm
  rw [fileBreaks_overflow_iff_of_stored hv, decode_of_room hroom]
  exact (Term.decode_of_isTerm hterm (Nat.lt_succ_self _)).2

def plainCheck : Arguments := { Arguments.initial with file := "t.json" }

def strayByte : Disk := .ofReadings "/home" [("/home/.simplrc.yml", .ok [0xff])]

/-- Settings that are not UTF-8 cannot be used, and yet the run has no exit status, whatever the
host does. -/
theorem runCheck_of_strayByte :
    (∀ host, (runCheck host strayByte plainCheck).ending =
        .broken (.notUtf8 ⟨.start, 0, [0xff]⟩)) ∧
      ∀ host code, (runCheck host strayByte plainCheck).ending ≠ .status code := by
  have hfind : Config.findFrom? strayByte "." = some ⟨"/", ["home", ".simplrc.yml"]⟩ := by
    decide +kernel
  have hread : strayByte.read "/home/.simplrc.yml" = .ok [0xff] := by decide
  have hending (host : Host) :
      (runCheck host strayByte plainCheck).ending = .broken (.notUtf8 ⟨.start, 0, [0xff]⟩) :=
    ending_of_ends (.settingsBreak (.notUtf8 (.found hfind) (by decide) hread rfl))
  refine ⟨hending, ?_⟩
  intro host code h
  cases (hending host).symm.trans h

end Command

end Monotype
