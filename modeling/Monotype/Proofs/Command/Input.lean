import Monotype.Command.Run
import Monotype.Proofs.Codec.Overflow

/-!
# What a check reads

A check reads the settings and then the term file.  The ways that each of these stages can end are
said in terms of the files and of what the host makes of them: the settings are in force, cannot be
used or break the run off (`settings_cases`), and the file holds a term, cannot be read, holds none
or breaks the run off (`file_cases`).
-/

namespace Monotype

namespace Command

/-- The text of a file, if its bytes are UTF-8. -/
def TextOf (disk : Disk) (path : String) (text : List Char) : Prop :=
  Disk.isPath path = true ∧ ∃ bytes cs, disk.read path = .ok bytes ∧
    Text.decodeUtf8 bytes = .ok cs ∧ text = Text.universalNewlines cs

/-- A file has a text, or its path is none, or it cannot be read, or it is not UTF-8. -/
theorem text_cases (disk : Disk) (path : String) :
    (∃ text, TextOf disk path text) ∨ Disk.isPath path = false ∨ (Disk.isPath path = true ∧
      ((∃ fault, disk.read path = .error fault) ∨
        ∃ bytes fault, disk.read path = .ok bytes ∧ Text.decodeUtf8 bytes = .error fault)) := by
  cases hpath : Disk.isPath path with
  | false => exact Or.inr (Or.inl rfl)
  | true =>
      cases hread : disk.read path with
      | error fault => exact Or.inr (Or.inr ⟨rfl, Or.inl ⟨fault, rfl⟩⟩)
      | ok bytes =>
          cases hutf8 : Text.decodeUtf8 bytes with
          | error fault => exact Or.inr (Or.inr ⟨rfl, Or.inr ⟨bytes, fault, rfl, hutf8⟩⟩)
          | ok cs => exact Or.inl ⟨_, hpath, bytes, cs, hread, hutf8, rfl⟩

/-! ## Settings -/

/-- The settings file that counts, if there is one. -/
inductive Chosen (disk : Disk) : ConfigChoice → Option String → Prop where
  | file (path : String) : Chosen disk (.file path) (some path)
  | found {p : Disk.AbsolutePath} (h : Config.findFrom? disk "." = some p) :
      Chosen disk .nearest (some p.text)
  | absent (h : Config.findFrom? disk "." = none) : Chosen disk .nearest none

/-- What a settings file holds. -/
def HoldsSettings (host : Host) (disk : Disk) (path : String) (s : Settings) : Prop :=
  ∃ text, TextOf disk path text ∧ Config.settingsIn host path text = .ok s

/-- The settings that are in force. -/
inductive Uses (host : Host) (disk : Disk) (a : Arguments) : Config → Prop where
  | initial (hfile : Chosen disk a.config none) : Uses host disk a (a.override Config.default)
  | empty {path : String} (hfile : Chosen disk a.config (some path))
      (hs : HoldsSettings host disk path .none) : Uses host disk a (a.override Config.default)
  | mapping {path : String} {value? : String → Option Setting} {c : Config}
      (hfile : Chosen disk a.config (some path))
      (hs : HoldsSettings host disk path (.mapping value?)) (h : Config.ofMapping value? = .ok c) :
      Uses host disk a (a.override c)

/-- The settings cannot be used: the file cannot be read, is not in its format or holds no mapping,
or one of its entries has a value that makes no sense. -/
inductive Unusable (host : Host) (disk : Disk) (a : Arguments) : Prop where
  | unreadable {path : String} {fault : ReadFault} (hfile : Chosen disk a.config (some path))
      (hpath : Disk.isPath path = true) (h : disk.read path = .error fault)
  | notParsed {path : String} {text : List Char} {fault : ConfigFault}
      (hfile : Chosen disk a.config (some path)) (htext : TextOf disk path text)
      (h : Config.settingsIn host path text = .error (.fault fault))
  | notMapping {path : String} (hfile : Chosen disk a.config (some path))
      (hs : HoldsSettings host disk path .other)
  | badEntry {path : String} {value? : String → Option Setting} {fault : ConfigFault}
      (hfile : Chosen disk a.config (some path))
      (hs : HoldsSettings host disk path (.mapping value?))
      (h : Config.ofMapping value? = .error (.fault fault))

/-- The breakdown for a value that cannot be written out. -/
def unshown : ShowStop → Breakdown
  | .tooLong => .unshowable
  | .tooDeep => .tooDeep

/-- The settings break the run off. -/
inductive SettingsBreak (host : Host) (disk : Disk) (a : Arguments) : Breakdown → Prop where
  | nameless (h : a.config = .nameless) : SettingsBreak host disk a .nameless
  | badPath {path : String} (hfile : Chosen disk a.config (some path))
      (hpath : Disk.isPath path = false) : SettingsBreak host disk a .badPath
  | notUtf8 {path : String} {bytes : List UInt8} {fault : Text.Utf8Fault}
      (hfile : Chosen disk a.config (some path)) (hpath : Disk.isPath path = true)
      (hread : disk.read path = .ok bytes) (h : Text.decodeUtf8 bytes = .error fault) :
      SettingsBreak host disk a (.notUtf8 fault)
  | notParsed {path : String} {text : List Char} {stop : Config.LoadStop} {cause : Breakdown}
      (hfile : Chosen disk a.config (some path)) (htext : TextOf disk path text)
      (h : Config.settingsIn host path text = .error stop)
      (hcause : Breakdown.ofStop stop = .ok cause) : SettingsBreak host disk a cause
  | unshowable {path : String} {value? : String → Option Setting} {why : ShowStop}
      (hfile : Chosen disk a.config (some path))
      (hs : HoldsSettings host disk path (.mapping value?))
      (h : Config.ofMapping value? = .error (.unshowable why)) :
      SettingsBreak host disk a (unshown why)

def settingsOf (host : Host) (disk : Disk) : Option String → Except Config.LoadStop Config
  | none => .ok Config.default
  | some path => Config.loadFile host disk path

def configOf (path : String) : Settings → Except Config.LoadStop Config
  | .none => .ok Config.default
  | .mapping value? => (Config.ofMapping value?).mapError .ofMapping
  | .other => .error (.fault (.notMapping path))

section Settings

variable {host : Host} {disk : Disk} {a : Arguments} {path : String}

theorem loadFile_of_stop {text : List Char} {stop : Config.LoadStop}
    (htext : TextOf disk path text) (h : Config.settingsIn host path text = .error stop) :
    Config.loadFile host disk path = .error stop := by
  obtain ⟨hpath, bytes, cs, hread, hutf8, rfl⟩ := htext
  simp [Config.loadFile, hpath, hread, Config.ofBytes, hutf8, h, bind, Except.bind]

/-- What a settings file holds decides which settings it gives. -/
theorem loadFile_of_holdsSettings {s : Settings} (hs : HoldsSettings host disk path s) :
    Config.loadFile host disk path = configOf path s := by
  obtain ⟨text, ⟨hpath, bytes, cs, hread, hutf8, rfl⟩, hs⟩ := hs
  cases s <;>
  simp [Config.loadFile, hpath, hread, Config.ofBytes, hutf8, hs, configOf, bind, Except.bind]

/-- Settings in force are loaded ones with the command line on top. -/
theorem settingsOf_of_uses {c : Config} (h : Uses host disk a c) :
    ∃ file loaded, Chosen disk a.config file ∧ settingsOf host disk file = .ok loaded ∧
      c = a.override loaded := by
  cases h with
  | initial hfile => exact ⟨none, Config.default, hfile, rfl, rfl⟩
  | empty hfile hs => exact ⟨_, _, hfile, loadFile_of_holdsSettings hs, rfl⟩
  | mapping hfile hs h =>
      exact ⟨_, _, hfile, (loadFile_of_holdsSettings hs).trans (by rw [configOf, h]; rfl), rfl⟩

/-- Unusable settings show as a fault of loading. -/
theorem settingsOf_of_unusable (h : Unusable host disk a) :
    ∃ file fault, Chosen disk a.config file ∧
      settingsOf host disk file = .error (.fault fault) := by
  cases h with
  | @unreadable path fault hfile hpath h =>
      refine ⟨some path, .unreadable path fault, hfile, ?_⟩
      simp [settingsOf, Config.loadFile, hpath, h]
  | notParsed hfile htext h => exact ⟨_, _, hfile, loadFile_of_stop htext h⟩
  | notMapping hfile hs => exact ⟨_, _, hfile, loadFile_of_holdsSettings hs⟩
  | badEntry hfile hs h =>
      exact ⟨_, _, hfile, (loadFile_of_holdsSettings hs).trans (by rw [configOf, h]; rfl)⟩

/-- Settings break a run off where no file is named or where loading stops for good. -/
theorem settingsOf_of_settingsBreak {cause : Breakdown} (h : SettingsBreak host disk a cause) :
    (a.config = .nameless ∧ cause = .nameless) ∨
      ∃ file stop, Chosen disk a.config file ∧ settingsOf host disk file = .error stop ∧
        Breakdown.ofStop stop = .ok cause := by
  cases h with
  | nameless h => exact Or.inl ⟨h, rfl⟩
  | @badPath path hfile hpath =>
      exact Or.inr ⟨some path, .badPath, hfile, by simp [settingsOf, Config.loadFile, hpath], rfl⟩
  | @notUtf8 path bytes fault hfile hpath hread h =>
      refine Or.inr ⟨some path, .notUtf8 fault, hfile, ?_, rfl⟩
      simp [settingsOf, Config.loadFile, hpath, hread, Config.ofBytes, h]
  | notParsed hfile htext h hcause => exact Or.inr ⟨_, _, hfile, loadFile_of_stop htext h, hcause⟩
  | @unshowable path value? why hfile hs h =>
      refine Or.inr ⟨_, .ofMapping (.unshowable why), hfile, ?_, by cases why <;> rfl⟩
      exact (loadFile_of_holdsSettings hs).trans (by rw [configOf, h]; rfl)

/-- A choice of settings file names one, none, or is nameless. -/
theorem chosen_cases (disk : Disk) (choice : ConfigChoice) :
    choice = .nameless ∨ ∃ file, Chosen disk choice file := by
  cases choice with
  | nearest =>
      cases hfind : Config.findFrom? disk "." with
      | none => exact Or.inr ⟨none, .absent hfind⟩
      | some p => exact Or.inr ⟨some p.text, .found hfind⟩
  | file path => exact Or.inr ⟨some path, .file path⟩
  | nameless => exact Or.inl rfl

/-- A settings file with a text gives settings, unusable ones, or a breakdown. -/
theorem content_cases {text : List Char} (hfile : Chosen disk a.config (some path))
    (htext : TextOf disk path text) :
    (∃ c, Uses host disk a c) ∨ Unusable host disk a ∨
      ∃ cause, SettingsBreak host disk a cause := by
  cases hs : Config.settingsIn host path text with
  | error stop =>
      cases hstop : Breakdown.ofStop stop with
      | ok cause => exact Or.inr (Or.inr ⟨cause, .notParsed hfile htext hs hstop⟩)
      | error fault =>
          -- The stops that are no breakdown are the faults.
          obtain rfl : stop = .fault fault := by
            cases stop <;> simp [Breakdown.ofStop] at hstop ⊢
            exact hstop
          exact Or.inr (Or.inl (.notParsed hfile htext hs))
  | ok s =>
      have hs : HoldsSettings host disk path s := ⟨text, htext, hs⟩
      cases s with
      | none => exact Or.inl ⟨_, .empty hfile hs⟩
      | other => exact Or.inr (Or.inl (.notMapping hfile hs))
      | mapping value? =>
          cases hc : Config.ofMapping value? with
          | ok c => exact Or.inl ⟨_, .mapping hfile hs hc⟩
          | error stop =>
              cases stop with
              | fault fault => exact Or.inr (Or.inl (.badEntry hfile hs hc))
              | unshowable why => exact Or.inr (Or.inr ⟨_, .unshowable hfile hs hc⟩)

/-- Settings are in force, unusable, or break the run off. -/
theorem settings_cases (host : Host) (disk : Disk) (a : Arguments) :
    (∃ c, Uses host disk a c) ∨ Unusable host disk a ∨
      ∃ cause, SettingsBreak host disk a cause := by
  rcases chosen_cases disk a.config with h | ⟨_ | path, hfile⟩
  · exact Or.inr (Or.inr ⟨_, .nameless h⟩)
  · exact Or.inl ⟨_, .initial hfile⟩
  · rcases text_cases disk path with
      ⟨text, htext⟩ | hpath | ⟨hpath, ⟨fault, hread⟩ | ⟨bytes, fault, hread, hutf8⟩⟩
    · exact content_cases hfile htext
    · exact Or.inr (Or.inr ⟨_, .badPath hfile hpath⟩)
    · exact Or.inr (Or.inl (.unreadable hfile hpath hread))
    · exact Or.inr (Or.inr ⟨_, .notUtf8 hfile hpath hread hutf8⟩)

variable {onFault : ConfigFault → Run} {work : Config → Run}

/-- The settings file that counts decides how a run goes on. -/
theorem withConfig_of_chosen {file : Option String} (h : Chosen disk a.config file) :
    withConfig host disk a onFault work =
      match settingsOf host disk file with
      | .ok c => work (a.override c)
      | .error stop =>
          match Breakdown.ofStop stop with
          | .ok cause => .breakOff cause
          | .error fault => onFault fault := by
  generalize hconfig : a.config = choice at h
  cases h with
  | file path =>
      simp only [withConfig, hconfig]
      rfl
  | found hfind =>
      simp only [withConfig, hconfig, Config.load, hfind]
      rfl
  | absent hfind =>
      simp only [withConfig, hconfig, Config.load, hfind]
      rfl

/-- With settings in force the work is done. -/
theorem withConfig_of_uses {c : Config} (h : Uses host disk a c) :
    withConfig host disk a onFault work = work c := by
  obtain ⟨file, loaded, hfile, hload, rfl⟩ := settingsOf_of_uses h
  rw [withConfig_of_chosen hfile, hload]

theorem withConfig_of_unusable (h : Unusable host disk a) :
    ∃ fault, withConfig host disk a onFault work = onFault fault := by
  obtain ⟨file, fault, hfile, hload⟩ := settingsOf_of_unusable h
  refine ⟨fault, ?_⟩
  rw [withConfig_of_chosen hfile, hload]
  rfl

theorem withConfig_of_settingsBreak {cause : Breakdown} (h : SettingsBreak host disk a cause) :
    withConfig host disk a onFault work = .breakOff cause := by
  rcases settingsOf_of_settingsBreak h with ⟨hconfig, rfl⟩ | ⟨file, stop, hfile, hload, hcause⟩
  · simp [withConfig, hconfig]
  · rw [withConfig_of_chosen hfile, hload]
    simp only [hcause]

end Settings

/-! ## Term files -/

/-- The JSON value that a file holds. -/
def Stored (host : Host) (disk : Disk) (path : String) (v : Json) : Prop :=
  ∃ text, TextOf disk path text ∧ host.readJson text = .ok v

/-- The term that a file holds. -/
def Holds (host : Host) (disk : Disk) (path : String) (t : Term) : Prop :=
  ∃ v, Stored host disk path v ∧ host.decode v = .ok t

/-- A file cannot be read. -/
def Unread (disk : Disk) (path : String) : Prop :=
  Disk.isPath path = true ∧ ∃ fault, disk.read path = .error fault

/-- A file that can be read holds no term, with the report about it: it is not UTF-8, is no JSON
text, or has the wrong value; or there is no room for it. -/
inductive HoldsNone (host : Host) (disk : Disk) (path : String) : Report → Prop where
  | notUtf8 {bytes : List UInt8} {fault : Text.Utf8Fault} (hpath : Disk.isPath path = true)
      (hread : disk.read path = .ok bytes) (h : Text.decodeUtf8 bytes = .error fault) :
      HoldsNone host disk path (Malformed.notUtf8 path fault).report
  | notJson {text : List Char} {fault : Json.SyntaxFault} {left : Nat}
      (htext : TextOf disk path text) (h : host.readJson text = .error (.fault fault left)) :
      HoldsNone host disk path
        (Malformed.notJson path fault (Json.Place.ofLeft text left).line).report
  | deepJson {text : List Char} (htext : TextOf disk path text)
      (h : host.readJson text = .error .tooDeep) :
      HoldsNone host disk path (.tooDeep shownLimit)
  | malformed {v : Json} {m : Malformed} (hv : Stored host disk path v)
      (h : host.decode v = .error (.malformed m)) : HoldsNone host disk path m.report
  | deepTerm {v : Json} (hv : Stored host disk path v) (h : host.decode v = .error .tooDeep) :
      HoldsNone host disk path (.tooDeep shownLimit)

/-- The term file breaks the run off. -/
inductive FileBreaks (host : Host) (disk : Disk) (path : String) : Breakdown → Prop where
  | badPath (hpath : Disk.isPath path = false) : FileBreaks host disk path .badPath
  | tooLong {text : List Char} {n : Nat} (htext : TextOf disk path text)
      (h : host.readJson text = .error (.tooLong n)) : FileBreaks host disk path (.tooLong n)
  | overflow {v : Json} (hv : Stored host disk path v) (h : host.decode v = .error .overflow) :
      FileBreaks host disk path .overflow

def stopFault (path : String) (text : List Char) : Json.ReadStop → Term.LoadFault
  | .fault fault left => .malformed (.notJson path fault (Json.Place.ofLeft text left).line)
  | .tooDeep => .tooDeep
  | .tooLong n => .tooLong n

def decodeFault : DecodeFault → Term.LoadFault
  | .malformed m => .malformed m
  | .tooDeep => .tooDeep
  | .overflow => .overflow

def reportOf? : Term.LoadFault → Option Report
  | .malformed m => some m.report
  | .tooDeep => some (.tooDeep shownLimit)
  | .unreadable _ _ | .tooLong _ | .overflow | .badPath => none

def breakdown? : Term.LoadFault → Option Breakdown
  | .tooLong n => some (.tooLong n)
  | .overflow => some .overflow
  | .badPath => some .badPath
  | .unreadable _ _ | .malformed _ | .tooDeep => none

section Files

variable {host : Host} {disk : Disk} {path : String}

theorem load_of_stop {text : List Char} {stop : Json.ReadStop} (htext : TextOf disk path text)
    (h : host.readJson text = .error stop) :
    Term.load host disk path = .error (stopFault path text stop) := by
  obtain ⟨hpath, bytes, cs, hread, hutf8, rfl⟩ := htext
  cases stop <;>
  simp [Term.load, hpath, hread, Term.ofBytes, Term.jsonOfBytes, hutf8, h, stopFault, bind,
    Except.bind]

/-- A stored value is decoded, and nothing else is looked at. -/
theorem load_of_stored {v : Json} (h : Stored host disk path v) :
    Term.load host disk path = (host.decode v).mapError decodeFault := by
  obtain ⟨text, ⟨hpath, bytes, cs, hread, hutf8, rfl⟩, hjson⟩ := h
  simp only [Term.load, hpath, hread, Term.ofBytes, Term.jsonOfBytes, hutf8, hjson, bind,
    Except.bind, if_true]
  cases hdecode : host.decode v with
  | ok t => rfl
  | error fault => cases fault <;> rfl

/-- A file that holds a term is loaded. -/
theorem load_of_holds {t : Term} (h : Holds host disk path t) :
    Term.load host disk path = .ok t := by
  obtain ⟨v, hv, ht⟩ := h
  rw [load_of_stored hv, ht]
  rfl

theorem load_of_unread (host : Host) (h : Unread disk path) :
    ∃ fault, Term.load host disk path = .error (.unreadable path fault) := by
  obtain ⟨hpath, fault, hread⟩ := h
  exact ⟨fault, by simp [Term.load, hpath, hread]⟩

/-- The report about a file without a term is that of its fault. -/
theorem load_of_holdsNone {report : Report} (h : HoldsNone host disk path report) :
    ∃ fault, Term.load host disk path = .error fault ∧ reportOf? fault = some report := by
  cases h with
  | @notUtf8 bytes fault hpath hread h =>
      refine ⟨.malformed (.notUtf8 path fault), ?_, rfl⟩
      simp [Term.load, hpath, hread, Term.ofBytes, Term.jsonOfBytes, h, bind, Except.bind]
  | notJson htext h => exact ⟨_, load_of_stop htext h, rfl⟩
  | deepJson htext h => exact ⟨_, load_of_stop htext h, rfl⟩
  | malformed hv h => exact ⟨_, (load_of_stored hv).trans (by rw [h]; rfl), rfl⟩
  | deepTerm hv h => exact ⟨_, (load_of_stored hv).trans (by rw [h]; rfl), rfl⟩

/-- The breakdown that a file causes is that of its fault. -/
theorem load_of_fileBreaks {cause : Breakdown} (h : FileBreaks host disk path cause) :
    ∃ fault, Term.load host disk path = .error fault ∧ breakdown? fault = some cause := by
  cases h with
  | badPath hpath => exact ⟨.badPath, by simp [Term.load, hpath], rfl⟩
  | tooLong htext h => exact ⟨_, load_of_stop htext h, rfl⟩
  | overflow hv h => exact ⟨_, (load_of_stored hv).trans (by rw [h]; rfl), rfl⟩

/-- A file with a text holds a term, holds none, or breaks the run off. -/
theorem value_cases (host : Host) {text : List Char} (htext : TextOf disk path text) :
    (∃ t, Holds host disk path t) ∨ (∃ report, HoldsNone host disk path report) ∨
      ∃ cause, FileBreaks host disk path cause := by
  cases hjson : host.readJson text with
  | error stop =>
      cases stop with
      | fault fault left => exact Or.inr (Or.inl ⟨_, .notJson htext hjson⟩)
      | tooDeep => exact Or.inr (Or.inl ⟨_, .deepJson htext hjson⟩)
      | tooLong n => exact Or.inr (Or.inr ⟨_, .tooLong htext hjson⟩)
  | ok v =>
      have hv : Stored host disk path v := ⟨text, htext, hjson⟩
      cases hdecode : host.decode v with
      | ok t => exact Or.inl ⟨t, v, hv, hdecode⟩
      | error fault =>
          cases fault with
          | malformed m => exact Or.inr (Or.inl ⟨_, .malformed hv hdecode⟩)
          | tooDeep => exact Or.inr (Or.inl ⟨_, .deepTerm hv hdecode⟩)
          | overflow => exact Or.inr (Or.inr ⟨_, .overflow hv hdecode⟩)

/-- A file holds a term, cannot be read, holds none, or breaks the run off. -/
theorem file_cases (host : Host) (disk : Disk) (path : String) :
    (∃ t, Holds host disk path t) ∨ Unread disk path ∨
      (∃ report, HoldsNone host disk path report) ∨ ∃ cause, FileBreaks host disk path cause := by
  rcases text_cases disk path with
    ⟨text, htext⟩ | hpath | ⟨hpath, ⟨fault, hread⟩ | ⟨bytes, fault, hread, hutf8⟩⟩
  · rcases value_cases host htext with h | h | h
    · exact Or.inl h
    · exact Or.inr (Or.inr (Or.inl h))
    · exact Or.inr (Or.inr (Or.inr h))
  · exact Or.inr (Or.inr (Or.inr ⟨_, .badPath hpath⟩))
  · exact Or.inr (Or.inl ⟨hpath, fault, hread⟩)
  · exact Or.inr (Or.inr (Or.inl ⟨_, .notUtf8 hpath hread hutf8⟩))

variable {onUnreadable : String → Run} {onReport : Report → Run} {work : Term → Run}

/-- The four outcomes of loading a file lead on in four ways; here the file cannot be read. -/
theorem withTerm_of_unread (h : Unread disk path) :
    ∃ message, withTerm host disk path onUnreadable onReport work = onUnreadable message := by
  obtain ⟨fault, hload⟩ := load_of_unread host h
  exact ⟨fault.message path, by simp [withTerm, hload]⟩

theorem withTerm_of_holdsNone {report : Report} (h : HoldsNone host disk path report) :
    withTerm host disk path onUnreadable onReport work = onReport report := by
  obtain ⟨fault, hload, hreport⟩ := load_of_holdsNone h
  cases fault <;> simp_all [withTerm, reportOf?]

theorem withTerm_of_fileBreaks {cause : Breakdown} (h : FileBreaks host disk path cause) :
    withTerm host disk path onUnreadable onReport work = .breakOff cause := by
  obtain ⟨fault, hload, hcause⟩ := load_of_fileBreaks h
  cases fault <;> simp_all [withTerm, breakdown?]

/-! What a file holds is decided by the value in it. -/

/-- Of a stored value, decoding alone tells which term the file holds. -/
theorem holds_iff_of_stored {v : Json} (hv : Stored host disk path v) {t : Term} :
    Holds host disk path t ↔ host.decode v = .ok t := by
  constructor
  · intro h
    have hload := (load_of_stored hv).symm.trans (load_of_holds h)
    cases hdecode : host.decode v with
    | ok t' => simpa [hdecode, Except.mapError] using hload
    | error fault => simp [hdecode, Except.mapError] at hload
  · exact fun h => ⟨v, hv, h⟩

/-- Of a stored value, decoding alone tells whether it overflows. -/
theorem fileBreaks_overflow_iff_of_stored {v : Json} (hv : Stored host disk path v) :
    FileBreaks host disk path .overflow ↔ host.decode v = .error .overflow := by
  constructor
  · intro h
    obtain ⟨fault, hload, hcause⟩ := load_of_fileBreaks h
    have hfault := (load_of_stored hv).symm.trans hload
    cases hdecode : host.decode v with
    | ok t => simp [hdecode, Except.mapError] at hfault
    | error stop =>
        obtain rfl : decodeFault stop = fault := by simpa [hdecode, Except.mapError] using hfault
        cases stop <;> simp [decodeFault, breakdown?] at hcause ⊢
  · exact .overflow hv

/-- With room, the limit of decoding is out of the value's reach. -/
theorem decode_of_room {v : Json} (hroom : host.hasRoom (.decode v) = true) :
    host.decode v = Term.decode (v.depth + 1) v :=
  if_pos hroom

/-- With room to decode it, a stored value is a term exactly by the grammar, unless a literal
overflows. -/
theorem exists_holds_iff_of_stored {v : Json} (hv : Stored host disk path v)
    (hroom : host.hasRoom (.decode v) = true) :
    (∃ t, Holds host disk path t) ↔ v.IsTerm ∧ ¬ v.HasLargeFloat := by
  simp only [holds_iff_of_stored hv, decode_of_room hroom]
  constructor
  · rintro ⟨t, ht⟩
    have hread := Term.decode_eq_ok_iff.1 ht
    have hsettles := Term.settles_ofJson (v.depth + 1) v
    rw [hread] at hsettles
    exact ⟨hsettles.1, Term.not_hasLargeFloat_of_ofJson hread⟩
  · rintro ⟨hterm, hsmall⟩
    exact (Term.decode_of_isTerm hterm (Nat.lt_succ_self _)).1.2 hsmall

/-- With room to decode it, a file without a term stores no value of the grammar. -/
theorem not_isTerm_of_holdsNone {v : Json} (hv : Stored host disk path v)
    (hroom : host.hasRoom (.decode v) = true) {report : Report}
    (h : HoldsNone host disk path report) : ¬ v.IsTerm := by
  intro hterm
  obtain ⟨hok, hoverflow⟩ := Term.decode_of_isTerm hterm (Nat.lt_succ_self v.depth)
  obtain ⟨fault, hload, hreport⟩ := load_of_holdsNone h
  rw [load_of_stored hv, decode_of_room hroom] at hload
  by_cases hlarge : v.HasLargeFloat
  · obtain rfl : Term.LoadFault.overflow = fault := by
      simpa [hoverflow.2 hlarge, Except.mapError, decodeFault] using hload
    cases hreport
  · obtain ⟨t, ht⟩ := hok.2 hlarge
    simp [ht, Except.mapError] at hload

end Files

end Command

end Monotype
