/-
Failures that are told. Looking for settings either gives some or fails; a failure is told when it names the settings
file and what is wrong with it (`SettingsError.Told`). `load_tells_iff` says when a failure is told, for all files,
whether a file is named or searched for from a place upwards: for a named file, when it can be asked for and can be used
if it is there; for a search, when this holds of the place and of every directory that the search comes to.

The search comes to a directory when none of those before it holds settings. What is wrong with the table inside a file
is always told (`tells_ofValueIn`); what is not told is wrong before that: bytes that are no text, numbers with too many
digits, and a project file in which something else stands where the table of programs is expected (`tells_readTable_iff`,
`tells_mentions_iff`, `tells_sectionOf_iff`).
-/
import Mathlib
import Rulebook.Settings.File

namespace Rulebook

/-- the failure names the settings file and tells what is wrong with it -/
def SettingsError.Told : SettingsError → Prop
  | .notFound _ => True
  | .unreadable _ _ => True
  | .malformed _ => True
  | .invalid _ _ => True
  | _ => False

namespace Settings

section

variable {α β : Type}

/-- there is a result, or a failure that is told -/
def Tells (r : Except SettingsError α) : Prop := ∀ e, r = .error e → e.Told

theorem tells_ok (a : α) : Tells (.ok a : Except SettingsError α) := nofun

@[simp] theorem tells_ok_iff (a : α) : Tells (.ok a : Except SettingsError α) ↔ True := iff_true_intro (tells_ok a)

@[simp] theorem tells_error_iff (e : SettingsError) : Tells (.error e : Except SettingsError α) ↔ e.Told :=
  ⟨fun h => h e rfl, by rintro h _ ⟨⟩; exact h⟩

/-- two steps in a row tell what is wrong when the first does, and the second from where the first leads -/
theorem tells_bind (r : Except SettingsError α) (f : α → Except SettingsError β) :
    Tells (r >>= f) ↔ Tells r ∧ ∀ a, r = .ok a → Tells (f a) := by
  cases r with
  | error e => simp [bind, Except.bind]
  | ok a => simp [bind, Except.bind]

end

/-! ## What is in a file -/

variable {files : FileTree} {file : Path}

/-- the bytes of the file are text, and no number in it has too many digits -/
def Legible (files : FileTree) (file : Path) : Prop :=
  ∀ content, files.read file = .ok content → ∃ t, Utf8.decode content = .ok t ∧ ∀ n, Toml.ofText t ≠ .error (.tooManyDigits n)

theorem tells_readTable_iff : Tells (readTable files file) ↔ Legible files file := by
  unfold readTable Legible
  cases files.read file with
  | error fault => simp [SettingsError.Told]
  | ok content =>
    cases hdecode : Utf8.decode content with
    | error fault => simp [SettingsError.Told, hdecode]
    | ok t =>
      cases htable : Toml.ofText t with
      | ok table => simp [hdecode, htable]
      | error fault => cases fault <;> simp [SettingsError.Told, hdecode, htable]

/-- what is wrong with a value that is to be settings is told -/
theorem tells_ofValueIn (file : Path) (v : Value) : Tells (ofValueIn file v) := by
  unfold ofValueIn
  cases Settings.ofValue v <;> simp [Except.mapError, SettingsError.Told]

/-- a table stands where a section is looked for -/
def IsTable (v : Value) : Prop := ∃ fields, v = .table fields

theorem tells_sectionOf_iff (v : Value) : Tells (sectionOf v) ↔ IsTable v := by
  cases v <;> simp [sectionOf, IsTable, SettingsError.Told]

/-- the name can be looked for in the value, and occurs in it as the key of a table only -/
def Searchable (name : Text) : Value → Prop
  | .table _ => True
  | .list items => .text name ∉ items
  | .text t => ¬ name <:+: t
  | _ => False

theorem holds_iff (part t : Text) : Text.holds part t = true ↔ part <:+: t := by
  induction t with
  | nil => simp [Text.holds]
  | cons c t ih => rw [Text.holds, Bool.or_eq_true, ih, Text.startsWith, List.isPrefixOf_iff_prefix, List.infix_cons_iff]

/-- looking for a name in a value tells what is wrong, and so does looking up the section where the name is found, exactly
when the value is searchable -/
theorem tells_mentions_iff (v : Value) :
    (Tells (mentions sectionName v) ∧ (mentions sectionName v = .ok true → Tells (sectionOf v))) ↔
      Searchable sectionName v := by
  cases v with
  | table fields => simp [mentions, Searchable, sectionOf]
  | text t => simp [mentions, Searchable, tells_sectionOf_iff, IsTable, holds_iff]
  | list items =>
    have hmem : mentions sectionName (.list items) = .ok true ↔ .text sectionName ∈ items := by
      rw [mentions, Except.ok.injEq, List.any_eq_true]
      constructor
      · rintro ⟨v, hv, hname⟩
        cases v <;> simp_all
      · exact fun h => ⟨_, h, by simp⟩
    rw [hmem, mentions, tells_ok_iff, true_and, tells_sectionOf_iff]
    simp [Searchable, IsTable]
  | _ => simp [mentions, Searchable, SettingsError.Told]

/-! ## Files with settings -/

/-- whether a file stands where the path leads is a question that is not refused -/
def Askable (files : FileTree) (file : Path) : Prop := ∃ found, files.findsFile file = .ok found

theorem tells_isFile_iff : Tells (isFile files file) ↔ Askable files file := by
  unfold isFile Askable
  cases files.findsFile file <;> simp [Except.mapError, SettingsError.Told]

theorem isFile_eq_ok {found : Bool} : isFile files file = .ok found ↔ files.findsFile file = .ok found := by
  unfold isFile
  cases files.findsFile file <;> simp [Except.mapError]

/-- the settings of the file can be looked for: it is legible, and in a project file the programs are listed in a table -/
structure Usable (files : FileTree) (file : Path) : Prop where
  legible : Legible files file
  programs : file.fileName = projectFileName → ∀ table, readTable files file = .ok table → IsTable (tools table)

theorem tells_sectionIn_iff (t : Table) :
    Tells (sectionIn file t) ↔ (file.fileName = projectFileName → IsTable (tools t)) := by
  unfold sectionIn
  split
  · next h => simp [tells_sectionOf_iff, h]
  · next h => simp [tells_sectionOf_iff, h, IsTable]

/-- a file is read, its section is looked up, and settings are made of it -/
theorem ofFile_eq (files : FileTree) (file : Path) : (ofFile files file).1 = (readTable files file >>= fun t =>
    sectionIn file t >>= fun v => (ofValueIn file v).map (anchored file.parent)) := by
  rw [ofFile]
  cases readTable files file with
  | error e => rfl
  | ok t =>
    cases hsection : sectionIn file t with
    | error e => simp only [hsection, bind, Except.bind]
    | ok v => simp only [hsection, bind, Except.bind]

theorem tells_ofFile_iff : Tells (ofFile files file).1 ↔ Usable files file := by
  have hvalue : ∀ v, Tells ((ofValueIn file v).map (anchored file.parent)) := by
    intro v e he
    refine tells_ofValueIn file v e ?_
    cases hsettings : ofValueIn file v with
    | error e' =>
      rw [hsettings] at he
      exact congrArg Except.error (Except.error.inj he)
    | ok settings => rw [hsettings] at he; cases he
  rw [ofFile_eq, tells_bind, tells_readTable_iff]
  simp only [tells_bind, tells_sectionIn_iff]
  constructor
  · rintro ⟨hlegible, hprograms⟩
    exact ⟨hlegible, fun hproject table htable => (hprograms table htable).1 hproject⟩
  · rintro ⟨hlegible, hprograms⟩
    exact ⟨hlegible, fun table htable => ⟨fun hproject => hprograms hproject table htable, fun v _ => hvalue v⟩⟩

/-! ## Searching -/

theorem fileName_child (directory : Path) {name : Text} (h : Path.ofText name = ⟨.working, [name]⟩) :
    (directory.child name).fileName = name := by
  rw [Path.child, h, Path.join_working, Path.fileName, List.getLastD_concat]

/-- the search can come to an end in the directory, or go on: its files can be asked for, the one with settings only is
legible, and so is the project file, in which programs can be looked for -/
structure Searched (files : FileTree) (directory : Path) : Prop where
  own : Askable files (directory.child fileName)
  settings : files.findsFile (directory.child fileName) = .ok true → Legible files (directory.child fileName)
  shared : files.findsFile (directory.child fileName) = .ok false → Askable files (directory.child projectFileName)
  project : files.findsFile (directory.child fileName) = .ok false →
    files.findsFile (directory.child projectFileName) = .ok true → Legible files (directory.child projectFileName) ∧
      ∀ table, readTable files (directory.child projectFileName) = .ok table → Searchable sectionName (tools table)

/-- what a search ends with: a failure that is told, or nothing, or a file whose settings tell -/
def Ends (files : FileTree) (r : Except SettingsError (Option Path)) : Prop :=
  Tells r ∧ ∀ file, r = .ok (some file) → Tells (ofFile files file).1

theorem ends_none : Ends files (.ok none) := ⟨tells_ok _, nofun⟩

theorem ends_some : Ends files (.ok (some file)) ↔ Tells (ofFile files file).1 := by
  simp [Ends]

theorem ends_error {e : SettingsError} : Ends files (.error e) ↔ e.Told := by
  simp [Ends]

/-- going on from a result that tells what is wrong ends when every way of going on does -/
theorem ends_bind {α : Type} (r : Except SettingsError α) (f : α → Except SettingsError (Option Path)) :
    Ends files (r >>= f) ↔ Tells r ∧ ∀ a, r = .ok a → Ends files (f a) := by
  cases r with
  | error e => simp [bind, Except.bind, ends_error]
  | ok a => simp [bind, Except.bind]

/-- a file of another name than that of project files is usable when it is legible -/
theorem usable_iff_of_ne (h : file.fileName ≠ projectFileName) : Usable files file ↔ Legible files file :=
  ⟨Usable.legible, fun hlegible => ⟨hlegible, fun hproject => absurd hproject h⟩⟩

/-- a project file tells whether it has the section, and its settings tell if it has, exactly when it is legible and
programs can be looked for in it -/
theorem tells_holdsSection_iff (hproject : file.fileName = projectFileName) :
    (Tells (holdsSection files file) ∧ (holdsSection files file = .ok true → Tells (ofFile files file).1)) ↔
      Legible files file ∧ ∀ table, readTable files file = .ok table → Searchable sectionName (tools table) := by
  rw [← tells_readTable_iff, holdsSection, tells_bind, tells_ofFile_iff]
  cases htable : readTable files file with
  | error e => simp [bind, Except.bind]
  | ok table =>
    have husable : Usable files file ↔ Tells (sectionOf (tools table)) := by
      rw [tells_sectionOf_iff]
      constructor
      · exact fun h => h.programs hproject table htable
      · intro h
        refine ⟨tells_readTable_iff.1 (htable ▸ tells_ok table), fun _ table' htable' => ?_⟩
        rwa [← Except.ok.inj (htable.symm.trans htable')]
    simpa [bind, Except.bind, husable] using tells_mentions_iff (tools table)

theorem ends_fileIn_iff (directory : Path) : Ends files (fileIn files directory) ↔ Searched files directory := by
  have hown : (directory.child fileName).fileName ≠ projectFileName := by
    rw [fileName_child directory (by decide +kernel)]
    decide +kernel
  have hshared : (directory.child projectFileName).fileName = projectFileName :=
    fileName_child directory (by decide +kernel)
  have hnone : Ends files (pure none) := ends_none
  have hsome : ∀ file, Ends files (pure (some file)) ↔ Tells (ofFile files file).1 := fun _ => ends_some
  unfold fileIn
  simp only [ends_bind, tells_isFile_iff, isFile_eq_ok, Bool.forall_bool, Bool.false_eq_true, if_false, if_true, hnone,
    hsome, implies_true, true_and, tells_holdsSection_iff hshared]
  rw [tells_ofFile_iff, usable_iff_of_ne hown]
  constructor
  · rintro ⟨hask, hgoesOn, hlegible⟩
    exact ⟨hask, hlegible, fun h => (hgoesOn h).1, fun h => (hgoesOn h).2⟩
  · intro h
    exact ⟨h.own, fun hno => ⟨h.shared hno, h.project hno⟩, h.settings⟩

/-- a search ends in a directory, or goes on behind it when it holds no settings -/
theorem ends_fileInAny_cons (directory : Path) (more : List Path) : Ends files (fileInAny files (directory :: more)) ↔
    Ends files (fileIn files directory) ∧
      (fileIn files directory = .ok none → Ends files (fileInAny files more)) := by
  rw [fileInAny, ends_bind]
  cases fileIn files directory with
  | error e => simp [ends_error]
  | ok found =>
    cases found with
    | none => simp [ends_none]
    | some file => simp [pure, Except.pure, ends_some]

theorem ends_fileInAny_iff (directories : List Path) : Ends files (fileInAny files directories) ↔
    ∀ before directory after, directories = before ++ directory :: after →
      (∀ other ∈ before, fileIn files other = .ok none) → Searched files directory := by
  induction directories with
  | nil => exact iff_of_true ends_none fun before directory after h => by simp at h
  | cons first more ih =>
    rw [ends_fileInAny_cons, ends_fileIn_iff, ih]
    constructor
    · rintro ⟨hfirst, hmore⟩ before directory after hsplit hbefore
      cases before with
      | nil =>
        obtain ⟨rfl, -⟩ := List.cons.inj hsplit
        exact hfirst
      | cons other before =>
        obtain ⟨rfl, hrest⟩ := List.cons.inj hsplit
        obtain ⟨hnone, hbefore⟩ := List.forall_mem_cons.1 hbefore
        exact hmore hnone before directory after hrest hbefore
    · intro h
      refine ⟨h [] first more rfl nofun, fun hnone before directory after hsplit hbefore => ?_⟩
      exact h (first :: before) directory after (by rw [hsplit, List.cons_append])
        (List.forall_mem_cons.2 ⟨hnone, hbefore⟩)

/-! ## Loading -/

/-- the place where a search starts: that of the path, or the directory above it when a file stands there -/
def startOf (files : FileTree) (start : Path) : Spot :=
  if files.findsFile (FileTree.pathOf (files.resolve start)) = .ok true then (files.resolve start).dropLast
  else files.resolve start

/-- a named file is used when it is there -/
theorem load_named (files : FileTree) (file : Path) (start : Option Path) : (load files (some file) start).1 =
    (isFile files file >>= fun found => if found = true then (ofFile files file).1 else .error (.notFound file)) := by
  rw [load]
  cases isFile files file with
  | error e => rfl
  | ok found => cases found <;> rfl

theorem tells_load_none_iff (files : FileTree) (start : Option Path) :
    Tells (load files none start).1 ↔ Ends files (findFile files start) := by
  rw [load]
  cases findFile files start with
  | error e => simp [ends_error]
  | ok found =>
    cases found with
    | none => simp [ends_none]
    | some file => simp [ends_some]

theorem ends_findFile_iff (files : FileTree) (start : Option Path) : Ends files (findFile files start) ↔
    (start.getD ".").isNameable = true ∧ Askable files (FileTree.pathOf (files.resolve (start.getD "."))) ∧
      Ends files (fileInAny files (upwards (startOf files (start.getD ".")))) := by
  unfold findFile
  by_cases hnameable : (start.getD ".").isNameable = true
  · rw [if_pos hnameable, ends_bind, tells_isFile_iff]
    refine (and_congr_right fun hask => ?_).trans (and_iff_right hnameable).symm
    obtain ⟨found, hfound⟩ := hask
    have hstart : startOf files (start.getD ".") = if found = true then (files.resolve (start.getD ".")).dropLast
        else files.resolve (start.getD ".") := by
      rw [startOf, hfound]
      simp
    simp [isFile_eq_ok, hfound, hstart]
  · rw [if_neg hnameable]
    refine iff_of_false (fun h => ?_) (fun h => hnameable h.1)
    exact ends_error.1 h

/-- **When a failure to load settings is told**, for all files, whatever file is named and wherever the search starts. A
named file gives settings or a failure that is told exactly when it can be asked for and is usable if it is there. A
search does exactly when its start can be named and asked for, and when each directory upwards that it comes to, since
none of those before it holds settings, can be searched. -/
theorem load_tells_iff (files : FileTree) (file start : Option Path) : Tells (load files file start).1 ↔
    match file with
    | some file => Askable files file ∧ (files.findsFile file = .ok true → Usable files file)
    | none => (start.getD ".").isNameable = true ∧ Askable files (FileTree.pathOf (files.resolve (start.getD "."))) ∧
      ∀ before directory after, upwards (startOf files (start.getD ".")) = before ++ directory :: after →
        (∀ other ∈ before, fileIn files other = .ok none) → Searched files directory := by
  cases file with
  | some file =>
    rw [load_named, tells_bind, tells_isFile_iff, Bool.forall_bool]
    simp [isFile_eq_ok, tells_ofFile_iff, SettingsError.Told]
  | none => rw [tells_load_none_iff, ends_findFile_iff, ends_fileInAny_iff]

end Settings

/-! ## Files that are not told -/

namespace Settings

/-- one file in the working directory, which is the top -/
def onlyFile (name : Text) (content : Bytes) : FileTree := ⟨[], [([name], .file content)]⟩

/-- a project file in which a number stands in the place of the programs -/
def numberForPrograms : FileTree := onlyFile projectFileName ((Text.ofString "tool=5").flatMap Utf8.encodePoint)

/-- a settings file that is not UTF-8 -/
def noText : FileTree := onlyFile fileName [0xFF]

/-- a number in the place of the programs makes the search fail untold, and so do bytes that are no text -/
theorem misplaced_number_untold :
    (load numberForPrograms none none).1 = .error (.notSearchable "int") ∧ ¬ Tells (load numberForPrograms none none).1 ∧
      (load noText none none).1 = .error (.undecodable ⟨0xFF, 0, 1, .start⟩) ∧ ¬ Tells (load noText none none).1 := by
  have hnumber : (load numberForPrograms none none).1 = .error (.notSearchable "int") := by cbv
  have hbytes : (load noText none none).1 = .error (.undecodable ⟨0xFF, 0, 1, .start⟩) := by decide +kernel
  refine ⟨hnumber, ?_, hbytes, ?_⟩
  · rw [hnumber, tells_error_iff]
    exact id
  · rw [hbytes, tells_error_iff]
    exact id

end Settings

end Rulebook
