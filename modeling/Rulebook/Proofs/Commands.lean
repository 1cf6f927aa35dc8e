/-
Commands that write the documents of several grammar files. A command that fails with a code fails with code 1
(`failsWithOne_generate`), so a run that ends with 0 has gone through all of its grammar files (`ok_of_code`).

The step is one grammar file (`generateOne_ok`): its documents are written and announced. It goes on in a tree with the
documents of the files before it, and there every grammar file has the documents that it has without them, so the run is
told in terms of the files at its beginning (`generateEach_ok`, `written_of_code`). With different simple names the files
are different too, and nothing is written over: `generate_keeps_documents`.

The whole names need not be the same for documents to be lost, it is enough that their last parts are; and the order of
the grammar files may matter when the output directory, once it is there, opens a way to other grammar files
(`alike_simple_names_share_file`).
-/
import Mathlib
import Rulebook.CommandLine.Run
import Rulebook.Proofs.Batches

namespace Rulebook.CommandLine

open Source Generation

/-! ## How commands fail -/

namespace Action

/-- if the action fails with a code, the code is 1 -/
def FailsWithOne {α : Type} (a : Action α) : Prop := ∀ before n after, a.run.run before = (.error (.code n), after) → n = 1

variable {α β : Type}

theorem FailsWithOne.bind {a : Action α} {next : α → Action β} (ha : FailsWithOne a)
    (hnext : ∀ x, FailsWithOne (next x)) : FailsWithOne (a >>= next) := by
  intro before n after h
  rw [ExceptT.run_bind, StateT.run_bind] at h
  rcases hfirst : a.run.run before with ⟨e | x, mid⟩
  · rw [hfirst] at h
    cases h
    exact ha before n mid hfirst
  · rw [hfirst] at h
    exact hnext x mid n after h

theorem failsWithOne_pure (a : α) : FailsWithOne (pure a) := fun _ _ _ h => nomatch h

theorem failsWithOne_get : FailsWithOne (get : Action Session) := fun _ _ _ h => nomatch h

theorem failsWithOne_set (a : Session) : FailsWithOne (set a : Action PUnit) := fun _ _ _ h => nomatch h

theorem failsWithOne_modify (f : Session → Session) : FailsWithOne (modify f : Action PUnit) := fun _ _ _ h => nomatch h

theorem failsWithOne_escaped (e : Escape) : FailsWithOne (throw (.escaped e) : Action α) := fun _ _ _ h => nomatch h

theorem failsWithOne_fail (headline message : Text) : FailsWithOne (fail headline message : Action α) := by
  refine (failsWithOne_modify _).bind fun _ before n after h => ?_
  cases h
  rfl

theorem failsWithOne_print (t : Text) : FailsWithOne (print t) := by
  unfold print
  dsimp only
  split
  · exact failsWithOne_escaped _
  · exact failsWithOne_modify _

theorem failsWithOne_forM {xs : List β} {f : β → Action PUnit} (h : ∀ x ∈ xs, FailsWithOne (f x)) :
    FailsWithOne (xs.forM f) := by
  induction xs with
  | nil => exact failsWithOne_pure _
  | cons x xs ih =>
    obtain ⟨hx, hxs⟩ := List.forall_mem_cons.1 h
    exact hx.bind fun _ => ih hxs

theorem failsWithOne_work (w : Work α) : FailsWithOne (work w) := by
  refine failsWithOne_get.bind fun a => ?_
  rcases w.run.run a.toDesk with ⟨e | x, desk⟩
  · refine (failsWithOne_set _).bind fun _ => ?_
    dsimp only
    split
    · exact failsWithOne_fail _ _
    · exact failsWithOne_escaped _
  · exact (failsWithOne_set _).bind fun _ => failsWithOne_pure _

theorem failsWithOne_settings (writing : Bool) (choices : Choices) : FailsWithOne (settings writing choices) := by
  refine failsWithOne_get.bind fun a => ?_
  rcases Settings.load a.files choices.config none with ⟨e | found, log⟩
  · refine (failsWithOne_set _).bind fun _ => ?_
    dsimp only
    split
    · exact failsWithOne_escaped _
    · exact failsWithOne_fail _ _
  · exact (failsWithOne_set _).bind fun _ => failsWithOne_pure _

theorem failsWithOne_generateOne (s : Settings) (file : Path) : FailsWithOne (generateOne s file) := by
  refine failsWithOne_get.bind fun a => ?_
  split
  · exact failsWithOne_escaped _
  · exact failsWithOne_fail _ _
  · refine (failsWithOne_work _).bind fun done => ?_
    exact (failsWithOne_print _).bind fun _ => failsWithOne_forM fun p _ => failsWithOne_print _

theorem failsWithOne_generate (files : List Path) (choices : Choices) : FailsWithOne (generate files choices) :=
  (failsWithOne_settings true choices).bind fun s => failsWithOne_forM fun file _ => failsWithOne_generateOne s file

end Action

/-- a run that ends with 0 has come to its end -/
theorem ok_of_code {paths : List Path} {choices : Choices} {files : FileTree} {wanted : Option Text}
    (h : ((Command.generate paths choices).run files wanted).code = 0) : ∃ after : Session,
      (Action.generate paths choices).run.run ⟨⟨files, []⟩, [], []⟩ = (.ok (), after) ∧
      ((Command.generate paths choices).run files wanted).out = after.out ∧
      ((Command.generate paths choices).run files wanted).files = after.files := by
  unfold Command.run Action.ofCommand at h ⊢
  rcases hrun : (Action.generate paths choices).run.run ⟨⟨files, []⟩, [], []⟩ with ⟨(n | e) | _, after⟩
  · simp only [hrun] at h
    cases h.symm.trans (Action.failsWithOne_generate paths choices _ n after hrun)
  · simp only [hrun] at h
    cases h
  · exact ⟨after, rfl, by simp only, by simp only⟩

/-! ## What a successful step leaves -/

namespace Action

theorem work_ok {α : Type} {w : Work α} {a b : Session} {x : α} (h : (work w).run.run a = (.ok x, b)) :
    ∃ desk, w.run.run a.toDesk = (.ok x, desk) ∧ b = { a with toDesk := desk } := by
  obtain ⟨_, _, hget, h⟩ := ok_of_bind h
  cases hget
  rcases hw : w.run.run a.toDesk with ⟨e | y, desk⟩
  · simp only [hw] at h
    obtain ⟨_, _, -, h⟩ := ok_of_bind h
    split at h
    · obtain ⟨_, _, -, h⟩ := ok_of_bind h
      cases h
    · cases h
  · simp only [hw] at h
    obtain ⟨_, _, hset, h⟩ := ok_of_bind h
    cases hset
    cases h
    exact ⟨desk, rfl, rfl⟩

theorem print_ok {t : Text} {a b : Session} (h : (print t).run.run a = (.ok (), b)) :
    b = { a with out := a.out ++ uncoloured t } := by
  unfold print at h
  dsimp only at h
  split at h
  · cases h
  · cases h
    rfl

theorem prints_ok {f : Path → Text} {ps : List Path} {a b : Session}
    (h : (ps.forM fun p => print (f p)).run.run a = (.ok (), b)) :
    b = { a with out := a.out ++ ps.flatMap fun p => uncoloured (f p) } := by
  induction ps generalizing a with
  | nil =>
    cases h
    rw [List.flatMap_nil, List.append_nil]
  | cons p ps ih =>
    obtain ⟨_, mid, hprint, h⟩ := ok_of_bind h
    rw [print_ok hprint] at h
    rw [ih h, List.flatMap_cons, List.append_assoc]

/-- what is said about documents that have been written -/
def announcement (g : Generated) : Text :=
  uncoloured (doneMark ++ g.grammar ++ ": " ++ Text.ofNat g.rules ++ " rules\n") ++
    g.written.flatMap fun p => uncoloured ("  " ++ p.text ++ "\n")

section

variable {s : Settings} {c : FormatterClass}

/-- the documents of a grammar file are written and announced -/
theorem generateOne_ok (hc : Registry.builtin.lookup s.formatter = some c) {file : Path} {a b : Session}
    (h : (generateOne s file).run.run a = (.ok (), b)) : ∃ doc t made, documented s a.files file = .ok doc ∧
      (c.formatGrammar s.options doc).1 = .ok t ∧ a.files.makeDirectory s.output = (made, none) ∧
      made.Writes (artifacts s c doc t) b.files ∧ b.out = a.out ++ announcement (generated s c doc) := by
  obtain ⟨_, _, hget, h⟩ := ok_of_bind h
  cases hget
  split at h
  · cases h
  · obtain ⟨_, _, -, h⟩ := ok_of_bind h
    cases h
  · obtain ⟨done, mid, hwork, h⟩ := ok_of_bind h
    obtain ⟨desk, hgenerate, rfl⟩ := work_ok hwork
    obtain ⟨doc, t, made, hdoc, ht, hmade, rfl, hwrites⟩ := generate_ok hc hgenerate
    obtain ⟨_, mid, hprint, h⟩ := ok_of_bind h
    rw [print_ok hprint] at h
    rw [prints_ok h]
    exact ⟨doc, t, made, hdoc, ht, hmade, hwrites, List.append_assoc _ _ _⟩

/-- in a tree with documents over one that has the output directory, every further grammar file is documented as there,
and its documents are written over the others -/
theorem generateEach_ok (hc : Registry.builtin.lookup s.formatter = some c) {base : FileTree}
    (hbase : base.isDirectory s.output = true) {paths : List Path} {a b : Session} (hover : Overlaid base a.files)
    (h : (paths.forM (generateOne s)).run.run a = (.ok (), b)) : ∃ docs ws, List.Forall₂ (Documents s base) paths docs ∧
      Pages s c docs ws ∧ a.files.Writes ws b.files ∧
      b.out = a.out ++ docs.flatMap fun doc => announcement (generated s c doc) := by
  induction paths generalizing a with
  | nil =>
    cases h
    exact ⟨[], [], .nil, .nothing, .nothing _, by simp⟩
  | cons file paths ih =>
    obtain ⟨_, mid, hone, h⟩ := ok_of_bind h
    obtain ⟨doc, t, made, hdoc, ht, hmade, hwrites, hout⟩ := generateOne_ok hc hone
    rw [FileTree.makeDirectory_of_isDirectory (hover.isDirectory hbase)] at hmade
    cases hmade
    have hdocuments := isDocument_artifacts hc (documents_of_documented hdoc).1 ht
    obtain ⟨docs, ws, hdocs, hpages, hmore, hrest⟩ := ih (hwrites.overlaid hover hdocuments) h
    refine ⟨doc :: docs, _, .cons (documents_of_overlaid hover (.of_documented hdoc)) hdocs, .next ht hpages,
      hwrites.append hmore, ?_⟩
    rw [hrest, hout, List.append_assoc, List.flatMap_cons]

/-- the settings of a command are those of its file, with what the options ask for -/
theorem settings_ok {choices : Choices} {writing : Bool} {a b : Session} {found : Settings}
    (hload : (Settings.load a.files choices.config none).1 = .ok found)
    (h : (settings writing choices).run.run a = (.ok s, b)) :
    s = chosen choices found ∧ b.files = a.files ∧ b.out = a.out := by
  obtain ⟨_, _, hget, h⟩ := ok_of_bind h
  cases hget
  rcases hl : Settings.load a.files choices.config none with ⟨e | found', log⟩
  · rw [hl] at hload
    cases hload
  · rw [hl] at hload
    cases hload
    simp only [hl] at h
    obtain ⟨_, _, hset, h⟩ := ok_of_bind h
    cases hset
    cases h
    exact ⟨rfl, rfl, rfl⟩

end

end Action

/-! ## The documents of several grammars -/

/-- the documents of some grammar files; the first of them is read before the output directory is made, the others
after -/
inductive InTurn (s : Settings) (files : FileTree) : List Path → List GrammarDoc → Prop where
  | nothing : InTurn s files [] []
  | first {p : Path} {ps : List Path} {doc : GrammarDoc} {docs : List GrammarDoc} : Documents s files p doc →
    List.Forall₂ (Documents s (files.makeDirectory s.output).1) ps docs → InTurn s files (p :: ps) (doc :: docs)

/-- the files for documents hold what they are for: the text that the formatter makes of the documents and, if it is
written, their graph -/
def Stands (s : Settings) (c : FormatterClass) (doc : GrammarDoc) (files : FileTree) : Prop :=
  ∃ t, (c.formatGrammar s.options doc).1 = .ok t ∧ files.Holds (generated s c doc).document t ∧
    ∀ p ∈ (generated s c doc).graph, files.Holds p (c.formatGraph s.options doc).1

section

variable {s : Settings} {c : FormatterClass} {files made : FileTree} {paths : List Path} {docs : List GrammarDoc}

/-- a grammar file declares the grammar that its documents are about -/
theorem declares_of_documents {p : Path} {doc : GrammarDoc} (h : Documents s files p doc) :
    Library.Declares files p doc.name := by
  obtain ⟨depth, g, hread, hg⟩ := h
  cases depth with
  | zero => cases hread
  | succ depth =>
    rw [Library.readGrammarWithin] at hread
    split at hread
    · cases hread
    · next source hsource =>
      obtain ⟨w, used, n, hw, rfl⟩ := linked_of_readWith hread
      rw [ofGrammar_link w n used (qualified_of_ofText hw).1.ne_nil] at hg
      cases hg
      exact ⟨w, ⟨source, hsource, hw⟩, rfl⟩

/-- a file declares what it declared before directories were made -/
theorem declares_of_extends {p : Path} {name : Text} (h : files.Extends made) (hp : Library.Declares files p name) :
    Library.Declares made p name := by
  obtain ⟨w, ⟨source, hsource, hw⟩, rfl⟩ := hp
  refine ⟨w, ⟨source, ?_, hw⟩, rfl⟩
  obtain ⟨-, place, content, hplace, hentry⟩ := Library.entry_of_findsFile (Library.findsFile_of_textOf hsource)
  have hkeeps : files.KeepsDirectories made := ⟨h.working, fun place => h.entries place .directory⟩
  rw [Library.textOf, (FileTree.read_iff hplace content).2 hentry] at hsource
  rw [Library.textOf, (FileTree.read_iff (FileTree.locate_of_directories hkeeps hplace) content).2 (h.entries place _ hentry)]
  exact hsource

theorem InTurn.declares (h : InTurn s files paths docs) :
    List.Forall₂ (fun p doc => Library.Declares (files.makeDirectory s.output).1 p doc.name) paths docs := by
  cases h with
  | nothing => exact .nil
  | first hdoc hdocs =>
    exact .cons (declares_of_extends (files.extends_makeDirectory s.output) (declares_of_documents hdoc))
      (hdocs.imp fun _ _ => declares_of_documents)

/-- the names of the grammars are the declared ones -/
theorem InTurn.names_eq (h : InTurn s files paths docs) {names : List Text}
    (hnames : List.Forall₂ (Library.Declares (files.makeDirectory s.output).1) paths names) :
    docs.map GrammarDoc.name = names := by
  refine List.right_unique_forall₂' ?_ (List.forall₂_map_right_iff.2 h.declares) hnames
  rintro p name name' ⟨w, hw, rfl⟩ ⟨w', hw', rfl⟩
  rw [hw.unique hw']

theorem InTurn.qualified (h : InTurn s files paths docs) : ∀ doc ∈ docs, Qualified doc.name := by
  have hdeclares := h.declares
  clear h
  induction hdeclares with
  | nil => exact List.forall_mem_nil _
  | cons hdeclares _ ih =>
    obtain ⟨w, ⟨source, -, hw⟩, hname⟩ := hdeclares
    exact List.forall_mem_cons.2 ⟨hname ▸ (qualified_of_ofText hw).1, ih⟩

/-- the files that were there before anything is written: with the output directory, if there is anything to write -/
def prepared (s : Settings) (files : FileTree) (paths : List Path) : FileTree :=
  if paths = [] then files else (files.makeDirectory s.output).1

/-- a run that ends with 0 has written the documents of every grammar file and said so -/
theorem written_of_code {choices : Choices} {wanted : Option Text} {found : Settings}
    (hload : (Settings.load files choices.config none).1 = .ok found) (hs : s = Action.chosen choices found)
    (hc : Registry.builtin.lookup s.formatter = some c)
    (hcode : ((Command.generate paths choices).run files wanted).code = 0) : ∃ docs ws, InTurn s files paths docs ∧
      Pages s c docs ws ∧
      (prepared s files paths).Writes ws ((Command.generate paths choices).run files wanted).files ∧
      ((Command.generate paths choices).run files wanted).out =
        docs.flatMap fun doc => Action.announcement (generated s c doc) := by
  obtain ⟨after, hrun, hout, hfiles⟩ := ok_of_code hcode
  rw [hout, hfiles]
  obtain ⟨s', begun, hsettings, hrun⟩ := ok_of_bind hrun
  obtain ⟨rfl, hbegun, hquiet⟩ := Action.settings_ok hload hsettings
  rw [← hs] at hrun
  cases paths with
  | nil =>
    cases hrun
    exact ⟨[], [], .nothing, .nothing, hbegun ▸ .nothing _, hquiet⟩
  | cons file paths =>
    obtain ⟨_, mid, hone, hrun⟩ := ok_of_bind hrun
    obtain ⟨doc, t, made, hdoc, ht, hmade, hwrites, hfirst⟩ := Action.generateOne_ok hc hone
    rw [hbegun] at hdoc hmade
    have hdocuments := isDocument_artifacts hc (documents_of_documented hdoc).1 ht
    have hthere := FileTree.isDirectory_of_makeDirectory hmade
    obtain ⟨docs, ws, hdocs, hpages, hmore, hrest⟩ :=
      Action.generateEach_ok hc hthere (hwrites.overlaid (.refl made) hdocuments) hrun
    refine ⟨doc :: docs, _, .first (.of_documented hdoc) (by rwa [hmade]), .next ht hpages, ?_, ?_⟩
    · rw [prepared, if_neg (List.cons_ne_nil _ _), hmade]
      exact hwrites.append hmore
    · rw [hrest, hfirst, hquiet, List.nil_append, List.flatMap_cons]

/-- grammar files whose documents are the same before and after the output directory is made have the same documents in
every order -/
theorem InTurn.perm {others : List Path} {docs' : List GrammarDoc} (h : InTurn s files paths docs)
    (h' : InTurn s files others docs') (hperm : others.Perm paths)
    (hsame : ∀ p ∈ paths, ∀ doc, Documents s files p doc ↔ Documents s (files.makeDirectory s.output).1 p doc) :
    docs'.Perm docs := by
  have hbefore : ∀ {ps : List Path} {docs : List GrammarDoc}, (∀ p ∈ ps, ∀ doc,
      Documents s files p doc ↔ Documents s (files.makeDirectory s.output).1 p doc) → InTurn s files ps docs →
        List.Forall₂ (Documents s files) ps docs := by
    intro ps docs hps hturn
    cases hturn with
    | nothing => exact .nil
    | first hdoc hdocs =>
      refine .cons hdoc ?_
      have hboth := (List.forall₂_and_left _ _).2 ⟨fun p hp => hps p (List.mem_cons_of_mem _ hp), hdocs⟩
      exact hboth.imp fun p doc hp => (hp.1 doc).2 hp.2
  obtain ⟨mid, hmid, hdocs⟩ := List.perm_comp_forall₂ hperm (hbefore hsame h)
  have hothers := hbefore (fun p hp => hsame p (hperm.subset hp)) h'
  obtain rfl : mid = docs' := List.right_unique_forall₂' (fun _ _ _ h h' => h'.unique h) hmid hothers
  exact hdocs

/-- a run over grammars with different simple names leaves every text in its file, and nothing else -/
theorem published_of_code {choices : Choices} {wanted : Option Text} {found : Settings}
    (hload : (Settings.load files choices.config none).1 = .ok found) (hs : s = Action.chosen choices found)
    (hc : Registry.builtin.lookup s.formatter = some c) (hdistinct : ∀ docs, InTurn s files paths docs →
      (docs.map fun doc => Grammar.simpleName doc.name).Nodup)
    (hcode : ((Command.generate paths choices).run files wanted).code = 0) : ∃ docs ws, InTurn s files paths docs ∧
      Pages s c docs ws ∧
      (prepared s files paths).Published ws ((Command.generate paths choices).run files wanted).files ∧
      ((Command.generate paths choices).run files wanted).out =
        docs.flatMap fun doc => Action.announcement (generated s c doc) := by
  obtain ⟨docs, ws, hdocs, hpages, hwrites, hout⟩ := written_of_code hload hs hc hcode
  exact ⟨docs, ws, hdocs, hpages, hwrites.published (hpages.apart hc hdocs.qualified (hdistinct docs hdocs) _), hout⟩

/-- **Grammars with different simple names keep their documents.** For all files, all grammar files and all options: if
the simple names of the declared grammars are different and the run ends with 0, then the run has announced the documents
of every grammar file in turn, and at the end every file that was announced holds the document, or the graph, of its
grammar. In any other order of the grammar files that ends with 0 as well the files are the same at the end, as long as
making the output directory does not change what a grammar file documents. -/
theorem generate_keeps_documents {choices : Choices} {wanted : Option Text} {found : Settings} {names : List Text}
    (hload : (Settings.load files choices.config none).1 = .ok found) (hs : s = Action.chosen choices found)
    (hc : Registry.builtin.lookup s.formatter = some c)
    (hnames : List.Forall₂ (Library.Declares (files.makeDirectory s.output).1) paths names)
    (hdistinct : (names.map Grammar.simpleName).Nodup)
    (hcode : ((Command.generate paths choices).run files wanted).code = 0) :
    ∃ docs, InTurn s files paths docs ∧ docs.map GrammarDoc.name = names ∧
      ((Command.generate paths choices).run files wanted).out =
        (docs.flatMap fun doc => Action.announcement (generated s c doc)) ∧
      (∀ doc ∈ docs, Stands s c doc ((Command.generate paths choices).run files wanted).files) ∧
      ∀ others : List Path, others.Perm paths → ((Command.generate others choices).run files wanted).code = 0 →
        (∀ p ∈ paths, ∀ doc, Documents s files p doc ↔ Documents s (files.makeDirectory s.output).1 p doc) →
        ∀ place, ((Command.generate others choices).run files wanted).files.entryAt place =
          ((Command.generate paths choices).run files wanted).files.entryAt place := by
  have hdifferent : ∀ docs, InTurn s files paths docs → (docs.map fun doc => Grammar.simpleName doc.name).Nodup := by
    intro docs hdocs
    rw [← hdocs.names_eq hnames, List.map_map] at hdistinct
    exact hdistinct
  obtain ⟨docs, ws, hdocs, hpages, hpublished, hout⟩ := published_of_code hload hs hc hdifferent hcode
  refine ⟨docs, hdocs, hdocs.names_eq hnames, hout, fun doc hdoc => ?_, fun others hperm hcode' hsame place => ?_⟩
  · obtain ⟨t, ht⟩ := hpages.exists_text hdoc
    have hmem : ∀ w ∈ artifacts s c doc t, w ∈ ws := fun w hw => (hpages.mem_iff w).2 ⟨doc, hdoc, t, ht, hw⟩
    refine ⟨t, ht, hpublished.holds (hmem _ List.mem_cons_self), fun p hp => hpublished.holds (hmem _ ?_)⟩
    rw [Generation.generated] at hp
    split at hp
    · next hdraws =>
      cases hp
      exact List.mem_cons_of_mem _ (by rw [if_pos hdraws]; exact List.mem_singleton_self _)
    · cases hp
  · -- the other order has the same documents, so it writes the same files
    have hothers : ∀ docs', InTurn s files others docs' →
        (docs'.map fun doc => Grammar.simpleName doc.name).Nodup := fun docs' hdocs' =>
      ((hdocs.perm hdocs' hperm hsame).map _).nodup_iff.2 (hdifferent docs hdocs)
    obtain ⟨docs', ws', hdocs', hpages', hpublished', -⟩ := published_of_code hload hs hc hothers hcode'
    have hprepared : prepared s files others = prepared s files paths := by
      simp only [prepared, ← List.length_eq_zero_iff, hperm.length_eq]
    rw [hprepared] at hpublished'
    refine hpublished.entryAt_eq hpublished' (fun w => ?_) place
    rw [hpages.mem_iff, hpages'.mem_iff]
    exact exists_congr fun doc => and_congr_left fun _ => (hdocs.perm hdocs' hperm hsame).mem_iff.symm

end

/-! ### Fixed files -/

/-- two grammar files `a` and `b` in the working directory, and a third one in a directory beside them -/
def twoFiles (a b : String) : FileTree :=
  ⟨[], [(["a"], Library.plainFile a), (["b"], Library.plainFile b), (["lib"], .directory),
    (["lib", "L.xtext"], Library.plainFile "grammar M")]⟩

/-- pages go to the directory `out`, and grammars are looked for beside it -/
def besideOut : Choices := ⟨none, none, some "out", ["out/../lib"], some false, false, false⟩

/-- the settings of these options when there is no settings file -/
def besideOutSettings : Settings := Action.chosen besideOut .standard

/-- the documents of the two files are generated, in one order or the other -/
def runOn (a b : String) (paths : List Path) : Run := (Command.generate paths besideOut).run (twoFiles a b) none

/-- one step of reading, with the comparison of names as a decision that is evaluated -/
theorem readGrammar_eq : Library.readGrammar = fun files searchPaths file l =>
    match Library.textOf files file with
    | .error e => (.error e, l)
    | .ok source => Library.readWith (fun name l =>
        match l.shelf.lookup name with
        | some g => (.ok g, l)
        | none =>
          if name ∈ l.opened then (.ok (Library.stub l.fresh name), l.next.note [.circularUse name])
          else match decide (name = Library.builtinName) with
          | true => Library.readBuiltin l
          | false =>
            match Library.findFile? files (file.parent :: searchPaths) name with
            | .error e => (.error e, l)
            | .ok none => (.ok (Library.missing name l).2, (Library.missing name l).1)
            | .ok (some found) =>
              Library.readGrammarWithin files searchPaths (files.entries.length + 255) found l) file source l := by
  funext files searchPaths file l
  rw [Library.readGrammar, Library.depthLimit, Library.readGrammarWithin]
  cases Library.textOf files file with
  | error e => rfl
  | ok source =>
    refine congrArg (fun load => Library.readWith load file source l) (funext fun name => funext fun l => ?_)
    unfold Library.use
    cases l.shelf.lookup name with
    | some g => rfl
    | none =>
      refine if_congr Iff.rfl rfl ?_
      cases hbuiltin : decide (name = Library.builtinName) with
      | true => exact if_pos (of_decide_eq_true hbuiltin)
      | false => exact if_neg (of_decide_eq_false hbuiltin)

/-- the page of a grammar without rules; `uses` is what stands behind its title -/
def emptyPage (name uses : String) : Text :=
  "# Grammar `" ++ name ++ "`\n" ++ uses ++ "\n## Contents\n\n_This grammar defines no rules._\n\n## Rules\n"

/-- the first grammar file is read before there is a way through `out` -/
theorem run_lenderUnseen : (fun r : Run => (r.code, r.files.entryAt ["out", "A.md"]))
    (runOn "grammar A with L" "grammar B" ["a", "b"]) =
      (0, some (.file ((emptyPage "A" "\n**Uses:** `L`\n").flatMap Utf8.encodePoint))) := by
  simp only [runOn, Command.run, Action.ofCommand, Action.generate]
  unfold Action.generateOne Generation.generate documentation
  simp only [readGrammar_eq]
  cbv

theorem declares_borrowing :
    List.Forall₂ (Library.Declares ((twoFiles "grammar A with L" "grammar B").makeDirectory "out").1) ["a", "b"] ["A", "B"] := by
  refine .cons ⟨⟨"A", none, ["L"], [], [], []⟩, ⟨"grammar A with L", by cbv, by cbv⟩, rfl⟩ (.cons ?_ .nil)
  exact ⟨⟨"B", none, [], [], [], []⟩, ⟨"grammar B", by cbv, by cbv⟩, rfl⟩

/-- the documents of both grammars stand -/
theorem both_documents_stand :
    (Settings.load (twoFiles "grammar A with L" "grammar B") none none).1 = .ok .standard ∧
    Registry.builtin.lookup besideOutSettings.formatter = some .markdown ∧
    List.Forall₂ (Library.Declares ((twoFiles "grammar A with L" "grammar B").makeDirectory "out").1) ["a", "b"] ["A", "B"] ∧
    ((["A", "B"] : List Text).map Grammar.simpleName).Nodup ∧
    (runOn "grammar A with L" "grammar B" ["a", "b"]).code = 0 ∧
    ∃ docs : List GrammarDoc, docs.map GrammarDoc.name = ["A", "B"] ∧
      ∀ doc ∈ docs, Stands besideOutSettings .markdown doc (runOn "grammar A with L" "grammar B" ["a", "b"]).files := by
  have hload : (Settings.load (twoFiles "grammar A with L" "grammar B") none none).1 = .ok .standard := rfl
  have hdistinct : ((["A", "B"] : List Text).map Grammar.simpleName).Nodup := by decide
  obtain ⟨hcode, -⟩ := Prod.mk.inj run_lenderUnseen
  obtain ⟨docs, -, hdocs, -, hstands, -⟩ := generate_keeps_documents (s := besideOutSettings) (c := .markdown) hload rfl rfl
    declares_borrowing hdistinct hcode
  exact ⟨hload, rfl, declares_borrowing, hdistinct, hcode, docs, hdocs, hstands⟩

/-- the second one after -/
theorem run_lenderSeen : (fun r : Run => (r.code, r.files.entryAt ["out", "A.md"]))
    (runOn "grammar A with L" "grammar B" ["b", "a"]) =
      (0, some (.file ((emptyPage "A" "\n**Uses:** `M`\n").flatMap Utf8.encodePoint))) := by
  simp only [runOn, Command.run, Action.ofCommand, Action.generate]
  unfold Action.generateOne Generation.generate documentation
  simp only [readGrammar_eq]
  cbv

/-- two grammars whose simple names are the same go to one file -/
theorem run_alikeNamed : (fun r : Run => (r.code, r.out, r.files.read "out/G.md"))
    (runOn "grammar a.G" "grammar b.G" ["a", "b"]) =
      (0, Text.ofString "✓ a.G: 0 rules\n  out/G.md\n✓ b.G: 0 rules\n  out/G.md\n",
        .ok ((emptyPage "b.G" "").flatMap Utf8.encodePoint)) := by
  cbv

/-- what the two files declare, and the documents of the first of them -/
theorem documents_alikeNamed :
    List.Forall₂ (Library.Declares (twoFiles "grammar a.G" "grammar b.G")) ["a", "b"] ["a.G", "b.G"] ∧
      Documents besideOutSettings (twoFiles "grammar a.G" "grammar b.G") "a"
        (documentsOf ⟨"a.G", none, [], [], [], []⟩) := by
  have hsource : Library.textOf (twoFiles "grammar a.G" "grammar b.G") "a" = .ok "grammar a.G" := by cbv
  have hw : WrittenGrammar.ofText "a" "grammar a.G" = .ok ⟨"a.G", none, [], [], [], []⟩ := by cbv
  refine ⟨.cons ⟨_, ⟨_, hsource, hw⟩, rfl⟩ (.cons ?_ .nil), .of_documented (documented_of_ofText hsource hw rfl)⟩
  exact ⟨⟨"b.G", none, [], [], [], []⟩, ⟨"grammar b.G", by cbv, by cbv⟩, rfl⟩

/-- two grammars whose simple names are the same get one file, which keeps the last document only; and a grammar that is
used may be found by a way through the output directory, which is there for all grammar files but the first -/
theorem alike_simple_names_share_file :
    (List.Forall₂ (Library.Declares (twoFiles "grammar a.G" "grammar b.G")) ["a", "b"] ["a.G", "b.G"] ∧
      (["a.G", "b.G"] : List Text).Nodup ∧ (runOn "grammar a.G" "grammar b.G" ["a", "b"]).code = 0 ∧
      (runOn "grammar a.G" "grammar b.G" ["a", "b"]).out =
        "✓ a.G: 0 rules\n  out/G.md\n✓ b.G: 0 rules\n  out/G.md\n" ∧
      ∃ doc, Documents besideOutSettings (twoFiles "grammar a.G" "grammar b.G") "a" doc ∧
        ¬ Stands besideOutSettings .markdown doc (runOn "grammar a.G" "grammar b.G" ["a", "b"]).files) ∧
    List.Forall₂ (Library.Declares ((twoFiles "grammar A with L" "grammar B").makeDirectory "out").1) ["a", "b"] ["A", "B"] ∧
      (["A", "B"] : List Text).Nodup ∧ (runOn "grammar A with L" "grammar B" ["a", "b"]).code = 0 ∧
      (runOn "grammar A with L" "grammar B" ["b", "a"]).code = 0 ∧
      (runOn "grammar A with L" "grammar B" ["a", "b"]).files.entryAt ["out", "A.md"] ≠
        (runOn "grammar A with L" "grammar B" ["b", "a"]).files.entryAt ["out", "A.md"] := by
  obtain ⟨hcode, hshared⟩ := Prod.mk.inj run_alikeNamed
  obtain ⟨hout, hread⟩ := Prod.mk.inj hshared
  obtain ⟨hcode₁, hentry₁⟩ := Prod.mk.inj run_lenderUnseen
  obtain ⟨hcode₂, hentry₂⟩ := Prod.mk.inj run_lenderSeen
  obtain ⟨hdeclares, hdocuments⟩ := documents_alikeNamed
  have hformat : (FormatterClass.markdown.formatGrammar besideOutSettings.options
      (documentsOf ⟨"a.G", none, [], [], [], []⟩)).1 = .ok (emptyPage "a.G" "") := rfl
  refine ⟨⟨hdeclares, by decide, hcode, hout, _, hdocuments, ?_⟩, declares_borrowing, by decide, hcode₁, hcode₂, ?_⟩
  · rintro ⟨t, ht, ⟨content, hencode, hcontent⟩, -⟩
    cases hformat.symm.trans ht
    have hpage : Utf8.encode (emptyPage "a.G" "") = .ok ((emptyPage "b.G" "").flatMap Utf8.encodePoint) := by
      rw [hencode]
      exact congrArg Except.ok (Except.ok.inj (hcontent.symm.trans hread))
    revert hpage
    decide
  · rw [hentry₁, hentry₂]
    decide

end Rulebook.CommandLine
