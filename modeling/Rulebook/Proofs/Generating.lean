/-
How generating documents ends. A clean end is one of two: the documents are there, each file holding the bytes of its
text, or the failure is one that callers are told of and no file is other than before (`Clean`). `generate_clean_iff` says
exactly when the end is clean, and there are two ways in which it is not.

- The failure is none that callers are told of: a path holds a zero, a used grammar cannot be looked for, grammar files
  use one another without an end, or a definition to be shown holds a surrogate, which has no bytes; in the last case the
  document has been emptied (`surrogate_empties_document`).
- The document is written before the graph is, so when the graph is refused an old document is already replaced.

A grammar that is read always has a document with a text and a graph with bytes (`documents_of_ofText`), so nothing else
stands in the way.
-/
import Rulebook.Proofs.Artifacts
import Rulebook.Proofs.Pieces
import Rulebook.Proofs.Writing

namespace Rulebook

open Source

/-! ## Work at some files -/

namespace Work

/-- at these files, whatever the log says, the work gives this result and leaves those files -/
def Leaves {α : Type} (w : Work α) (files : FileTree) (r : Except GenerationError α) (after : FileTree) : Prop :=
  ∀ log, ∃ log', w.run.run ⟨files, log⟩ = (r, ⟨after, log'⟩)

section

variable {α β : Type} {w : Work α} {next : α → Work β} {files after : FileTree}

theorem Leaves.bind {mid : FileTree} {a : α} {r : Except GenerationError β} (h : w.Leaves files (.ok a) mid)
    (hnext : (next a).Leaves mid r after) : (w >>= next).Leaves files r after := by
  intro log
  obtain ⟨log₁, hfirst⟩ := h log
  obtain ⟨log₂, hsecond⟩ := hnext log₁
  refine ⟨log₂, ?_⟩
  rw [ExceptT.run_bind, StateT.run_bind, hfirst]
  exact hsecond

theorem Leaves.bind_error {e : GenerationError} (h : w.Leaves files (.error e) after) :
    (w >>= next).Leaves files (.error e) after := by
  intro log
  obtain ⟨log₁, hfirst⟩ := h log
  refine ⟨log₁, ?_⟩
  rw [ExceptT.run_bind, StateT.run_bind, hfirst]
  rfl

theorem leaves_pure (a : α) : Leaves (pure a) files (.ok a) files := fun log => ⟨log, rfl⟩

theorem leaves_report (r : Except GenerationError α) (notices : Log) : (report r notices).Leaves files r files := by
  intro log
  refine ⟨log ++ notices, ?_⟩
  cases r <;> rfl

theorem leaves_throw (e : GenerationError) : Leaves (throw e : Work α) files (.error e) files := fun log => ⟨log, rfl⟩

/-- the work goes on from the files as they are -/
theorem leaves_get {next : Desk → Work β} {r : Except GenerationError β} (h : ∀ log, (next ⟨files, log⟩).Leaves files r after) :
    Leaves (get >>= next) files r after := fun log => h log log

theorem leaves_set (files after : FileTree) (log : Log) : Leaves (set (⟨after, log⟩ : Desk)) files (.ok ()) after :=
  fun _ => ⟨log, rfl⟩

end

section

variable {files after : FileTree} {p : Path}

theorem leaves_named (h : p.isNameable = true) : (named p).Leaves files (.ok ()) files := by
  rw [named, if_pos h]
  exact leaves_pure ()

theorem leaves_unnameable (h : ¬ p.isNameable = true) : (named p).Leaves files (.error .unnameable) files := by
  rw [named, if_neg h]
  exact leaves_throw _

theorem leaves_makeDirectory (hp : p.isNameable = true) (h : files.makeDirectory p = (after, none)) :
    (makeDirectory p).Leaves files (.ok ()) after := by
  refine (leaves_named hp).bind (leaves_get fun log => ?_)
  simp only [h]
  exact (leaves_set files after log).bind (leaves_pure ())

theorem leaves_noDirectory (hp : p.isNameable = true) {fault : SystemFault} {q : Path}
    (h : files.makeDirectory p = (after, some (fault, q))) :
    (makeDirectory p).Leaves files (.error (.noDirectory p fault)) after := by
  refine (leaves_named hp).bind (leaves_get fun log => ?_)
  simp only [h]
  exact (leaves_set files after log).bind (leaves_throw _)

/-- the failure of the work when a text is not written -/
def failure (p : Path) : WriteFault → GenerationError
  | .refused fault => .unwritten p fault
  | .unencodable fault => .unencodable fault

theorem leaves_write (hp : p.isNameable = true) {t : Text} (h : files.writeText p t = (after, none)) :
    (write p t).Leaves files (.ok ()) after := by
  refine (leaves_named hp).bind (leaves_get fun log => ?_)
  simp only [h]
  exact (leaves_set files after log).bind (leaves_report (.ok ()) [.wrote p])

theorem leaves_unwritten (hp : p.isNameable = true) {t : Text} {fault : WriteFault}
    (h : files.writeText p t = (after, some fault)) : (write p t).Leaves files (.error (failure p fault)) after := by
  refine (leaves_named hp).bind (leaves_get fun log => ?_)
  simp only [h]
  refine (leaves_set files after log).bind ?_
  cases fault with
  | refused fault => exact leaves_throw _
  | unencodable fault => exact leaves_throw _

end

end Work

/-! ## Ends -/

/-- the failures that callers are told of; the others come from the system, from names and from encodings, and nobody
turns them into a failure of their own -/
def GenerationError.isDeclared : GenerationError → Bool
  | .unread (.unsearchable _ _) => false
  | .unread .unnameable => false
  | .unread .tooDeep => false
  | .unnameable => false
  | .unencodable _ => false
  | .unformatted (.unprintable _) => false
  | _ => true

def FileTree.Holds (files : FileTree) (p : Path) (t : Text) : Prop :=
  ∃ content, Utf8.encode t = .ok content ∧ files.read p = .ok content

namespace FileTree

variable {files after : FileTree} {p q : Path} {t u : Text}

theorem holds_of_writeText (h : files.writeText p t = (after, none)) : after.Holds p t := by
  obtain ⟨spot, content, hlocate, hspot, hne, hencode, rfl⟩ := put_of_writeText h
  exact ⟨content, hencode, read_put hlocate hspot hne content⟩

/-- a file holds its text when a text is written somewhere else -/
theorem Holds.writeText {spot : Spot} (h : files.Holds p t) (hspot : files.locate p = .ok spot)
    (hwritten : files.writeText q u = (after, none)) (hother : ∀ place, files.locate q = .ok place → place ≠ spot) :
    after.Holds p t := by
  obtain ⟨place, _, hplace, hentry, hne, -, rfl⟩ := put_of_writeText hwritten
  obtain ⟨content, hencode, hread⟩ := h
  exact ⟨content, hencode, read_put_other hspot hread hentry hne (hother place hplace).symm _⟩

end FileTree

namespace Generation

/-- the documentation of a grammar file, without what the log hears -/
def documented (s : Settings) (files : FileTree) (file : Path) : Except GenerationError GrammarDoc :=
  match (Library.readGrammar files (file.parent :: s.searchPaths) file .empty).1 with
  | .error e => .error (.unread e)
  | .ok g => (GrammarDoc.ofGrammar g).1.mapError .undocumented

/-- a clean end: every file written holds the bytes of its text, or callers are told of the failure and every file that
there was is as before -/
def Clean (s : Settings) (c : FormatterClass) (file : Path) (files : FileTree) (r : Except GenerationError Generated)
    (after : FileTree) : Prop :=
  match r with
  | .ok g => ∃ doc t, documented s files file = .ok doc ∧ (c.formatGrammar s.options doc).1 = .ok t ∧
      after.Holds g.document t ∧ ∀ p ∈ g.graph, after.Holds p (c.formatGraph s.options doc).1
  | .error e => e.isDeclared = true ∧ files.KeepsFiles after

/-- a graph is asked for, and it is not the document itself -/
def drawsGraph (s : Settings) (c : FormatterClass) : Bool := s.graph.enabled && c.extension ≠ graphExtension

/-- nothing stands in the way of a clean end. A failure to read is one that callers are told of. Otherwise the output
directory can be named; once it is made and the file of the document can be opened, the document has bytes; and if the
file of the graph cannot be opened, the file of the document was not there before or held the same -/
def Unhindered (s : Settings) (c : FormatterClass) (file : Path) (files : FileTree) : Prop :=
  match documented s files file with
  | .error e => e.isDeclared = true
  | .ok doc => s.output.isNameable = true ∧
      ∀ made t, files.makeDirectory s.output = (made, none) → (c.formatGrammar s.options doc).1 = .ok t →
        made.Opens (target s doc.name c.extension) → ∃ content, Utf8.encode t = .ok content ∧
          (drawsGraph s c = true → ¬ made.Opens (target s doc.name graphExtension) →
            ∀ old, made.read (target s doc.name c.extension) = .ok old → old = content)

/-! ## Steps -/

section

variable {s : Settings} {c : FormatterClass} {file : Path} {files : FileTree}

theorem leaves_formatter (hc : Registry.builtin.lookup s.formatter = some c) :
    (formatter s).Leaves files (.ok ⟨c, s.options⟩) files := by
  rw [formatter, Registry.get_standard hc]
  exact Work.leaves_report _ _

theorem leaves_documentation : (documentation s file).Leaves files (documented s files file) files := by
  refine Work.leaves_get fun log => ?_
  unfold documented
  rcases Library.readGrammar files (file.parent :: s.searchPaths) file .empty with ⟨e | g, l⟩
  · exact (Work.leaves_report _ _).bind_error
  · exact (Work.leaves_report _ _).bind (Work.leaves_report _ _)

/-- a grammar that is read has documents with a text and a graph with bytes -/
theorem documents_of_documented {doc : GrammarDoc} (h : documented s files file = .ok doc) :
    Qualified doc.name ∧ doc.Printable ∧ ∀ o, (doc.graph o).Encodable := by
  unfold documented at h
  split at h
  · cases h
  · next g hread =>
    obtain ⟨source, hread⟩ : ∃ source, (Library.readWith (Library.use files (file.parent :: file.parent :: s.searchPaths)
        (Library.readGrammarWithin files (file.parent :: s.searchPaths) (files.entries.length + 255))) file source
          .empty).1 = .ok g := by
      rw [Library.readGrammar, Library.depthLimit, Library.readGrammarWithin] at hread
      split at hread
      · cases hread
      · exact ⟨_, hread⟩
    obtain ⟨w, used, n, hw, rfl⟩ := linked_of_readWith hread
    obtain ⟨doc', hdoc, hdocuments⟩ := documents_of_ofText hw n used
    rw [hdoc] at h
    cases h
    exact hdocuments

/-- the graph of a built-in formatter is that of the documents -/
theorem encodable_formatGraph (hc : Registry.builtin.lookup s.formatter = some c) {doc : GrammarDoc}
    (h : ∀ o, (doc.graph o).Encodable) (o : Options) : (c.formatGraph o doc).1.Encodable := by
  rcases builtin_of_lookup hc with rfl | rfl | rfl
  · exact h o
  · exact h o
  · exact h o

/-- no graph is written when none is asked for -/
theorem leaves_noGraph (h : ¬ drawsGraph s c = true) (doc : GrammarDoc) :
    (writeGraph s ⟨c, s.options⟩ doc).Leaves files (.ok none) files := by
  rw [drawsGraph] at h
  rw [writeGraph]
  dsimp only
  rw [if_neg h]
  exact Work.leaves_pure none

theorem leaves_graph (h : drawsGraph s c = true) {doc : GrammarDoc} {after : FileTree}
    (hnameable : (target s doc.name graphExtension).isNameable = true)
    (hwritten : files.writeText (target s doc.name graphExtension) (c.formatGraph s.options doc).1 = (after, none)) :
    (writeGraph s ⟨c, s.options⟩ doc).Leaves files (.ok (some (target s doc.name graphExtension))) after := by
  rw [drawsGraph] at h
  rw [writeGraph]
  dsimp only
  rw [if_pos h]
  exact (Work.leaves_report _ _).bind ((Work.leaves_write hnameable hwritten).bind (Work.leaves_pure _))

theorem leaves_graphRefused (h : drawsGraph s c = true) {doc : GrammarDoc} {after : FileTree} {fault : WriteFault}
    (hnameable : (target s doc.name graphExtension).isNameable = true)
    (hrefused : files.writeText (target s doc.name graphExtension) (c.formatGraph s.options doc).1 = (after, some fault)) :
    (writeGraph s ⟨c, s.options⟩ doc).Leaves files
      (.error (Work.failure (target s doc.name graphExtension) fault)) after := by
  rw [drawsGraph] at h
  rw [writeGraph]
  dsimp only
  rw [if_pos h]
  exact (Work.leaves_report _ _).bind (Work.leaves_unwritten hnameable hrefused).bind_error

/-- the work up to the output directory, which has been made -/
theorem leaves_generate (hc : Registry.builtin.lookup s.formatter = some c) {doc : GrammarDoc}
    (hdoc : documented s files file = .ok doc) (houtput : s.output.isNameable = true) {made after : FileTree}
    (hmade : files.makeDirectory s.output = (made, none)) {t : Text} {log : Log}
    (ht : c.formatGrammar s.options doc = (.ok t, log)) {r : Except GenerationError Generated}
    (h : Work.Leaves (do
      Work.write (target s doc.name c.extension) t
      let graph ← writeGraph s ⟨c, s.options⟩ doc
      Work.report (.ok ⟨doc.name, doc.entries.length, target s doc.name c.extension, graph⟩)
        [.documented doc.name doc.entries.length s.output]) made r after) :
    (generate s file).Leaves files r after := by
  refine (leaves_formatter hc).bind ((hdoc ▸ leaves_documentation).bind ?_)
  refine (Work.leaves_makeDirectory houtput hmade).bind ?_
  simp only [ht]
  exact (Work.leaves_report _ _).bind h

end

/-! ## The end -/

section

variable {s : Settings} {c : FormatterClass} {file : Path} {files made : FileTree} {doc : GrammarDoc} {t : Text}

/-- the graph goes to another place than the document -/
theorem graph_elsewhere (hc : Registry.builtin.lookup s.formatter = some c) (hname : Qualified doc.name)
    (hdraws : drawsGraph s c = true) {tree : FileTree} (htree : made.KeepsDirectories tree) {spot place : Spot}
    (hspot : made.locate (target s doc.name c.extension) = .ok spot)
    (hplace : tree.locate (target s doc.name graphExtension) = .ok place) : place ≠ spot := by
  rw [target_eq s hname (isExtension_builtin hc)] at hspot
  rw [target_eq s hname isExtension_graph] at hplace
  refine (FileTree.ne_of_locate htree (part_artifactName hname (isExtension_builtin hc)).ne_dots
    (part_artifactName hname isExtension_graph).ne_dots ?_ hspot hplace).symm
  simp only [drawsGraph, Bool.and_eq_true, decide_eq_true_eq] at hdraws
  exact fun heq => hdraws.2 (List.append_cancel_left heq)

/-- behind a document that is written, the graph comes to an end; it is clean unless the graph is refused and the
document has replaced another one -/
theorem ends_graph (hc : Registry.builtin.lookup s.formatter = some c) (hdoc : documented s files file = .ok doc)
    (houtput : s.output.isNameable = true) (hmade : files.makeDirectory s.output = (made, none)) {log : Log}
    (ht : c.formatGrammar s.options doc = (.ok t, log)) (hdraws : drawsGraph s c = true) {spot : Spot} {content : Bytes}
    (hlocate : made.locate (target s doc.name c.extension) = .ok spot) (hspot : made.entryAt spot ≠ some .directory)
    (hne : spot ≠ [])
    (hwritten : made.writeText (target s doc.name c.extension) t = (made.put spot (.file content), none)) :
    ∃ r after, (generate s file).Leaves files r after ∧ (Clean s c file files r after ↔
      (¬ made.Opens (target s doc.name graphExtension) →
        ∀ old, made.read (target s doc.name c.extension) = .ok old → old = content)) := by
  obtain ⟨hname, -, hgraph⟩ := documents_of_documented hdoc
  have hnameable := isNameable_target s hname (isExtension_builtin hc) houtput
  have hgraphNameable := isNameable_target s hname isExtension_graph houtput
  have hput := made.keepsDirectories_put hspot hne (.file content)
  have hopens := FileTree.opens_put_iff hspot hne content fun _ hplace =>
    graph_elsewhere hc hname hdraws ⟨rfl, fun _ h => h⟩ hlocate hplace
  rcases (made.put spot (.file content)).writeText_cases (target s doc.name graphExtension)
      (c.formatGraph s.options doc).1 with ⟨hclosed, fault, hrefused⟩ | ⟨-, _, fault, hfault, -, -⟩ |
    ⟨hopened, after, _, -, -, hgraphWritten⟩
  · -- the graph is refused, and the document is the only file that may have changed
    refine ⟨_, _, leaves_generate hc hdoc houtput hmade ht ((Work.leaves_write hnameable hwritten).bind
      (leaves_graphRefused hdraws hgraphNameable hrefused).bind_error), ?_⟩
    have hextends : files.Extends made := by
      have h := files.extends_makeDirectory s.output
      rwa [hmade] at h
    have hkeeps : files.KeepsFiles (made.put spot (.file content)) ↔
        ∀ old, made.read (target s doc.name c.extension) = .ok old → old = content := by
      rw [hextends.keepsFiles_iff, FileTree.keepsFiles_put_iff hspot hne]
      exact forall_congr' fun old => by rw [FileTree.read_iff hlocate]
    have hclosedBefore : ¬ made.Opens (target s doc.name graphExtension) := hopens.not.1 hclosed
    exact ⟨fun h _ => hkeeps.1 h.2, fun h => ⟨rfl, hkeeps.2 (h hclosedBefore)⟩⟩
  · -- a graph has bytes
    obtain ⟨bytes, hbytes⟩ := (Utf8.encode_iff _).2 (encodable_formatGraph hc hgraph s.options)
    rw [hfault] at hbytes
    cases hbytes
  · refine ⟨_, _, leaves_generate hc hdoc houtput hmade ht ((Work.leaves_write hnameable hwritten).bind
      ((leaves_graph hdraws hgraphNameable hgraphWritten).bind (Work.leaves_report _ _))), ?_⟩
    have hdocument : after.Holds (target s doc.name c.extension) t :=
      (FileTree.holds_of_writeText hwritten).writeText (FileTree.locate_of_directories hput hlocate) hgraphWritten
        fun _ hplace => graph_elsewhere hc hname hdraws hput hlocate hplace
    refine iff_of_true ⟨doc, t, hdoc, by rw [ht], hdocument, ?_⟩ fun hclosed => absurd (hopens.1 hopened) hclosed
    rintro p hp
    obtain rfl := Option.some.inj hp
    exact FileTree.holds_of_writeText hgraphWritten

/-- writing both documents comes to an end that is clean unless something stands in the way -/
theorem ends_written (hc : Registry.builtin.lookup s.formatter = some c)
    (hdoc : documented s files file = .ok doc) (houtput : s.output.isNameable = true)
    (hmade : files.makeDirectory s.output = (made, none)) {log : Log}
    (ht : c.formatGrammar s.options doc = (.ok t, log)) (hopens : made.Opens (target s doc.name c.extension)) :
    ∃ r after, (generate s file).Leaves files r after ∧ (Clean s c file files r after ↔
      ∃ content, Utf8.encode t = .ok content ∧
        (drawsGraph s c = true → ¬ made.Opens (target s doc.name graphExtension) →
          ∀ old, made.read (target s doc.name c.extension) = .ok old → old = content)) := by
  have hnameable := isNameable_target s (documents_of_documented hdoc).1 (isExtension_builtin hc) houtput
  rcases made.writeText_cases (target s doc.name c.extension) t with ⟨hclosed, -⟩ |
    ⟨-, opened, fault, hencode, hopened, hwritten⟩ | ⟨-, written, _, -, -, hwritten⟩
  · exact absurd hopens hclosed
  · -- the document has no bytes
    refine ⟨_, _, leaves_generate hc hdoc houtput hmade ht (Work.leaves_unwritten hnameable hwritten).bind_error, ?_⟩
    refine iff_of_false ?_ ?_
    · rintro ⟨hdeclared, -⟩
      cases hdeclared
    · rintro ⟨content, hcontent, -⟩
      rw [hencode] at hcontent
      cases hcontent
  · obtain ⟨spot, content, hlocate, hspot, hne, hencode, rfl⟩ := FileTree.put_of_writeText hwritten
    by_cases hdraws : drawsGraph s c = true
    · obtain ⟨r, after, hleaves, hclean⟩ := ends_graph hc hdoc houtput hmade ht hdraws hlocate hspot hne hwritten
      refine ⟨r, after, hleaves, hclean.trans ⟨fun h => ⟨content, hencode, fun _ => h⟩, ?_⟩⟩
      rintro ⟨content', hencode', h⟩
      obtain rfl := Except.ok.inj (hencode.symm.trans hencode')
      exact h hdraws
    · refine ⟨_, _, leaves_generate hc hdoc houtput hmade ht ((Work.leaves_write hnameable hwritten).bind
        ((leaves_noGraph hdraws doc).bind (Work.leaves_report _ _))), ?_⟩
      have hdocument := FileTree.holds_of_writeText hwritten
      exact iff_of_true ⟨doc, t, hdoc, by rw [ht], hdocument, nofun⟩ ⟨content, hencode, fun h => absurd h hdraws⟩

/-- the end of generating documents, and that it is clean unless something stands in the way -/
theorem ends_generate (file : Path) (files : FileTree) (hc : Registry.builtin.lookup s.formatter = some c) : ∃ r after,
    (generate s file).Leaves files r after ∧ (Clean s c file files r after ↔ Unhindered s c file files) := by
  unfold Unhindered
  cases hdoc : documented s files file with
  | error e =>
    refine ⟨_, _, (leaves_formatter hc).bind ((hdoc ▸ leaves_documentation).bind_error), ?_⟩
    exact and_iff_left (FileTree.Extends.refl files).keepsFiles
  | ok doc =>
    by_cases houtput : s.output.isNameable = true
    · rcases hmade : files.makeDirectory s.output with ⟨made, problem⟩
      have hextends : files.Extends made := by
        have h := files.extends_makeDirectory s.output
        rwa [hmade] at h
      cases problem with
      | some problem =>
        obtain ⟨fault, q⟩ := problem
        refine ⟨_, _, (leaves_formatter hc).bind ((hdoc ▸ leaves_documentation).bind
          (Work.leaves_noDirectory houtput hmade).bind_error), ?_⟩
        exact iff_of_true ⟨rfl, hextends.keepsFiles⟩ ⟨houtput, fun _ _ heq => by cases heq⟩
      | none =>
        obtain ⟨t, log, ht⟩ := GrammarDoc.exists_formatGrammar (documents_of_documented hdoc).2.1 hc s.options
        have hcondition : ∀ {P : FileTree → Text → Prop}, (∀ made' t', (made, (none : Option (SystemFault × Path))) =
            (made', none) → (c.formatGrammar s.options doc).1 = .ok t' → P made' t') ↔ P made t := by
          intro P
          constructor
          · exact fun h => h made t rfl (by rw [ht])
          · intro h made' t' heq ht'
            cases heq
            rw [ht] at ht'
            cases ht'
            exact h
        simp only [houtput, true_and, hcondition]
        by_cases hopens : made.Opens (target s doc.name c.extension)
        · obtain ⟨r, after, hleaves, hclean⟩ := ends_written hc hdoc houtput hmade ht hopens
          exact ⟨r, after, hleaves, hclean.trans ⟨fun h _ => h, fun h => h hopens⟩⟩
        · rcases made.writeText_cases (target s doc.name c.extension) t with ⟨-, fault, hrefused⟩ |
            ⟨hopened, -⟩ | ⟨hopened, -⟩
          · have hnameable := isNameable_target s (documents_of_documented hdoc).1 (isExtension_builtin hc) houtput
            refine ⟨_, _, leaves_generate hc hdoc houtput hmade ht
              (Work.leaves_unwritten hnameable hrefused).bind_error, ?_⟩
            exact iff_of_true ⟨rfl, hextends.keepsFiles⟩ fun h => absurd h hopens
          · exact absurd hopened hopens
          · exact absurd hopened hopens
    · refine ⟨_, _, (leaves_formatter hc).bind ((hdoc ▸ leaves_documentation).bind
        (Work.leaves_unnameable houtput).bind_error.bind_error), ?_⟩
      refine iff_of_false ?_ fun h => houtput h.1
      rintro ⟨hdeclared, -⟩
      cases hdeclared

/-- **When generating documents ends cleanly**: for all files, every grammar file, and all settings that name a built-in
formatter. The work either returns, and every file that it names holds the bytes of its text, or fails with a failure that
callers are told of and leaves every file as it was, if and only if nothing stands in the way (`Unhindered`). -/
theorem generate_clean_iff (hc : Registry.builtin.lookup s.formatter = some c) (file : Path) (d : Desk) :
    Clean s c file d.files ((generate s file).run.run d).1 ((generate s file).run.run d).2.files ↔
      Unhindered s c file d.files := by
  obtain ⟨r, after, hleaves, hclean⟩ := ends_generate file d.files hc
  obtain ⟨log, hrun⟩ := hleaves d.log
  rw [hrun]
  exact hclean

end

/-! ### Fixed files -/

/-- a grammar file called `a` in the working directory, and in the directory `out` an old document for a grammar `a` -/
def filesWith (source : Text) : FileTree :=
  ⟨[], [([Text.ofString "a"], .file (source.flatMap Utf8.encodePoint)), ([Text.ofString "out"], .directory),
    ([Text.ofString "out", Text.ofString "a.md"], .file [0x6F, 0x6C, 0x64])]⟩

/-- documents go to the directory `out` -/
def outSettings : Settings := { Settings.standard with output := "out" }

def documentsOf (w : WrittenGrammar) : GrammarDoc :=
  ⟨w.name, (GrammarDoc.docsFrom 0 (w.link 0 []).rules).map .doc, [], w.metamodels.map Metamodel.text,
    Comment.ofRaw? w.comment⟩

theorem documented_of_ofText {s : Settings} {files : FileTree} {file : Path} {source : Text} {w : WrittenGrammar}
    (hsource : Library.textOf files file = .ok source) (hw : WrittenGrammar.ofText file source = .ok w)
    (huses : w.uses = []) : documented s files file = .ok (documentsOf w) := by
  have hread : (Library.readGrammar files (file.parent :: s.searchPaths) file .empty).1 = .ok (w.link 0 []) := by
    rw [Library.readGrammar, Library.depthLimit, Library.readGrammarWithin, hsource]
    exact readWith_of_ofText _ _ hw huses
  rw [documented, hread]
  dsimp only
  rw [ofGrammar_link w 0 [] (qualified_of_ofText hw).1.ne_nil]
  rfl

/-- an old document is replaced, and both files hold their texts -/
theorem old_document_replaced : Registry.builtin.lookup outSettings.formatter = some .markdown ∧
    Clean outSettings .markdown "a" (filesWith "grammar a terminal T:b;")
      ((generate outSettings "a").run.run ⟨filesWith "grammar a terminal T:b;", []⟩).1
      ((generate outSettings "a").run.run ⟨filesWith "grammar a terminal T:b;", []⟩).2.files := by
  have hsource : Library.textOf (filesWith "grammar a terminal T:b;") "a" = .ok "grammar a terminal T:b;" := by
    cbv
  have hgraph : (filesWith "grammar a terminal T:b;").Opens (target outSettings "a" graphExtension) :=
    ⟨(filesWith "grammar a terminal T:b;").put [Text.ofString "out", Text.ofString "a.dot"] (.file []), by cbv⟩
  have hmade : (filesWith "grammar a terminal T:b;").makeDirectory outSettings.output =
      (filesWith "grammar a terminal T:b;", none) := by cbv
  refine ⟨rfl, (generate_clean_iff rfl "a" ⟨filesWith "grammar a terminal T:b;", []⟩).2 ?_⟩
  rw [Unhindered, documented_of_ofText hsource ofText_undeclaredCall rfl]
  refine ⟨by decide, fun made t hmade' ht _ => ?_⟩
  obtain ⟨rfl, -⟩ := Prod.mk.inj (hmade.symm.trans hmade')
  have hencodable : ((FormatterClass.markdown.formatGrammar outSettings.options (documentsOf undeclaredCall)).1.map
      fun t => decide t.Encodable) = .ok true := by decide +kernel
  rw [ht] at hencodable
  obtain ⟨content, hcontent⟩ := (Utf8.encode_iff t).2 (of_decide_eq_true (Except.ok.inj hencodable))
  exact ⟨content, hcontent, fun _ hclosed => absurd hgraph hclosed⟩

def surrogate : CodePoint := ⟨0xD800, by decide⟩

/-- a grammar whose one rule is a keyword with a surrogate -/
def surrogateText : Text := "grammar a A:'\\uD800';"

def surrogateTokens : List Token :=
  [⟨.name, "grammar", 1, 1, 7⟩, ⟨.name, "a", 1, 9, 1⟩, ⟨.name, "A", 1, 11, 1⟩, ⟨.symbol .colon, ":", 1, 12, 1⟩,
    ⟨.literal, [surrogate], 1, 13, 8⟩, ⟨.symbol .semicolon, ";", 1, 21, 1⟩]

def surrogateRule : WrittenRule := ⟨.parser false [], "A", none, none, some 1, some (.keyword .none [surrogate])⟩

theorem lexed_surrogate : Lexed.ofSource "a" surrogateText = .ok ⟨surrogateTokens, ⟨1, 22⟩⟩ := by
  have hcut : Piece.cut surrogateText = .ok [⟨"grammar", some (.name, "grammar")⟩, ⟨" ", none⟩, ⟨"a", some (.name, "a")⟩,
      ⟨" ", none⟩, ⟨"A", some (.name, "A")⟩, ⟨":", some (.symbol .colon, ":")⟩,
      ⟨"'\\uD800'", some (.literal, [surrogate])⟩, ⟨";", some (.symbol .semicolon, ";")⟩] := by
    refine Piece.cut_cons (n := 6) (by decide +kernel) (Piece.cut_cons (n := 0) (by decide +kernel)
      (Piece.cut_cons (n := 0) (by decide +kernel) (Piece.cut_cons (n := 0) (by decide +kernel)
        (Piece.cut_cons (n := 0) (by decide +kernel) (Piece.cut_cons (n := 0) (by decide +kernel)
          (Piece.cut_cons (n := 7) (by decide +kernel) (Piece.cut_cons (n := 0) (by decide +kernel) ?_)))))))
    exact Piece.cut.eq_1
  rw [Lexed.ofSource, hcut]
  decide +kernel

theorem ofText_surrogate : WrittenGrammar.ofText "a" surrogateText = .ok ⟨"a", none, [], [], [], [surrogateRule]⟩ := by
  have hkeyword : Spells .parser .alternatives [⟨⟨.literal, [surrogate], 1, 13, 8⟩, none⟩] [.keyword .none [surrogate]] :=
    alternatives_of_element (element_of_plain (plain_of_atom (.leaf (.keyword rfl))))
  have hdefinition : (definition .parser ((wordsOf surrogateTokens).drop 3)).Gives (.keyword .none [surrogate]) [] :=
    (gives_definition ..).2 ⟨_, _, _, rfl, rfl, hkeyword, rfl⟩
  have hrule : (Source.rule ((wordsOf surrogateTokens).drop 2)).Gives surrogateRule [] := by
    have hparser : (parserRule ((wordsOf surrogateTokens).drop 2)).Gives surrogateRule [] :=
      (gives_parserRule_iff (n := ⟨⟨.name, "A", 1, 11, 1⟩, none⟩) FragmentClause.absent rfl TypeClause.absent
        HiddenClause.absent rfl _ (fun _ h => absurd h (by decide)) surrogateRule []).2 ⟨_, hdefinition, rfl⟩
    rw [Source.rule, if_neg (by decide), if_neg (by decide)]
    exact hparser
  have hwords : WrittenGrammar.ofWords (wordsOf surrogateTokens) = .ok ⟨"a", none, [], [], [], [surrogateRule]⟩ :=
    ofWords_of_rule (x := ⟨⟨.name, "grammar", 1, 1, 7⟩, none⟩) (n := ⟨⟨.name, "a", 1, 9, 1⟩, none⟩) ⟨rfl, rfl⟩ rfl rfl
      (by decide) hrule
  exact WrittenGrammar.ofText_eq_ok_iff.2 ⟨_, lexed_surrogate, hwords⟩

/-- the document is emptied when its text has no bytes, and the failure is none that callers are told of -/
theorem surrogate_empties_document : Registry.builtin.lookup outSettings.formatter = some .markdown ∧
    (filesWith surrogateText).read "out/a.md" = .ok [0x6F, 0x6C, 0x64] ∧ ∃ fault d,
      (generate outSettings "a").run.run ⟨filesWith surrogateText, []⟩ = (.error (.unencodable fault), d) ∧
      d.files.read "out/a.md" = .ok [] ∧
      ¬ Clean outSettings .markdown "a" (filesWith surrogateText) (.error (.unencodable fault)) d.files := by
  have hc : Registry.builtin.lookup outSettings.formatter = some .markdown := rfl
  have hsource : Library.textOf (filesWith surrogateText) "a" = .ok surrogateText := by cbv
  have hdoc := documented_of_ofText (s := outSettings) hsource ofText_surrogate rfl
  have hmade : (filesWith surrogateText).makeDirectory outSettings.output = (filesWith surrogateText, none) := by
    cbv
  have hwrite : (filesWith surrogateText).write (target outSettings "a" "md") [] = .ok
      ((filesWith surrogateText).put [Text.ofString "out", Text.ofString "a.md"] (.file [])) := by cbv
  obtain ⟨t, log, ht⟩ := GrammarDoc.exists_formatGrammar (documents_of_documented hdoc).2.1 hc outSettings.options
  have hsurrogate : ((FormatterClass.markdown.formatGrammar outSettings.options
      (documentsOf ⟨"a", none, [], [], [], [surrogateRule]⟩)).1.map fun t => decide t.Encodable) = .ok false := by
    decide +kernel
  have hbytes : ¬ ∃ content, Utf8.encode t = .ok content := by
    rw [Utf8.encode_iff]
    rw [congrArg Prod.fst ht] at hsurrogate
    exact of_decide_eq_false (Except.ok.inj hsurrogate)
  rcases (filesWith surrogateText).writeText_cases (target outSettings "a" "md") t with ⟨hclosed, -⟩ |
    ⟨-, opened, fault, hencode, hopened, hwritten⟩ | ⟨-, _, content, hencode, -⟩
  · exact absurd ⟨_, hwrite⟩ hclosed
  · obtain rfl := Except.ok.inj (hwrite.symm.trans hopened)
    obtain ⟨log', hrun⟩ := leaves_generate hc hdoc (by decide) hmade ht
      (Work.leaves_unwritten (by cbv) hwritten).bind_error []
    have hempty : ((filesWith surrogateText).put [Text.ofString "out", Text.ofString "a.md"] (.file [])).read "out/a.md" =
        .ok [] := by cbv
    refine ⟨hc, by cbv, fault, _, hrun, hempty, ?_⟩
    rintro ⟨hdeclared, -⟩
    cases hdeclared
  · exact absurd ⟨content, hencode⟩ hbytes

end Generation

end Rulebook
