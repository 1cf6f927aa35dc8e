/-
What is written for several grammars. Texts that are written one after the other (`Writes`) to different places (`Apart`)
all stand in their files at the end, and nothing else has changed (`Writes.published`); then the order in which they were
written cannot be told (`Published.entryAt_eq`). Whatever the places are, texts that are no grammars and go to places for
documents lie over the tree (`Writes.overlaid`).

`generate_ok` says what a success of generating documents has written. The files for grammars are named after their
simple names, in which no dot stands, so different simple names make different places (`Pages.apart`).
-/
import Mathlib.Data.List.Perm.Basic
import Rulebook.CommandLine.Run
import Rulebook.Proofs.Overlays

namespace Rulebook

open Source

/-! ## Texts written one after the other -/

namespace FileTree

/-- texts are written to files, one after the other -/
inductive Writes : FileTree → List (Path × Text) → FileTree → Prop where
  | nothing (t : FileTree) : Writes t [] t
  | next {t mid t' : FileTree} {p : Path} {text : Text} {more : List (Path × Text)} :
    t.writeText p text = (mid, none) → Writes mid more t' → Writes t ((p, text) :: more) t'

/-- the files lie at different places -/
def Apart (t : FileTree) (ws : List (Path × Text)) : Prop :=
  ws.Pairwise fun v w => ∀ place, t.locate v.1 = .ok place → t.locate w.1 ≠ .ok place

/-- the second tree is the first one with these texts in their files -/
structure Published (t : FileTree) (ws : List (Path × Text)) (t' : FileTree) : Prop where
  directories : t.KeepsDirectories t'
  there : ∀ w ∈ ws, ∃ place content, t.locate w.1 = .ok place ∧ Utf8.encode w.2 = .ok content ∧
    t'.entryAt place = some (.file content)
  elsewhere : ∀ place, (∀ w ∈ ws, t.locate w.1 ≠ .ok place) → t'.entryAt place = t.entryAt place

/-- a text that is written is no grammar and goes to a place for documents -/
structure IsDocument (w : Path × Text) : Prop where
  spot : ∀ (t : FileTree) (place : Spot), t.locate w.1 = .ok place → DocumentSpot place
  markup : w.2.Markup

variable {t t' t'' : FileTree} {ws ws' : List (Path × Text)}

theorem Writes.append (h : Writes t ws t') (h' : Writes t' ws' t'') : Writes t (ws ++ ws') t'' := by
  induction h with
  | nothing _ => exact h'
  | next hwritten _ ih => exact .next hwritten (ih h')

/-- documents that are written lie over the tree -/
theorem Writes.overlaid {base : FileTree} (hbase : Overlaid base t) (h : Writes t ws t')
    (hws : ∀ w ∈ ws, IsDocument w) : Overlaid base t' := by
  induction h with
  | nothing _ => exact hbase
  | next hwritten _ ih =>
    obtain ⟨hw, hmore⟩ := List.forall_mem_cons.1 hws
    obtain ⟨place, content, hplace, hfree, hne, hencode, rfl⟩ := put_of_writeText hwritten
    exact ih (hbase.put hfree hne (hw.spot _ place hplace) (hw.markup.no_grammar hencode)) hmore

/-- texts that are written to different places all stand in their files -/
theorem Writes.published (h : Writes t ws t') (hapart : t.Apart ws) : t.Published ws t' := by
  induction h with
  | nothing t => exact ⟨⟨rfl, fun _ h => h⟩, List.forall_mem_nil _, fun _ _ => rfl⟩
  | @next t mid t' p text more hwritten _ ih =>
    obtain ⟨hfirst, hmore⟩ := List.pairwise_cons.1 hapart
    obtain ⟨spot, content, hspot, hfree, hne, hencode, rfl⟩ := put_of_writeText hwritten
    have hforth := t.keepsDirectories_put hfree hne (.file content)
    have hlocate : ∀ {p place}, (t.put spot (.file content)).locate p = .ok place ↔ t.locate p = .ok place :=
      ⟨locate_of_directories (t.keepsDirectories_of_put hne content), locate_of_directories hforth⟩
    have hrest := ih (hmore.imp fun hvw place hv hw => hvw place (hlocate.1 hv) (hlocate.1 hw))
    have hthere : t'.entryAt spot = some (.file content) := by
      rw [hrest.elsewhere spot fun w hw hlocated => hfirst w hw spot hspot (hlocate.1 hlocated), entryAt_put t hne,
        if_pos rfl]
    refine ⟨⟨hrest.directories.working, fun place hplace =>
      hrest.directories.directories place (hforth.directories place hplace)⟩, ?_, fun place hplace => ?_⟩
    · refine List.forall_mem_cons.2 ⟨⟨spot, content, hspot, hencode, hthere⟩, fun w hw => ?_⟩
      obtain ⟨place, content', hplace, hcontent⟩ := hrest.there w hw
      exact ⟨place, content', hlocate.1 hplace, hcontent⟩
    · obtain ⟨hother, hothers⟩ := List.forall_mem_cons.1 hplace
      rw [hrest.elsewhere place fun w hw hlocated => hothers w hw (hlocate.1 hlocated), entryAt_put t hne, if_neg]
      rintro rfl
      exact hother hspot

theorem Published.holds (h : t.Published ws t') {p : Path} {text : Text} (hw : (p, text) ∈ ws) : t'.Holds p text := by
  obtain ⟨place, content, hplace, hencode, hentry⟩ := h.there _ hw
  exact ⟨content, hencode, (read_iff (locate_of_directories h.directories hplace) content).2 hentry⟩

/-- what stands where does not depend on the order in which texts are written to different places -/
theorem Published.entryAt_eq (h : t.Published ws t') (h' : t.Published ws' t'') (hsame : ∀ w, w ∈ ws ↔ w ∈ ws')
    (place : Spot) : t''.entryAt place = t'.entryAt place := by
  by_cases hwritten : ∃ w ∈ ws, t.locate w.1 = .ok place
  · obtain ⟨w, hw, hlocate⟩ := hwritten
    obtain ⟨_, content, hplace, hencode, hentry⟩ := h.there w hw
    obtain ⟨_, content', hplace', hencode', hentry'⟩ := h'.there w ((hsame w).1 hw)
    cases hlocate.symm.trans hplace
    cases hlocate.symm.trans hplace'
    cases hencode.symm.trans hencode'
    rw [hentry, hentry']
  · have hother : ∀ w ∈ ws, t.locate w.1 ≠ .ok place := fun w hw hlocate => hwritten ⟨w, hw, hlocate⟩
    rw [h.elsewhere place hother, h'.elsewhere place fun w hw => hother w ((hsame w).2 hw)]

end FileTree

/-! ## What is written for one grammar -/

/-- steps in a row succeed one after the other -/
theorem ok_of_bind {ε σ α β : Type} {x : ExceptT ε (StateM σ) α} {next : α → ExceptT ε (StateM σ) β} {d d' : σ} {b : β}
    (h : (x >>= next).run.run d = (.ok b, d')) :
    ∃ a mid, x.run.run d = (.ok a, mid) ∧ (next a).run.run mid = (.ok b, d') := by
  rw [ExceptT.run_bind, StateT.run_bind] at h
  rcases hx : x.run.run d with ⟨e | a, mid⟩
  · rw [hx] at h
    cases h
  · rw [hx] at h
    exact ⟨a, mid, rfl, h⟩

/-- what work leaves at its files, a run of it leaves -/
theorem Work.Leaves.eq {α : Type} {w : Work α} {d d' : Desk} {r r' : Except GenerationError α} {after : FileTree}
    (h : w.Leaves d.files r after) (hrun : w.run.run d = (r', d')) : r' = r ∧ d'.files = after := by
  obtain ⟨log, hleaves⟩ := h d.log
  cases hrun.symm.trans hleaves
  exact ⟨rfl, rfl⟩

theorem Work.makeDirectory_ok {p : Path} {d d' : Desk} (h : (Work.makeDirectory p).run.run d = (.ok (), d')) :
    d.files.makeDirectory p = (d'.files, none) := by
  by_cases hp : p.isNameable = true
  · rcases hmade : d.files.makeDirectory p with ⟨made, _ | ⟨fault, q⟩⟩
    · rw [((leaves_makeDirectory hp hmade).eq h).2]
    · cases ((leaves_noDirectory hp hmade).eq h).1
  · cases ((leaves_unnameable hp).bind_error.eq h).1

theorem Work.write_ok {p : Path} {t : Text} {d d' : Desk} (h : (Work.write p t).run.run d = (.ok (), d')) :
    d.files.writeText p t = (d'.files, none) := by
  by_cases hp : p.isNameable = true
  · rcases hwritten : d.files.writeText p t with ⟨after, _ | fault⟩
    · rw [((leaves_write hp hwritten).eq h).2]
    · cases ((leaves_unwritten hp hwritten).eq h).1
  · cases ((leaves_unnameable hp).bind_error.eq h).1

namespace Generation

/-- the files for documents with this text, each with what it is to hold -/
def artifacts (s : Settings) (c : FormatterClass) (doc : GrammarDoc) (t : Text) : List (Path × Text) :=
  (target s doc.name c.extension, t) ::
    if drawsGraph s c then [(target s doc.name graphExtension, (c.formatGraph s.options doc).1)] else []

/-- what is told about documents that have been written -/
def generated (s : Settings) (c : FormatterClass) (doc : GrammarDoc) : Generated :=
  ⟨doc.name, doc.entries.length, target s doc.name c.extension,
    if drawsGraph s c then some (target s doc.name graphExtension) else none⟩

variable {s : Settings} {c : FormatterClass} {file : Path} {doc : GrammarDoc}

theorem writeGraph_ok {d d' : Desk} {graph : Option Path}
    (h : (writeGraph s ⟨c, s.options⟩ doc).run.run d = (.ok graph, d')) (t : Text) :
    graph = (generated s c doc).graph ∧ d.files.Writes (artifacts s c doc t).tail d'.files := by
  rw [writeGraph] at h
  by_cases hdraws : drawsGraph s c = true
  · have hgraph := hdraws
    rw [drawsGraph] at hdraws
    dsimp only at h
    rw [if_pos hdraws] at h
    obtain ⟨text, d₁, htext, h⟩ := ok_of_bind h
    obtain ⟨htext, hfiles⟩ := (Work.leaves_report _ _).eq htext
    cases htext
    obtain ⟨_, d₂, hwritten, h⟩ := ok_of_bind h
    have hwrite := Work.write_ok hwritten
    cases h
    rw [hfiles] at hwrite
    rw [generated, artifacts, if_pos hgraph, if_pos hgraph]
    exact ⟨rfl, .next hwrite (.nothing _)⟩
  · have hgraph := hdraws
    rw [drawsGraph] at hdraws
    dsimp only at h
    rw [if_neg hdraws] at h
    cases h
    rw [generated, artifacts, if_neg hgraph, if_neg hgraph]
    exact ⟨rfl, .nothing _⟩

/-- documents that are generated are those of the grammar file, and are written when the output directory is there -/
theorem generate_ok (hc : Registry.builtin.lookup s.formatter = some c) {d d' : Desk} {g : Generated}
    (h : (generate s file).run.run d = (.ok g, d')) : ∃ doc t made, documented s d.files file = .ok doc ∧
      (c.formatGrammar s.options doc).1 = .ok t ∧ d.files.makeDirectory s.output = (made, none) ∧
      g = generated s c doc ∧ made.Writes (artifacts s c doc t) d'.files := by
  rw [generate] at h
  obtain ⟨f, d₁, hf, h⟩ := ok_of_bind h
  obtain ⟨hf, hfiles₁⟩ := (leaves_formatter hc).eq hf
  cases hf
  obtain ⟨doc, d₂, hdoc, h⟩ := ok_of_bind h
  obtain ⟨hdoc, hfiles₂⟩ := leaves_documentation.eq hdoc
  obtain ⟨_, d₃, hmade, h⟩ := ok_of_bind h
  have hmade := Work.makeDirectory_ok hmade
  obtain ⟨t, d₄, ht, h⟩ := ok_of_bind h
  obtain ⟨ht, hfiles₄⟩ := (Work.leaves_report _ _).eq ht
  obtain ⟨_, d₅, hwritten, h⟩ := ok_of_bind h
  have hwritten := Work.write_ok hwritten
  obtain ⟨graph, d₆, hgraph, h⟩ := ok_of_bind h
  obtain ⟨rfl, hwrites⟩ := writeGraph_ok hgraph t
  obtain ⟨hg, hfiles₆⟩ := (Work.leaves_report _ _).eq h
  cases hg
  rw [hfiles₂, hfiles₁] at hmade
  rw [hfiles₁] at hdoc
  rw [hfiles₄] at hwritten
  refine ⟨doc, t, d₃.files, hdoc.symm, ?_, hmade, rfl, ?_⟩
  · cases hpage : (c.formatGrammar s.options doc).1 with
    | error e => simp [hpage, Except.mapError] at ht
    | ok page =>
      rw [hpage] at ht
      exact congrArg Except.ok (Except.ok.inj ht).symm
  · rw [hfiles₆]
    exact .next hwritten hwrites

/-! ## The files of several grammars -/

/-- the files for some documents, each with what it is to hold -/
inductive Pages (s : Settings) (c : FormatterClass) : List GrammarDoc → List (Path × Text) → Prop where
  | nothing : Pages s c [] []
  | next {doc : GrammarDoc} {t : Text} {docs : List GrammarDoc} {ws : List (Path × Text)} :
    (c.formatGrammar s.options doc).1 = .ok t → Pages s c docs ws → Pages s c (doc :: docs) (artifacts s c doc t ++ ws)

variable {docs : List GrammarDoc} {ws : List (Path × Text)}

theorem Pages.mem_iff (h : Pages s c docs ws) (w : Path × Text) :
    w ∈ ws ↔ ∃ doc ∈ docs, ∃ t, (c.formatGrammar s.options doc).1 = .ok t ∧ w ∈ artifacts s c doc t := by
  induction h with
  | nothing => simp
  | @next doc t docs ws ht _ ih =>
    have hfirst : (∃ t, (c.formatGrammar s.options doc).1 = .ok t ∧ w ∈ artifacts s c doc t) ↔ w ∈ artifacts s c doc t :=
      ⟨fun ⟨t', ht', hw⟩ => Except.ok.inj (ht.symm.trans ht') ▸ hw, fun hw => ⟨t, ht, hw⟩⟩
    rw [List.mem_append, ih, List.exists_mem_cons_iff, hfirst]

theorem Pages.exists_text (h : Pages s c docs ws) (hdoc : doc ∈ docs) : ∃ t, (c.formatGrammar s.options doc).1 = .ok t := by
  induction h with
  | nothing => cases hdoc
  | @next _ t _ _ ht _ ih =>
    rcases List.mem_cons.1 hdoc with rfl | hdoc
    · exact ⟨t, ht⟩
    · exact ih hdoc

/-- a file for documents is named after the grammar -/
theorem target_of_mem_artifacts (hc : Registry.builtin.lookup s.formatter = some c) {t : Text} {w : Path × Text}
    (hw : w ∈ artifacts s c doc t) : ∃ extension, IsExtension extension ∧
      extension ∈ ["md", "txt", "dot"].map Text.ofString ∧ w.1 = target s doc.name extension := by
  rcases List.mem_cons.1 hw with rfl | hw
  · refine ⟨c.extension, isExtension_builtin hc, ?_, rfl⟩
    rcases builtin_of_lookup hc with rfl | rfl | rfl <;> decide
  · split at hw
    · obtain rfl := List.mem_singleton.1 hw
      exact ⟨graphExtension, isExtension_graph, by decide, rfl⟩
    · cases hw

theorem isDocument_artifacts (hc : Registry.builtin.lookup s.formatter = some c) (hname : Qualified doc.name) {t : Text}
    (ht : (c.formatGrammar s.options doc).1 = .ok t) : ∀ w ∈ artifacts s c doc t, FileTree.IsDocument w := by
  intro w hw
  refine ⟨fun tree place hplace => ?_, ?_⟩
  · obtain ⟨extension, hextension, hknown, htarget⟩ := target_of_mem_artifacts hc hw
    rw [htarget, target_eq s hname hextension] at hplace
    obtain ⟨above, -, rfl⟩ := FileTree.above_of_locate (part_artifactName hname hextension).ne_dots hplace
    exact ⟨above, _, extension, hknown, rfl⟩
  · rcases List.mem_cons.1 hw with rfl | hw
    · exact markup_formatGrammar hc ht
    · split at hw
      · obtain rfl := List.mem_singleton.1 hw
        exact markup_formatGraph hc s.options doc
      · cases hw

/-- files of different names lie at different places -/
theorem locate_target_ne {t : FileTree} {n n' e e' : Text} (hn : Qualified n) (hn' : Qualified n') (he : IsExtension e)
    (he' : IsExtension e') (hne : artifactName n e ≠ artifactName n' e') (place : Spot)
    (hplace : t.locate (target s n e) = .ok place) : t.locate (target s n' e') ≠ .ok place := by
  intro hplace'
  rw [target_eq s hn he] at hplace
  rw [target_eq s hn' he'] at hplace'
  exact FileTree.ne_of_locate ⟨rfl, fun _ h => h⟩ (part_artifactName hn he).ne_dots (part_artifactName hn' he').ne_dots hne
    hplace hplace' rfl

/-- a simple name has no dot, so it can be told from the name of a file -/
theorem simpleName_of_artifactName {n n' e e' : Text} (hn : Qualified n) (hn' : Qualified n')
    (h : artifactName n e = artifactName n' e') : Grammar.simpleName n = Grammar.simpleName n' := by
  have hfront : ∀ {n : Text} (e : Text), Qualified n →
      (artifactName n e).takeWhile (fun c => decide (c ≠ CodePoint.ofChar '.')) = Grammar.simpleName n := by
    intro n e hn
    rw [artifactName, List.append_assoc]
    refine takeWhile_append_of_ends (fun c hc => ?_) (by rintro c ⟨⟩; decide)
    rw [decide_eq_true_eq]
    rintro rfl
    exact not_mem_of_isIdentifier hn.simpleName (by decide) hc
  rw [← hfront e hn, h, hfront e' hn']

/-- the files for grammars with different simple names lie at different places -/
theorem Pages.apart (hc : Registry.builtin.lookup s.formatter = some c) (h : Pages s c docs ws)
    (hnames : ∀ doc ∈ docs, Qualified doc.name) (hdistinct : (docs.map fun doc => Grammar.simpleName doc.name).Nodup)
    (t : FileTree) : t.Apart ws := by
  induction h with
  | nothing => exact .nil
  | @next doc page docs ws hpage hpages ih =>
    obtain ⟨hname, hmore⟩ := List.forall_mem_cons.1 hnames
    obtain ⟨hfirst, hrest⟩ := List.nodup_cons.1 hdistinct
    refine List.pairwise_append.2 ⟨?_, ih hmore hrest, fun v hv w hw => ?_⟩
    · rw [artifacts]
      refine List.pairwise_cons.2 ⟨fun w hw => ?_, ?_⟩
      · -- the graph of the same grammar
        split at hw
        · next hdraws =>
          obtain rfl := List.mem_singleton.1 hw
          refine locate_target_ne hname hname (isExtension_builtin hc) isExtension_graph fun heq => ?_
          simp only [drawsGraph, Bool.and_eq_true, decide_eq_true_eq] at hdraws
          exact hdraws.2 (List.append_cancel_left heq)
        · cases hw
      · split
        · exact List.pairwise_singleton _ _
        · exact .nil
    · obtain ⟨e, he, -, hv⟩ := target_of_mem_artifacts hc hv
      obtain ⟨doc', hdoc', t', -, hw⟩ := (hpages.mem_iff w).1 hw
      obtain ⟨e', he', -, hw⟩ := target_of_mem_artifacts hc hw
      rw [hv, hw]
      refine locate_target_ne hname (hmore doc' hdoc') he he' fun heq => hfirst ?_
      exact List.mem_map.2 ⟨doc', hdoc', (simpleName_of_artifactName hname (hmore doc' hdoc') heq).symm⟩

end Generation

end Rulebook
