/-
Reading with a history. A reader keeps what it has read, so a grammar can be found on the shelf where a fresh reader has
to look for its file. In a directory of grammar files (`GrammarDirectory`) this shows in nothing but the sharing. Each
answer of a session denotes what its file states, and all that it uses stands on the shelf in the end
(`answered_answers`); so does the answer of a fresh reader, and two grammars that denote one name are the same up to
numbers.

- `readings_as_fresh`: in every session, used grammars of one name are one grammar, and a file is read as a fresh reader
  reads it, up to numbers, unless the fresh reader is refused the search for a used name;
- `shelf_hides_refusal`: a name that is too long for a path is refused to a fresh reader and found on the shelf by
  another.
-/
import Rulebook.Proofs.Shelves

namespace Rulebook.Library

open Source

section

variable {files : FileTree} {directory : Path} {spot : Spot} {shelf shelf' : List (Text × Grammar)}

/-! ## Files of the directory -/

theorem GrammarFile.isNameable_parent {p : Path} (h : GrammarFile files spot p) : p.parent.isNameable = true := by
  obtain ⟨hnameable, -⟩ := entry_of_findsFile h.found
  rw [Path.isNameable, List.all_eq_true] at hnameable ⊢
  exact fun part hpart => hnameable part (List.dropLast_subset _ hpart)

/-- a grammar file states a grammar of the directory -/
theorem GrammarFile.states {p : Path} (hd : GrammarDirectory files directory spot) (h : GrammarFile files spot p) :
    ∃ w, States files p w ∧ Stated files spot w := by
  obtain ⟨stem, hcalled⟩ := h.called
  obtain ⟨w, hstates, hstated, -⟩ := hd.states_of_findsFile h.parent hcalled h.found
  exact ⟨w, hstates, hstated⟩

/-- the file that is found for a used name lies in the same directory and states a grammar of this name -/
theorem GrammarFile.found_of_findFile? (hd : GrammarDirectory files directory spot) {p : Path}
    (hp : GrammarFile files spot p) {user : WrittenGrammar} (huser : Stated files spot user) {name : Text}
    (hname : name ∈ user.uses) {file : Path} (hfind : findFile? files [p.parent, directory] name = .ok (some file)) :
    file.parent = p.parent ∧ files.findsFile file = .ok true ∧
      ∃ w, States files file w ∧ Stated files spot w ∧ w.name = name := by
  rcases hd.findFile?_cases hp.parent hp.isNameable_parent (huser.qualified.2 name hname) with
    ⟨_, hrefused⟩ | ⟨hsome, hfound⟩ | ⟨hnone, -⟩
  · cases hfind.symm.trans hrefused
  · obtain rfl := Option.some.inj (Except.ok.inj (hfind.symm.trans hsome))
    obtain ⟨w, hstates, hstated, hsimple⟩ := hd.states_of_findsFile (by rw [parent_fileIn]; exact hp.parent)
      (fileName_fileIn p.parent name) hfound
    exact ⟨parent_fileIn _ _, hfound, w, hstates, hstated, (hd.named user w huser hstated name hname hsimple.symm).symm⟩
  · cases hfind.symm.trans hnone

/-- the files that are open while a grammar file is read are grammar files, found in the same directory -/
theorem OpenFiles.inDirectory (hd : GrammarDirectory files directory spot) {p : Path} (hp : GrammarFile files spot p)
    {l : Library} {stack : List OpenFile} (h : OpenFiles files [directory] p l stack) :
    ∀ o ∈ stack, o.file.parent = p.parent ∧ ∃ w, States files o.file w ∧ Stated files spot w := by
  induction h with
  | start _ => exact List.forall_mem_singleton.2 ⟨rfl, hp.states hd⟩
  | @inside outer inner stack name _ hseeks hopens ih =>
    refine List.forall_mem_cons.2 ⟨?_, ih⟩
    obtain ⟨hparent, w, hstates, hstated⟩ := ih outer List.mem_cons_self
    obtain ⟨w', before, after, _, _, hstates', huses, -⟩ := hseeks
    obtain rfl := hstates.unique hstates'
    have hfind := hopens.found
    rw [hparent] at hfind
    obtain ⟨hparent', -, v, hv, hvstated, -⟩ := hp.found_of_findFile? hd hstated (by simp [huses]) hfind
    exact ⟨hparent', v, hv, hvstated⟩

/-- the reading of a grammar file is not refused for its depth -/
theorem GrammarFile.not_tooDeep (hd : GrammarDirectory files directory spot) {p : Path} (hp : GrammarFile files spot p)
    {l : Library} (hl : l.Idle) : ¬ (readGrammar files [directory] p l).TooDeep := by
  have hnames : NamesOpenFiles files [directory] p l := by
    intro outer stack hopen name l' found hseeks _ _ hfind hsame
    have hin := hopen.inDirectory hd hp
    obtain ⟨hparent, w, hstates, hstated⟩ := hin outer List.mem_cons_self
    obtain ⟨w', before, after, _, _, hstates', huses, -⟩ := hseeks
    obtain rfl := hstates.unique hstates'
    rw [hparent] at hfind
    obtain ⟨-, hfound, v, hv, -, hname⟩ := hp.found_of_findFile? hd hstated (by simp [huses]) hfind
    obtain ⟨o, ho, hplace⟩ := hsame
    obtain ⟨-, u, hu, -⟩ := hin o ho
    obtain rfl := (hu.of_locate hfound hplace).unique hv
    exact ⟨o, ho, u, hu, hname⟩
  have honce := (opensOnce_iff hl.opened_eq).2 hnames
  exact (ends_of_opensNoMore (opensNoMore_of_opensOnce honce)).1

/-! ## Sessions -/

/-- the answer to reading a file: a grammar that denotes what the file states and all of whose used grammars are shelved,
or the refusal of a search -/
inductive Answered (files : FileTree) (directory : Path) (spot : Spot) (shelf : List (Text × Grammar)) (p : Path) :
    Except ReadError Grammar → Prop where
  | read {w : WrittenGrammar} {g : Grammar} : States files p w → Denotes files spot w.name g → Shared shelf g →
    Answered files directory spot shelf p (.ok g)
  | refused {w : WrittenGrammar} {e : ReadError} : States files p w → Refused files directory p.parent spot w.uses e →
    Answered files directory spot shelf p (.error e)

theorem Answered.mono (h : shelf <+: shelf') {p : Path} {a : Except ReadError Grammar}
    (ha : Answered files directory spot shelf p a) : Answered files directory spot shelf' p a := by
  cases ha with
  | read hstates hdenotes hshared => exact .read hstates hdenotes (hshared.mono h)
  | refused hstates hrefused => exact .refused hstates hrefused

/-- a grammar that is given denotes what the file states -/
theorem Answered.denotes {p : Path} {g : Grammar} (h : Answered files directory spot shelf p (.ok g)) {w : WrittenGrammar}
    (hstates : States files p w) : Denotes files spot w.name g := by
  cases h with
  | read hstates' hdenotes _ =>
    rw [hstates.unique hstates']
    exact hdenotes

/-- one reading of a grammar file leaves a faithful shelf -/
theorem GrammarFile.reads (hd : GrammarDirectory files directory spot) {p : Path} (hp : GrammarFile files spot p)
    {l : Library} (hl : l.Idle) (hfaithful : Faithful files spot l.shelf) :
    ∃ w, States files p w ∧ Reads files directory p.parent spot w l (readGrammar files [directory] p l) := by
  obtain ⟨w, hstates, hstated⟩ := hp.states hd
  refine ⟨w, hstates, reads_readGrammarWithin hd hp.parent hp.isNameable_parent _ rfl hstates hstated ⟨hfaithful, ?_⟩⟩
  rw [hl.opened_eq]
  exact nofun

theorem GrammarFile.answered (hd : GrammarDirectory files directory spot) {p : Path} (hp : GrammarFile files spot p)
    {l : Library} (hl : l.Idle) (hfaithful : Faithful files spot l.shelf) :
    Faithful files spot (readGrammar files [directory] p l).2.shelf ∧
      l.shelf <+: (readGrammar files [directory] p l).2.shelf ∧
      Answered files directory spot (readGrammar files [directory] p l).2.shelf p (readGrammar files [directory] p l).1 := by
  obtain ⟨w, hstates, hreads⟩ := hp.reads hd hl hfaithful
  have hdeep := hp.not_tooDeep hd hl
  generalize readGrammar files [directory] p l = o at hreads hdeep
  cases hreads with
  | tooDeep h => exact absurd h hdeep
  | linked hgrown hdenotes hshared _ => exact ⟨hgrown.faithful, hgrown.kept, .read hstates hdenotes hshared⟩
  | refused hgrown hrefused => exact ⟨hgrown.faithful, hgrown.kept, .refused hstates hrefused⟩

/-- every reading of a session is answered as its file says, and the shelf stays faithful -/
theorem answered_answers (hd : GrammarDirectory files directory spot) (paths : List Path)
    (hpaths : ∀ p ∈ paths, GrammarFile files spot p) {l : Library} (hl : l.Idle)
    (hfaithful : Faithful files spot l.shelf) :
    l.shelf <+: (answers files [directory] (paths.map .file) l).2.shelf ∧
      List.Forall₂ (Answered files directory spot (answers files [directory] (paths.map .file) l).2.shelf) paths
        (answers files [directory] (paths.map .file) l).1 := by
  induction paths generalizing l with
  | nil => exact ⟨List.prefix_refl _, .nil⟩
  | cons p paths ih =>
    obtain ⟨hfaithful', hkept, hanswered⟩ := (hpaths p List.mem_cons_self).answered hd hl hfaithful
    obtain ⟨hkept', hrest⟩ := ih (fun q hq => hpaths q (List.mem_cons_of_mem _ hq)) (hl.readGrammar files [directory] p)
      hfaithful'
    exact ⟨hkept.trans hkept', .cons (hanswered.mono hkept') hrest⟩

/-! ## A session and a fresh reader -/

/-- where a fresh reader reads a file, all that the file uses, directly or through others, could be looked for -/
theorem GrammarFile.searchable_of_fresh (hd : GrammarDirectory files directory spot) {p : Path}
    (hp : GrammarFile files spot p) {w : WrittenGrammar} (hstates : States files p w) {g : Grammar}
    (hfresh : (readGrammar files [directory] p .empty).1 = .ok g) {n : Text}
    (hn : Relation.TransGen (NameUses files spot) w.name n) : n = builtinName ∨ Searchable files directory p.parent n := by
  obtain ⟨w', hstates', hreads⟩ := hp.reads hd .start .empty
  obtain rfl := hstates.unique hstates'
  generalize readGrammar files [directory] p .empty = o at hreads hfresh
  cases hreads with
  | tooDeep hdeep => cases hdeep.symm.trans hfresh
  | refused _ _ => cases hfresh
  | linked hgrown hdenotes hshared _ =>
    -- all that is used stands on the shelf now, and nothing stood there before
    obtain ⟨k, u, hreach, hu, rfl⟩ := hdenotes.exists_reaches hd hn
    have hshelved := hgrown.introduced u.name (Option.isSome_iff_exists.2 ⟨u, hshared k hreach u hu⟩)
    rcases hshelved with hbefore | hsame | ⟨_, _, _, hfound⟩
    · cases hbefore
    · exact absurd (hsame ▸ hn) (hd.acyclic _)
    · exact hfound

/-- a search that is refused on the way is the search for a used name, and refused for the length of a path -/
theorem GrammarFile.tooLong_of_refused (hd : GrammarDirectory files directory spot) {p : Path}
    (hp : GrammarFile files spot p) {w : WrittenGrammar} (hstates : States files p w) {e : ReadError}
    (h : Refused files directory p.parent spot w.uses e) : ∃ name file, Relation.TransGen (NameUses files spot) w.name name ∧
      name ≠ builtinName ∧ findFile? files [p.parent, directory] name = .error (.unsearchable file .nameTooLong) ∧
        e = .unsearchable file .nameTooLong := by
  obtain ⟨first, hfirst, name, hname, hne, hfind⟩ := h
  obtain ⟨v, hv, hstated⟩ := hp.states hd
  obtain rfl := hstates.unique hv
  have hused : Relation.TransGen (NameUses files spot) w.name name := .head' ⟨w, hstated, rfl, hfirst⟩ hname
  obtain ⟨m, -, user, huser, -, hmem⟩ := Relation.TransGen.tail'_iff.1 hused
  rcases hd.findFile?_cases hp.parent hp.isNameable_parent (huser.qualified.2 name hmem) with
    ⟨file, hrefused⟩ | ⟨hsome, -⟩ | ⟨hnone, -⟩
  · exact ⟨name, file, hused, hne, hrefused, Except.error.inj (hfind.symm.trans hrefused)⟩
  · cases hfind.symm.trans hsome
  · cases hfind.symm.trans hnone

theorem reaches_cases {g k : Grammar} (h : g.Reaches k) : k = g ∨ ∃ m, g.Reaches m ∧ k ∈ m.used := by
  induction h with
  | self g => exact .inl rfl
  | @used g u k hu hreach ih =>
    rcases ih with rfl | ⟨m, hm, hk⟩
    · exact .inr ⟨g, .self g, hu⟩
    · exact .inr ⟨m, .used hu hm, hk⟩

/-- where the used grammars are shared, a name means one grammar among those that are reached -/
theorem Denotes.oneOfName (hd : GrammarDirectory files directory spot) {name : Text} {g : Grammar}
    (h : Denotes files spot name g) (hshared : Shared shelf g) : OneOfName g := by
  have hself : Denotes files spot g.name g := h.name_eq.symm ▸ h
  have htop : ∀ k, g.Reaches k → k.name = g.name → k = g := by
    intro k hk hname
    refine (hself.reaches hd hk).2.resolve_right fun hused => ?_
    exact hd.acyclic g.name (hname ▸ hused)
  intro k k' hk hk' hname
  rcases reaches_cases hk with rfl | ⟨m, hm, hkm⟩
  · exact (htop k' hk' hname.symm).symm
  · rcases reaches_cases hk' with rfl | ⟨m', hm', hkm'⟩
    · exact htop k hk hname
    · have hlookup := hshared m hm k hkm
      rw [hname, hshared m' hm' k' hkm'] at hlookup
      exact (Option.some.inj hlookup).symm

theorem Chronicle.oneOfNumber {made : List Grammar} {l : Library} (h : Chronicle made l) {g : Grammar} (hg : g ∈ made) :
    OneOfNumber g :=
  fun _ _ hk hk' hid => h.unique (h.reached hg hk).1 (h.reached hg hk').1 hid

end

/-- used grammars of one name that are reached from the answers are one grammar -/
def SharesUsed (given : List (Except ReadError Grammar)) : Prop :=
  ∀ g g', .ok g ∈ given → .ok g' ∈ given → ∀ k k', g.Reaches k → g'.Reaches k' →
    ∀ u ∈ k.used, ∀ u' ∈ k'.used, u.name = u'.name → u = u'

/-- the answer to the reading of a file is what a fresh reader gives, but for the numbers; or the fresh reader is refused
the search for a name that the file uses, directly or through others, for the length of a path, and a grammar that is
given nevertheless is what the file states, linked against what the used names mean -/
inductive AsFresh (files : FileTree) (directory : Path) (spot : Spot) (p : Path) (answer : Except ReadError Grammar) :
    Prop where
  | same {g : Grammar} (f : Nat → Nat) : (readGrammar files [directory] p .empty).1 = .ok g →
    Set.InjOn f {i | ∃ k, g.Reaches k ∧ k.id = i} → answer = .ok (g.renumbered f) → AsFresh files directory spot p answer
  | refused {w : WrittenGrammar} {name : Text} {file : Path} :
    (readGrammar files [directory] p .empty).1 = .error (.unsearchable file .nameTooLong) → States files p w →
    Relation.TransGen (NameUses files spot) w.name name →
    findFile? files [p.parent, directory] name = .error (.unsearchable file .nameTooLong) →
    (∀ g, answer = .ok g → Denotes files spot w.name g) → AsFresh files directory spot p answer

/-- an answer of a session beside that of a fresh reader -/
theorem Answered.asFresh {files : FileTree} {directory : Path} {spot : Spot} (hd : GrammarDirectory files directory spot)
    {p : Path} (hp : GrammarFile files spot p) {made : List Grammar} {l : Library} (hchronicle : Chronicle made l)
    {answer : Except ReadError Grammar} (hmade : ∀ g, answer = .ok g → g ∈ made)
    (h : Answered files directory spot l.shelf p answer) : AsFresh files directory spot p answer := by
  obtain ⟨-, -, hfresh⟩ := hp.answered hd .start .empty
  obtain ⟨-, made', -, hchronicle', hmade'⟩ :=
    carriesOn_readGrammarWithin files [directory] (depthLimit files) p .empty [] .start
  change Chronicle made' (readGrammar files [directory] p .empty).2 at hchronicle'
  change ∀ a, (readGrammar files [directory] p .empty).1 = .ok a → _ at hmade'
  generalize hanswer : (readGrammar files [directory] p .empty).1 = fresh at hfresh hmade'
  cases hfresh with
  | @read w g hstates hdenotes hshared =>
    cases h with
    | @read w' g' hstates' hdenotes' hshared' =>
      obtain rfl := hstates.unique hstates'
      have hnumber := hchronicle'.oneOfNumber (hmade' g rfl g (List.mem_singleton_self g))
      have hnumber' := hchronicle.oneOfNumber (hmade g' rfl)
      obtain ⟨f, hf, rfl⟩ := exists_renumbering hd hdenotes hdenotes' (hdenotes.oneOfName hd hshared)
        (hdenotes'.oneOfName hd hshared') hnumber hnumber'
      exact .same f hanswer hf rfl
    | @refused w' e hstates' hrefused =>
      -- what the session could not look for, the fresh reader has looked for
      obtain rfl := hstates.unique hstates'
      obtain ⟨name, file, hused, hne, hfind, -⟩ := hp.tooLong_of_refused hd hstates hrefused
      rcases hp.searchable_of_fresh hd hstates hanswer hused with hbuiltin | ⟨found, hfound⟩
      · exact absurd hbuiltin hne
      · cases hfind.symm.trans hfound
  | @refused w e hstates hrefused =>
    obtain ⟨name, file, hused, -, hfind, rfl⟩ := hp.tooLong_of_refused hd hstates hrefused
    exact .refused hanswer hstates hused hfind fun g hg => (hg ▸ h).denotes hstates

/-- answers whose used grammars all stand on one shelf share them -/
theorem sharesUsed_of_answered {files : FileTree} {directory : Path} {spot : Spot} {shelf : List (Text × Grammar)}
    {paths : List Path} {given : List (Except ReadError Grammar)}
    (h : List.Forall₂ (Answered files directory spot shelf) paths given) : SharesUsed given := by
  obtain ⟨hlength, hpairs⟩ := List.forall₂_iff_zip.1 h
  have hshared : ∀ g, .ok g ∈ given → Shared shelf g := by
    intro g hg
    obtain ⟨i, hi, heq⟩ := List.mem_iff_getElem.1 hg
    have hanswer := hpairs (mem_zip_getElem (hlength ▸ hi) hi)
    rw [heq] at hanswer
    cases hanswer with
    | read _ _ hshared => exact hshared
  intro g g' hg hg' k k' hk hk' u hu u' hu' hname
  have hlookup := hshared g hg k hk u hu
  rw [hname, hshared g' hg' k' hk' u' hu'] at hlookup
  exact (Option.some.inj hlookup).symm

/-- **Reading does not depend on what was read before**: in every session that reads grammar files of one directory, used
grammars of one name are shared, and every file is read as by a fresh reader, unless the fresh reader is refused the
search for a used name whose path is too long. -/
theorem readings_as_fresh {files : FileTree} {directory : Path} {spot : Spot}
    (hd : GrammarDirectory files directory spot) (paths : List Path) (hpaths : ∀ p ∈ paths, GrammarFile files spot p) :
    SharesUsed (answers files [directory] (paths.map .file) .empty).1 ∧
      List.Forall₂ (AsFresh files directory spot) paths (answers files [directory] (paths.map .file) .empty).1 := by
  obtain ⟨-, hanswered⟩ := answered_answers hd paths hpaths .start .empty
  obtain ⟨-, made, -, hchronicle, hmade⟩ := continues_answers files [directory] (paths.map .file) .start
  generalize answers files [directory] (paths.map .file) .empty = s at hanswered hchronicle hmade
  refine ⟨sharesUsed_of_answered hanswered, ?_⟩
  obtain ⟨hlength, hpairs⟩ := List.forall₂_iff_zip.1 hanswered
  refine List.forall₂_iff_zip.2 ⟨hlength, fun {p a} hpa => ?_⟩
  obtain ⟨hp, ha⟩ := List.of_mem_zip hpa
  apply (hpairs hpa).asFresh hd (hpaths p hp) hchronicle
  intro g hg
  exact hmade g (hg ▸ ha)

/-- two files, the first of which uses the second, and both a grammar without a file -/
def sharingFiles : FileTree := filesOf [bareFile "A" ["b.X", "Gone"], bareFile "b.X" ["Gone"]]

theorem grammarDirectory_sharingFiles : GrammarDirectory sharingFiles "." [] := by
  refine grammarDirectory_filesOf ?_ (by decide) (by decide)
    (fun name => if name = "A" then 2 else if name = "b.X" then 1 else 0) (by decide)
  simp only [List.forall_mem_cons]
  exact ⟨statedBy_bareFile "A.xtext" (by decide) (by cbv),
    statedBy_bareFile "X.xtext" (by decide) (by cbv), List.forall_mem_nil _⟩

/-- the used file is read before the file that uses it, and once more behind it -/
theorem shared_file_read_as_fresh : GrammarDirectory sharingFiles "." [] ∧
    (∀ p ∈ [Path.ofText "X.xtext", "A.xtext", "X.xtext"], GrammarFile sharingFiles [] p) ∧
    SharesUsed (answers sharingFiles ["."] ([Path.ofText "X.xtext", "A.xtext", "X.xtext"].map .file) .empty).1 ∧
      List.Forall₂ (AsFresh sharingFiles "." []) ["X.xtext", "A.xtext", "X.xtext"]
        (answers sharingFiles ["."] ([Path.ofText "X.xtext", "A.xtext", "X.xtext"].map .file) .empty).1 := by
  have hA : GrammarFile sharingFiles [] "A.xtext" := ⟨rfl, ⟨"A", by decide⟩, by cbv⟩
  have hX : GrammarFile sharingFiles [] "X.xtext" := ⟨rfl, ⟨"X", by decide⟩, by cbv⟩
  have hpaths : ∀ p ∈ [Path.ofText "X.xtext", "A.xtext", "X.xtext"], GrammarFile sharingFiles [] p := by
    simp [hA, hX]
  exact ⟨grammarDirectory_sharingFiles, hpaths, readings_as_fresh grammarDirectory_sharingFiles _ hpaths⟩

/-! ## A name that is too long for a path -/

/-- a qualifier that is too long for the name of a directory -/
def longQualifier : Text := List.replicate 256 (CodePoint.ofChar 'a')

def longName : Text := longQualifier ++ ".X"

/-- two files, the first of which uses the second under its long name -/
def longNamedFiles : FileTree := filesOf [bareFile "A" [longName], bareFile longName []]

set_option maxRecDepth 4000 in
theorem ascii_longNamed : (∀ c ∈ bareText "A" [longName], c.val < 0x80) ∧ ∀ c ∈ bareText longName [], c.val < 0x80 := by
  decide

set_option maxRecDepth 4000 in
theorem ofText_longNamed :
    WrittenGrammar.ofText "A.xtext" (bareText "A" [longName]).unifyLineEnds = .ok (bareGrammar "A" [longName]) ∧
      WrittenGrammar.ofText "X.xtext" (bareText longName []).unifyLineEnds = .ok (bareGrammar longName []) := by
  constructor
  · cbv
  · cbv

theorem states_longNamed : States longNamedFiles "A.xtext" (bareGrammar "A" [longName]) ∧
    States longNamedFiles "X.xtext" (bareGrammar longName []) :=
  ⟨states_bareFile rfl rfl ascii_longNamed.1 ofText_longNamed.1, states_bareFile rfl rfl ascii_longNamed.2 ofText_longNamed.2⟩

set_option maxRecDepth 4000 in
theorem grammarDirectory_longNamed : GrammarDirectory longNamedFiles "." [] := by
  refine grammarDirectory_filesOf ?_ (by decide) (by decide) (fun name => if name = longName then 0 else 1) (by decide)
  simp only [List.forall_mem_cons]
  exact ⟨statedBy_bareFile "A.xtext" ascii_longNamed.1 ofText_longNamed.1,
    statedBy_bareFile "X.xtext" ascii_longNamed.2 ofText_longNamed.2, List.forall_mem_nil _⟩

set_option maxRecDepth 4000 in
/-- under its full name the file is looked for in a directory whose name is too long -/
theorem findFile?_longName : findFile? longNamedFiles [(Path.ofText "A.xtext").parent, "."] longName =
    .error (.unsearchable ⟨.working, [longQualifier, Text.ofString "X.xtext"]⟩ .nameTooLong) := by
  decide

/-- the file that uses the long name is refused by a fresh reader, and read by one that has read the other file -/
theorem shelf_hides_refusal : GrammarDirectory longNamedFiles "." [] ∧
    (∀ p ∈ [Path.ofText "X.xtext", "A.xtext"], GrammarFile longNamedFiles [] p) ∧
    (readGrammar longNamedFiles ["."] "A.xtext" .empty).1 =
      .error (.unsearchable ⟨.working, [longQualifier, Text.ofString "X.xtext"]⟩ .nameTooLong) ∧
    (answers longNamedFiles ["."] ([Path.ofText "X.xtext", "A.xtext"].map .file) .empty).1 =
      [.ok ((bareGrammar longName []).link 0 []),
        .ok ((bareGrammar "A" [longName]).link 1 [(bareGrammar longName []).link 0 []])] := by
  obtain ⟨hstates, hstates'⟩ := states_longNamed
  have hA : GrammarFile longNamedFiles [] "A.xtext" := ⟨rfl, ⟨"A", by decide⟩, by decide⟩
  have hX : GrammarFile longNamedFiles [] "X.xtext" := ⟨rfl, ⟨"X", by decide⟩, by decide⟩
  refine ⟨grammarDirectory_longNamed, by simp [hA, hX], ?_, ?_⟩
  · -- nothing stands on the shelf, so the file of the name is looked for
    obtain ⟨source, htext, hw⟩ := hstates
    have hdepth : depthLimit longNamedFiles = 257 + 1 := rfl
    have hshelf : Library.empty.shelf.lookup longName = none := rfl
    have hopened : longName ∉ (Library.empty.enter "A").opened := by decide
    have hbuiltin : longName ≠ builtinName := by decide
    simp [readGrammar, hdepth, readGrammarWithin, htext, readWith, hw, bareGrammar, eachUsed, use, hshelf, hopened,
      hbuiltin, findFile?_longName]
  · -- the grammar of the name stands on the shelf by then
    have hfirst : readGrammar longNamedFiles ["."] "X.xtext" .empty =
        (.ok ((bareGrammar longName []).link 0 []), (Library.empty.enter longName).finish (bareGrammar longName []) []) :=
      readGrammar_shelved ["."] hstates' rfl
    generalize hl : (Library.empty.enter longName).finish (bareGrammar longName []) [] = l at hfirst
    have hfresh : l.fresh = 1 := by rw [← hl]; rfl
    have hshelf : l.shelf.lookup longName = some ((bareGrammar longName []).link 0 []) := by
      rw [← hl, shelf_finish]
      exact List.lookup_cons_self
    have hsecond : (readGrammar longNamedFiles ["."] "A.xtext" l).1 =
        .ok ((bareGrammar "A" [longName]).link l.fresh [(bareGrammar longName []).link 0 []]) := by
      rw [readGrammar_shelved ["."] hstates]
      exact congrArg (fun o => [o]) hshelf
    simp only [List.map_cons, List.map_nil, answers, answer, hfirst, hsecond, hfresh]

end Rulebook.Library
