/-
Files in which documents have been written. What is written is no grammar: a document or a graph begins with a letter or
a mark that no grammar begins with (`head_of_ofText`, `Markup.no_grammar`). And it never goes to where a used grammar is
looked for, since grammar files and documents end differently (`not_documentSpot_of_candidate`).

A tree with documents written over it (`Overlaid`) is therefore as good as the tree without them, for whoever reads
grammars: the same files are found for every name, and a grammar file that is read gives the same grammar
(`readGrammarWithin_overlaid`, `documents_of_overlaid`).
-/
import Rulebook.Proofs.Generating
import Rulebook.Proofs.Openings

namespace Rulebook

open Source Rulebook.Reading

/-! ## How a grammar begins -/

/-- what begins without a gap, a slash or a caret is a token, no head comment, and a name keeps its first letter -/
theorem Piece.token_of_first {c : CodePoint} {rest : Text} {token : Option Key} {n : Nat} (hgap : isGap c = false)
    (hslash : c ≠ '/') (hcaret : c ≠ '^') (h : first c rest = .ok (token, n)) :
    ∃ kind value, token = some (kind, value) ∧ kind ≠ .headComment ∧ (kind = .name → value.head? = some c) := by
  unfold first at h
  rw [if_neg (by simp [hgap]), if_neg (fun hc => hslash hc.1), if_neg (fun hc => hslash hc.1)] at h
  split at h
  · -- a literal
    split at h
    · cases h
      exact ⟨_, _, rfl, nofun, nofun⟩
    · cases h
    · cases h
  · split at h
    · cases h
      exact ⟨_, _, rfl, nofun, nofun⟩
    · split at h
      · next hname =>
        cases h
        refine ⟨_, _, rfl, nofun, fun _ => ?_⟩
        unfold name? at hname
        rw [if_neg hcaret] at hname
        split at hname
        · cases hname
          rfl
        · cases hname
      · split at h
        · cases h
          exact ⟨_, _, rfl, nofun, nofun⟩
        · cases h

/-- a grammar that begins without a gap, a comment or a caret begins with the letter of its first word -/
theorem head_of_ofText {file : Path} {c : CodePoint} {rest : Text} {w : WrittenGrammar} (hgap : Piece.isGap c = false)
    (hslash : c ≠ '/') (hcaret : c ≠ '^') (h : WrittenGrammar.ofText file (c :: rest) = .ok w) : c = 'g' := by
  obtain ⟨pieces, hcut, hwords⟩ := ofWords_of_ofText h
  obtain ⟨_, _, ⟨_, hheader, -⟩, -⟩ := (ofWords_iff _ _).1 hwords
  simp only [WrittenGrammar.header, gives_next', gives_takeWord] at hheader
  obtain ⟨_, _, ⟨first, hfirst, ⟨hname, hvalue⟩, -⟩, -⟩ := hheader
  rw [Piece.cut] at hcut
  split at hcut
  · cases hcut
  · next token n htoken =>
    obtain ⟨kind, value, rfl, hcomment, hhead⟩ := Piece.token_of_first hgap hslash hcaret htoken
    split at hcut
    · cases hcut
    · cases hcut
      simp only [Lexed.ofPieces, wordsOf, wordsBehind, if_neg hcomment, List.cons.injEq] at hfirst
      obtain ⟨rfl, -⟩ := hfirst
      have hg := hhead hname.kind
      rw [show value = Text.ofString "grammar" from hvalue] at hg
      exact (Option.some.inj hg).symm

/-! ## Documents are no grammars -/

/-- the first code point of a text that needs one byte is the first that is read again -/
theorem Utf8.head_of_decode {c : CodePoint} {rest t : Text} {content : Bytes} (hc : c.val < 0x80)
    (hencode : Utf8.encode (c :: rest) = .ok content) (hdecode : Utf8.decode content = .ok t) : ∃ more, t = c :: more := by
  obtain ⟨bytes, rfl⟩ : ∃ bytes, content = c.val.toUInt8 :: bytes := by
    unfold encode at hencode
    split at hencode
    · cases hencode
    · cases hencode
      exact ⟨rest.flatMap encodePoint, by simp [encodePoint, hc]⟩
  rw [decode, decodeFrom] at hdecode
  split at hdecode
  · cases hdecode
  · next heq =>
    rw [decodeOne_ascii 0 hc] at heq
    cases heq
    split at hdecode
    · cases hdecode
    · cases hdecode
      exact ⟨_, rfl⟩

/-- what the texts of documents and graphs begin with -/
def Text.Markup (t : Text) : Prop := ∃ c rest, t = c :: rest ∧ c ∈ ["#", "G", "d"].flatMap Text.ofString

/-- a text of this kind does not come back as a grammar once it is written -/
theorem Text.Markup.no_grammar {t : Text} (h : t.Markup) {content : Bytes} (hencode : Utf8.encode t = .ok content)
    (w : WrittenGrammar) : ¬ Library.StatedBy content w := by
  rintro ⟨text, file, hdecode, hw⟩
  obtain ⟨c, rest, rfl, hc⟩ := h
  have hascii : ∀ c ∈ ["#", "G", "d"].flatMap Text.ofString, c.val < 0x80 ∧ c ≠ '\r' ∧ Piece.isGap c = false ∧ c ≠ '/' ∧
      c ≠ '^' ∧ c ≠ 'g' := by decide
  obtain ⟨hsmall, hreturn, hgap, hslash, hcaret, hg⟩ := hascii c hc
  obtain ⟨more, rfl⟩ := Utf8.head_of_decode hsmall hencode hdecode
  obtain ⟨after, hafter⟩ : ∃ after, Text.unifyLineEnds (c :: more) = c :: after := by
    cases more with
    | nil => exact ⟨[], by rw [Text.unifyLineEnds, if_neg hreturn]⟩
    | cons d more => exact ⟨_, by rw [Text.unifyLineEnds, if_neg hreturn]⟩
  rw [hafter] at hw
  exact hg (head_of_ofText hgap hslash hcaret hw)

/-- a text keeps its beginning when white space is taken from its end -/
theorem Text.stripRight_cons {c : CodePoint} (hc : c.isBlank = false) (t : Text) :
    stripRight (c :: t) = c :: stripRight t := by
  rw [stripRight, stripRight, List.reverse_cons, List.dropWhile_append]
  split
  · next hblank =>
    rw [List.isEmpty_iff.1 hblank]
    simp [hc]
  · simp

theorem GrammarDoc.markup_joinParts {c : CodePoint} {first : Text} {parts : List Text} (hc : c.isBlank = false)
    (hmark : c ∈ ["#", "G", "d"].flatMap Text.ofString) : (joinParts ((c :: first) :: parts)).Markup := by
  obtain ⟨rest, hrest⟩ : ∃ rest, Text.join "\n" ((c :: first) :: parts) = c :: rest := by
    cases parts with
    | nil => exact ⟨first, by simp [Text.join]⟩
    | cons part parts => exact ⟨_, by rw [Text.join, List.intercalate_cons_cons, List.cons_append, List.cons_append]⟩
  exact ⟨c, _, by rw [joinParts, hrest, Text.stripRight_cons hc, List.cons_append], hmark⟩

theorem GrammarDoc.markup_graph (g : GrammarDoc) (o : Options) : (g.graph o).Markup := by
  refine ⟨'d', ?_⟩
  simp only [graph, List.cons_append, Text.join, List.intercalate_cons_cons]
  exact ⟨_, rfl, by decide⟩

/-- documents and graphs of the built-in formatters begin with no grammar -/
theorem markup_formatGraph {name : Text} {c : FormatterClass} (hc : Registry.builtin.lookup name = some c) (o : Options)
    (doc : GrammarDoc) : (c.formatGraph o doc).1.Markup := by
  rcases builtin_of_lookup hc with rfl | rfl | rfl <;> exact doc.markup_graph o

theorem markup_formatGrammar {name : Text} {c : FormatterClass} (hc : Registry.builtin.lookup name = some c)
    {o : Options} {doc : GrammarDoc} {t : Text} (ht : (c.formatGrammar o doc).1 = .ok t) : t.Markup := by
  rcases builtin_of_lookup hc with rfl | rfl | rfl
  · simp only [FormatterClass.markdown, Markdown.formatGrammar] at ht
    split at ht
    · cases ht
    · cases ht
      exact GrammarDoc.markup_joinParts (c := CodePoint.ofChar '#') (by decide) (by decide)
  · simp only [FormatterClass.plainText, PlainText.formatGrammar] at ht
    split at ht
    · cases ht
    · cases ht
      exact GrammarDoc.markup_joinParts (c := CodePoint.ofChar 'G') (by decide) (by decide)
  · cases ht
    exact doc.markup_graph o

/-! ## Where documents and grammars stand -/

/-- a place for documents and graphs, by the end of its name -/
def DocumentSpot (spot : Spot) : Prop :=
  ∃ above stem, ∃ extension ∈ ["md", "txt", "dot"].map Text.ofString, spot = above ++ [stem ++ "." ++ extension]

/-- a grammar file is called otherwise than a document -/
theorem not_documentSpot_fileNameOf (above : Spot) (stem : Text) : ¬ DocumentSpot (above ++ [Library.fileNameOf stem]) := by
  rintro ⟨above', stem', extension, hextension, heq⟩
  have hname : Library.fileNameOf stem = stem' ++ (Text.ofString "." ++ extension) := by
    rw [← List.append_assoc]
    exact List.singleton_inj.1 (List.append_inj_right' heq rfl)
  have hapart : ∀ extension ∈ ["md", "txt", "dot"].map Text.ofString,
      ¬ Text.ofString ".xtext" <:+ Text.ofString "." ++ extension ∧
        ¬ Text.ofString "." ++ extension <:+ Text.ofString ".xtext" := by decide
  -- one of two ends of a name is the end of the other one
  rcases List.suffix_or_suffix_of_suffix (List.suffix_append stem ".xtext") (hname ▸ List.suffix_append _ _) with h | h
  · exact (hapart extension hextension).1 h
  · exact (hapart extension hextension).2 h

/-- where a used grammar is looked for there is no place for documents -/
theorem not_documentSpot_of_candidate {t : FileTree} {name : Text} (h : Qualified name) {directory file : Path}
    (hfile : file ∈ Library.candidates name directory) {place : Spot} (hplace : t.locate file = .ok place) :
    ¬ DocumentSpot place := by
  obtain ⟨front, -, -, hcandidates⟩ := Library.candidates_eq h
  rw [hcandidates] at hfile
  obtain ⟨base, rfl⟩ : ∃ base : Path, file = base.join ⟨.working, [Library.fileNameOf (Grammar.simpleName name)]⟩ := by
    rcases List.mem_pair.1 hfile with rfl | rfl
    · exact ⟨directory.join ⟨.working, front⟩, by simp only [Path.join_working, List.append_assoc]⟩
    · exact ⟨directory, rfl⟩
  obtain ⟨above, -, rfl⟩ := FileTree.above_of_locate (Library.ne_dots_fileNameOf _) hplace
  exact not_documentSpot_fileNameOf above _

/-! ## Documents over a tree -/

/-- the first tree with documents written over it: a place is as before, or it is one for documents and holds a file that
states no grammar, where no directory was -/
structure Overlaid (t t' : FileTree) : Prop where
  working : t'.working = t.working
  entries : ∀ place, t'.entryAt place = t.entryAt place ∨ (t.entryAt place ≠ some .directory ∧ DocumentSpot place ∧
    ∃ content, t'.entryAt place = some (.file content) ∧ ∀ w, ¬ Library.StatedBy content w)

namespace Overlaid

variable {t t' : FileTree}

theorem refl (t : FileTree) : Overlaid t t := ⟨rfl, fun _ => .inl rfl⟩

/-- one more document is written -/
theorem put (h : Overlaid t t') {spot : Spot} (hspot : t'.entryAt spot ≠ some .directory) (hne : spot ≠ [])
    (hdocument : DocumentSpot spot) {content : Bytes} (hcontent : ∀ w, ¬ Library.StatedBy content w) :
    Overlaid t (t'.put spot (.file content)) := by
  refine ⟨h.working, fun place => ?_⟩
  rw [FileTree.entryAt_put t' hne]
  split
  · next heq =>
    subst heq
    refine .inr ⟨?_, hdocument, content, rfl, hcontent⟩
    rcases h.entries place with hsame | ⟨hbefore, -⟩
    · rwa [← hsame]
    · exact hbefore
  · exact h.entries place

theorem keepsDirectories (h : Overlaid t t') : t.KeepsDirectories t' := by
  refine ⟨h.working, fun place hplace => ?_⟩
  rcases h.entries place with hsame | ⟨hnot, -⟩
  · rw [hsame, hplace]
  · exact absurd hplace hnot

theorem keepsDirectoriesBack (h : Overlaid t t') : t'.KeepsDirectories t := by
  refine ⟨h.working.symm, fun place hplace => ?_⟩
  rcases h.entries place with hsame | ⟨-, -, _, hfile, -⟩
  · rw [← hsame, hplace]
  · cases hplace.symm.trans hfile

theorem locate_iff (h : Overlaid t t') {p : Path} {place : Spot} : t'.locate p = .ok place ↔ t.locate p = .ok place :=
  ⟨FileTree.locate_of_directories h.keepsDirectoriesBack, FileTree.locate_of_directories h.keepsDirectories⟩

theorem isDirectory (h : Overlaid t t') {p : Path} (hp : t.isDirectory p = true) : t'.isDirectory p = true := by
  unfold FileTree.isDirectory at hp ⊢
  split at hp
  · cases hp
  · next spot hlocate =>
    have hentry : t.entryAt spot = some .directory := by simpa [FileTree.holdsDirectory] using hp
    rw [h.locate_iff.2 hlocate]
    simp [FileTree.holdsDirectory, h.keepsDirectories.directories spot hentry]

/-- what does not lead to a place for documents is found or not as before -/
theorem findsFile_eq (h : Overlaid t t') {p : Path} (hp : ∀ place, t.locate p = .ok place → ¬ DocumentSpot place) :
    t'.findsFile p = t.findsFile p := by
  unfold FileTree.findsFile
  split
  · cases hlocate : t.locate p with
    | ok place =>
      have hsame := (h.entries place).resolve_right fun hdocument => hp place hlocate hdocument.2.1
      rw [h.locate_iff.2 hlocate]
      simp only [hsame]
    | error fault =>
      cases hlocate' : t'.locate p with
      | ok place => cases hlocate.symm.trans (h.locate_iff.1 hlocate')
      | error fault' =>
        have hlong : fault = .nameTooLong ↔ fault' = .nameTooLong := by
          constructor
          · rintro rfl
            exact Except.error.inj (hlocate'.symm.trans
              (FileTree.locate_tooLong_of_directories h.keepsDirectories hlocate))
          · rintro rfl
            exact Except.error.inj (hlocate.symm.trans
              (FileTree.locate_tooLong_of_directories h.keepsDirectoriesBack hlocate'))
        cases fault <;> cases fault' <;> first | rfl | simp at hlong
  · rfl

/-- the same file is found for a used grammar -/
theorem findFile?_eq (h : Overlaid t t') {name : Text} (hname : Qualified name) (directories : List Path) :
    Library.findFile? t' directories name = Library.findFile? t directories name := by
  have hfirst : ∀ ps : List Path, (∀ p ∈ ps, ∀ place, t.locate p = .ok place → ¬ DocumentSpot place) →
      t'.firstFile? ps = t.firstFile? ps := by
    intro ps hps
    induction ps with
    | nil => rfl
    | cons p ps ih =>
      obtain ⟨hp, hps⟩ := List.forall_mem_cons.1 hps
      rw [FileTree.firstFile?, FileTree.firstFile?, h.findsFile_eq hp, ih hps]
  rw [Library.findFile?, Library.findFile?, hfirst]
  intro p hp place hplace
  obtain ⟨directory, -, hcandidate⟩ := List.mem_flatMap.1 hp
  exact not_documentSpot_of_candidate hname hcandidate hplace

/-- a file that is found has the same text as long as its place is as before -/
theorem textOf_eq (h : Overlaid t t') {p : Path} {place : Spot} (hplace : t.locate p = .ok place)
    (hsame : t'.entryAt place = t.entryAt place) : Library.textOf t' p = Library.textOf t p := by
  have hread : t'.read p = t.read p := by
    rw [FileTree.read, FileTree.read, hplace, h.locate_iff.2 hplace]
    simp only [hsame]
  rw [Library.textOf, Library.textOf, hread]

end Overlaid

/-! ## Reading grammars over it -/

theorem FileTree.mem_of_firstFile? {t : FileTree} {ps : List Path} {p : Path} (h : t.firstFile? ps = .ok (some p)) :
    p ∈ ps := by
  induction ps with
  | nil => cases h
  | cons q ps ih =>
    rw [firstFile?] at h
    split at h
    · cases h
    · cases h
      exact List.mem_cons_self
    · exact List.mem_cons_of_mem _ (ih h)

namespace Library

/-- used grammars are read alike when each of them is -/
theorem eachUsed_congr {load load' : Text → Library → Outcome Grammar} {names : List Text}
    (h : ∀ name ∈ names, ∀ l, load' name l = load name l) (l : Library) :
    eachUsed load' names l = eachUsed load names l := by
  induction names generalizing l with
  | nil => rfl
  | cons name names ih =>
    obtain ⟨hname, hnames⟩ := List.forall_mem_cons.1 h
    simp only [eachUsed, hname, ih hnames]

/-- a text is read alike when the grammars that it uses are -/
theorem readWith_congr {load load' : Text → Library → Outcome Grammar} {file : Path} {source : Text}
    (h : ∀ w, WrittenGrammar.ofText file source = .ok w → ∀ name ∈ w.uses, ∀ l, load' name l = load name l)
    (l : Library) : readWith load' file source l = readWith load file source l := by
  unfold readWith
  cases hw : WrittenGrammar.ofText file source with
  | error e => rfl
  | ok w => simp only [eachUsed_congr (h w hw)]

variable {t t' : FileTree}

/-- a name is looked up alike, and the file that is found for it has the same text -/
theorem use_overlaid (h : Overlaid t t') {directories : List Path} {name : Text} (hname : Qualified name)
    {load load' : FileReader} (hload : ∀ file, textOf t' file = textOf t file → ∀ l, load' file l = load file l)
    (l : Library) : use t' directories load' name l = use t directories load name l := by
  have hfound : ∀ file, findFile? t directories name = .ok (some file) → textOf t' file = textOf t file := by
    intro file hfile
    obtain ⟨-, place, content, hplace, -⟩ := entry_of_findsFile (findsFile_of_findFile? hfile)
    obtain ⟨directory, -, hcandidate⟩ : ∃ directory ∈ directories, file ∈ candidates name directory := by
      unfold findFile? at hfile
      cases hfirst : t.firstFile? (directories.flatMap (candidates name)) with
      | error e => simp [hfirst, Except.mapError] at hfile
      | ok found =>
        rw [hfirst] at hfile
        cases hfile
        exact List.mem_flatMap.1 (FileTree.mem_of_firstFile? hfirst)
    refine h.textOf_eq hplace ((h.entries place).resolve_right fun hdocument => ?_)
    exact not_documentSpot_of_candidate hname hcandidate hplace hdocument.2.1
  unfold use
  rw [h.findFile?_eq hname directories]
  cases l.shelf.lookup name with
  | some g => rfl
  | none =>
    by_cases hopen : name ∈ l.opened
    · simp only [if_pos hopen]
    · by_cases hbuiltin : name = builtinName
      · simp only [if_neg hopen, if_pos hbuiltin]
      · simp only [if_neg hopen, if_neg hbuiltin]
        split
        · rfl
        · rfl
        · next file hfile => exact hload file (hfound file hfile) l

/-- a file of the same text gives the same grammar -/
theorem readGrammarWithin_overlaid (h : Overlaid t t') (searchPaths : List Path) (depth : Nat) {file : Path}
    (htext : textOf t' file = textOf t file) (l : Library) :
    readGrammarWithin t' searchPaths depth file l = readGrammarWithin t searchPaths depth file l := by
  induction depth generalizing file l with
  | zero => rfl
  | succ depth ih =>
    rw [readGrammarWithin, readGrammarWithin, htext]
    cases textOf t file with
    | error e => rfl
    | ok source =>
      exact readWith_congr (fun w hw name hname l =>
        use_overlaid h ((qualified_of_ofText hw).2 name hname) (fun found hfound l => ih hfound l) l) l

end Library

/-! ## Documents of a grammar file -/

namespace Generation

/-- these are the documents of a grammar file, when as many files may be open at a time as it takes -/
def Documents (s : Settings) (files : FileTree) (file : Path) (doc : GrammarDoc) : Prop :=
  ∃ depth g, (Library.readGrammarWithin files (file.parent :: s.searchPaths) depth file .empty).1 = .ok g ∧
    (GrammarDoc.ofGrammar g).1 = .ok doc

variable {s : Settings} {files t t' : FileTree} {file : Path} {doc doc' : GrammarDoc}

theorem Documents.of_documented (h : documented s files file = .ok doc) : Documents s files file doc := by
  unfold documented at h
  split at h
  · cases h
  · next g hread =>
    refine ⟨_, g, hread, ?_⟩
    cases hdoc : (GrammarDoc.ofGrammar g).1 with
    | error e => simp [hdoc, Except.mapError] at h
    | ok doc' =>
      rw [hdoc] at h
      exact congrArg Except.ok (Except.ok.inj h)

/-- a grammar file has one documentation -/
theorem Documents.unique (h : Documents s files file doc) (h' : Documents s files file doc') : doc' = doc := by
  obtain ⟨depth, g, hread, hdoc⟩ := h
  obtain ⟨depth', g', hread', hdoc'⟩ := h'
  have hmore : ∀ {depth g}, (Library.readGrammarWithin files (file.parent :: s.searchPaths) depth file .empty).1 = .ok g →
      ∀ more, depth ≤ more →
        (Library.readGrammarWithin files (file.parent :: s.searchPaths) more file .empty).1 = .ok g := by
    intro depth g hread more hle
    rw [Library.readGrammarWithin_of_le hle file .empty (by simp [Library.Outcome.TooDeep, hread]), hread]
  cases (hmore hread _ (Nat.le_max_left depth depth')).symm.trans (hmore hread' _ (Nat.le_max_right depth depth'))
  exact Except.ok.inj (hdoc'.symm.trans hdoc)

/-- over a tree with documents a grammar file has the documentation that it has without them -/
theorem documents_of_overlaid (h : Overlaid t t') (hdoc : Documents s t' file doc) : Documents s t file doc := by
  obtain ⟨depth, g, hread, hg⟩ := hdoc
  refine ⟨depth, g, ?_, hg⟩
  rw [← hread, Library.readGrammarWithin_overlaid h]
  cases depth with
  | zero => cases hread
  | succ depth =>
    rw [Library.readGrammarWithin] at hread
    split at hread
    · cases hread
    · next source hsource =>
      obtain ⟨-, place, content, hplace, hentry⟩ := Library.entry_of_findsFile (Library.findsFile_of_textOf hsource)
      refine h.textOf_eq (h.locate_iff.1 hplace) ((h.entries place).resolve_right ?_)
      -- a document that was written here states no grammar
      rintro ⟨-, -, _, hfile, hnone⟩
      cases hentry.symm.trans hfile
      obtain ⟨w, -, -, hw, -⟩ := linked_of_readWith hread
      refine hnone w ?_
      unfold Library.textOf at hsource
      split at hsource
      · rw [(FileTree.read_iff hplace content).2 hentry] at hsource
        cases hdecode : Utf8.decode content with
        | error fault => simp [hdecode] at hsource
        | ok text =>
          simp only [hdecode, Except.ok.injEq] at hsource
          subst hsource
          exact ⟨text, file, hdecode, hw⟩
      · cases hsource

end Generation

end Rulebook
