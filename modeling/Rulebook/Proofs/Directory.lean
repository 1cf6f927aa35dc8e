/-
Looking for grammar files in one directory. All grammar files of a tree lie directly in a directory, and each declares a
grammar whose simple name is the name of the file (`GrammarDirectory`). A used grammar is looked for twice in each
directory: under its full name turned into a path, and under its simple name. The first of these leads out of the
directory as soon as the name has two parts, so the file is the one called like the last part, or there is none, or the
system refuses the question because a name on the way is too long: `findFile?_cases`.
-/
import Rulebook.Proofs.Names
import Rulebook.Proofs.OpenFiles

namespace Rulebook

open Source

/-! ## Parts of names and paths -/

theorem not_mem_of_isIdentifier {p : Text} (h : IsIdentifier p) {c : CodePoint} (hc : Piece.isNamePart c = false) :
    c ∉ p := by
  cases h with
  | intro hstart htail =>
    intro hmem
    rcases List.mem_cons.1 hmem with rfl | hmem
    · simp [isNamePart_of_isNameStart hstart] at hc
    · simp [htail c hmem] at hc

namespace Text

/-- all parts but the last have a separator behind them -/
theorem join_concat (separator : Text) (front : List Text) (last : Text) :
    join separator (front ++ [last]) = front.flatMap (· ++ separator) ++ last := by
  induction front with
  | nil => simp [join]
  | cons p front ih =>
    obtain ⟨q, more, hmore⟩ := List.exists_cons_of_ne_nil (List.append_ne_nil_of_right_ne_nil front (by simp : [last] ≠ []))
    rw [List.cons_append, hmore, join, List.intercalate_cons_cons, ← hmore, ← join, ih]
    simp

/-- other separators between parts that do not change -/
theorem map_join {f : CodePoint → CodePoint} {separator other : Text} {front : List Text} {last : Text}
    (hseparator : separator.map f = other) (h : ∀ p ∈ front ++ [last], p.map f = p) :
    (join separator (front ++ [last])).map f = join other (front ++ [last]) := by
  have hfront : ∀ p ∈ front, (p ++ separator).map f = p ++ other := by
    intro p hp
    rw [List.map_append, h p (List.mem_append_left _ hp), hseparator]
  calc (join separator (front ++ [last])).map f
      = (front.flatMap fun p => (p ++ separator).map f) ++ last.map f := by
        rw [join_concat, List.map_append, List.map_flatMap]
    _ = front.flatMap (· ++ other) ++ last := by rw [List.flatMap_congr hfront, h last (by simp)]
    _ = join other (front ++ [last]) := (join_concat other front last).symm

theorem splitOn_eq (mark : CodePoint) (t : Text) : splitOn mark t = List.splitOn mark t := by
  induction t with
  | nil => simp [splitOn]
  | cons c t ih =>
    rw [splitOn, ih, List.splitOn_cons_eq_if_modifyHead]
    by_cases hc : c = mark
    · simp [hc]
    · cases hsplit : List.splitOn mark t with
      | nil => exact absurd hsplit (List.splitOn_ne_nil mark t)
      | cons piece pieces => simp [hc]

theorem afterLast_concat {mark : CodePoint} (front : List Text) {last : Text} (h : mark ∉ last) :
    afterLast mark (front.flatMap (· ++ [mark]) ++ last) = last := by
  have hall : ∀ c ∈ last.reverse, decide (c ≠ mark) = true := by
    intro c hc
    rw [decide_eq_true_eq]
    rintro rfl
    exact h (List.mem_reverse.1 hc)
  have hend : ∀ c ∈ (front.flatMap (· ++ [mark])).reverse.head?, decide (c ≠ mark) = false := by
    rcases List.eq_nil_or_concat front with rfl | ⟨before, p, rfl⟩
    · exact nofun
    · simp
  rw [afterLast, List.reverse_append, takeWhile_append_of_ends hall hend, List.reverse_reverse]

end Text

/-- a name that can stand in a path: not empty, no dots alone, no slash -/
structure Path.Part (t : Text) : Prop where
  ne_nil : t ≠ []
  ne_dot : t ≠ "."
  ne_dots : t ≠ ".."
  no_slash : CodePoint.ofChar '/' ∉ t
  no_zero : ∀ c ∈ t, c.val ≠ 0

namespace Path

theorem part_of_isIdentifier {p : Text} (h : IsIdentifier p) : Part p := by
  have hno : ∀ c, Piece.isNamePart c = false → c ∉ p := fun c => not_mem_of_isIdentifier h
  refine ⟨?_, ?_, ?_, hno _ (by decide), ?_⟩
  · cases h
    simp
  · rintro rfl
    exact hno (CodePoint.ofChar '.') (by decide) (by decide)
  · rintro rfl
    exact hno (CodePoint.ofChar '.') (by decide) (by decide)
  · intro c hc hzero
    refine hno c ?_ hc
    simp [Piece.isNamePart, Piece.isNameStart, CodePoint.inRanges, hzero]

theorem Part.withSuffix {p : Text} (h : Part p) : Part (p ++ ".xtext") := by
  have hlong : ∀ t : Text, t.length < 7 → p ++ Text.ofString ".xtext" ≠ t := by
    rintro t ht rfl
    obtain ⟨c, rest, hp⟩ := List.exists_cons_of_ne_nil h.ne_nil
    have hlen : (Text.ofString ".xtext").length = 6 := by decide
    rw [List.length_append, hlen, hp, List.length_cons] at ht
    omega
  refine ⟨hlong _ (by decide), hlong _ (by decide), hlong _ (by decide), ?_, ?_⟩
  · intro hmem
    rcases List.mem_append.1 hmem with hmem | hmem
    · exact h.no_slash hmem
    · revert hmem
      decide
  · have hsuffix : ∀ c ∈ Text.ofString ".xtext", c.val ≠ 0 := by decide
    exact List.forall_mem_append.2 ⟨h.no_zero, hsuffix⟩

/-- parts with slashes between them are a path of these parts -/
theorem ofText_join {parts : List Text} (hne : parts ≠ []) (h : ∀ p ∈ parts, Part p) :
    ofText (Text.join "/" parts) = ⟨.working, parts⟩ := by
  have hsplit : Text.splitOn '/' (Text.join "/" parts) = parts := by
    rw [Text.splitOn_eq]
    exact List.splitOn_intercalate _ (fun p hp => (h p hp).no_slash) hne
  have hfilter : (parts.filter fun part => decide (part ≠ []) && decide (part ≠ Text.ofString ".")) = parts :=
    List.filter_eq_self.2 fun p hp => by simp [(h p hp).ne_nil, (h p hp).ne_dot]
  have hroot : rootOf (Text.join "/" parts) = .working := by
    obtain ⟨p, more, rfl⟩ := List.exists_cons_of_ne_nil hne
    have hp := h p List.mem_cons_self
    obtain ⟨c, rest, rfl⟩ := List.exists_cons_of_ne_nil hp.ne_nil
    have hc : c ≠ CodePoint.ofChar '/' := fun heq => hp.no_slash (heq ▸ List.mem_cons_self)
    obtain ⟨tail, htail⟩ : ∃ tail, Text.join "/" ((c :: rest) :: more) = c :: tail := by
      cases more with
      | nil => exact ⟨rest, by simp [Text.join]⟩
      | cons q more => exact ⟨_, by rw [Text.join, List.intercalate_cons_cons, List.cons_append, List.cons_append]⟩
    simp [rootOf, htail, hc]
  rw [ofText, hsplit, hfilter, hroot]

end Path

/-! ## Following names -/

namespace FileTree

variable {t : FileTree}

theorem follow_append (spot : Spot) (xs ys : List Text) :
    t.follow spot (xs ++ ys) = (t.follow spot xs).bind fun s => t.follow s ys := by
  induction xs generalizing spot with
  | nil => rfl
  | cons x xs ih =>
    rw [List.cons_append, follow, follow]
    cases t.entryAt spot with
    | none => rfl
    | some e =>
      cases e with
      | file _ => rfl
      | directory =>
        simp only [ih]
        split
        · rfl
        · split <;> rfl

/-- names that do not lead back up lead to where they say -/
theorem eq_append_of_follow {spot place : Spot} {names : List Text} (hnames : ∀ n ∈ names, n ≠ "..")
    (h : t.follow spot names = .ok place) : place = spot ++ names := by
  induction names generalizing spot with
  | nil =>
    cases h
    exact (List.append_nil _).symm
  | cons n names ih =>
    rw [follow, if_neg (hnames n List.mem_cons_self)] at h
    split at h
    · cases h
    · cases h
    · split at h
      · cases h
      · rw [ih (fun m hm => hnames m (List.mem_cons_of_mem _ hm)) h, List.append_assoc, List.singleton_append]

/-- a path below a directory leads through the directory -/
theorem follow_of_locate {p q : Path} {spot place : Spot} {names : List Text} (hq : t.locate q = .ok spot)
    (hp : t.locate p = .ok place) (hroot : p.root = q.root) (hparts : p.parts = q.parts ++ names) :
    t.follow spot names = .ok place := by
  have habsolute : p.isAbsolute = q.isAbsolute := by rw [Path.isAbsolute, Path.isAbsolute, hroot]
  unfold locate at hq hp
  split at hq
  · cases hq
  · split at hp
    · cases hp
    · rwa [hparts, habsolute, follow_append, hq] at hp

theorem firstFile?_append (ps qs : List Path) : t.firstFile? (ps ++ qs) =
    match t.firstFile? ps with
    | .ok none => t.firstFile? qs
    | other => other := by
  induction ps with
  | nil => rfl
  | cons p ps ih =>
    rw [List.cons_append, firstFile?, firstFile?]
    rcases t.findsFile p with e | found
    · rfl
    · cases found with
      | true => rfl
      | false => exact ih

/-- the question for files is refused only for the length of a name -/
theorem fault_of_firstFile? {ps : List Path} {p : Path} {fault : SystemFault} (h : t.firstFile? ps = .error (p, fault)) :
    fault = .nameTooLong := by
  induction ps with
  | nil => cases h
  | cons q ps ih =>
    rw [firstFile?] at h
    split at h
    · next other hfinds =>
      cases h
      unfold findsFile at hfinds
      split at hfinds
      · split at hfinds
        · exact (Except.error.inj hfinds).symm
        · cases hfinds
        · split at hfinds <;> cases hfinds
      · cases hfinds
    · cases h
    · exact ih h

/-- the way to a name in a directory is refused only for the length of the name -/
theorem follow_singleton {spot : Spot} (hspot : t.holdsDirectory spot = true) {n : Text} (hn : n ≠ "..") :
    t.follow spot [n] = .error .nameTooLong ∨ t.follow spot [n] = .ok (spot ++ [n]) := by
  have hentry : t.entryAt spot = some .directory := by simpa [holdsDirectory] using hspot
  rw [follow, hentry]
  simp only [if_neg hn]
  split
  · exact .inl rfl
  · exact .inr rfl

end FileTree

namespace Library

/-! ## Grammar files in one directory -/

def fileNameOf (stem : Text) : Text := stem ++ ".xtext"

/-- the content is a text that states a grammar -/
def StatedBy (content : Bytes) (w : WrittenGrammar) : Prop :=
  ∃ text file, Utf8.decode content = .ok text ∧ WrittenGrammar.ofText file text.unifyLineEnds = .ok w

def Stated (files : FileTree) (spot : Spot) (w : WrittenGrammar) : Prop :=
  ∃ content, files.entryAt (spot ++ [fileNameOf (Grammar.simpleName w.name)]) = some (.file content) ∧ StatedBy content w

/-- a grammar of the first name is stated and uses the second name -/
def NameUses (files : FileTree) (spot : Spot) (user name : Text) : Prop :=
  ∃ w, Stated files spot w ∧ w.name = user ∧ name ∈ w.uses

/-- all grammar files lie directly in one directory, and each states a grammar that is called like the file -/
structure GrammarDirectory (files : FileTree) (directory : Path) (spot : Spot) : Prop where
  /-- the directory is at this place -/
  located : files.locate directory = .ok spot
  isDirectory : files.holdsDirectory spot = true
  /-- no grammar file lies anywhere else -/
  direct : ∀ place stem content, files.entryAt (place ++ [fileNameOf stem]) = some (.file content) → place = spot
  /-- every grammar file states a grammar of the file's simple name, not the built-in one -/
  states : ∀ stem content, files.entryAt (spot ++ [fileNameOf stem]) = some (.file content) →
    ∃ w, StatedBy content w ∧ Grammar.simpleName w.name = stem ∧ w.name ≠ builtinName
  /-- a used name whose last part is called like a file is the name that the file declares -/
  named : ∀ w w', Stated files spot w → Stated files spot w' → ∀ name ∈ w.uses,
    Grammar.simpleName name = Grammar.simpleName w'.name → name = w'.name
  /-- no grammar uses itself, directly or through others -/
  acyclic : ∀ name, ¬ Relation.TransGen (NameUses files spot) name name

/-- the path leads to a grammar file of the directory at this place -/
structure GrammarFile (files : FileTree) (spot : Spot) (p : Path) : Prop where
  parent : files.locate p.parent = .ok spot
  called : ∃ stem, p.fileName = fileNameOf stem
  found : files.findsFile p = .ok true

theorem StatedBy.unique {content : Bytes} {w w' : WrittenGrammar} (h : StatedBy content w) (h' : StatedBy content w') :
    w = w' := by
  obtain ⟨text, file, htext, hw⟩ := h
  obtain ⟨text', file', htext', hw'⟩ := h'
  cases htext.symm.trans htext'
  exact Except.ok.inj (hw.symm.trans (ofText_of_ok hw'))

section

variable {files : FileTree} {spot : Spot}

/-- one grammar is stated under a simple name -/
theorem Stated.unique {w w' : WrittenGrammar} (h : Stated files spot w) (h' : Stated files spot w')
    (hname : Grammar.simpleName w.name = Grammar.simpleName w'.name) : w = w' := by
  obtain ⟨content, hentry, hw⟩ := h
  obtain ⟨content', hentry', hw'⟩ := h'
  rw [hname, hentry'] at hentry
  cases hentry
  exact hw.unique hw'

theorem Stated.qualified {w : WrittenGrammar} (h : Stated files spot w) :
    Qualified w.name ∧ ∀ name ∈ w.uses, Qualified name := by
  obtain ⟨content, -, text, file, -, hw⟩ := h
  exact qualified_of_ofText hw

/-- a file that is found stands where its path leads -/
theorem entry_of_findsFile {p : Path} (h : files.findsFile p = .ok true) :
    p.isNameable = true ∧ ∃ place content, files.locate p = .ok place ∧ files.entryAt place = some (.file content) := by
  unfold FileTree.findsFile at h
  split at h
  · next hnameable =>
    split at h
    · cases h
    · cases h
    · next place hlocate =>
      split at h
      · next content hentry => exact ⟨hnameable, place, content, hlocate, hentry⟩
      · cases h
  · cases h

theorem ne_dots_fileNameOf (stem : Text) : fileNameOf stem ≠ Text.ofString ".." := by
  intro h
  have hlength : (fileNameOf stem).length = 2 := by
    rw [h]
    decide
  have hsuffix : (Text.ofString ".xtext").length = 6 := by decide
  rw [fileNameOf, List.length_append, hsuffix] at hlength
  omega

/-- where a file is looked for: under the parts of its name, the last of which is called like a file, and under the last
part alone -/
theorem candidates_eq {name : Text} (h : Qualified name) : ∃ front : List Text, (∀ p ∈ front, Path.Part p) ∧
    Path.Part (fileNameOf (Grammar.simpleName name)) ∧ ∀ directory : Path, candidates name directory =
      [directory.join ⟨.working, front ++ [fileNameOf (Grammar.simpleName name)]⟩,
        directory.join ⟨.working, [fileNameOf (Grammar.simpleName name)]⟩] := by
  obtain ⟨parts, hparts, hidentifiers, rfl⟩ := h
  obtain ⟨front, last, rfl⟩ : ∃ front last, parts = front ++ [last] := by
    rcases List.eq_nil_or_concat parts with rfl | ⟨front, last, rfl⟩
    · exact absurd rfl hparts
    · exact ⟨front, last, by simp⟩
  have hdot : ∀ p ∈ front ++ [last], CodePoint.ofChar '.' ∉ p := fun p hp =>
    not_mem_of_isIdentifier (hidentifiers p hp) (by decide)
  have hfront : ∀ p ∈ front, Path.Part p := fun p hp =>
    Path.part_of_isIdentifier (hidentifiers p (List.mem_append_left _ hp))
  have hlast : Path.Part (fileNameOf last) :=
    (Path.part_of_isIdentifier (hidentifiers last (by simp))).withSuffix
  have hsimple : Grammar.simpleName (Text.join "." (front ++ [last])) = last := by
    rw [Grammar.simpleName, Text.join_concat]
    exact Text.afterLast_concat front (hdot last (by simp))
  -- neither the dots nor the end of the file's name stand inside a part
  have hslashes : (Text.join "." (front ++ [last])).map (fun c => if c = CodePoint.ofChar '.' then CodePoint.ofChar '/' else c)
      = Text.join "/" (front ++ [last]) := by
    refine Text.map_join rfl fun p hp => ?_
    refine (List.map_congr_left fun c hc => if_neg ?_).trans (List.map_id p)
    rintro rfl
    exact hdot p hp hc
  have hpath : Path.ofText (Text.join "/" (front ++ [last]) ++ ".xtext") = ⟨.working, front ++ [fileNameOf last]⟩ := by
    have hparts : ∀ p ∈ front ++ [fileNameOf last], Path.Part p :=
      List.forall_mem_append.2 ⟨hfront, List.forall_mem_singleton.2 hlast⟩
    calc Path.ofText (Text.join "/" (front ++ [last]) ++ ".xtext")
        = Path.ofText (Text.join "/" (front ++ [fileNameOf last])) := by
          rw [Text.join_concat, Text.join_concat, List.append_assoc, ← fileNameOf]
      _ = ⟨.working, front ++ [fileNameOf last]⟩ := Path.ofText_join (by simp) hparts
  have hplain : Path.ofText (fileNameOf last) = ⟨.working, [fileNameOf last]⟩ := by
    have hjoin := Path.ofText_join (List.cons_ne_nil (fileNameOf last) []) (List.forall_mem_singleton.2 hlast)
    rwa [Text.join, List.intercalate_singleton] at hjoin
  rw [hsimple]
  refine ⟨front, hfront, hlast, fun directory => ?_⟩
  rw [candidates, hslashes, hsimple, Path.child, Path.child, hpath, ← fileNameOf, hplain]

/-- below the directory only a name without a path before it leads to a grammar file -/
theorem GrammarDirectory.front_eq_nil {directory : Path} (h : GrammarDirectory files directory spot) {base : Path}
    (hbase : files.locate base = .ok spot) {front : List Text} (hfront : ∀ p ∈ front, Path.Part p) {stem : Text}
    (hfound : files.findsFile (base.join ⟨.working, front ++ [fileNameOf stem]⟩) = .ok true) : front = [] := by
  obtain ⟨-, place, content, hlocate, hentry⟩ := entry_of_findsFile hfound
  have hnames : ∀ n ∈ front ++ [fileNameOf stem], n ≠ Text.ofString ".." := by
    intro n hn
    rcases List.mem_append.1 hn with hn | hn
    · exact (hfront n hn).ne_dots
    · exact List.mem_singleton.1 hn ▸ ne_dots_fileNameOf stem
  have hplace : place = (spot ++ front) ++ [fileNameOf stem] := by
    rw [List.append_assoc]
    exact FileTree.eq_append_of_follow hnames (FileTree.follow_of_locate hbase hlocate rfl rfl)
  have hdirect := h.direct (spot ++ front) stem content (hplace ▸ hentry)
  exact List.append_right_eq_self.1 hdirect

/-- a path that leads to a grammar file leads to a place in the directory -/
theorem place_of_findsFile {p : Path} {stem : Text} (hparent : files.locate p.parent = .ok spot)
    (hcalled : p.fileName = fileNameOf stem) (hfound : files.findsFile p = .ok true) :
    files.locate p = .ok (spot ++ [fileNameOf stem]) ∧
      ∃ content, files.entryAt (spot ++ [fileNameOf stem]) = some (.file content) := by
  obtain ⟨-, place, content, hlocate, hentry⟩ := entry_of_findsFile hfound
  have hne : p.parts ≠ [] := by
    intro hnil
    have hlength := congrArg List.length hcalled
    have hsuffix : (Text.ofString ".xtext").length = 6 := by decide
    rw [Path.fileName, hnil, fileNameOf, List.length_append, hsuffix] at hlength
    simp at hlength
  have hparts : p.parts = p.parent.parts ++ [fileNameOf stem] := by
    rw [← hcalled, Path.fileName, Path.parent, List.getLastD_eq_getLast?, List.getLast?_eq_some_getLast hne]
    exact (List.dropLast_append_getLast hne).symm
  have hplace : place = spot ++ [fileNameOf stem] :=
    FileTree.eq_append_of_follow (List.forall_mem_singleton.2 (ne_dots_fileNameOf stem))
      (FileTree.follow_of_locate hparent hlocate rfl hparts)
  exact hplace ▸ ⟨hlocate, content, hentry⟩

/-- the question for a file that is there is answered with no only when the path cannot be named -/
theorem GrammarDirectory.not_file_of_findsFile {directory : Path} (h : GrammarDirectory files directory spot)
    {base : Path} (hbase : files.locate base = .ok spot) (hnameable : base.isNameable = true) {stem : Text}
    (hstem : Path.Part (fileNameOf stem))
    (hfound : files.findsFile (base.join ⟨.working, [fileNameOf stem]⟩) = .ok false) (content : Bytes) :
    files.entryAt (spot ++ [fileNameOf stem]) ≠ some (.file content) := by
  intro hentry
  have hnameable' : (base.join ⟨.working, [fileNameOf stem]⟩).isNameable = true := by
    rw [Path.isNameable, Path.join_working, List.all_append, ← Path.isNameable, hnameable]
    simpa using hstem.no_zero
  have hlocate : files.locate (base.join ⟨.working, [fileNameOf stem]⟩) = .error .nameTooLong ∨
      files.locate (base.join ⟨.working, [fileNameOf stem]⟩) = .ok (spot ++ [fileNameOf stem]) := by
    unfold FileTree.locate at hbase ⊢
    split at hbase
    · cases hbase
    · split
      · exact .inl rfl
      · rw [Path.join_working, FileTree.follow_append]
        rw [show (Path.mk base.root (base.parts ++ [fileNameOf stem])).isAbsolute = base.isAbsolute from rfl, hbase]
        exact FileTree.follow_singleton h.isDirectory hstem.ne_dots
  unfold FileTree.findsFile at hfound
  rw [if_pos hnameable'] at hfound
  rcases hlocate with hlocate | hlocate
  · rw [hlocate] at hfound
    cases hfound
  · rw [hlocate] at hfound
    simp [hentry] at hfound

def fileIn (directory : Path) (name : Text) : Path := directory.join ⟨.working, [fileNameOf (Grammar.simpleName name)]⟩

@[simp] theorem parent_fileIn (directory : Path) (name : Text) : (fileIn directory name).parent = directory := by
  simp [fileIn, Path.join_working, Path.parent]

@[simp] theorem fileName_fileIn (directory : Path) (name : Text) :
    (fileIn directory name).fileName = fileNameOf (Grammar.simpleName name) := by
  simp [fileIn, Path.join_working, Path.fileName]

/-- what a search in the one directory can come to -/
theorem GrammarDirectory.firstFile?_cases {directory : Path} (h : GrammarDirectory files directory spot) {base : Path}
    (hbase : files.locate base = .ok spot) {name : Text} (hname : Qualified name) :
    (∃ e, files.firstFile? (candidates name base) = .error e) ∨
    (files.firstFile? (candidates name base) = .ok (some (fileIn base name)) ∧
      files.findsFile (fileIn base name) = .ok true) ∨
    (files.firstFile? (candidates name base) = .ok none ∧ files.findsFile (fileIn base name) = .ok false) := by
  obtain ⟨front, hfront, -, hcandidates⟩ := candidates_eq hname
  rw [hcandidates, ← fileIn, FileTree.firstFile?]
  rcases hfull : files.findsFile (base.join ⟨.working, front ++ [fileNameOf (Grammar.simpleName name)]⟩) with e | found
  · exact .inl ⟨_, rfl⟩
  · cases found with
    | true =>
      have hnil := h.front_eq_nil hbase hfront hfull
      rw [hnil, List.nil_append, ← fileIn] at hfull
      rw [hnil, List.nil_append, ← fileIn]
      exact .inr (.inl ⟨rfl, hfull⟩)
    | false =>
      rw [FileTree.firstFile?]
      rcases hplain : files.findsFile (fileIn base name) with e | found
      · exact .inl ⟨_, rfl⟩
      · cases found with
        | true => exact .inr (.inl ⟨rfl, rfl⟩)
        | false => exact .inr (.inr ⟨rfl, rfl⟩)

/-- **Looking for a grammar file**, first in a directory and then in the search path, when both are the directory that
holds all grammar files: the file is found that is called like the last part of the name, or there is no such file, or
the question is refused for the length of a name -/
theorem GrammarDirectory.findFile?_cases {directory : Path} (h : GrammarDirectory files directory spot) {base : Path}
    (hbase : files.locate base = .ok spot) (hnameable : base.isNameable = true) {name : Text} (hname : Qualified name) :
    (∃ file, findFile? files [base, directory] name = .error (.unsearchable file .nameTooLong)) ∨
    (findFile? files [base, directory] name = .ok (some (fileIn base name)) ∧
      files.findsFile (fileIn base name) = .ok true) ∨
    (findFile? files [base, directory] name = .ok none ∧
      ∀ content, files.entryAt (spot ++ [fileNameOf (Grammar.simpleName name)]) ≠ some (.file content)) := by
  obtain ⟨front, -, hlast, -⟩ := candidates_eq hname
  rw [findFile?, List.flatMap_cons, List.flatMap_singleton, FileTree.firstFile?_append]
  rcases h.firstFile?_cases hbase hname with ⟨e, hfirst⟩ | ⟨hfirst, hfound⟩ | ⟨hfirst, hfound⟩
  · rw [hfirst, ← FileTree.fault_of_firstFile? hfirst]
    exact .inl ⟨e.1, rfl⟩
  · rw [hfirst]
    exact .inr (.inl ⟨rfl, hfound⟩)
  · -- there is no such file, so nothing is found in the search path either
    have hnone := h.not_file_of_findsFile hbase hnameable hlast hfound
    rw [hfirst]
    rcases h.firstFile?_cases h.located hname with ⟨e, hsecond⟩ | ⟨-, hfound'⟩ | ⟨hsecond, -⟩
    · simp only [hsecond]
      rw [← FileTree.fault_of_firstFile? hsecond]
      exact .inl ⟨e.1, rfl⟩
    · obtain ⟨-, content, hentry⟩ := place_of_findsFile (by rw [parent_fileIn]; exact h.located) (fileName_fileIn _ _) hfound'
      exact absurd hentry (hnone content)
    · simp only [hsecond]
      exact .inr (.inr ⟨rfl, hnone⟩)

/-! ## What the files state -/

/-- every grammar file states a grammar of the file's name -/
theorem GrammarDirectory.states_of_findsFile {directory : Path} (h : GrammarDirectory files directory spot) {p : Path}
    {stem : Text} (hparent : files.locate p.parent = .ok spot) (hcalled : p.fileName = fileNameOf stem)
    (hfound : files.findsFile p = .ok true) :
    ∃ w, States files p w ∧ Stated files spot w ∧ Grammar.simpleName w.name = stem := by
  obtain ⟨hlocate, content, hentry⟩ := place_of_findsFile hparent hcalled hfound
  obtain ⟨w, hw, hstem, -⟩ := h.states stem content hentry
  obtain ⟨hnameable, -⟩ := entry_of_findsFile hfound
  have hstated : Stated files spot w := ⟨content, hstem ▸ hentry, hw⟩
  obtain ⟨text, file, hdecode, hread⟩ := hw
  refine ⟨w, ⟨text.unifyLineEnds, ?_, ofText_of_ok hread⟩, hstated, hstem⟩
  simp [textOf, hnameable, FileTree.read, hlocate, hentry, hdecode]

end

/-! ## Directories of given grammars -/

/-- files that lie where relative paths start, each with the text of a grammar and called like it -/
def filesOf (gs : List (WrittenGrammar × Bytes)) : FileTree :=
  ⟨[], gs.map fun p => ([fileNameOf (Grammar.simpleName p.1.name)], .file p.2)⟩

/-- a grammar that says no more than its name and what it uses -/
def bareGrammar (name : Text) (uses : List Text) : WrittenGrammar := ⟨name, none, uses, [], [], []⟩

def bareText (name : Text) (uses : List Text) : Text :=
  if uses = [] then "grammar " ++ name else "grammar " ++ (name ++ (" with " ++ Text.join ", " uses))

/-- a bare grammar and its file; its names are made of one-byte characters -/
def bareFile (name : Text) (uses : List Text) : WrittenGrammar × Bytes :=
  (bareGrammar name uses, (bareText name uses).map fun c => c.val.toUInt8)

theorem statedBy_bareFile (file : Path) {name : Text} {uses : List Text} (h : ∀ c ∈ bareText name uses, c.val < 0x80)
    (hw : WrittenGrammar.ofText file (bareText name uses).unifyLineEnds = .ok (bareGrammar name uses)) :
    StatedBy (bareFile name uses).2 (bareGrammar name uses) :=
  ⟨bareText name uses, file, Utf8.decode_ascii h, hw⟩

/-- a file with the bytes of a bare grammar states it -/
theorem states_bareFile {files : FileTree} {file : Path} {name : Text} {uses : List Text} (hnameable : file.isNameable = true)
    (hread : files.read file = .ok (bareFile name uses).2) (h : ∀ c ∈ bareText name uses, c.val < 0x80)
    (hw : WrittenGrammar.ofText file (bareText name uses).unifyLineEnds = .ok (bareGrammar name uses)) :
    States files file (bareGrammar name uses) := by
  refine ⟨_, ?_, hw⟩
  rw [textOf, if_pos hnameable]
  simp [hread, bareFile, Utf8.decode_ascii h]

theorem mem_of_entryAt_filesOf {gs : List (WrittenGrammar × Bytes)} {place : Spot} {stem : Text} {content : Bytes}
    (h : (filesOf gs).entryAt (place ++ [fileNameOf stem]) = some (.file content)) :
    place = [] ∧ ∃ p ∈ gs, Grammar.simpleName p.1.name = stem ∧ p.2 = content := by
  obtain ⟨p, hp, hentry⟩ := List.mem_map.1 (FileTree.mem_entries_of_entryAt h)
  obtain ⟨hplace, hcontent⟩ := Prod.ext_iff.1 hentry
  obtain ⟨hnil, hname⟩ := List.append_inj' (show [] ++ [_] = place ++ [_] from hplace) rfl
  have hstem : Grammar.simpleName p.1.name = stem := List.append_cancel_right (List.singleton_inj.1 hname)
  exact ⟨hnil.symm, p, hp, hstem, FileNode.file.inj hcontent⟩

/-- the files of grammars that use each other by their names, and in no circle, are a directory of grammar files -/
theorem grammarDirectory_filesOf {gs : List (WrittenGrammar × Bytes)} (hstated : ∀ p ∈ gs, StatedBy p.2 p.1)
    (hbuiltin : ∀ p ∈ gs, p.1.name ≠ builtinName)
    (hnamed : ∀ p ∈ gs, ∀ q ∈ gs, ∀ name ∈ p.1.uses, Grammar.simpleName name = Grammar.simpleName q.1.name → name = q.1.name)
    (rank : Text → Nat) (hrank : ∀ p ∈ gs, ∀ name ∈ p.1.uses, rank name < rank p.1.name) :
    GrammarDirectory (filesOf gs) "." [] := by
  have hgiven : ∀ w, Stated (filesOf gs) [] w → ∃ p ∈ gs, p.1 = w := by
    rintro w ⟨content, hentry, hw⟩
    obtain ⟨-, p, hp, -, rfl⟩ := mem_of_entryAt_filesOf hentry
    exact ⟨p, hp, (hstated p hp).unique hw⟩
  have hlower : ∀ user name, Relation.TransGen (NameUses (filesOf gs) []) user name → rank name < rank user := by
    intro user name h
    induction h with
    | single huses =>
      obtain ⟨w, hw, rfl, hname⟩ := huses
      obtain ⟨p, hp, rfl⟩ := hgiven w hw
      exact hrank p hp _ hname
    | tail _ huses ih =>
      obtain ⟨w, hw, rfl, hname⟩ := huses
      obtain ⟨p, hp, rfl⟩ := hgiven w hw
      have hstep := hrank p hp _ hname
      omega
  constructor
  · rfl
  · rfl
  · intro place stem content hentry
    exact (mem_of_entryAt_filesOf hentry).1
  · intro stem content hentry
    obtain ⟨-, p, hp, hstem, rfl⟩ := mem_of_entryAt_filesOf hentry
    exact ⟨p.1, hstated p hp, hstem, hbuiltin p hp⟩
  · intro w w' hw hw' name hname hsimple
    obtain ⟨p, hp, rfl⟩ := hgiven w hw
    obtain ⟨q, hq, rfl⟩ := hgiven w' hw'
    exact hnamed p hp q hq name hname hsimple
  · intro name hcircle
    have hless := hlower name name hcircle
    omega

end Library

end Rulebook
