/-
The files that are open at a time while a grammar file is read.

A used grammar is read inside the one that uses it, so the open files form a stack (`OpenFiles`). The names being read
are meant to keep a file from being opened again inside itself. They are names that the open files declare
(`OpenFiles.declared`), and such a name is being read or on the shelf (`OpenFiles.known`); so a file is opened again
exactly when it is found for a name that no open file declares.

- `read_ends_iff`: the open files are always different, are never more than there are files, and the reading comes to
  an end, if and only if every name that is looked for and leads to an open file is declared by an open file;
- `read_ends_of_named`: this holds when every file that is found for a name declares that name;
- `crossed_names_reopen`: two files that use each other, one under a name that it does not declare, are open three
  times;
- `misnamed_self_use_never_ends`: a file that uses itself under a name that it does not declare is read without end.
-/
import Mathlib
import Rulebook.Proofs.Loading

namespace Rulebook

open Source

/-! ## The files of a tree -/

namespace FileTree

/-- the places where files stand, each once -/
def fileSpots (t : FileTree) : List Spot :=
  (t.entries.map Prod.fst).dedup.filter fun spot =>
    match t.entryAt spot with
    | some (.file _) => true
    | _ => false

/-- a file that stands at a place is listed -/
theorem mem_entries_of_entryAt {t : FileTree} {spot : Spot} {content : Bytes}
    (h : t.entryAt spot = some (.file content)) : (spot, .file content) ∈ t.entries := by
  unfold entryAt at h
  split at h
  · cases h
  · obtain ⟨before, after, hsplit, -⟩ := List.lookup_eq_some_iff.1 h
    simp [hsplit]

theorem mem_fileSpots {t : FileTree} {spot : Spot} {content : Bytes} (h : t.entryAt spot = some (.file content)) :
    spot ∈ t.fileSpots := by
  have hlisted : spot ∈ t.entries.map Prod.fst := List.mem_map_of_mem (mem_entries_of_entryAt h)
  simp only [fileSpots, List.mem_filter, List.mem_dedup]
  exact ⟨hlisted, by simp [h]⟩

theorem length_fileSpots_le (t : FileTree) : t.fileSpots.length ≤ t.entries.length := by
  calc t.fileSpots.length ≤ (t.entries.map Prod.fst).dedup.length := List.length_filter_le _ _
    _ ≤ (t.entries.map Prod.fst).length := (List.dedup_sublist _).length_le
    _ = t.entries.length := List.length_map _

/-- a file that is found stands at a place -/
theorem spot_of_findsFile {t : FileTree} {p : Path} (h : t.findsFile p = .ok true) :
    ∃ spot, t.locate p = .ok spot ∧ spot ∈ t.fileSpots := by
  unfold findsFile at h
  split at h
  · split at h
    · cases h
    · cases h
    · next spot hlocate =>
      split at h
      · next content hentry => exact ⟨spot, hlocate, mem_fileSpots hentry⟩
      · cases h
  · cases h

theorem findsFile_of_firstFile? {t : FileTree} {ps : List Path} {p : Path} (h : t.firstFile? ps = .ok (some p)) :
    t.findsFile p = .ok true := by
  induction ps with
  | nil => cases h
  | cons q ps ih =>
    unfold firstFile? at h
    split at h
    · cases h
    · next hfinds =>
      cases h
      exact hfinds
    · exact ih h

end FileTree

namespace Library

theorem findsFile_of_findFile? {files : FileTree} {directories : List Path} {name : Text} {file : Path}
    (h : findFile? files directories name = .ok (some file)) : files.findsFile file = .ok true := by
  unfold findFile? at h
  cases hfirst : files.firstFile? (directories.flatMap (candidates name)) with
  | error e => simp [hfirst, Except.mapError] at h
  | ok found =>
    rw [hfirst] at h
    cases h
    exact FileTree.findsFile_of_firstFile? hfirst

/-- the text of a file that is found is that of its place -/
theorem textOf_of_locate {files : FileTree} {p q : Path} (hp : files.findsFile p = .ok true)
    (hq : files.findsFile q = .ok true) (h : files.locate p = files.locate q) {source : Text}
    (hsource : textOf files p = .ok source) : textOf files q = .ok source := by
  have hnameable : ∀ {r : Path}, files.findsFile r = .ok true → r.isNameable = true := by
    intro r hr
    by_contra hnot
    simp [FileTree.findsFile, hnot] at hr
  have hread : files.read p = files.read q := by
    unfold FileTree.read
    rw [h]
  unfold textOf at hsource ⊢
  rw [if_pos (hnameable hp), hread] at hsource
  rw [if_pos (hnameable hq)]
  cases hcontent : files.read q with
  | error fault => simp [hcontent] at hsource
  | ok content =>
    cases hdecode : Utf8.decode content with
    | error fault => simp [hcontent, hdecode] at hsource
    | ok t => simpa [hcontent, hdecode] using hsource

/-- a file whose text can be taken is found -/
theorem findsFile_of_textOf {files : FileTree} {file : Path} {source : Text} (h : textOf files file = .ok source) :
    files.findsFile file = .ok true := by
  unfold textOf at h
  split at h
  · next hnameable =>
    unfold FileTree.read at h
    cases hlocate : files.locate file with
    | error fault => simp [hlocate] at h
    | ok spot =>
      rcases hentry : files.entryAt spot with _ | _ | content
      · simp [hlocate, hentry] at h
      · simp [hlocate, hentry] at h
      · simp [FileTree.findsFile, hnameable, hlocate, hentry]
  · cases h

/-! ## Stacks of open files -/

/-- a file that is being read, and the library as its reading began -/
structure OpenFile where
  file : Path
  library : Library

section

variable {files : FileTree} {searchPaths : List Path}

def States (files : FileTree) (file : Path) (w : WrittenGrammar) : Prop :=
  ∃ source, textOf files file = .ok source ∧ WrittenGrammar.ofText file source = .ok w

def Declares (files : FileTree) (file : Path) (name : Text) : Prop := ∃ w, States files file w ∧ w.name = name

/-- while the file is read the name is looked for; the grammars used before it have been read, which makes the
library `l` -/
def Seeks (files : FileTree) (searchPaths : List Path) (o : OpenFile) (name : Text) (l : Library) : Prop :=
  ∃ w before after depth used, States files o.file w ∧ w.uses = before ++ name :: after ∧
    eachUsed (use files (o.file.parent :: searchPaths) (readGrammarWithin files searchPaths depth)) before
      (o.library.enter w.name) = (.ok used, l)

/-- the files that are open at a time while `file` is read, the innermost first -/
inductive OpenFiles (files : FileTree) (searchPaths : List Path) (file : Path) (l : Library) :
    List OpenFile → Prop where
  | start : files.findsFile file = .ok true → OpenFiles files searchPaths file l [⟨file, l⟩]
  | inside {outer inner : OpenFile} {stack : List OpenFile} {name : Text} :
    OpenFiles files searchPaths file l (outer :: stack) → Seeks files searchPaths outer name inner.library →
    Opens files (outer.file.parent :: searchPaths) name inner.library inner.file →
    OpenFiles files searchPaths file l (inner :: outer :: stack)

def OpensOnce (files : FileTree) (searchPaths : List Path) (file : Path) (l : Library) : Prop :=
  ∀ stack, OpenFiles files searchPaths file l stack → (stack.map fun o => files.locate o.file).Nodup

def OpensNoMore (files : FileTree) (searchPaths : List Path) (file : Path) (l : Library) : Prop :=
  ∀ stack, OpenFiles files searchPaths file l stack → stack.length ≤ files.fileSpots.length

/-- the reading comes to an end by itself: it is not refused for the number of open files, and a greater limit on them
changes nothing -/
def Ends (files : FileTree) (searchPaths : List Path) (file : Path) (l : Library) : Prop :=
  ¬ (readGrammar files searchPaths file l).TooDeep ∧ ∀ depth, depthLimit files ≤ depth →
    readGrammarWithin files searchPaths depth file l = readGrammar files searchPaths file l

/-- a name that is neither on the shelf nor built in, and for which an open file is found, is declared by an open
file -/
def NamesOpenFiles (files : FileTree) (searchPaths : List Path) (file : Path) (l : Library) : Prop :=
  ∀ outer stack, OpenFiles files searchPaths file l (outer :: stack) → ∀ name l' found,
    Seeks files searchPaths outer name l' → ¬ l'.Shelved name → name ≠ builtinName →
    findFile? files (outer.file.parent :: searchPaths) name = .ok (some found) →
    (∃ o ∈ outer :: stack, files.locate o.file = files.locate found) →
    ∃ o ∈ outer :: stack, Declares files o.file name

/-- a file states one grammar -/
theorem States.unique {file : Path} {w w' : WrittenGrammar} (h : States files file w) (h' : States files file w') :
    w = w' := by
  obtain ⟨source, hsource, hw⟩ := h
  obtain ⟨source', hsource', hw'⟩ := h'
  rw [hsource] at hsource'
  cases hsource'
  rw [hw] at hw'
  exact Except.ok.inj hw'

/-! ## The names being read -/

/-- the grammars that are read before a name is looked for leave the library in order -/
theorem Seeks.orderly {o : OpenFile} {name : Text} {l : Library} (h : Seeks files searchPaths o name l) :
    ∃ w used, States files o.file w ∧
      Outcome.Orderly (o.library.enter w.name) ((.ok used, l) : Outcome (List Grammar)) := by
  obtain ⟨w, before, _, depth, used, hstates, -, heach⟩ := h
  refine ⟨w, used, hstates, ?_⟩
  rw [← heach]
  exact orderly_eachUsed (orderly_use (orderly_readGrammarWithin files searchPaths depth)) before _

/-- what a file declares is known as soon as a name is looked for while it is read, and what was known stays so -/
theorem Seeks.known {o : OpenFile} {name : Text} {l : Library} (h : Seeks files searchPaths o name l) :
    (∀ n, o.library.Known n → l.Known n) ∧ ∀ n, Declares files o.file n → l.Known n := by
  obtain ⟨w, used, hstates, horderly⟩ := h.orderly
  refine ⟨fun n hn => horderly.known used rfl n ?_, ?_⟩
  · rcases hn with hn | hn
    · exact .inl (by simp [hn])
    · exact .inr (by simpa using hn)
  · intro n hdeclares
    rcases hdeclares with ⟨w', hstates', rfl⟩
    exact horderly.known used rfl _ (.inl (by simp [hstates.unique hstates']))

/-- while a file is read only what it declares is newly open -/
theorem Seeks.opened {o : OpenFile} {name : Text} {l : Library} (h : Seeks files searchPaths o name l) {n : Text}
    (hn : n ∈ l.opened) : n ∈ o.library.opened ∨ Declares files o.file n := by
  obtain ⟨w, used, hstates, horderly⟩ := h.orderly
  rcases (mem_opened_enter _ _ _).1 (horderly.opened n hn) with rfl | hbefore
  · exact .inr ⟨w, hstates, rfl⟩
  · exact .inl hbefore

/-- what the open files around a file declare is known when the file is opened -/
theorem OpenFiles.known {file : Path} {l : Library} {inner : OpenFile} {stack : List OpenFile}
    (h : OpenFiles files searchPaths file l (inner :: stack)) :
    ∀ o ∈ stack, ∀ n, Declares files o.file n → inner.library.Known n := by
  generalize hs : inner :: stack = s at h
  induction h generalizing inner stack with
  | start _ =>
    cases hs
    exact fun _ ho => nomatch ho
  | @inside outer next below name _ hseeks _ ih =>
    cases hs
    intro o ho n hn
    rcases List.mem_cons.1 ho with rfl | ho
    · exact hseeks.known.2 n hn
    · exact hseeks.known.1 n (ih rfl o ho n hn)

/-- only what the open files around a file declare is open when the file is opened -/
theorem OpenFiles.declared {file : Path} {l : Library} (hl : l.opened = []) {inner : OpenFile} {stack : List OpenFile}
    (h : OpenFiles files searchPaths file l (inner :: stack)) :
    ∀ n ∈ inner.library.opened, ∃ o ∈ stack, Declares files o.file n := by
  generalize hs : inner :: stack = s at h
  induction h generalizing inner stack with
  | start _ =>
    cases hs
    intro n hn
    simp [hl] at hn
  | @inside outer next below name _ hseeks _ ih =>
    cases hs
    intro n hn
    rcases hseeks.opened hn with hn | hn
    · obtain ⟨o, ho, hdeclares⟩ := ih rfl n hn
      exact ⟨o, List.mem_cons_of_mem _ ho, hdeclares⟩
    · exact ⟨outer, List.mem_cons_self, hn⟩

/-- no file is opened while it is open if and only if every name that leads to an open file is declared by one -/
theorem opensOnce_iff {file : Path} {l : Library} (hl : l.opened = []) :
    OpensOnce files searchPaths file l ↔ NamesOpenFiles files searchPaths file l := by
  constructor
  · intro honce outer stack hopen name l' found hseeks hshelf hbuiltin hfind hsame
    by_cases hname : name ∈ l'.opened
    · rcases hseeks.opened hname with hbefore | hdeclares
      · obtain ⟨o, ho, hdeclares⟩ := hopen.declared hl name hbefore
        exact ⟨o, List.mem_cons_of_mem _ ho, hdeclares⟩
      · exact ⟨outer, List.mem_cons_self, hdeclares⟩
    · -- the file would be opened again
      have hagain : OpenFiles files searchPaths file l (⟨found, l'⟩ :: outer :: stack) :=
        .inside hopen hseeks ⟨hshelf, hname, hbuiltin, hfind⟩
      have hnodup := honce _ hagain
      rw [List.map_cons, List.nodup_cons] at hnodup
      obtain ⟨o, ho, hplace⟩ := hsame
      exact absurd (List.mem_map.2 ⟨o, ho, hplace⟩) hnodup.1
  · intro hnames stack hopen
    induction hopen with
    | start _ => exact List.nodup_singleton _
    | @inside outer inner stack name hopen hseeks hopens ih =>
      rw [List.map_cons, List.nodup_cons]
      refine ⟨fun hmem => ?_, ih⟩
      obtain ⟨o, ho, hplace⟩ := List.mem_map.1 hmem
      obtain ⟨declarer, hdeclarer, hdeclares⟩ := hnames outer stack hopen name inner.library inner.file hseeks
        hopens.unshelved hopens.notBuiltin hopens.found ⟨o, ho, hplace⟩
      have hknown : inner.library.Known name := by
        rcases List.mem_cons.1 hdeclarer with rfl | hdeclarer
        · exact hseeks.known.2 name hdeclares
        · exact hseeks.known.1 name (hopen.known declarer hdeclarer name hdeclares)
      rcases hknown with hopened | hshelved
      · exact hopens.unopened hopened
      · exact hopens.unshelved hshelved

/-! ## The number of open files, and the end of a reading -/

theorem OpenFiles.spot {file : Path} {l : Library} {stack : List OpenFile}
    (h : OpenFiles files searchPaths file l stack) :
    ∀ o ∈ stack, ∃ spot, files.locate o.file = .ok spot ∧ spot ∈ files.fileSpots := by
  induction h with
  | start hfinds => exact List.forall_mem_singleton.2 (FileTree.spot_of_findsFile hfinds)
  | inside _ _ hopens ih =>
    exact List.forall_mem_cons.2 ⟨FileTree.spot_of_findsFile (findsFile_of_findFile? hopens.found), ih⟩

/-- different open files are no more than there are files -/
theorem opensNoMore_of_opensOnce {file : Path} {l : Library} (h : OpensOnce files searchPaths file l) :
    OpensNoMore files searchPaths file l := by
  intro stack hopen
  have hsubset : (stack.map fun o => files.locate o.file) ⊆ files.fileSpots.map Except.ok := by
    intro place hplace
    obtain ⟨o, ho, rfl⟩ := List.mem_map.1 hplace
    obtain ⟨spot, hlocate, hspot⟩ := hopen.spot o ho
    exact List.mem_map.2 ⟨spot, hspot, hlocate.symm⟩
  simpa using (h stack hopen).length_le_of_subset hsubset

/-- a reading that is refused for its depth comes to a file for which that holds already -/
theorem opens_of_tooDeep (o : OpenFile) (depth : Nat)
    (h : (readGrammarWithin files searchPaths (depth + 1) o.file o.library).TooDeep) :
    ∃ name, ∃ inner : OpenFile, Seeks files searchPaths o name inner.library ∧
      Opens files (o.file.parent :: searchPaths) name inner.library inner.file ∧
      (readGrammarWithin files searchPaths depth inner.file inner.library).TooDeep := by
  obtain ⟨l', hdeep⟩ := h.exists_eq
  unfold readGrammarWithin at hdeep
  cases htext : textOf files o.file with
  | error e =>
    -- a text that cannot be taken has an error of its own
    simp only [htext, Prod.mk.injEq, Except.error.injEq] at hdeep
    obtain ⟨rfl, -⟩ := hdeep
    unfold textOf at htext
    split at htext
    · split at htext
      · cases htext
      · split at htext <;> cases htext
    · cases htext
  | ok source =>
    simp only [htext, readWith] at hdeep
    cases hw : WrittenGrammar.ofText o.file source with
    | error e => simp [hw] at hdeep
    | ok w =>
      simp only [hw] at hdeep
      rcases heach : eachUsed (use files (o.file.parent :: searchPaths) (readGrammarWithin files searchPaths depth))
        w.uses (o.library.enter w.name) with ⟨e | gs, l₁⟩
      · simp only [heach, Prod.mk.injEq, Except.error.injEq] at hdeep
        obtain ⟨rfl, -⟩ := hdeep
        obtain ⟨before, name, after, used, l₂, huses, hbefore, hname⟩ := eachUsed_error heach
        rcases use_cases files (o.file.parent :: searchPaths) name l₂ with ⟨inner, hopens, hload⟩ | ⟨r, hr, hsame⟩
        · rw [hload] at hname
          exact ⟨name, ⟨inner, l₂⟩, ⟨w, before, after, depth, used, ⟨source, htext, hw⟩, huses, hbefore⟩, hopens,
            congrArg Prod.fst hname⟩
        · rw [hsame] at hname
          exact absurd (congrArg Prod.fst hname) hr
      · simp [heach] at hdeep

/-- with as many files as there may be, no reading is refused for its depth -/
theorem OpenFiles.not_tooDeep {file : Path} {l : Library} (hbound : OpensNoMore files searchPaths file l) {depth : Nat}
    {o : OpenFile} {stack : List OpenFile} (h : OpenFiles files searchPaths file l (o :: stack))
    (hdepth : files.fileSpots.length ≤ depth + stack.length) :
    ¬ (readGrammarWithin files searchPaths depth o.file o.library).TooDeep := by
  induction depth generalizing o stack with
  | zero =>
    have hlength := hbound _ h
    rw [List.length_cons] at hlength
    omega
  | succ depth ih =>
    intro hdeep
    obtain ⟨name, inner, hseeks, hopens, hinner⟩ := opens_of_tooDeep o depth hdeep
    refine ih (.inside h hseeks hopens) ?_ hinner
    rw [List.length_cons]
    omega

theorem ends_of_opensNoMore {file : Path} {l : Library} (hbound : OpensNoMore files searchPaths file l) :
    Ends files searchPaths file l := by
  have hdeep : ¬ (readGrammar files searchPaths file l).TooDeep := by
    by_cases hfinds : files.findsFile file = .ok true
    · have hlimit : files.fileSpots.length ≤ depthLimit files + 0 := by
        have hle := files.length_fileSpots_le
        unfold depthLimit
        omega
      exact (OpenFiles.start hfinds).not_tooDeep hbound hlimit
    · intro hdeep
      -- nothing is read from a file that is not found
      obtain ⟨name, inner, ⟨w, _, _, _, _, ⟨source, htext, _⟩, _⟩, _, _⟩ :=
        opens_of_tooDeep ⟨file, l⟩ (files.entries.length + 255) hdeep
      exact hfinds (findsFile_of_textOf htext)
  exact ⟨hdeep, fun depth hle => readGrammarWithin_of_le hle file l hdeep⟩

/-- between two calls, a reading opens each file once at a time, has never more files open than there are and comes to
an end, if and only if every name that is looked for and leads to an open file is declared by an open file -/
theorem read_ends_iff (files : FileTree) (searchPaths : List Path) (file : Path) {l : Library} (hl : l.Idle) :
    (OpensOnce files searchPaths file l ∧ OpensNoMore files searchPaths file l ∧ Ends files searchPaths file l) ↔
      NamesOpenFiles files searchPaths file l := by
  rw [← opensOnce_iff hl.opened_eq]
  refine ⟨fun h => h.1, fun honce => ?_⟩
  have hbound := opensNoMore_of_opensOnce honce
  exact ⟨honce, hbound, ends_of_opensNoMore hbound⟩

/-- the first file stays open -/
theorem OpenFiles.start_mem {file : Path} {l : Library} {stack : List OpenFile}
    (h : OpenFiles files searchPaths file l stack) : ⟨file, l⟩ ∈ stack := by
  induction h with
  | start _ => exact List.mem_singleton_self _
  | inside _ _ _ ih => exact List.mem_cons_of_mem _ ih

theorem OpenFiles.states {file : Path} {l : Library} {inner : OpenFile} {stack : List OpenFile}
    (h : OpenFiles files searchPaths file l (inner :: stack)) : ∀ o ∈ stack, ∃ w, States files o.file w := by
  generalize hs : inner :: stack = s at h
  induction h generalizing inner stack with
  | start _ =>
    cases hs
    exact fun _ ho => nomatch ho
  | @inside outer next below name _ hseeks _ ih =>
    cases hs
    obtain ⟨w, _, hstates, _⟩ := hseeks.orderly
    exact List.forall_mem_cons.2 ⟨⟨w, hstates⟩, ih rfl⟩

/-- the grammar that a text states does not depend on the file that holds it -/
theorem ofText_of_ok {p q : Path} {source : Text} {w : WrittenGrammar} (h : WrittenGrammar.ofText p source = .ok w) :
    WrittenGrammar.ofText q source = .ok w := by
  obtain ⟨lexed, hlexed, hwords⟩ := WrittenGrammar.ofText_eq_ok_iff.1 h
  exact WrittenGrammar.ofText_eq_ok_iff.2
    ⟨lexed, Lexed.ofSource_eq_ok_iff.2 (Lexed.ofSource_eq_ok_iff.1 hlexed), hwords⟩

/-- a file states the same whichever path leads to it -/
theorem States.of_locate {p q : Path} {w : WrittenGrammar} (hq : files.findsFile q = .ok true)
    (h : files.locate p = files.locate q) (hp : States files p w) : States files q w := by
  obtain ⟨source, htext, hw⟩ := hp
  exact ⟨source, textOf_of_locate (findsFile_of_textOf htext) hq h htext, ofText_of_ok hw⟩

/-- where every file that is found for a used name declares this name, every reading comes to its end with each file
opened once at a time -/
theorem read_ends_of_named (file : Path) {l : Library} (hl : l.Idle)
    (hnamed : ∀ user w name found, States files user w → name ∈ w.uses →
      findFile? files (user.parent :: searchPaths) name = .ok (some found) →
      ∀ w', States files found w' → w'.name = name) :
    OpensOnce files searchPaths file l ∧ OpensNoMore files searchPaths file l ∧ Ends files searchPaths file l := by
  have honce : OpensOnce files searchPaths file l := by
    refine (opensOnce_iff hl.opened_eq).2 ?_
    intro outer stack hopen name l' found hseeks _ _ hfind hsame
    obtain ⟨o, ho, hplace⟩ := hsame
    have hstates : ∃ w, States files o.file w := by
      rcases List.mem_cons.1 ho with rfl | ho
      · obtain ⟨w, _, hstates, _⟩ := hseeks.orderly
        exact ⟨w, hstates⟩
      · exact hopen.states o ho
    obtain ⟨w, hstates⟩ := hstates
    obtain ⟨w', before, after, _, _, houter, huses, _⟩ := hseeks
    have hused : name ∈ w'.uses := by simp [huses]
    have hfound := hstates.of_locate (findsFile_of_findFile? hfind) hplace
    exact ⟨o, ho, w, hstates, hnamed outer.file w' name found houter hused hfind w hfound⟩
  have hbound := opensNoMore_of_opensOnce honce
  exact ⟨honce, hbound, ends_of_opensNoMore hbound⟩

end

/-! ## Files that are opened again -/

/-- a file of one-byte characters -/
def plainFile (content : String) : FileNode :=
  .file (content.toList.map fun c => UInt8.ofNat c.toNat)

/-- a file that uses itself under the name that it declares -/
def selfUsingFile : FileTree := ⟨[], [(["Z.xtext"], plainFile "grammar Z with Z")]⟩

/-- the file is not opened again -/
theorem named_self_use_ends : Library.empty.Idle ∧ (OpensOnce selfUsingFile [] "Z.xtext" .empty ∧
    OpensNoMore selfUsingFile [] "Z.xtext" .empty ∧ Ends selfUsingFile [] "Z.xtext" .empty) := by
  refine ⟨.start, (read_ends_iff selfUsingFile [] "Z.xtext" .start).2 ?_⟩
  have hfinds : selfUsingFile.findsFile "Z.xtext" = .ok true := by cbv
  have hstates : States selfUsingFile "Z.xtext" ⟨"Z", none, ["Z"], [], [], []⟩ :=
    ⟨"grammar Z with Z", by cbv, by cbv⟩
  intro outer stack hopen name l' found hseeks _ _ _ _
  -- there is but one file, whatever path leads to it
  obtain ⟨spot, hlocate, hspot⟩ := hopen.spot outer List.mem_cons_self
  have hsame : selfUsingFile.locate outer.file = selfUsingFile.locate "Z.xtext" := by
    have hspots : selfUsingFile.fileSpots = [[Text.ofString "Z.xtext"]] := by cbv
    have hplace : selfUsingFile.locate "Z.xtext" = .ok [Text.ofString "Z.xtext"] := by cbv
    rw [hspots, List.mem_singleton] at hspot
    rw [hlocate, hplace, hspot]
  obtain ⟨w, before, after, _, _, houter, huses, _⟩ := hseeks
  have hw := (houter.of_locate hfinds hsame).unique hstates
  have hname : name ∈ ([Text.ofString "Z"] : List Text) := by
    rw [hw] at huses
    simp only at huses
    simp [huses]
  rw [List.mem_singleton] at hname
  exact ⟨_, hopen.start_mem, _, hstates, hname.symm⟩

/-- two files, of which the second uses the first under a name that it does not declare -/
def crossedFiles : FileTree :=
  ⟨[], [(["Z.xtext"], plainFile "grammar X with N"), (["N.xtext"], plainFile "grammar N with Z")]⟩

theorem states_crossedFiles : States crossedFiles "Z.xtext" ⟨"X", none, ["N"], [], [], []⟩ ∧
    States crossedFiles "N.xtext" ⟨"N", none, ["Z"], [], [], []⟩ := by
  refine ⟨⟨"grammar X with N", by cbv, ?_⟩, ⟨"grammar N with Z", by cbv, ?_⟩⟩
  · cbv
  · cbv

/-- the first file is opened again inside itself, so that three files are open although there are but two -/
theorem crossed_names_reopen : ∃ stack, OpenFiles crossedFiles [] "Z.xtext" .empty stack ∧
    ¬ (stack.map fun o => crossedFiles.locate o.file).Nodup ∧ crossedFiles.fileSpots.length < stack.length := by
  obtain ⟨hz, hn⟩ := states_crossedFiles
  refine ⟨[⟨"Z.xtext", (Library.empty.enter "X").enter "N"⟩, ⟨"N.xtext", Library.empty.enter "X"⟩,
    ⟨"Z.xtext", .empty⟩], ?_, fun hnodup => (List.nodup_cons.1 hnodup).1 (by simp), by cbv⟩
  refine .inside (.inside (.start (by cbv)) ⟨_, [], [], 0, [], hz, rfl, rfl⟩ ?_) ⟨_, [], [], 0, [], hn, rfl, rfl⟩ ?_
  · exact ⟨by simp, by decide, by decide, by cbv⟩
  · exact ⟨by simp, by decide, by decide, by cbv⟩

/-- a file that uses itself under a name that it does not declare -/
def misnamedFile : FileTree := ⟨[], [(["Z.xtext"], plainFile "grammar X with Z")]⟩

/-- the file is read inside itself without end: every number of open files is too small for it -/
theorem misnamed_self_use_never_ends (depth : Nat) :
    (readGrammarWithin misnamedFile [] depth "Z.xtext" .empty).TooDeep := by
  have htext : textOf misnamedFile "Z.xtext" = .ok "grammar X with Z" := by cbv
  have hw : WrittenGrammar.ofText "Z.xtext" "grammar X with Z" = .ok ⟨"X", none, ["Z"], [], [], []⟩ := by cbv
  have hfind : findFile? misnamedFile [(Path.ofText "Z.xtext").parent] "Z" = .ok (some "Z.xtext") := by cbv
  -- the library inside the file differs from the one around it, but not in what is asked of it
  have hdeep : ∀ l : Library, l.shelf = [] → (∀ n ∈ l.opened, n = "X") →
      (readGrammarWithin misnamedFile [] depth "Z.xtext" l).TooDeep := by
    induction depth with
    | zero => exact fun _ _ _ => rfl
    | succ depth ih =>
      intro l hshelf hopened
      have hshelf' : (l.enter "X").shelf = [] := by
        unfold enter
        split <;> exact hshelf
      have hopened' : ∀ n ∈ (l.enter "X").opened, n = "X" := by
        intro n hn
        rcases (mem_opened_enter l _ n).1 hn with rfl | hn
        · rfl
        · exact hopened n hn
      have hnew : Text.ofString "Z" ∉ (l.enter "X").opened := fun hmem => absurd (hopened' _ hmem) (by decide)
      have huse : use misnamedFile [(Path.ofText "Z.xtext").parent] (readGrammarWithin misnamedFile [] depth) "Z"
          (l.enter "X") = readGrammarWithin misnamedFile [] depth "Z.xtext" (l.enter "X") := by
        have hbuiltin : Text.ofString "Z" ≠ builtinName := by decide
        simp only [use, hshelf', List.lookup, if_neg hnew, if_neg hbuiltin, hfind]
      obtain ⟨l₁, hinner⟩ := (ih _ hshelf' hopened').exists_eq
      unfold readGrammarWithin
      simp [htext, readWith, hw, eachUsed, huse, hinner, Outcome.TooDeep]
  exact hdeep .empty rfl (List.forall_mem_nil _)

end Library

end Rulebook
