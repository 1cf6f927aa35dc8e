/-
The names of the used grammars. What a grammar uses is named in a clause behind its own name (`WithClause`), and each name
is answered by a grammar: one from the shelf, a stand-in, the built-in one, or what is read from a file.

All but the last have the name that was asked for (`name_of_use`); a grammar from a file has the name that the file
declares (`declares_of_readGrammarWithin`). So the used grammars are the ones that the clause names exactly when every
file that is opened for one of these names declares it (`used_as_written_iff`). A file is found by its own name, and may
declare another one (`other_name_is_used`).
-/
import Rulebook.Proofs.BuiltinGrammar
import Rulebook.Proofs.OpenFiles
import Rulebook.Proofs.Drawing
import Rulebook.Proofs.Replacing

namespace Rulebook

open Source Rulebook.Reading

/-! ## The clause of the used grammars -/

/-- names with dots between them -/
inductive Dotted : List Word → List Text → Prop where
  | one {n : Word} : n.IsName → Dotted [n] [n.token.value]
  | more {n d : Word} {ws : List Word} {parts : List Text} : n.IsName → d.Is .dot → Dotted ws parts →
    Dotted (n :: d :: ws) (n.token.value :: parts)

/-- qualified names with commas between them -/
inductive NameRow : List Word → List Text → Prop where
  | one {ws : List Word} {parts : List Text} : Dotted ws parts → NameRow ws [Text.join "." parts]
  | more {ws us : List Word} {k : Word} {parts names : List Text} : Dotted ws parts → k.Is .comma → NameRow us names →
    NameRow (ws ++ k :: us) (Text.join "." parts :: names)

/-- the clause that names the used grammars, if there is one -/
inductive WithClause : List Word → List Text → Prop where
  | absent : WithClause [] []
  | present {y : Word} {ws : List Word} {names : List Text} : y.IsWord "with" → NameRow ws names →
    WithClause (y :: ws) names

/-- the words begin with `grammar`, the name of the grammar and the clause of the used grammars, and what is behind them
belongs to none of these -/
inductive Announces : List Word → Text → List Text → Prop where
  | intro {x : Word} {ns us rest : List Word} {parts uses : List Text} : x.IsWord "grammar" → Dotted ns parts →
    WithClause us uses → StartsRules rest → (us = [] → atWord "with" rest = false) →
    Announces (x :: (ns ++ (us ++ rest))) (Text.join "." parts) uses

theorem dotted_of_moreNameParts {words rest : List Word} {parts : List Text} (h : (moreNameParts words).Gives parts rest)
    {n : Word} (hn : n.IsName) : ∃ ws, words = ws ++ rest ∧ Dotted (n :: ws) (n.token.value :: parts) := by
  fun_induction moreNameParts words generalizing parts n with
  | case1 d m tail hnext ih =>
    simp only [Bool.and_eq_true, decide_eq_true_eq] at hnext
    simp only [gives_loose, gives_behind, gives_map] at h
    obtain ⟨more, hmore, rfl⟩ := h
    obtain ⟨ws, rfl, hdotted⟩ := ih hmore hnext.2
    exact ⟨d :: m :: ws, rfl, .more hn (by simpa [Token.isSymbol] using hnext.1) hdotted⟩
  | case2 d m tail =>
    obtain ⟨rfl, rfl⟩ := (gives_nothing ..).1 h
    exact ⟨[], rfl, .one hn⟩
  | case3 =>
    obtain ⟨rfl, rfl⟩ := (gives_nothing ..).1 h
    exact ⟨[], rfl, .one hn⟩

theorem dotted_of_qualifiedName {words rest : List Word} {name : Text} (h : (qualifiedName words).Gives name rest) :
    ∃ ws parts, words = ws ++ rest ∧ Dotted ws parts ∧ name = Text.join "." parts := by
  simp only [qualifiedName, gives_next', gives_take, gives_map] at h
  obtain ⟨_, tail, ⟨n, rfl, hn, rfl⟩, parts, hparts, rfl⟩ := h
  obtain ⟨ws, rfl, hdotted⟩ := dotted_of_moreNameParts hparts hn
  exact ⟨n :: ws, _, rfl, hdotted, rfl⟩

/-- a qualified name is read up to words that no dot begins -/
theorem Dotted.read {ws rest : List Word} {parts : List Text} (h : Dotted ws parts) (hdot : Undotted rest) :
    (qualifiedName (ws ++ rest)).Gives (Text.join "." parts) rest := by
  have hmore : ∃ n ds more, ws = n :: ds ∧ n.IsName ∧ parts = n.token.value :: more ∧
      (moreNameParts (ds ++ rest)).Gives more rest := by
    induction h with
    | @one n hn => exact ⟨n, [], [], rfl, hn, rfl, gives_moreNameParts_nil hdot⟩
    | @more n d ws parts hn hd _ ih =>
      obtain ⟨m, ds, more, rfl, hm, rfl, hgives⟩ := ih
      refine ⟨n, d :: m :: ds, _, rfl, hn, rfl, ?_⟩
      have hnext : (d.token.isSymbol .dot && decide (m.token.kind = .name)) = true := by
        simp [Token.isSymbol, hd.kind, hm.kind]
      rw [List.cons_append, List.cons_append, moreNameParts, if_pos hnext]
      simp only [gives_loose, gives_behind, gives_map]
      exact ⟨more, hgives, rfl⟩
  obtain ⟨n, ds, more, rfl, hn, rfl, hgives⟩ := hmore
  simp only [qualifiedName, gives_next', gives_take, gives_map]
  exact ⟨_, _, ⟨n, rfl, hn, rfl⟩, more, hgives, rfl⟩

theorem nameRow_of_oneOrMore {words rest : List Word} {names : List Text}
    (h : (oneOrMore .comma qualifiedName words).Gives names rest) : ∃ ws, words = ws ++ rest ∧ NameRow ws names := by
  simp only [oneOrMore, gives_next', gives_map, gives_behindSymbols] at h
  obtain ⟨first, tail, hfirst, more, hmore, rfl⟩ := h
  obtain ⟨ws, parts, rfl, hdotted, rfl⟩ := dotted_of_qualifiedName hfirst
  clear hfirst
  induction hmore generalizing ws parts with
  | stop _ => exact ⟨ws, rfl, .one hdotted⟩
  | @more k _ _ _ _ _ hk hread _ ih =>
    obtain ⟨us, parts', rfl, hdotted', rfl⟩ := dotted_of_qualifiedName hread
    obtain ⟨vs, hvs, hrow⟩ := ih us parts' hdotted'
    exact ⟨ws ++ k :: vs, by simp [hvs], .more hdotted (by simpa [Token.isSymbol] using hk) hrow⟩

/-- a row of names is read up to words that neither a dot nor a comma begins -/
theorem NameRow.read {ws rest : List Word} {names : List Text} (h : NameRow ws names) (hdot : Undotted rest)
    (hcomma : atSymbol .comma rest = false) : (oneOrMore .comma qualifiedName (ws ++ rest)).Gives names rest := by
  simp only [oneOrMore, gives_next', gives_map, gives_behindSymbols]
  induction h with
  | one hdotted => exact ⟨_, rest, hdotted.read hdot, [], .stop (by simp [atMark_iff, hcomma]), rfl⟩
  | @more ws us k parts names hdotted hk hrow ih =>
    obtain ⟨first, tail, hfirst, more, hmore, rfl⟩ := ih
    have hbehind : Undotted (k :: (us ++ rest)) := atSymbol_of_is hk (by decide) _
    refine ⟨_, k :: (us ++ rest), ?_, first :: more, .more (by simpa [Word.Is] using hk) hfirst hmore, rfl⟩
    rw [List.append_assoc, List.cons_append]
    exact hdotted.read hbehind

/-- the beginning of a grammar is read as what its words announce -/
theorem announces_of_begun {words rest : List Word} {name : Text} {uses : List Text} (h : Begun words name uses rest)
    (hrest : StartsRules rest) : Announces words name uses := by
  obtain ⟨mid, hname, huses⟩ := h
  simp only [WrittenGrammar.header, gives_next', gives_takeWord] at hname
  obtain ⟨_, _, ⟨x, rfl, hx, -⟩, hname⟩ := hname
  obtain ⟨ns, parts, rfl, hdotted, rfl⟩ := dotted_of_qualifiedName hname
  simp only [usesHere, gives_map, gives_behindWord?] at huses
  obtain ⟨_, ⟨rfl, rfl, hnone⟩ | ⟨y, behind, names, rfl, hy, hnames, rfl⟩, rfl⟩ := huses
  · have hannounces := Announces.intro hx hdotted .absent hrest fun _ => hnone
    rwa [List.nil_append] at hannounces
  · obtain ⟨ws, rfl, hrow⟩ := nameRow_of_oneOrMore hnames
    have hannounces := Announces.intro hx hdotted (.present hy hrow) hrest fun hnil => (List.cons_ne_nil _ _ hnil).elim
    rwa [List.cons_append] at hannounces

/-- what words announce is read, and so they announce but one thing -/
theorem Announces.begun {words : List Word} {name : Text} {uses : List Text} (h : Announces words name uses) :
    ∃ rest, Begun words name uses rest := by
  cases h with
  | @intro x ns us rest parts uses hx hdotted hclause hrest hwith =>
    have hheader : ∀ {behind : List Word}, Undotted behind →
        (WrittenGrammar.header (x :: (ns ++ behind))).Gives (Text.join "." parts) behind := by
      intro behind hbehind
      simp only [WrittenGrammar.header, gives_next', gives_takeWord]
      exact ⟨_, _, ⟨x, rfl, hx, rfl⟩, hdotted.read hbehind⟩
    have hdot : Undotted rest := hrest.not_symbol (by decide)
    cases hclause with
    | absent =>
      refine ⟨rest, rest, hheader hdot, ?_⟩
      simp only [usesHere, gives_map, gives_behindWord?]
      exact ⟨none, .inl ⟨rfl, trivial, hwith rfl⟩, rfl⟩
    | @present y ws _ hy hrow =>
      have hbehind : Undotted (y :: (ws ++ rest)) := by simp [Undotted, atSymbol, Token.isSymbol, hy.1.kind]
      refine ⟨rest, _, hheader hbehind, ?_⟩
      simp only [usesHere, gives_map, gives_behindWord?]
      exact ⟨_, .inr ⟨y, _, uses, rfl, hy, hrow.read hdot (hrest.not_symbol (by decide)), rfl⟩, rfl⟩

theorem Announces.unique {words : List Word} {name name' : Text} {uses uses' : List Text}
    (h : Announces words name uses) (h' : Announces words name' uses') : name' = name ∧ uses' = uses := by
  obtain ⟨_, hbegun⟩ := h.begun
  obtain ⟨_, hbegun'⟩ := h'.begun
  obtain ⟨hname, huses, -⟩ := hbegun.unique hbegun'
  exact ⟨hname, huses⟩

/-- a grammar that is read has the name and uses the names that its words announce -/
theorem announces_of_ofText {file : Path} {source : Text} {w : WrittenGrammar}
    (h : WrittenGrammar.ofText file source = .ok w) :
    ∃ lexed, Lexed.ofSource file source = .ok lexed ∧ Announces (wordsOf lexed.tokens) w.name w.uses := by
  obtain ⟨lexed, hlexed, hwords⟩ := WrittenGrammar.ofText_eq_ok_iff.1 h
  obtain ⟨mid, rest, hbegun, hclauses, hrows, -⟩ := (ofWords_iff ..).1 hwords
  obtain ⟨cs, rfl, hclause, -⟩ := hclauses.again
  refine ⟨lexed, hlexed, announces_of_begun hbegun ?_⟩
  cases cs with
  | nil => exact hrows.startsRules
  | cons c cs =>
    rintro _ ⟨⟩
    exact .inl (hclause c rfl).1

/-! ## The grammar that answers a name -/

namespace Library

section

variable {files : FileTree} {searchPaths directories : List Path} {made : List Grammar} {l l' : Library}

/-- what is read from a file has the name that the file declares -/
theorem declares_of_readGrammarWithin {depth : Nat} {file : Path} {u : Grammar}
    (h : readGrammarWithin files searchPaths depth file l = (.ok u, l')) : Declares files file u.name := by
  cases depth with
  | zero => cases h
  | succ depth =>
    unfold readGrammarWithin at h
    cases hsource : textOf files file with
    | error e => simp [hsource] at h
    | ok source =>
      simp only [hsource] at h
      obtain ⟨w, used, l₁, hw, -, rfl, -⟩ := readWith_ok h
      exact ⟨w, ⟨source, hsource, hw⟩, rfl⟩

/-- a name is answered by a grammar of that name, or by what is read from the file that is opened for it -/
theorem use_ok_cases {load : FileReader} {name : Text} {u : Grammar} (h : Chronicle made l)
    (huse : use files directories load name l = (.ok u, l')) :
    (u.name = name ∧ ∀ found, ¬ Opens files directories name l found) ∨
      ∃ found, Opens files directories name l found ∧ load found l = (.ok u, l') := by
  unfold use at huse
  -- only the last of the places where a name is looked for is a file
  cases hshelf : l.shelf.lookup name with
  | some g =>
    simp only [hshelf] at huse
    cases huse
    obtain ⟨before, after, hsplit, -⟩ := List.lookup_eq_some_iff.1 hshelf
    refine .inl ⟨(h.shelf (name, u) (by simp [hsplit])).2, fun found hopens => hopens.unshelved ?_⟩
    simp [Shelved, hshelf]
  | none =>
    simp only [hshelf] at huse
    by_cases hopen : name ∈ l.opened
    · rw [if_pos hopen] at huse
      cases huse
      exact .inl ⟨rfl, fun found hopens => hopens.unopened hopen⟩
    · rw [if_neg hopen] at huse
      by_cases hbuiltin : name = builtinName
      · rw [if_pos hbuiltin] at huse
        obtain ⟨w, used, l₁, hw, -, rfl, -⟩ := readWith_ok huse
        exact .inl ⟨(name_of_builtin hw).trans hbuiltin.symm, fun found hopens => hopens.notBuiltin hbuiltin⟩
      · rw [if_neg hbuiltin] at huse
        cases hfind : findFile? files directories name with
        | error e => simp [hfind] at huse
        | ok answer =>
          cases answer with
          | none =>
            simp only [hfind] at huse
            cases huse
            exact .inl ⟨rfl, fun found hopens => by simpa [hfind] using hopens.found⟩
          | some file =>
            simp only [hfind] at huse
            exact .inr ⟨file, ⟨by simp [Shelved, hshelf], hopen, hbuiltin, hfind⟩, huse⟩

/-- the grammar has the name that the file declares which is opened for the name that was asked for, or else this name -/
structure NamedAs (files : FileTree) (directories : List Path) (name : Text) (l : Library) (u : Grammar) : Prop where
  opened : ∀ found, Opens files directories name l found → Declares files found u.name
  unopened : (∀ found, ¬ Opens files directories name l found) → u.name = name

theorem namedAs_of_use {depth : Nat} {name : Text} {u : Grammar} (h : Chronicle made l)
    (huse : use files directories (readGrammarWithin files searchPaths depth) name l = (.ok u, l')) :
    NamedAs files directories name l u := by
  rcases use_ok_cases h huse with ⟨hname, hnone⟩ | ⟨found, hopens, hload⟩
  · exact ⟨fun found hopens => absurd hopens (hnone found), fun _ => hname⟩
  · refine ⟨fun found' hopens' => ?_, fun hnone => absurd hopens (hnone found)⟩
    obtain rfl : found = found' := Option.some.inj (Except.ok.inj (hopens.found.symm.trans hopens'.found))
    exact declares_of_readGrammarWithin hload

theorem NamedAs.name_eq_iff {name : Text} {u : Grammar} (h : NamedAs files directories name l u) :
    u.name = name ↔ ∀ found, Opens files directories name l found → Declares files found name := by
  constructor
  · rintro rfl found hopens
    exact h.opened found hopens
  · intro hdeclares
    by_cases hopens : ∃ found, Opens files directories name l found
    · obtain ⟨found, hopens⟩ := hopens
      obtain ⟨w, hstates, hname⟩ := h.opened found hopens
      obtain ⟨w', hstates', hname'⟩ := hdeclares found hopens
      rw [← hname, ← hname', hstates.unique hstates']
    · exact h.unopened (not_exists.1 hopens)

/-- names that are asked for one after the other, each with the library as those before it leave it -/
def turns (load : Text → Library → Outcome Grammar) : List Text → Library → List (Text × Library)
  | [], _ => []
  | name :: names, l => (name, l) :: turns load names (load name l).2

theorem names_turns (load : Text → Library → Outcome Grammar) (names : List Text) (l : Library) :
    (turns load names l).map Prod.fst = names := by
  induction names generalizing l with
  | nil => rfl
  | cons name names ih => rw [turns, List.map_cons, ih]

/-- where names are answered, the first one is, and the others are in the library that is left then -/
theorem eachUsed_cons_ok {load : Text → Library → Outcome Grammar} {name : Text} {names : List Text}
    {used : List Grammar} (h : eachUsed load (name :: names) l = (.ok used, l')) :
    ∃ u us l₁, used = u :: us ∧ load name l = (.ok u, l₁) ∧ eachUsed load names l₁ = (.ok us, l') := by
  unfold eachUsed at h
  rcases hfirst : load name l with ⟨e | u, l₁⟩
  · simp [hfirst] at h
  · simp only [hfirst] at h
    rcases hmore : eachUsed load names l₁ with ⟨e | us, l₂⟩
    · simp [hmore] at h
    · simp only [hmore] at h
      cases h
      exact ⟨u, us, l₁, rfl, rfl, hmore⟩

/-- every name is answered in its turn -/
theorem namedAs_of_eachUsed {depth : Nat} {names : List Text} {used : List Grammar} (h : Chronicle made l)
    (heach : eachUsed (use files directories (readGrammarWithin files searchPaths depth)) names l = (.ok used, l')) :
    List.Forall₂ (fun turn u => NamedAs files directories turn.1 turn.2 u)
      (turns (use files directories (readGrammarWithin files searchPaths depth)) names l) used := by
  induction names generalizing used made l with
  | nil =>
    cases heach
    exact .nil
  | cons name names ih =>
    obtain ⟨u, us, l₁, rfl, hfirst, hmore⟩ := eachUsed_cons_ok heach
    -- the library that the first answer leaves has a chronicle too, which tells the names on its shelf
    obtain ⟨-, later, -, hlater, -⟩ :=
      carriesOn_use (carriesOn_readGrammarWithin files searchPaths depth) name l made h
    rw [hfirst] at hlater
    rw [turns, hfirst]
    exact .cons (namedAs_of_use h hfirst) (ih hlater hmore)

/-- grammars have the names that were asked for exactly when every file that is opened declares the name it is opened
for -/
theorem names_eq_iff {asked : List (Text × Library)} {used : List Grammar}
    (h : List.Forall₂ (fun turn u => NamedAs files directories turn.1 turn.2 u) asked used) :
    used.map Grammar.name = asked.map Prod.fst ↔
      ∀ turn ∈ asked, ∀ found, Opens files directories turn.1 turn.2 found → Declares files found turn.1 := by
  induction h with
  | nil => simp
  | cons hfirst _ ih => rw [List.map_cons, List.map_cons, List.cons.injEq, List.forall_mem_cons, hfirst.name_eq_iff, ih]

end

/-- **The used grammars are the ones that the clause names, where files declare the names they are found by.** For all
files, search paths and directories, every text that a reader reads, whatever it has read before: the text announces the
name of the grammar and the names that it uses, and nothing else, and these are asked for in their order. A name for which
no file is opened is answered by a grammar of that name, be it from the shelf, the stand-in for a circle or for a missing
grammar, or the built-in one; any other by a grammar of the name that the file declares. So the names of the used
grammars, which are the imports of the documentation, are the names of the clause exactly when every file that is opened
for one of them declares it. -/
theorem used_as_written_iff {files : FileTree} {searchPaths : List Path} {file : Path} {base : Option Path}
    {source : Text} {l l' : Library} {g : Grammar} (hl : l.Idle)
    (hg : readText files searchPaths file base source l = (.ok g, l')) :
    ∃ lexed uses asked doc, Lexed.ofSource file source = .ok lexed ∧
      (∀ name names, Announces (wordsOf lexed.tokens) name names ↔ name = g.name ∧ names = uses) ∧
      asked = turns (use files (base.toList ++ searchPaths) (readGrammar files searchPaths)) uses (l.enter g.name) ∧
      List.Forall₂ (fun turn u => NamedAs files (base.toList ++ searchPaths) turn.1 turn.2 u) asked g.used ∧
      (GrammarDoc.ofGrammar g).1 = .ok doc ∧ doc.imports = g.used.map Grammar.name ∧
      (doc.imports = uses ↔ ∀ turn ∈ asked, ∀ found,
        Opens files (base.toList ++ searchPaths) turn.1 turn.2 found → Declares files found turn.1) := by
  obtain ⟨made, hmade⟩ := hl.chronicle
  obtain ⟨w, used, l₁, hw, heach, rfl, -⟩ := readWith_ok hg
  obtain ⟨lexed, hlexed, hannounces⟩ := announces_of_ofText hw
  have hentered : Chronicle made (l.enter w.name) := hmade.of_same (fresh_enter l _) (shelf_enter l _)
  have hnamed := namedAs_of_eachUsed hentered heach
  have hdoc := ofGrammar_link w l₁.fresh used (qualified_of_ofText hw).1.ne_nil
  have hannounced : ∀ name names, Announces (wordsOf lexed.tokens) name names ↔ name = w.name ∧ names = w.uses := by
    intro name names
    refine ⟨fun h => hannounces.unique h, ?_⟩
    rintro ⟨rfl, rfl⟩
    exact hannounces
  have hiff := names_eq_iff hnamed
  rw [names_turns] at hiff
  exact ⟨lexed, w.uses, _, _, hlexed, hannounced, rfl, hnamed, hdoc, rfl, hiff⟩

/-! ## A file of another name -/

def foundFile (content : String) : FileTree := ⟨[], [(["N.xtext"], plainFile content)]⟩

/-- a text that uses the grammar `N` -/
def userText : Text := "grammar A with N"

@[inherit_doc userText]
def user : WrittenGrammar := ⟨"A", none, ["N"], [], [], []⟩

theorem ofText_user : WrittenGrammar.ofText "A.xtext" userText = .ok user := by cbv

/-- where the file states a grammar that uses no other, the text uses that grammar, whatever its name is -/
theorem readText_user {content : String} {w : WrittenGrammar} (hstates : States (foundFile content) "N.xtext" w)
    (hfind : findFile? (foundFile content) [(Path.ofText "A.xtext").parent] "N" = .ok (some "N.xtext"))
    (huses : w.uses = []) : ∃ l', readText (foundFile content) [] "A.xtext" (some (Path.ofText "A.xtext").parent) userText
      .empty = (.ok (user.link 1 [w.link 0 []]), l') := by
  obtain ⟨source, htext, hw⟩ := hstates
  have hinner : readGrammar (foundFile content) [] "N.xtext" (Library.empty.enter "A") =
      (.ok (w.link 0 []), ((Library.empty.enter "A").enter w.name).finish w []) := by
    have hnone : ∀ load, eachUsed load w.uses ((Library.empty.enter "A").enter w.name) =
        (.ok [], (Library.empty.enter "A").enter w.name) := by
      intro load
      rw [huses]
      rfl
    show readGrammarWithin (foundFile content) [] (256 + 1) "N.xtext" (Library.empty.enter "A") = _
    rw [readGrammarWithin, htext]
    simp only [readWith_of_eachUsed hw (hnone _), fresh_enter]
    rfl
  have huse : use (foundFile content) [(Path.ofText "A.xtext").parent] (readGrammar (foundFile content) []) "N"
      (Library.empty.enter "A") = (.ok (w.link 0 []), ((Library.empty.enter "A").enter w.name).finish w []) := by
    have hopened : Text.ofString "N" ∉ (Library.empty.enter "A").opened := by decide
    have hbuiltin : Text.ofString "N" ≠ builtinName := by decide
    have hshelf : (Library.empty.enter "A").shelf.lookup (Text.ofString "N") = none := rfl
    simp only [use, hshelf, if_neg hopened, if_neg hbuiltin, hfind, hinner]
  have heach : eachUsed (use (foundFile content) [(Path.ofText "A.xtext").parent] (readGrammar (foundFile content) []))
      user.uses (Library.empty.enter user.name) =
        (.ok [w.link 0 []], ((Library.empty.enter "A").enter w.name).finish w []) := by
    show eachUsed _ [Text.ofString "N"] (Library.empty.enter "A") = _
    simp only [eachUsed, huse]
  have hread : readText (foundFile content) [] "A.xtext" (some (Path.ofText "A.xtext").parent) userText .empty = _ :=
    readWith_of_eachUsed ofText_user heach
  rw [hread, fresh_finish, fresh_enter, fresh_enter]
  exact ⟨_, rfl⟩

theorem states_foundFile : States (foundFile "grammar N") "N.xtext" ⟨"N", none, [], [], [], []⟩ ∧
    States (foundFile "grammar M") "N.xtext" ⟨"M", none, [], [], [], []⟩ := by
  refine ⟨⟨"grammar N", by cbv, ?_⟩, ⟨"grammar M", by cbv, ?_⟩⟩
  · cbv
  · cbv

/-- the file declares the name it is found by: the text uses the grammar that it names -/
theorem named_file_is_used : ∃ (g : Grammar) (l' : Library) (lexed : Lexed) (doc : GrammarDoc), Library.Idle .empty ∧
    readText (foundFile "grammar N") [] "A.xtext" (some (Path.ofText "A.xtext").parent) userText .empty = (.ok g, l') ∧
      Lexed.ofSource "A.xtext" userText = .ok lexed ∧ Announces (wordsOf lexed.tokens) "A" ["N"] ∧
      (GrammarDoc.ofGrammar g).1 = .ok doc ∧ doc.imports = ["N"] := by
  have hfind : findFile? (foundFile "grammar N") [(Path.ofText "A.xtext").parent] "N" = .ok (some "N.xtext") := by cbv
  obtain ⟨l', hread⟩ := readText_user states_foundFile.1 hfind rfl
  obtain ⟨lexed, uses, asked, doc, hlexed, hannounced, hasked, -, hdoc, -, hiff⟩ := used_as_written_iff .start hread
  obtain ⟨_, hlexed', hannounces⟩ := announces_of_ofText ofText_user
  obtain rfl := Except.ok.inj (hlexed'.symm.trans hlexed)
  obtain ⟨-, rfl⟩ := (hannounced _ _).1 hannounces
  refine ⟨_, l', _, doc, .start, hread, hlexed, hannounces, hdoc, hiff.2 ?_⟩
  rw [hasked]
  refine List.forall_mem_singleton.2 fun found hopens => ?_
  obtain rfl : Path.ofText "N.xtext" = found := Option.some.inj (Except.ok.inj (hfind.symm.trans hopens.found))
  exact ⟨_, states_foundFile.1, rfl⟩

/-- the file declares another name: the text uses a grammar that it does not name -/
theorem other_name_is_used : ∃ (g : Grammar) (l' : Library) (lexed : Lexed) (doc : GrammarDoc), Library.Idle .empty ∧
    readText (foundFile "grammar M") [] "A.xtext" (some (Path.ofText "A.xtext").parent) userText .empty = (.ok g, l') ∧
      Lexed.ofSource "A.xtext" userText = .ok lexed ∧ Announces (wordsOf lexed.tokens) "A" ["N"] ∧
      g.used.map Grammar.name = ["M"] ∧ (GrammarDoc.ofGrammar g).1 = .ok doc ∧ doc.imports = ["M"] := by
  obtain ⟨l', hread⟩ := readText_user states_foundFile.2 (by cbv) rfl
  obtain ⟨lexed, hlexed, hannounces⟩ := announces_of_ofText ofText_user
  exact ⟨_, l', lexed, _, .start, hread, hlexed, hannounces, rfl, ofGrammar_link _ _ _ (by decide), rfl⟩

end Library

end Rulebook
