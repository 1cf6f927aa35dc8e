/-
Escaped names. A caret before a name is there to use a keyword as a name, but the tokenizer drops it: the token has the
value of the name, and only its length tells that there was a caret. The readers go by values, so an escaped name is a
name where nothing but the value would make it a keyword, and a keyword elsewhere. Most keywords need a second word to
mean something, and behind `^n` a colon follows. Three do not: `with` and `hidden` behind the name of a grammar, and
`EOF` in a terminal rule.

- `escaped_name_is_name_iff`: an escaped name declares a rule unless it is `with` or `hidden`, and is called in a
  terminal rule unless it is `EOF`;
- `escaped_with_is_refused`: with `with` the text of such a grammar is refused.
-/
import Rulebook.Proofs.Reprinting
import Rulebook.Proofs.Yield

namespace Rulebook

open Source Rulebook.Reading

/-! ## Pieces -/

/-- the name is written with a caret -/
def Token.IsEscaped (t : Token) : Prop := t.kind = .name ∧ t.length = t.value.length + 1

namespace Piece

/-- a text is cut behind its first piece just as what stands there is -/
theorem cut_next_iff {c : CodePoint} {t rest : Text} (token : Option Key)
    (hfirst : first c (t ++ rest) = .ok (token, t.length)) (pieces : List Piece) :
    cut (c :: (t ++ rest)) = .ok pieces ↔ ∃ more, cut rest = .ok more ∧ pieces = ⟨c :: t, token⟩ :: more := by
  rw [cut]
  simp only [hfirst, List.drop_left, List.take_left]
  cases cut rest with
  | error fault => simp
  | ok more => simp [eq_comm]

/-- the caret of a name belongs to its piece and not to its value -/
theorem first_escaped {n rest : Text} (hn : IsIdentifier n) (hrest : NameEnds rest) :
    first (CodePoint.ofChar '^') (n ++ rest) = .ok (some (.name, n), n.length) := by
  obtain @⟨c, tail, hc, htail⟩ := hn
  have hname : name? (CodePoint.ofChar '^') (c :: (tail ++ rest)) = some (c :: tail, (c :: tail).length) := by
    simp [name?, hc, takeWhile_append_of_ends htail hrest]
  have hdigit : (CodePoint.ofChar '^').isDigit = false := by decide
  simp [first, isGap, hdigit, hname]

end Piece

/-- pieces without comments make words of their own, and behind them no comment is pending -/
theorem Source.words_front (front : List Piece) (h : ∀ p ∈ front, ∀ k ∈ p.token, k.1 ≠ .headComment) (m : Mark)
    (qs : List Piece) :
    ∃ us m', wordsBehind none (Lexed.ofPieces m (front ++ qs)).tokens =
      us ++ wordsBehind none (Lexed.ofPieces m' qs).tokens ∧ us.map Word.key = front.filterMap Piece.token := by
  induction front generalizing m with
  | nil => exact ⟨[], m, rfl, rfl⟩
  | cons p front ih =>
    obtain ⟨hp, hfront⟩ := List.forall_mem_cons.1 h
    obtain ⟨us, m', hwords, hkeys⟩ := ih hfront (m.afterPiece p)
    cases hk : p.token with
    | none => exact ⟨us, m', by simp [Lexed.ofPieces, hk, hwords], by simp [hk, hkeys]⟩
    | some k =>
      refine ⟨⟨⟨k.1, k.2, m.line, m.column, p.text.length⟩, none⟩ :: us, m', ?_, ?_⟩
      · simp only [List.cons_append, Lexed.ofPieces, hk, wordsBehind, if_neg (hp k hk), hwords]
      · simp [hk, hkeys, Word.key, Token.key]

/-! ## The text of a rule and the text of a grammar -/

open Borrowing

/-- the text is the body of a parser rule, and the rule has this definition -/
def IsBody (body : Text) (t : Tree) : Prop :=
  ∃ q, ReadsAs ("A: " ++ body ++ ";") q ∧ q.definition = some t

/-- the text of a grammar whose one rule has an escaped name -/
def escapedRule (n body : Text) : Text := "grammar a.G\n^" ++ n ++ ": " ++ body ++ ";"

/-- the pieces of such a text up to the body -/
def escapedPieces (n : Text) : List Piece :=
  [namePiece "grammar", blankPiece, namePiece "a", symbolPiece .dot, namePiece "G", ⟨"\n", none⟩,
    ⟨"^" ++ n, some (.name, n)⟩, symbolPiece .colon, blankPiece]

theorem cut_escapedRule {n body : Text} {qs : List Piece} (hn : IsIdentifier n)
    (hqs : Piece.cut (body ++ ";") = .ok qs) :
    Piece.cut (escapedRule n body) = .ok (escapedPieces n ++ qs) := by
  have hfront : ∀ {c : CodePoint} {t rest : Text} {token : Option Key} {more : List Piece},
      Piece.first c (t ++ rest) = .ok (token, t.length) → Piece.cut rest = .ok more →
        Piece.cut (c :: (t ++ rest)) = .ok (⟨c :: t, token⟩ :: more) :=
    fun hfirst hmore => (Piece.cut_next_iff _ hfirst _).2 ⟨_, hmore, rfl⟩
  have hcolon := hfront (c := CodePoint.ofChar ':') (t := []) rfl (hfront (c := CodePoint.ofChar ' ') (t := []) rfl hqs)
  have hname := hfront (Piece.first_escaped hn (by rintro _ ⟨⟩; decide)) hcolon
  have hline := hfront (c := CodePoint.ofChar '\n') (t := []) rfl hname
  have hsimple := hfront (c := CodePoint.ofChar 'G') (t := []) rfl hline
  have hdot := hfront (c := CodePoint.ofChar '.') (t := []) rfl hsimple
  have hqualifier := hfront (c := CodePoint.ofChar 'a') (t := []) rfl hdot
  have hblank := hfront (c := CodePoint.ofChar ' ') (t := []) rfl hqualifier
  have hgrammar := hfront (c := CodePoint.ofChar 'g') (t := Text.ofString "rammar") rfl hblank
  have hsplit : escapedRule n body =
      Text.ofString "grammar a.G\n^" ++ (n ++ (Text.ofString ": " ++ (body ++ ";"))) := by
    simp [escapedRule]
  rw [hsplit]
  exact hgrammar

/-- the words of a rule of which nothing is declared but its name -/
theorem declared_bare_iff {n c : Word} (hc : c.Is .colon) (body : List Word) (r : WrittenRule) :
    Declared (n :: c :: body) r ↔ ∃ ws s t, body = ws ++ [s] ∧ n.IsName ∧ Spells .parser .alternatives ws [t] ∧
      s.Is .semicolon ∧ r = ⟨.parser false [], n.token.value, none, none, some n.token.line, some t⟩ := by
  refine ⟨fun h => ?_, ?_⟩
  · -- every other declaration has a name where the colon stands
    generalize hwords : n :: c :: body = words at h
    cases h with
    | parser hf hn hss ht hh hcolon hspells hs _ =>
      cases hf with
      | present _ =>
        cases hwords
        cases hc.symm.trans hn
      | absent =>
        cases hss with
        | star hfragment _ => cases hfragment
        | absent =>
          cases ht with
          | declared hx _ =>
            cases hwords
            cases hc.symm.trans hx.1
          | absent =>
            cases hh with
            | empty hx _ _ =>
              cases hwords
              cases hc.symm.trans hx.1
            | names hx _ _ _ =>
              cases hwords
              cases hc.symm.trans hx.1
            | absent =>
              cases hwords
              exact ⟨_, _, _, rfl, hn, hspells, hs, rfl⟩
    | terminal _ hf hn _ _ _ _ _ =>
      cases hf with
      | absent =>
        cases hwords
        cases hc.symm.trans hn
      | present hx =>
        cases hwords
        cases hc.symm.trans hx.1
    | enumeration _ hn _ _ _ _ =>
      cases hwords
      cases hc.symm.trans hn
  · rintro ⟨ws, s, t, rfl, hn, ht, hs, rfl⟩
    exact .bare hn hc ht hs

/-- the words of a body, wherever it stands, and a semicolon -/
theorem IsBody.spelled {body : Text} {t : Tree} (h : IsBody body t) :
    ∃ qs, Piece.cut (body ++ ";") = .ok qs ∧ ∀ m, ∃ ws s t', wordsBehind none (Lexed.ofPieces m qs).tokens = ws ++ [s] ∧
      Spells .parser .alternatives ws [t'] ∧ s.Is .semicolon ∧ placeless t' = placeless t := by
  obtain ⟨q, ⟨file, lexed, hlexed, hread⟩, ht⟩ := h
  have hcut : ∃ qs, Piece.cut (body ++ ";") = .ok qs ∧
      lexed = Lexed.ofPieces Mark.start ([namePiece "A", symbolPiece .colon, blankPiece] ++ qs) := by
    obtain ⟨pieces, hpieces, rfl⟩ := Lexed.ofSource_eq_ok_iff.1 hlexed
    have hsplit : Text.ofString "A: " ++ body ++ Text.ofString ";" = CodePoint.ofChar 'A' :: ([] ++
        CodePoint.ofChar ':' :: ([] ++ CodePoint.ofChar ' ' :: ([] ++ (body ++ Text.ofString ";")))) :=
      List.append_assoc ..
    rw [hsplit] at hpieces
    obtain ⟨_, hcolon, rfl⟩ := (Piece.cut_next_iff (some (.name, "A")) rfl _).1 hpieces
    obtain ⟨_, hblank, rfl⟩ := (Piece.cut_next_iff (some Symbol.colon.key) rfl _).1 hcolon
    obtain ⟨qs, hqs, rfl⟩ := (Piece.cut_next_iff none rfl _).1 hblank
    exact ⟨qs, hqs, rfl⟩
  obtain ⟨qs, hqs, rfl⟩ := hcut
  obtain ⟨us, m', hwords, hkeys⟩ := words_front [namePiece "A", symbolPiece .colon, blankPiece]
    (by simp [namePiece, symbolPiece, blankPiece, Symbol.key]) Mark.start qs
  obtain ⟨a, us, rfl, -, hkeys⟩ := words_cons hkeys
  obtain ⟨c, rfl, hc⟩ := words_one hkeys
  rw [wordsOf, hwords] at hread
  obtain ⟨vs, hvs, hdeclared⟩ := (gives_rule_iff ..).1 hread
  obtain rfl : a :: c :: wordsBehind none (Lexed.ofPieces m' qs).tokens = vs := hvs.trans (List.append_nil vs)
  obtain ⟨ws, s, t', hbody, -, hspells, hs, rfl⟩ := (declared_bare_iff (Word.is_of_key hc) _ _).1 hdeclared
  cases ht
  refine ⟨qs, hqs, fun m => ?_⟩
  have hsame := keys_of_said (said_ofPieces none m m' qs).1
  rw [hbody] at hsame
  obtain ⟨ws', last, hws', hkeys, hlast⟩ := same_append hsame
  obtain ⟨s', rfl, hs'⟩ := same_one hlast
  obtain ⟨ts, hts, hplaceless⟩ := spells_same hspells hkeys
  obtain ⟨t', rfl, ht'⟩ := List.map_eq_singleton_iff.1 hplaceless
  exact ⟨ws', s', t', hws', hts, hs.same hs', ht'⟩

/-! ## A grammar with one rule -/

/-- the text is read as a grammar of one rule, a parser rule of this name with this definition, its calls linked -/
def DeclaresOne (text n : Text) (t : Tree) : Prop :=
  ∀ (load : Text → Library → Library.Outcome Grammar) (file : Path) (l : Library), ∃ g r,
    (Library.readWith load file text l).1 = .ok g ∧ g.rules = [r] ∧ r.kind = .parser false [] ∧ r.name = n ∧
      r.typeName = none ∧ r.definition = some (t.map fun c => some (g.target c))

section OneRule

variable {x a d b w c : Word} {rest : List Word}

/-- the words begin with the name of a grammar, `a.G`, and those of a rule of which nothing else is declared -/
structure Opens (x a d b w c : Word) (n : Text) : Prop where
  grammar : x.IsWord "grammar"
  qualifier : a.IsWord "a"
  dot : d.Is .dot
  simple : b.IsWord "G"
  name : w.IsWord n
  colon : c.Is .colon

theorem words_escapedRule {n body : Text} {t : Tree} (hn : IsIdentifier n) (h : IsBody body t) :
    ∃ pieces x a d b w c ws s t', Piece.cut (escapedRule n body) = .ok pieces ∧
      wordsOf (Lexed.ofPieces Mark.start pieces).tokens = x :: a :: d :: b :: w :: c :: (ws ++ [s]) ∧
      Opens x a d b w c n ∧ Spells .parser .alternatives ws [t'] ∧ s.Is .semicolon ∧ placeless t' = placeless t := by
  obtain ⟨qs, hqs, hwords⟩ := h.spelled
  obtain ⟨us, m, hfront, hkeys⟩ := words_front (escapedPieces n)
    (by simp [escapedPieces, namePiece, symbolPiece, blankPiece, Symbol.key]) Mark.start qs
  obtain ⟨ws, s, t', hbody, hspells, hs, ht'⟩ := hwords m
  obtain ⟨x, us, rfl, hx, hkeys⟩ := words_cons hkeys
  obtain ⟨a, us, rfl, ha, hkeys⟩ := words_cons hkeys
  obtain ⟨d, us, rfl, hd, hkeys⟩ := words_cons hkeys
  obtain ⟨b, us, rfl, hb, hkeys⟩ := words_cons hkeys
  obtain ⟨w, us, rfl, hw, hkeys⟩ := words_cons hkeys
  obtain ⟨c, rfl, hc⟩ := words_one hkeys
  rw [hbody] at hfront
  exact ⟨_, x, a, d, b, w, c, ws, s, t', cut_escapedRule hn hqs, hfront, ⟨Word.value_of_key hx, Word.value_of_key ha,
    Word.is_of_key hd, Word.value_of_key hb, Word.value_of_key hw, Word.is_of_key hc⟩, hspells, hs, ht'⟩

namespace Opens

variable {n : Text} (h : Opens x a d b w c n)

include h

theorem gives_header : (WrittenGrammar.header (x :: a :: d :: b :: w :: c :: rest)).Gives "a.G" (w :: c :: rest) := by
  have hundotted : Undotted (w :: c :: rest) := by simp [Undotted, atSymbol, Token.isSymbol, h.name.1.kind]
  simp only [WrittenGrammar.header, gives_next', gives_takeWord, qualifiedName, gives_take, gives_map]
  refine ⟨_, _, ⟨x, rfl, h.grammar, rfl⟩, _, _, ⟨a, rfl, h.qualifier.1, rfl⟩, ["G"], ?_, ?_⟩
  · rw [moreNameParts, if_pos (by simp [h.dot.kind, h.simple.1.kind]), gives_loose, gives_behind, gives_behind,
      gives_map]
    exact ⟨[], gives_moreNameParts_nil hundotted, by rw [h.simple.2]⟩
  · rw [h.qualifier.2]
    rfl

/-- where the name is no keyword, the words are read as a grammar -/
theorem ofWords (hwith : n ≠ "with") (hhidden : n ≠ "hidden") {rs : List WrittenRule}
    (hrows : Rows (w :: c :: rest) rs) :
    WrittenGrammar.ofWords (x :: a :: d :: b :: w :: c :: rest) = .ok ⟨"a.G", x.comment, [], [], [], rs⟩ := by
  have hplain : ∀ word, n ≠ word → atWord word (w :: c :: rest) = false := by
    intro word hword
    rw [Bool.eq_false_iff]
    exact fun hat => hword (h.name.2.symm.trans ((atWord_cons ..).1 hat).2)
  have huses : (usesHere (w :: c :: rest)).Gives [] (w :: c :: rest) := by
    simp only [usesHere, gives_map, gives_behindWord?]
    exact ⟨none, .inl ⟨rfl, trivial, hplain _ hwith⟩, rfl⟩
  have hmodels : metamodel? (w :: c :: rest) = none := by
    simp [metamodel?, introduces, atName, atLiteral, h.colon.kind]
  exact (ofWords_iff ..).2 ⟨_, _, ⟨_, h.gives_header, huses⟩, clauses_of_none (hplain _ hhidden) hmodels, hrows, rfl⟩

/-- behind `with` the name of a grammar is wanted -/
theorem not_with {uses : List Text} {mid : List Word} (huses : (usesHere (w :: c :: rest)).Gives uses mid) :
    n ≠ "with" ∧ mid = w :: c :: rest := by
  simp only [usesHere, gives_map, gives_behindWord?] at huses
  obtain ⟨_, ⟨-, rfl, hno⟩ | ⟨y, _, _, hwords, -, hread, -⟩, -⟩ := huses
  · refine ⟨?_, rfl⟩
    rintro rfl
    cases hno.symm.trans ((atWord_cons ..).2 h.name)
  · cases hwords
    simp only [oneOrMore, gives_next', qualifiedName, gives_take] at hread
    obtain ⟨_, _, ⟨_, _, ⟨u, hu, hname, -⟩, -⟩, -⟩ := hread
    cases hu
    cases h.colon.symm.trans hname

/-- behind `hidden` a parenthesis is wanted -/
theorem not_hidden {hidden : List Text} {mid : List Word} (hhidden : (hiddenHere (w :: c :: rest)).Gives hidden mid) :
    n ≠ "hidden" := by
  rintro rfl
  simp only [hiddenHere, hiddenClause, gives_map, gives_behindWord?, gives_next', gives_takeSymbol] at hhidden
  obtain ⟨_, ⟨-, -, hno⟩ | ⟨_, _, _, hwords, -, ⟨_, _, ⟨o, rfl, ho, -⟩, -⟩, -⟩, -⟩ := hhidden
  · cases hno.symm.trans ((atWord_cons ..).2 h.name)
  · cases hwords
    cases h.colon.symm.trans ho

/-- where it is one, they are not -/
theorem ne_of_ofWords {g : WrittenGrammar}
    (hg : WrittenGrammar.ofWords (x :: a :: d :: b :: w :: c :: rest) = .ok g) : n ≠ "with" ∧ n ≠ "hidden" := by
  obtain ⟨_, _, ⟨_, hheader, huses⟩, ⟨_, hhidden, -⟩, -, -⟩ := (ofWords_iff ..).1 hg
  obtain ⟨-, rfl⟩ := h.gives_header.unique hheader
  obtain ⟨hwith, rfl⟩ := h.not_with huses
  exact ⟨hwith, h.not_hidden hhidden⟩

end Opens

end OneRule

/-- where a call stands does not matter to what a definition is linked to -/
theorem linked_of_placeless {t t' : Tree} (h : placeless t' = placeless t) (g : Grammar) :
    (t'.map fun c => some (g.target c)) = t.map fun c => some (g.target c) := by
  have hmap : ∀ t : Tree, (t.map fun c => some (g.target c)) = (placeless t).map fun c => some (g.target c) :=
    fun t => (Element.map_map WrittenCall.placeless (fun c => some (g.target c)) t).symm
  rw [hmap t', h, ← hmap t]

/-- where something else than a rule may stand, its keyword is no name -/
theorem ne_of_readWith {n body : Text} {t : Tree} (hn : IsIdentifier n) (h : IsBody body t)
    {load : Text → Library → Library.Outcome Grammar} {file : Path} {l : Library} {g : Grammar}
    (hread : (Library.readWith load file (escapedRule n body) l).1 = .ok g) : n ≠ "with" ∧ n ≠ "hidden" := by
  obtain ⟨pieces, x, a, d, b, w, c, ws, s, t', hcut, hwords, hopens, -⟩ := words_escapedRule hn h
  obtain ⟨written, -, -, hwritten, -⟩ := Library.readWith_ok (Prod.ext hread rfl)
  obtain ⟨pieces', hcut', hofWords⟩ := ofWords_of_ofText hwritten
  cases hcut.symm.trans hcut'
  rw [hwords] at hofWords
  exact hopens.ne_of_ofWords hofWords

/-- an escaped name declares a rule unless something else may stand where the rule does -/
theorem declaresOne_escapedRule {n body : Text} {t : Tree} (hn : IsIdentifier n) (h : IsBody body t) :
    DeclaresOne (escapedRule n body) n t ↔ n ≠ "with" ∧ n ≠ "hidden" := by
  refine ⟨fun hdeclares => ?_, fun hne load file l => ?_⟩
  · obtain ⟨g, -, hread, -⟩ := hdeclares (fun _ l => (.error .tooDeep, l)) (Path.ofText "a") .empty
    exact ne_of_readWith hn h hread
  · obtain ⟨pieces, x, a, d, b, w, c, ws, s, t', hcut, hwords, hopens, hspells, hs, ht'⟩ := words_escapedRule hn h
    have hdeclared := (declared_bare_iff (n := w) hopens.colon _ _).2 ⟨ws, s, t', rfl, hopens.name.1, hspells, hs, rfl⟩
    have hrows := Rows.more (.intro .none hdeclared) (.done .none)
    rw [List.append_nil, List.nil_append] at hrows
    have htext := ofText_of_ofWords hcut ((congrArg _ hwords).trans (hopens.ofWords hne.1 hne.2 hrows)) file
    refine ⟨_, _, readWith_of_ofText load l htext rfl, rfl, rfl, hopens.name.2, rfl, ?_⟩
    simp only [Scope.linkRule, Scope.resolve_eq, Option.map_some, Option.some.injEq]
    exact linked_of_placeless ht' _

/-! ## Calls in a terminal rule -/

/-- the word stands in the body of a rule, and no two colons stand beside it -/
def StandsAlone (words : List Word) (x : Word) : Prop :=
  ∃ head c us vs, words = head ++ c :: (us ++ x :: vs) ∧ c.Is .colon ∧ (∀ w ∈ us.getLast?, ¬ w.Is .doubleColon) ∧
    atSymbol .doubleColon vs = false

namespace Source

/-- the symbols that stand in parser rules only: they assign something, or open an action or a reference -/
def parserSymbols : List Symbol := [.openBrace, .openBracket, .equals, .plusEquals, .questionEquals]

def Word.InTerminal (w : Word) : Prop := ∀ s ∈ parserSymbols, ¬ w.Is s

theorem Word.IsName.inTerminal {w : Word} (h : w.IsName) : w.InTerminal := fun _ _ hs => by cases h.symm.trans hs

theorem Word.IsLiteral.inTerminal {w : Word} (h : w.IsLiteral) : w.InTerminal := fun _ _ hs => by cases h.symm.trans hs

theorem Word.Is.inTerminal {w : Word} {s : Symbol} (h : w.Is s) (hs : s ∉ parserSymbols) : w.InTerminal := by
  intro s' hs' heq
  cases h.symm.trans heq
  exact hs hs'

theorem marked_inTerminal {α : Type} {meaning : Token → Option α} {ps : List Word} {p : Option α}
    (h : Marked meaning ps p)
    (hmeaning : ∀ w : Word, (meaning w.token).isSome → ∃ s, w.Is s ∧ s ∉ parserSymbols) : ∀ w ∈ ps, w.InTerminal := by
  cases h with
  | absent => exact List.forall_mem_nil _
  | @present w p hw =>
    obtain ⟨s, hs, hout⟩ := hmeaning w (by simp [hw])
    exact List.forall_mem_singleton.2 (hs.inTerminal hout)

/-- the words of a terminal rule assign nothing and open neither an action nor a reference -/
theorem inTerminal_of_spells {p : Part} {ws : List Word} {ts : List Tree} (h : Spells .terminal p ws ts)
    (hp : p.Of .terminal) : ∀ w ∈ ws, w.InTerminal := by
  induction h with
  | rowOne _ ih => exact ih hp.2
  | rowMore _ hb _ ih ihrow =>
    have hmark := hb.inTerminal (by rcases hp.1 with rfl | rfl <;> decide)
    exact List.forall_mem_append.2 ⟨ih hp.2, List.forall_mem_cons.2 ⟨hmark, ihrow hp⟩⟩
  | alternatives _ ih => exact ih ⟨.inl rfl, trivial⟩
  | unordered _ ih => exact ih ⟨.inr rfl, trivial⟩
  | sequence _ ih => exact ih trivial
  | elementsOne _ ih => exact ih trivial
  | elementsMore _ _ ih ihmore => exact List.forall_mem_append.2 ⟨ih trivial, ihmore trivial⟩
  | action hm _ => cases hm
  | @element ps ws cs p c t hps _ _ hcs ih =>
    have hpredicates := marked_inTerminal hps fun w hw => by
      unfold predicate? at hw
      split at hw
      · next hs => exact ⟨_, hs, by decide⟩
      · next hs => exact ⟨_, hs, by decide⟩
      · cases hw
    have hcardinalities := marked_inTerminal hcs fun w hw => by
      unfold cardinality? at hw
      split at hw
      · next hs => exact ⟨_, hs, by decide⟩
      · next hs => exact ⟨_, hs, by decide⟩
      · next hs => exact ⟨_, hs, by decide⟩
      · cases hw
    exact List.forall_mem_append.2 ⟨List.forall_mem_append.2 ⟨hpredicates, ih trivial⟩, hcardinalities⟩
  | assignment hm _ _ _ _ => cases hm
  | plainAtom hm _ _ => cases hm
  | upTo _ ha _ ih => exact List.forall_mem_cons.2 ⟨ha.inTerminal (by decide), ih rfl⟩
  | plainOperand _ _ ih => exact ih rfl
  | wildcard hd => exact List.forall_mem_singleton.2 (hd.inTerminal (by decide))
  | endOfFile hn => exact List.forall_mem_singleton.2 (Word.IsName.inTerminal hn.1)
  | range hl hd hr =>
    exact List.forall_mem_cons.2 ⟨hl.inTerminal, List.forall_mem_cons.2 ⟨hd.inTerminal (by decide),
      List.forall_mem_singleton.2 hr.inTerminal⟩⟩
  | negated hb _ ih => exact List.forall_mem_cons.2 ⟨hb.inTerminal (by decide), ih hp⟩
  | operandAtom _ ih => exact ih trivial
  | leaf h =>
    cases h with
    | keyword hw => exact List.forall_mem_singleton.2 hw.inTerminal
    | call h =>
      obtain ⟨hv, -⟩ := h
      cases hv with
      | plain hn => exact List.forall_mem_singleton.2 hn.inTerminal
      | qualified hq hc hn =>
        exact List.forall_mem_cons.2 ⟨hq.inTerminal, List.forall_mem_cons.2 ⟨hc.inTerminal (by decide),
          List.forall_mem_singleton.2 hn.inTerminal⟩⟩
  | group ho _ hc ih =>
    exact List.forall_mem_append.2 ⟨List.forall_mem_cons.2 ⟨ho.inTerminal (by decide), ih trivial⟩,
      List.forall_mem_singleton.2 (hc.inTerminal (by decide))⟩
  | crossReference _ => cases hp
  | memberAssignable _ _ => cases hp
  | assignableLeaf _ => cases hp
  | assignableGroup _ _ _ _ => cases hp

/-- in a terminal rule a name is a call unless it means the end of the text -/
theorem isNoCall_terminal {x : Word} {vs : List Word} (hx : x.token.value ≠ "EOF") (hvs : ∀ w ∈ vs, w.InTerminal) :
    isNoCall .terminal x vs = false := by
  have hno : ∀ w ∈ vs, ∀ s ∈ parserSymbols, w.token.isSymbol s = false := fun w hw s hs =>
    Bool.eq_false_iff.2 fun his => hvs w hw s hs ((Token.isSymbol_iff ..).1 his)
  have hassigned : (vs.head?.any fun o => isAssignment o.token) = false := by
    cases vs with
    | nil => rfl
    | cons o vs =>
      have ho := hno o List.mem_cons_self
      simp [isAssignment, ho .equals (by decide), ho .plusEquals (by decide), ho .questionEquals (by decide)]
  simp [isNoCall, hx, hassigned]

/-- the scan comes to a name where no two colons and no brackets stand before it -/
theorem mem_callsAmong {m : Mode} {us vs : List Word} {x : Word} (hus : ∀ w ∈ us, w.InTerminal)
    (hlast : ∀ w ∈ us.getLast?, ¬ w.Is .doubleColon) (hx : x.IsName) (hcall : isNoCall m x vs = false)
    (hvs : atSymbol .doubleColon vs = false) :
    callOf (x.token, none) ∈ callsAmong m .free (us ++ x :: vs) ∧
      (us ≠ [] → callOf (x.token, none) ∈ callsAmong m .secondPart (us ++ x :: vs)) := by
  induction us with
  | nil =>
    have hnone : secondPart? vs = none := by
      unfold secondPart?
      split
      · exact if_neg (Bool.eq_false_iff.1 hvs)
      · rfl
    refine ⟨?_, fun h => absurd rfl h⟩
    rw [List.nil_append, callsAmong, if_pos hx, if_neg (by simp [hcall]), hnone]
    exact List.mem_cons_self
  | cons w us ih =>
    obtain ⟨hw, hus⟩ := List.forall_mem_cons.1 hus
    have hend : ∀ w ∈ us.getLast?, ¬ w.Is .doubleColon := by
      intro w' hw'
      refine hlast w' ?_
      rw [List.getLast?_cons, Option.mem_def.1 hw']
      rfl
    obtain ⟨hfree, hsecond⟩ := ih hus hend
    refine ⟨?_, fun _ => hfree⟩
    rw [List.cons_append, callsAmong]
    split
    · split
      · exact hfree
      · exact List.mem_cons_of_mem _ hfree
    · split
      · next hcolons =>
        refine hsecond ?_
        rintro rfl
        exact hlast w rfl ((Token.isSymbol_iff ..).1 hcolons)
      · rw [if_neg fun h => hw .openBrace (by decide) ((Token.isSymbol_iff ..).1 h),
          if_neg fun h => hw .openBracket (by decide) ((Token.isSymbol_iff ..).1 h)]
        exact hfree

/-- the word for the end of the text is no call of a terminal rule -/
theorem ne_of_mem_callsAmong {stand : Stand} {ws : List Word} {x : Token}
    (h : callOf (x, none) ∈ callsAmong .terminal stand ws) : x.value ≠ "EOF" := by
  fun_induction callsAmong .terminal stand ws with
  | case1 => cases h
  | case5 w ws _ hno ih =>
    rcases List.mem_cons.1 h with heq | hmore
    · have hvalue : x.value = w.token.value := by
        cases hsecond : secondPart? ws with
        | none => exact congrArg WrittenCall.name (heq.trans (by rw [hsecond]))
        | some n => simp [callOf, hsecond] at heq
      intro heof
      exact hno (by simp [isNoCall, ← hvalue, heof])
    · exact ih hmore
  | _ => rename_i ih; exact ih h

/-- words with one colon among them are split there in one way -/
theorem split_at_colon {head head' body body' : List Word} {c c' : Word} (h : head ++ c :: body = head' ++ c' :: body')
    (hc : c.Is .colon) (hhead : ∀ w ∈ head', ¬ w.Is .colon) (hbody : ∀ w ∈ body', ¬ w.Is .colon) : body = body' := by
  induction head' generalizing head with
  | nil =>
    cases head with
    | nil => exact (List.cons.inj h).2
    | cons w head =>
      refine absurd hc (hbody c ?_)
      rw [← (List.cons.inj h).2]
      exact List.mem_append_right _ List.mem_cons_self
  | cons w' head' ih =>
    obtain ⟨hw', hhead⟩ := List.forall_mem_cons.1 hhead
    cases head with
    | nil => exact absurd ((List.cons.inj h).1 ▸ hc) hw'
    | cons w head => exact ih (List.cons.inj h).2 hhead

/-- where a name stands alone in a terminal rule, the rule calls it unless it means the end of the text -/
theorem calls_standsAlone {words : List Word} {r : WrittenRule} {fragment : Bool} {x : Word} (h : Declared words r)
    (hkind : r.kind = .terminal fragment) (hx : x.IsName) (halone : StandsAlone words x) :
    callOf (x.token, none) ∈ r.calls ↔ x.token.value ≠ "EOF" := by
  obtain ⟨head, c, us, vs, hwords, hc, hlast, hvs⟩ := halone
  cases h with
  | parser => cases hkind
  | enumeration => cases hkind
  | @terminal k fs ts ws _ n c' s type t hk hf hn ht hc' hspells hs _ =>
    have hscanned := scanned_of_spells hspells trivial
    have hhead : ∀ w ∈ k :: (fs ++ n :: ts), w.Ordinary := List.forall_mem_cons.2 ⟨Word.IsName.ordinary hk.1,
      List.forall_mem_append.2 ⟨hf.ordinary, List.forall_mem_cons.2 ⟨hn.ordinary, ht.ordinary⟩⟩⟩
    have hsplit : head ++ c :: (us ++ x :: vs) = k :: (fs ++ n :: ts) ++ c' :: (ws ++ [s]) := by
      rw [← hwords]
      simp
    have hbody : us ++ x :: vs = ws ++ [s] := by
      refine split_at_colon hsplit hc (fun w hw => (hhead w hw).1) fun w hw => ?_
      rcases List.mem_append.1 hw with hw | hw
      · exact (hscanned.ordinary w hw).1
      · rw [List.mem_singleton.1 hw]
        exact fun hcolon => nomatch hcolon.symm.trans hs
    have hcalls : Declaration.calls ⟨.terminal fragment, n.token.value, type, none, some n.token.line, some t⟩ =
        callsAmong .terminal .free ws := by
      simpa [Declaration.calls, callsAmong] using (hscanned.calls [] fun _ _ => rfl).symm
    cases hkind
    rw [hcalls]
    refine ⟨ne_of_mem_callsAmong, fun hne => ?_⟩
    obtain ⟨behind, rfl, rfl⟩ : ∃ behind, vs = behind ++ [s] ∧ ws = us ++ x :: behind := by
      rcases List.eq_nil_or_concat vs with rfl | ⟨behind, last, rfl⟩
      · obtain ⟨-, hlast⟩ := List.append_inj' hbody rfl
        cases hlast
        cases hx.symm.trans hs
      · rw [List.concat_eq_append, ← List.cons_append, ← List.append_assoc] at hbody
        obtain ⟨hws, hlast⟩ := List.append_inj' hbody rfl
        exact ⟨behind, by rw [List.concat_eq_append, hlast], hws.symm⟩
    have hterminal := inTerminal_of_spells hspells trivial
    have hcall := isNoCall_terminal hne fun w hw => hterminal w (List.mem_append_right _ (List.mem_cons_of_mem _ hw))
    refine (mem_callsAmong (fun w hw => hterminal w (List.mem_append_left _ hw)) hlast hx hcall ?_).1
    cases behind with
    | nil => rfl
    | cons w behind => exact hvs

end Source

/-- **An escaped name declares a rule if and only if it is neither `with` nor `hidden`, and where it stands alone in a
terminal rule, it is called if and only if it is not `EOF`**. The first holds for every identifier and every body that a
parser rule can have: the text of a grammar with that one rule is read as such a grammar, with the definition of the
body. The second holds for every terminal rule that is read and every place of its body where the name is escaped; the
call has the place of the name, so it is no other one. -/
theorem escaped_name_is_name_iff (n : Text) :
    (∀ (body : Text) (t : Tree), IsIdentifier n → IsBody body t →
      (DeclaresOne (escapedRule n body) n t ↔ n ≠ "with" ∧ n ≠ "hidden")) ∧
    ∀ (words rest : List Word) (r : WrittenRule) (fragment : Bool) (x : Word), (rule (words ++ rest)).Gives r rest →
      r.kind = .terminal fragment → x.token.IsEscaped → x.token.value = n → StandsAlone words x →
        (callOf (x.token, none) ∈ r.calls ↔ n ≠ "EOF") := by
  refine ⟨fun body t hn hbody => declaresOne_escapedRule hn hbody, ?_⟩
  intro words rest r fragment x hread hkind hx hvalue halone
  obtain ⟨ws, hws, hdeclared⟩ := (gives_rule_iff ..).1 hread
  obtain rfl := List.append_cancel_right hws
  subst hvalue
  exact calls_standsAlone hdeclared hkind hx.1 halone

theorem isBody_keyword : IsBody "'x'" (.keyword .none "x") := by
  let w : Word := ⟨⟨.literal, "x", 1, 4, 3⟩, none⟩
  have hlexed : Lexed.ofSource (Path.ofText "a") (Text.ofString "A: " ++ Text.ofString "'x'" ++ Text.ofString ";") =
      .ok ⟨[⟨.name, "A", 1, 1, 1⟩, ⟨.symbol .colon, ":", 1, 2, 1⟩, w.token, ⟨.symbol .semicolon, ";", 1, 7, 1⟩],
        ⟨1, 8⟩⟩ := by cbv
  have hdeclared := Declared.leaf (n := ⟨⟨.name, "A", 1, 1, 1⟩, none⟩) (c := ⟨⟨.symbol .colon, ":", 1, 2, 1⟩, none⟩)
    (s := ⟨⟨.symbol .semicolon, ";", 1, 7, 1⟩, none⟩) rfl rfl (.keyword (w := w) rfl) rfl
  exact ⟨_, ⟨_, _, hlexed, (gives_rule_iff ..).2 ⟨_, (List.append_nil _).symm, hdeclared⟩⟩, rfl⟩

/-- a terminal rule of one word -/
theorem Declared.operand {k n c w s : Word} {t : Tree} (hk : k.IsWord "terminal") (hn : n.IsName)
    (hc : c.Is .colon) (hw : Spells .terminal .operand [w] [t]) (hs : s.Is .semicolon) :
    Declared [k, n, c, w, s] ⟨.terminal false, n.token.value, none, none, some n.token.line, some t⟩ := by
  have helement : Spells .terminal .element [w] [t] := .element .absent (fun _ => rfl) (.plainOperand rfl hw) .absent
  have hcolon : atName ([] ++ [c]) = false := by simp [atName, hc.kind]
  exact .terminal hk .absent hn .absent hc
    (.alternatives (.rowOne (.unordered (.rowOne (.sequence (.elementsOne helement)))))) hs
    fun _ h => absurd (h.symm.trans hcolon) (by decide)

/-- the words of the text `terminal T: ^n;` -/
def escapedOperand (n : Text) : List Word :=
  [⟨⟨.name, "terminal", 1, 1, 8⟩, none⟩, ⟨⟨.name, "T", 1, 10, 1⟩, none⟩, ⟨⟨.symbol .colon, ":", 1, 11, 1⟩, none⟩,
    ⟨⟨.name, n, 1, 13, n.length + 1⟩, none⟩, ⟨⟨.symbol .semicolon, ";", 1, 14 + n.length, 1⟩, none⟩]

theorem standsAlone_escapedOperand (n : Text) :
    StandsAlone (escapedOperand n) ⟨⟨.name, n, 1, 13, n.length + 1⟩, none⟩ :=
  ⟨(escapedOperand n).take 2, ⟨⟨.symbol .colon, ":", 1, 11, 1⟩, none⟩, [], (escapedOperand n).drop 4, rfl, rfl, nofun,
    rfl⟩

theorem gives_escapedOperand {n : Text} {t : Tree}
    (h : Spells .terminal .operand [⟨⟨.name, n, 1, 13, n.length + 1⟩, none⟩] [t]) :
    (rule (escapedOperand n ++ [])).Gives ⟨.terminal false, "T", none, none, some 1, some t⟩ [] :=
  (gives_rule_iff ..).2 ⟨_, rfl, .operand (n := ⟨⟨.name, "T", 1, 10, 1⟩, none⟩) ⟨rfl, rfl⟩ rfl rfl h rfl⟩

/-- `terminal` declares a rule and is called in one -/
theorem escaped_terminal_is_name :
    DeclaresOne (escapedRule "terminal" "'x'") "terminal" (.keyword .none "x") ∧
      ∃ (lexed : Lexed) (r : WrittenRule), Lexed.ofSource (Path.ofText "a") "terminal T: ^terminal;" = .ok lexed ∧
        (rule (wordsOf lexed.tokens)).Gives r [] ∧ ⟨none, "terminal", 1, 13⟩ ∈ r.calls := by
  have hlexed : Lexed.ofSource (Path.ofText "a") "terminal T: ^terminal;" =
      .ok ⟨(escapedOperand "terminal").map Word.token, ⟨1, 23⟩⟩ := by cbv
  have hread := gives_escapedOperand (n := "terminal")
    (.operandAtom (.leaf (.call (.named (.plain rfl) fun _ => by decide))))
  obtain ⟨hdeclares, hcalls⟩ := escaped_name_is_name_iff "terminal"
  refine ⟨(hdeclares _ _ (.intro (by decide) (by decide)) isBody_keyword).2 ⟨by decide, by decide⟩, _, _, hlexed, hread,
    ?_⟩
  exact (hcalls _ _ _ false _ hread rfl ⟨rfl, rfl⟩ rfl (standsAlone_escapedOperand _)).2 (by decide)

/-- `with` is an identifier and `'x'` a body, but no reader reads the text of a grammar with the rule `^with: 'x';`; and
in the text `terminal T: ^EOF;` no rule is called -/
theorem escaped_with_is_refused : IsIdentifier "with" ∧ IsBody "'x'" (.keyword .none "x") ∧
    (∀ (load : Text → Library → Library.Outcome Grammar) (file : Path) (l : Library) (g : Grammar),
      (Library.readWith load file (escapedRule "with" "'x'") l).1 ≠ .ok g) ∧
    ∃ (lexed : Lexed) (r : WrittenRule) (x : Word), Lexed.ofSource (Path.ofText "a") "terminal T: ^EOF;" = .ok lexed ∧
      (rule (wordsOf lexed.tokens)).Gives r [] ∧ x.token.IsEscaped ∧ StandsAlone (wordsOf lexed.tokens) x ∧
      x.token.value = "EOF" ∧ r.calls = [] := by
  have hidentifier : IsIdentifier "with" := .intro (by decide) (by decide)
  have hlexed : Lexed.ofSource (Path.ofText "a") "terminal T: ^EOF;" =
      .ok ⟨(escapedOperand "EOF").map Word.token, ⟨1, 18⟩⟩ := by cbv
  have hread := gives_escapedOperand (n := "EOF") (.endOfFile ⟨rfl, rfl⟩)
  refine ⟨hidentifier, isBody_keyword, fun load file l g h => (ne_of_readWith hidentifier isBody_keyword h).1 rfl,
    _, _, _, hlexed, hread, ⟨rfl, rfl⟩, standsAlone_escapedOperand _, rfl, ?_⟩
  simp [Declaration.calls, Element.calls_eq, Element.target?, Element.children]

end Rulebook
