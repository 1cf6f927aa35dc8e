/-
The built-in grammar is read like any other, from its text. Here its text is cut into the tokens of a head and of seven
terminal rules (`keys_builtin`); the head is read by its clauses, and the rules by what their definitions are printed as,
so that no reader has to be run on the whole text.

`exists_builtin`: the text is accepted, under the name of the built-in grammar, and uses no other grammar.
-/
import Rulebook.Library.Builtin
import Rulebook.Proofs.RoundTrip

namespace Rulebook.Library

open Source Element Rulebook.Reading

/-! ## Terminal rules by their tokens -/

/-- words with these tokens are the definition of a terminal rule -/
def Definable (keys : List Key) : Prop :=
  ∀ ws : List Word, ws.map Word.key = keys → ∃ t, Spells .terminal .alternatives ws [t]

/-- a terminal rule by its name, its type and the tokens of its definition -/
structure TerminalKeys where
  name : Text
  type : Option Text
  definition : List Key

/-- the rule without its definition -/
def TerminalKeys.header (r : TerminalKeys) : Declaration Text := ⟨.terminal false, r.name, r.type, none, none, none⟩

/-- the tokens of the rule -/
def TerminalKeys.keys (r : TerminalKeys) : List Key :=
  r.header.headerKeys ++ Symbol.colon.key :: (r.definition ++ [Symbol.semicolon.key])

/-- a rule that is read from its tokens -/
structure TerminalKeys.Sound (r : TerminalKeys) : Prop where
  headed : Headed (.terminal false) r.name r.type
  definable : Definable r.definition

/-- an outline of a terminal rule that is read from what is printed of it -/
structure Legible (e : Outline) : Prop where
  formed : Formed .terminal e
  fits : ∀ x ∈ e.nodes, OperandFits x

namespace Legible

variable {d : Decoration} {e : Outline}

theorem keyword (v : Text) (hd : d.predicate = none) : Legible (.keyword d v) :=
  ⟨.keyword v fun _ => hd, (forall_nodes_iff _).2 ⟨trivial, nofun⟩⟩

theorem wildcard (hd : d.predicate = none) : Legible (.wildcard d) :=
  ⟨.wildcard rfl fun _ => hd, (forall_nodes_iff _).2 ⟨trivial, nofun⟩⟩

theorem range (l r : Text) (hd : d.predicate = none) : Legible (.range d ⟨.none, l⟩ ⟨.none, r⟩) := by
  refine ⟨.range l r rfl fun _ => hd, (forall_nodes_iff _).2 ⟨trivial, ?_⟩⟩
  exact List.forall_mem_cons.2 ⟨(keyword l rfl).fits, List.forall_mem_singleton.2 (keyword r rfl).fits⟩

theorem negated (he : Legible e) (hnone : e.decoration.isNone = true) (hupTo : e.isUpTo = false)
    (hd : d.predicate = none) : Legible (.negated d e) :=
  ⟨.negated rfl (fun _ => hd) he.formed, (forall_nodes_iff _).2 ⟨⟨hnone, hupTo⟩, List.forall_mem_singleton.2 he.fits⟩⟩

theorem upTo (he : Legible e) (hnone : e.decoration.isNone = true) (hupTo : e.isUpTo = false)
    (hd : d.predicate = none) : Legible (.upTo d e) :=
  ⟨.upTo rfl (fun _ => hd) he.formed, (forall_nodes_iff _).2 ⟨⟨hnone, hupTo⟩, List.forall_mem_singleton.2 he.fits⟩⟩

theorem compound {g : Gathering} {es : List Outline} (hd : d.predicate = none) (hg : g ≠ .plain) (hlength : 2 ≤ es.length)
    (hes : ∀ e ∈ es, Legible e) : Legible (.compound d g es) :=
  ⟨.compound (fun _ => hd) hg hlength fun e he => (hes e he).formed,
    (forall_nodes_iff _).2 ⟨trivial, fun e he => (hes e he).fits⟩⟩

/-- what is printed of it is a definition -/
theorem definable (h : Legible e) : Definable (e.keys 1) := by
  intro ws hws
  obtain ⟨t, ht, -⟩ := spells_of_keys h.formed h.fits 1 hws
  exact ⟨t, ht⟩

end Legible

/-- parentheses around a definition, and a plus behind them -/
theorem definable_parens {keys : List Key} (h : Definable keys) : Definable (parenKeys keys ++ [Symbol.plus.key]) := by
  intro ws hws
  obtain ⟨us, last, rfl, hus, hlast⟩ := words_append hws
  obtain ⟨o, inside, c, rfl, ho, hinside, hc⟩ := words_parens hus
  obtain ⟨p, rfl, hp⟩ := words_one hlast
  obtain ⟨t, ht⟩ := h inside hinside
  have hplus : Marked cardinality? [p] (some .atLeastOne) := .present (by simp [cardinality?, (Word.is_of_key hp).kind])
  have helement : Spells .terminal .element ([] ++ (o :: inside ++ [c]) ++ [p]) [dress none (some .atLeastOne) t] :=
    .element .absent (fun _ => rfl) (.plainOperand rfl (.operandAtom (.group ho ht hc))) hplus
  have hdefinition : Spells .terminal (contextPart 1) _ _ := loosen 4 helement (by decide)
  exact ⟨_, hdefinition⟩

/-- a rule is read from words with its tokens, whatever follows -/
theorem TerminalKeys.Sound.gives {r : TerminalKeys} (h : r.Sound) {ws : List Word} (hws : ws.map Word.key = r.keys) :
    ∃ a us, ws = a :: us ∧ a.IsWord "terminal" ∧ ∀ rest, ∃ d, (rule (ws ++ rest)).Gives d rest := by
  obtain ⟨hs, more, rfl, hhs, hmore⟩ := words_append hws
  obtain ⟨c, more, rfl, hc, hmore⟩ := words_cons hmore
  obtain ⟨us, last, rfl, hus, hlast⟩ := words_append hmore
  obtain ⟨s, rfl, hs'⟩ := words_one hlast
  obtain ⟨t, ht⟩ := h.definable us hus
  obtain ⟨a, as, rfl, ha, -⟩ := words_cons (show hs.map Word.key = ((.name, "terminal") : Key) :: _ from hhs)
  refine ⟨a, _, rfl, Word.value_of_key ha, fun rest => ?_⟩
  obtain ⟨line, hgives⟩ := gives_header (r := r.header) h.headed hhs (Word.is_of_key hc) (us ++ s :: rest)
  have hdefinition : ReadsDefinition (.terminal false) (c :: (us ++ s :: rest)) t rest :=
    (gives_definition ..).2 ⟨c, us, s, rfl, Word.is_of_key hc, ht, Word.is_of_key hs'⟩
  rw [show (a :: as ++ c :: (us ++ [s])) ++ rest = (a :: as) ++ c :: (us ++ s :: rest) by simp]
  exact ⟨_, (hgives _ rest).2 ⟨t, hdefinition, rfl⟩⟩

/-- rules are read up to the end -/
theorem gives_rules_of_keys {rs : List TerminalKeys} (h : ∀ r ∈ rs, r.Sound) {ws : List Word}
    (hws : ws.map Word.key = rs.flatMap TerminalKeys.keys) : ∃ ds, (rules ws).Gives ds [] := by
  induction rs generalizing ws with
  | nil =>
    rw [words_nil hws]
    exact ⟨[], rules_nil⟩
  | cons r rs ih =>
    obtain ⟨us, vs, rfl, hus, hvs⟩ := words_append hws
    obtain ⟨a, as, rfl, ha, hread⟩ := (h r List.mem_cons_self).gives hus
    obtain ⟨d, hd⟩ := hread vs
    obtain ⟨ds, hds⟩ := ih (fun r hr => h r (List.mem_cons_of_mem _ hr)) hvs
    exact ⟨_, rules_cons ha.1 hd hds⟩

/-! ## The head of a grammar by its tokens -/

def nameKey (n : Text) : Key := (.name, n)

/-- a name is no other word -/
theorem atWord_of_name {a : Word} {n word : Text} {more : List Word} (ha : a.key = nameKey n) (hne : n ≠ word) :
    atWord word (a :: more) = false := by
  obtain ⟨-, rfl⟩ := Word.value_of_key ha
  simp [atWord, Token.isWord, hne]

/-- a name is no symbol -/
theorem atSymbol_of_name {a : Word} {n : Text} {s : Symbol} {more : List Word} (ha : a.key = nameKey n) :
    atSymbol s (a :: more) = false := by
  obtain ⟨hkind, -⟩ := Word.value_of_key ha
  simp [atSymbol, Token.isSymbol, hkind]

/-- further parts of a qualified name are read from their tokens -/
theorem gives_moreNameParts {parts : List Text} {ws rest : List Word}
    (hws : ws.map Word.key = parts.flatMap fun p => [Symbol.dot.key, nameKey p]) (hrest : atSymbol .dot rest = false) :
    (moreNameParts (ws ++ rest)).Gives parts rest := by
  induction parts generalizing ws with
  | nil =>
    rw [words_nil hws, List.nil_append]
    match rest with
    | [] => exact (gives_nothing ..).2 ⟨rfl, rfl⟩
    | [_] => exact (gives_nothing ..).2 ⟨rfl, rfl⟩
    | a :: b :: rest =>
      have hdot : a.token.isSymbol .dot = false := hrest
      rw [moreNameParts, if_neg (by simp [hdot])]
      exact (gives_nothing ..).2 ⟨rfl, rfl⟩
  | cons p parts ih =>
    obtain ⟨d, more, rfl, hd, hmore⟩ := words_cons hws
    obtain ⟨n, us, rfl, hn, hus⟩ := words_cons hmore
    obtain ⟨hkind, rfl⟩ := Word.value_of_key hn
    have hnext : (d.token.isSymbol .dot && decide (n.token.kind = .name)) = true := by
      simp [hkind, (Word.is_of_key hd).kind, Token.isSymbol]
    rw [List.cons_append, List.cons_append, moreNameParts, if_pos hnext, gives_loose, gives_behind, gives_behind, gives_map]
    exact ⟨parts, ih hus, rfl⟩

/-- an imported metamodel with a short name, where no other follows -/
theorem gives_imported {uri short : Text} {ws rest : List Word}
    (hws : ws.map Word.key = [nameKey "import", (.literal, uri), nameKey "as", nameKey short])
    (hrest : metamodel? rest = none) :
    (metamodels (ws ++ rest)).Gives [⟨uri, none, some short, false⟩] rest := by
  obtain ⟨i, more, rfl, hi, hmore⟩ := words_cons hws
  obtain ⟨u, more, rfl, hu, hmore⟩ := words_cons hmore
  obtain ⟨a, more, rfl, ha, hmore⟩ := words_cons hmore
  obtain ⟨n, rfl, hn⟩ := words_one hmore
  obtain ⟨hukind, rfl⟩ := Word.value_of_key hu
  obtain ⟨hnkind, rfl⟩ := Word.value_of_key hn
  obtain ⟨hikind, hivalue⟩ := Word.value_of_key hi
  have hread : (imported (i :: u :: a :: n :: rest)).Gives ⟨u.token.value, none, some n.token.value, false⟩ rest := by
    simp only [imported, shortNameHere, gives_next', gives_takeWord, gives_take, gives_map, gives_behindWord?]
    exact ⟨_, _, ⟨i, rfl, ⟨hikind, hivalue⟩, rfl⟩, _, _, ⟨u, rfl, hukind, rfl⟩, _,
      ⟨_, .inr ⟨a, _, _, rfl, Word.value_of_key ha, ⟨n, rfl, hnkind, rfl⟩, rfl⟩, rfl⟩, rfl⟩
  have hnone : (metamodels rest).Gives [] rest := by
    rw [metamodels, hrest]
    exact (gives_nothing ..).2 ⟨rfl, rfl⟩
  have hsome : metamodel? (i :: u :: a :: n :: rest) = some (imported (i :: u :: a :: n :: rest)) := by
    have hgenerate : introduces "generate" (i :: u :: a :: n :: rest) = false := by
      simp only [introduces, atWord, Token.isWord, hivalue, Bool.and_eq_false_imp, Bool.and_eq_true, decide_eq_true_eq]
      exact fun h => absurd h.2 (by decide)
    simp [metamodel?, hgenerate, atWord, Token.isWord, hikind, hivalue, atLiteral, hukind]
  rw [show [i, u, a, n] ++ rest = i :: u :: a :: n :: rest from rfl, metamodels, hsome]
  simp only [gives_loose, gives_next', gives_map]
  exact ⟨_, _, hread, _, hnone, rfl⟩

/-! ## The built-in grammar -/

/-- what the built-in grammar is called as a file -/
def builtinFile : Path := Path.ofText ("<" ++ builtinName ++ ">")

/-- a keyword without decoration -/
def quotedKeyword (v : Text) : Outline := .keyword .none v

def characters (l r : Text) : Outline := .range .none ⟨.none, l⟩ ⟨.none, r⟩

/-- alternatives with a cardinality, if there is one -/
def oneOf (c : Option Cardinality) (es : List Outline) : Outline := .compound ⟨c, none⟩ .choice es

/-- a sequence with a cardinality, if there is one -/
def inOrder (c : Option Cardinality) (es : List Outline) : Outline := .compound ⟨c, none⟩ .sequence es

def quotedText (quote : Text) : Outline :=
  inOrder none [quotedKeyword quote,
    oneOf (some .any) [inOrder none [quotedKeyword "\\", .wildcard .none],
      .negated .none (oneOf none [quotedKeyword "\\", quotedKeyword quote])],
    quotedKeyword quote]

def identifierOutline : Outline :=
  inOrder none [.keyword ⟨some .optional, none⟩ "^",
    oneOf none [characters "a" "z", characters "A" "Z", quotedKeyword "_"],
    oneOf (some .any) [characters "a" "z", characters "A" "Z", quotedKeyword "_", characters "0" "9"]]

/-- a text between quotes of either kind -/
def stringOutline : Outline := oneOf none [quotedText "\"", quotedText "'"]

/-- a comment between marks -/
def blockComment : Outline := inOrder none [quotedKeyword "/*", .upTo .none (quotedKeyword "*/")]

def lineComment : Outline :=
  inOrder none [quotedKeyword "//",
    .negated ⟨some .any, none⟩ (oneOf none [quotedKeyword "\n", quotedKeyword "\r"]),
    inOrder (some .optional) [.keyword ⟨some .optional, none⟩ "\r", quotedKeyword "\n"]]

/-- blanks and ends of lines -/
def blanks : Outline :=
  oneOf (some .atLeastOne) [quotedKeyword " ", quotedKeyword "\t", quotedKeyword "\r", quotedKeyword "\n"]

def builtinRules : List TerminalKeys := [
  ⟨"ID", none, identifierOutline.keys 1⟩,
  ⟨"INT", some "ecore::EInt", parenKeys ((characters "0" "9").keys 1) ++ [Symbol.plus.key]⟩,
  ⟨"STRING", none, stringOutline.keys 1⟩,
  ⟨"ML_COMMENT", none, blockComment.keys 1⟩,
  ⟨"SL_COMMENT", none, lineComment.keys 1⟩,
  ⟨"WS", none, blanks.keys 1⟩,
  ⟨"ANY_OTHER", none, (Element.wildcard .none : Outline).keys 1⟩]

/-- the tokens of the built-in grammar before its rules: its name, its hidden tokens and its metamodel -/
def builtinHead : List Key :=
  nameKey "grammar" :: nameKey "org" ::
    ((["eclipse", "xtext", "common", "Terminals"].map Text.ofString).flatMap (fun p => [Symbol.dot.key, nameKey p]) ++
      ((hiddenParts (.parser false (["WS", "ML_COMMENT", "SL_COMMENT"].map Text.ofString))).flatMap Prod.snd ++
        [nameKey "import", (.literal, "http://www.eclipse.org/emf/2002/Ecore"), nameKey "as", nameKey "ecore"]))

theorem legible_quotedKeyword (v : Text) : Legible (quotedKeyword v) := .keyword v rfl

theorem legible_characters (l r : Text) : Legible (characters l r) := .range l r rfl

theorem legible_oneOf (c : Option Cardinality) {es : List Outline} (hlength : 2 ≤ es.length) (h : ∀ e ∈ es, Legible e) :
    Legible (oneOf c es) :=
  .compound rfl (by decide) hlength h

theorem legible_inOrder (c : Option Cardinality) {es : List Outline} (hlength : 2 ≤ es.length) (h : ∀ e ∈ es, Legible e) :
    Legible (inOrder c es) :=
  .compound rfl (by decide) hlength h

theorem legible_identifierOutline : Legible identifierOutline := by
  have hcaret : Legible (.keyword ⟨some .optional, none⟩ "^") := .keyword _ rfl
  have hfirst : Legible (oneOf none [characters "a" "z", characters "A" "Z", quotedKeyword "_"]) :=
    legible_oneOf _ (by simp) (by simp [legible_characters, legible_quotedKeyword])
  have hmore : Legible (oneOf (some .any) [characters "a" "z", characters "A" "Z", quotedKeyword "_", characters "0" "9"]) :=
    legible_oneOf _ (by simp) (by simp [legible_characters, legible_quotedKeyword])
  exact legible_inOrder _ (by simp) (by simp [hcaret, hfirst, hmore])

theorem legible_quotedText (quote : Text) : Legible (quotedText quote) := by
  have hany : Legible (.wildcard .none) := .wildcard rfl
  have hescape : Legible (inOrder none [quotedKeyword "\\", .wildcard .none]) :=
    legible_inOrder _ (by simp) (by simp [legible_quotedKeyword, hany])
  have hends : Legible (oneOf none [quotedKeyword "\\", quotedKeyword quote]) :=
    legible_oneOf _ (by simp) (by simp [legible_quotedKeyword])
  have hother : Legible (.negated .none (oneOf none [quotedKeyword "\\", quotedKeyword quote])) := hends.negated rfl rfl rfl
  have hinside := legible_oneOf (some .any) (by simp) (List.forall_mem_cons.2 ⟨hescape, List.forall_mem_singleton.2 hother⟩)
  exact legible_inOrder _ (by simp) (by simp [legible_quotedKeyword, hinside])

theorem legible_stringOutline : Legible stringOutline := legible_oneOf _ (by simp) (by simp [legible_quotedText])

theorem legible_blockComment : Legible blockComment := by
  have hend : Legible (.upTo .none (quotedKeyword "*/")) := (legible_quotedKeyword _).upTo rfl rfl rfl
  exact legible_inOrder _ (by simp) (by simp [legible_quotedKeyword, hend])

theorem legible_lineComment : Legible lineComment := by
  have hends : Legible (oneOf none [quotedKeyword "\n", quotedKeyword "\r"]) :=
    legible_oneOf _ (by simp) (by simp [legible_quotedKeyword])
  have hother : Legible (.negated ⟨some .any, none⟩ (oneOf none [quotedKeyword "\n", quotedKeyword "\r"])) :=
    hends.negated rfl rfl rfl
  have hreturn : Legible (.keyword ⟨some .optional, none⟩ "\r") := .keyword _ rfl
  have hline : Legible (inOrder (some .optional) [.keyword ⟨some .optional, none⟩ "\r", quotedKeyword "\n"]) :=
    legible_inOrder _ (by simp) (by simp [legible_quotedKeyword, hreturn])
  exact legible_inOrder _ (by simp) (by simp [legible_quotedKeyword, hother, hline])

theorem legible_blanks : Legible blanks := legible_oneOf _ (by simp) (by simp [legible_quotedKeyword])

/-- the terminal rules of the built-in grammar are read from their tokens -/
theorem sound_builtinRules : ∀ r ∈ builtinRules, r.Sound := by
  have hplain : ∀ (n : Text) (e : Outline), IsIdentifier n → Legible e → TerminalKeys.Sound ⟨n, none, e.keys 1⟩ :=
    fun n e hn he => ⟨⟨hn, nofun, nofun⟩, he.definable⟩
  simp only [builtinRules, List.forall_mem_cons]
  refine ⟨?_, ?_, ?_, ?_, ?_, ?_, ?_, List.forall_mem_nil _⟩
  · exact hplain "ID" _ (.intro (by decide) (by decide)) legible_identifierOutline
  · have htype : Callable .parser "ecore::EInt" :=
      .qualified (q := "ecore") (n := "EInt") (.intro (by decide) (by decide)) (.intro (by decide) (by decide)) nofun
    refine ⟨⟨.intro (by decide) (by decide), ?_, fun _ _ => by decide⟩, definable_parens (legible_characters _ _).definable⟩
    intro t ht
    exact Option.mem_some.1 ht ▸ htype
  · exact hplain "STRING" _ (.intro (by decide) (by decide)) legible_stringOutline
  · exact hplain "ML_COMMENT" _ (.intro (by decide) (by decide)) legible_blockComment
  · exact hplain "SL_COMMENT" _ (.intro (by decide) (by decide)) legible_lineComment
  · exact hplain "WS" _ (.intro (by decide) (by decide)) legible_blanks
  · exact hplain "ANY_OTHER" _ (.intro (by decide) (by decide)) (.wildcard rfl)

/-- the words of the built-in grammar are read as a grammar of its name that uses no other -/
theorem exists_of_builtinWords {words : List Word}
    (h : words.map Word.key = builtinHead ++ builtinRules.flatMap TerminalKeys.keys) :
    ∃ w, WrittenGrammar.ofWords words = .ok w ∧ w.name = builtinName ∧ w.uses = [] := by
  obtain ⟨head, body, rfl, hhead, hbody⟩ := words_append h
  obtain ⟨g, more, rfl, hg, hmore⟩ := words_cons hhead
  obtain ⟨o, more, rfl, ho, hmore⟩ := words_cons hmore
  obtain ⟨ps, more, rfl, hps, hmore⟩ := words_append hmore
  obtain ⟨hs, is, rfl, hhs, his⟩ := words_append hmore
  obtain ⟨t, ts, rfl, ht, -⟩ := words_cons (show body.map Word.key = nameKey "terminal" :: _ from hbody)
  obtain ⟨i, us, rfl, hi, -⟩ := words_cons (show is.map Word.key = nameKey "import" :: _ from his)
  obtain ⟨x, xs, rfl, hx, -⟩ := words_cons (show hs.map Word.key = nameKey "hidden" :: _ from hhs)
  obtain ⟨hokind, hovalue⟩ := Word.value_of_key ho
  -- the clauses, one after the other
  have hname : (WrittenGrammar.header (g :: o :: (ps ++ (x :: xs ++ (i :: us ++ t :: ts))))).Gives builtinName
      (x :: xs ++ (i :: us ++ t :: ts)) := by
    have hdot : atSymbol .dot (x :: xs ++ (i :: us ++ t :: ts)) = false := atSymbol_of_name hx
    have hparts := gives_moreNameParts hps hdot
    rw [WrittenGrammar.header, ((gives_takeWord ..).2 ⟨g, rfl, Word.value_of_key hg, rfl⟩).next_iff, qualifiedName,
      (gives_takeName hokind _ _).next_iff, gives_map]
    refine ⟨_, hparts, ?_⟩
    rw [hovalue]
    decide
  have huses : (usesHere (x :: xs ++ (i :: us ++ t :: ts))).Gives [] (x :: xs ++ (i :: us ++ t :: ts)) := by
    rw [usesHere, gives_map]
    exact ⟨none, (gives_behindWord? ..).2 (.inl ⟨rfl, rfl, atWord_of_name hx (by decide)⟩), rfl⟩
  obtain ⟨hidden, hhidden⟩ : ∃ hidden, (hiddenHere (x :: xs ++ (i :: us ++ t :: ts))).Gives hidden (i :: us ++ t :: ts) := by
    have hcallable : ∀ n ∈ ["WS", "ML_COMMENT", "SL_COMMENT"].map Text.ofString, Callable .parser n := by
      have hmode : Mode.parser ≠ .terminal := by decide
      refine List.forall_mem_map.2 ?_
      simp only [List.forall_mem_cons]
      exact ⟨.plain (.intro (by decide) (by decide)) (absurd · hmode), .plain (.intro (by decide) (by decide)) (absurd · hmode),
        .plain (.intro (by decide) (by decide)) (absurd · hmode), List.forall_mem_nil _⟩
    have hclause := hiddenClause_of_keys (show ∀ n ∈ (RuleKind.parser false _).hidden, _ from hcallable) hhs
    exact ⟨_, gives_of_hiddenClause hclause.1 fun _ => atWord_of_name hi (by decide)⟩
  obtain ⟨models, hmodels⟩ : ∃ models, (metamodels (i :: us ++ t :: ts)).Gives models (t :: ts) := by
    refine ⟨_, gives_imported his ?_⟩
    rw [metamodel?, introduces, atWord_of_name ht (by decide), atWord_of_name ht (by decide)]
    rfl
  obtain ⟨ds, hrules⟩ := gives_rules_of_keys sound_builtinRules hbody
  generalize hwords : g :: o :: (ps ++ (x :: xs ++ (i :: us ++ t :: ts))) = words at hname
  obtain ⟨w, hafter, hwname, hwuses⟩ : ∃ w, (afterName (commentHere words) builtinName
      (x :: xs ++ (i :: us ++ t :: ts))).Gives w [] ∧ w.name = builtinName ∧ w.uses = [] := by
    refine ⟨⟨builtinName, commentHere words, [], hidden, models, ds⟩, ?_, rfl, rfl⟩
    rw [afterName, huses.next_iff, hhidden.next_iff, hmodels.next_iff, gives_map]
    exact ⟨ds, hrules, rfl⟩
  obtain ⟨_, hheader⟩ := hname
  obtain ⟨_, hread⟩ := hafter
  refine ⟨w, ?_, hwname, hwuses⟩
  rw [show (g :: o :: (ps ++ (x :: xs ++ i :: us))) ++ t :: ts = words by simp [← hwords], WrittenGrammar.ofWords, hheader]
  simp only [hread]

/-- the tokens of the built-in text -/
theorem keys_builtin : (Lexed.ofSource builtinFile builtinSource).toOption.map
    (fun lexed => (wordsOf lexed.tokens).map Word.key) = some (builtinHead ++ builtinRules.flatMap TerminalKeys.keys) := by
  decide +kernel

/-- **The built-in grammar is accepted**, under its name, and uses no other grammar -/
theorem exists_builtin : ∃ w, WrittenGrammar.ofText builtinFile builtinSource = .ok w ∧ w.name = builtinName ∧
    w.uses = [] := by
  obtain ⟨lexed, hlexed, hkeys⟩ := Option.map_eq_some_iff.1 keys_builtin
  obtain ⟨w, hw, hname, huses⟩ := exists_of_builtinWords hkeys
  refine ⟨w, ?_, hname, huses⟩
  rcases hread : Lexed.ofSource builtinFile builtinSource with e | lexed'
  · rw [hread] at hlexed
    cases hlexed
  · rw [hread] at hlexed
    cases hlexed
    exact WrittenGrammar.ofText_eq_ok_iff.2 ⟨_, hread, hw⟩

theorem name_of_builtin {w : WrittenGrammar} (h : WrittenGrammar.ofText builtinFile builtinSource = .ok w) :
    w.name = builtinName := by
  obtain ⟨w', hw', hname, -⟩ := exists_builtin
  cases h.symm.trans hw'
  exact hname

theorem uses_of_builtin {w : WrittenGrammar} (h : WrittenGrammar.ofText builtinFile builtinSource = .ok w) :
    w.uses = [] := by
  obtain ⟨w', hw', -, huses⟩ := exists_builtin
  cases h.symm.trans hw'
  exact huses

end Rulebook.Library
