/-
Printing a rule of a grammar and reading the text gives the rule again. `ReadsBack` says so of one rule: its text is
cut and read up to its end, and what is read has the same kind, name and type and the same definition, where a call
counts as what it is printed as. `readsBack_of_words` and `ReadsBack.words` trade this for a statement about words with
the keys of the definition, and `printed_rule_reads_back` settles it for parser rules and enumerations.
-/
import Rulebook.Proofs.Definitions
import Rulebook.Proofs.Linking

namespace Rulebook

open Source Rulebook.Reading Element

/-! ## Every rule that was read has a text -/

namespace Element

variable {ρ σ : Type}

theorem unprintableNode?_map (f : ρ → σ) (e : Element ρ) : unprintableNode? (e.map f) = unprintableNode? e := by
  cases e with
  | compound d g es => cases g <;> rfl
  | _ => rfl

theorem unprintable?_map (f : ρ → σ) (e : Element ρ) : unprintable? (e.map f) = unprintable? e := by
  rw [unprintable?, unprintable?, nodes_map, List.findSome?_map]
  exact congrArg (fun p => List.findSome? p e.nodes) (funext (unprintableNode?_map f))

theorem unprintable?_eq_none {e : Element ρ} : unprintable? e = none ↔ ∀ x ∈ e.nodes, unprintableNode? x = none :=
  List.findSome?_eq_none_iff

/-- every node has a text when the root has one and the trees below it have -/
theorem printable_iff {e : Element ρ} :
    unprintable? e = none ↔ unprintableNode? e = none ∧ ∀ c ∈ e.children, unprintable? c = none := by
  rw [unprintable?_eq_none, forall_nodes_iff]
  exact and_congr_right fun _ => forall₂_congr fun _ _ => unprintable?_eq_none.symm

theorem printable_keyword (d : Decoration) (v : Text) : unprintable? (.keyword d v : Element ρ) = none :=
  printable_iff.2 ⟨rfl, nofun⟩

theorem printable_reference {e : Outline} (h : Referable e) : unprintable? e = none := by
  cases h with
  | keyword v => exact printable_keyword _ v
  | call _ => exact printable_iff.2 ⟨rfl, nofun⟩

theorem printable_assignable {e : Outline} (h : Assignable e) : unprintable? e = none := by
  induction h with
  | reference h => exact printable_reference h
  | crossReference _ ht =>
    exact printable_iff.2 ⟨rfl, fun c hc => printable_reference (ht c (by simpa [children] using hc))⟩
  | choice _ _ ih => exact printable_iff.2 ⟨rfl, ih⟩

theorem printable_formed {m : Mode} {e : Outline} (h : Formed m e) : unprintable? e = none := by
  induction h with
  | keyword v _ => exact printable_keyword _ v
  | assignment _ _ _ he => exact printable_iff.2 ⟨rfl, List.forall_mem_singleton.2 (printable_assignable he)⟩
  | compound _ hg _ _ ih =>
    refine printable_iff.2 ⟨?_, ih⟩
    unfold unprintableNode?
    split
    · next heq => cases heq
    · next heq =>
      cases heq
      exact absurd rfl hg
    · rfl
  | wrapped _ _ _ ih => exact printable_iff.2 ⟨rfl, List.forall_mem_singleton.2 ih⟩
  | range l r _ _ =>
    exact printable_iff.2 ⟨rfl, List.forall_mem_cons.2 ⟨printable_keyword _ l,
      List.forall_mem_singleton.2 (printable_keyword _ r)⟩⟩
  | negated _ _ _ ih => exact printable_iff.2 ⟨rfl, List.forall_mem_singleton.2 ih⟩
  | upTo _ _ _ ih => exact printable_iff.2 ⟨rfl, List.forall_mem_singleton.2 ih⟩
  | _ => exact printable_iff.2 ⟨rfl, nofun⟩

theorem printable_enumLiteral {e : Outline} (h : IsEnumLiteral e) : unprintable? e = none := by
  obtain ⟨n, k, -, rfl⟩ := h
  cases k with
  | none => exact printable_iff.2 ⟨rfl, nofun⟩
  | some v => exact printable_iff.2 ⟨rfl, List.forall_mem_singleton.2 (printable_keyword _ v)⟩

theorem printable_enumerated {e : Outline} (h : Enumerated e) : unprintable? e = none := by
  cases h with
  | one h => exact printable_enumLiteral h
  | choice _ hes => exact printable_iff.2 ⟨rfl, fun x hx => printable_enumLiteral (hes x hx)⟩

end Element

/-! ## Linked rules -/

abbrev Scope.shown (s : Scope) (c : WrittenCall) : Text := linkedName (some (s.resolve c))

/-- a call is printed as what may be called, unless a terminal rule calls a rule by the word for the end of the text -/
theorem Scope.callable_shown_of_ne (s : Scope) {m : Mode} {c : WrittenCall} (h : c.Valid m)
    (hend : m = .terminal → s.shown c ≠ "EOF") : Callable m (s.shown c) := by
  rcases s.name_resolve c with hname | hname
  · have hshown : s.shown c = c.name := hname
    rw [hshown] at hend ⊢
    exact .plain h.name hend
  · rw [show s.shown c = c.written from hname]
    exact h.callable

theorem Scope.callable_shown (s : Scope) {c : WrittenCall} (h : c.Valid .parser) : Callable .parser (s.shown c) :=
  s.callable_shown_of_ne h nofun

theorem Scope.shown_of_unqualified (s : Scope) {c : WrittenCall} (h : c.qualifier = none) : s.shown c = c.written := by
  rcases s.name_resolve c with hname | hname
  · rw [show s.shown c = c.name from hname, WrittenCall.written, h]
  · exact hname

/-- every rule of a text was declared as its kind asks -/
theorem defined_of_ofText {file : Path} {source : Text} {w : WrittenGrammar}
    (h : WrittenGrammar.ofText file source = .ok w) :
    ∃ words, LexicalWords words ∧ ∀ r ∈ w.rules, Headed r.kind r.name r.typeName ∧ Defined words r := by
  obtain ⟨lexed, hlexed, hwords⟩ := WrittenGrammar.ofText_eq_ok_iff.1 h
  have hlex := lexicalWords_of_ofSource hlexed
  refine ⟨_, hlex, fun r hr => ?_⟩
  obtain ⟨start, rest, declared, comment, hstart, hread, rfl⟩ := readFrom_of_ofWords hwords r hr
  obtain ⟨hhead, hdefined⟩ := defined_of_rule (hlex.suffix hstart) hread
  refine ⟨hhead, ?_⟩
  have hsub := hstart.subset
  cases hdefined with
  | parser hkind ht hspells hws => exact .parser hkind ht hspells (fun x hx => hsub (hws hx))
  | terminal hkind ht hspells hws => exact .terminal hkind ht hspells (fun x hx => hsub (hws hx))
  | enumeration hkind ht he => exact .enumeration hkind ht he

/-- no rule of a text is a stand-in -/
theorem ne_unresolved_of_ofText {file : Path} {source : Text} {w : WrittenGrammar}
    (h : WrittenGrammar.ofText file source = .ok w) : ∀ r ∈ w.rules, r.kind ≠ .unresolved := by
  obtain ⟨words, -, hdefined⟩ := defined_of_ofText h
  intro r hr hkind
  have hdistinct := (hdefined r hr).1.distinct
  rw [hkind] at hdistinct
  exact hdistinct

/-! ## Reading a printed rule -/

/-- the rules are the same but for comments and lines; a call counts as what it is printed as -/
structure Agrees (read : WrittenRule) (r : Rule) : Prop where
  kind : read.kind = r.kind
  name : read.name = r.name
  typeName : read.typeName = r.typeName
  definition : read.definition.map outline = r.definition.map (Element.map linkedName)

/-- the text of a rule is read, up to its end, and gives the rule -/
def ReadsBack (r : Rule) : Prop :=
  ∀ file : Path, ∃ text lexed read, r.printed = .ok text ∧ Lexed.ofSource file text = .ok lexed ∧
    (rule (wordsOf lexed.tokens)).Gives read [] ∧ Agrees read r

/-- the rule has a header that can be read and a definition that can be printed; `e` is what is printed of it -/
structure Printable (r : Rule) (e : Outline) : Prop where
  headed : Headed r.kind r.name r.typeName
  definition : r.definition.map (Element.map linkedName) = some e
  texts : e.unprintable? = none
  cuts : CutsInLines e
  holds : Holds e.bodyKeys

theorem nested_headerKeys {ρ : Type} (r : Declaration ρ) : Nested r.headerKeys := by
  have hparts : ∀ parts : List (Text × List Key), (∀ p ∈ parts, Nested p.2) → Nested (parts.flatMap Prod.snd) := by
    intro parts h
    induction parts with
    | nil => exact .nil
    | cons p parts ih => exact (h p List.mem_cons_self).append (ih fun q hq => h q (List.mem_cons_of_mem _ hq))
  refine hparts _ (List.forall_mem_append.2 ⟨?_, List.forall_mem_cons.2 ⟨.one (inner_name _),
    List.forall_mem_append.2 ⟨?_, ?_⟩⟩⟩)
  · exact List.forall_mem_map.2 fun w _ => .one (inner_name w)
  · unfold typeParts
    split
    · exact List.forall_mem_singleton.2 (.inner (inner_name _) (nested_nameKeys _))
    · exact List.forall_mem_nil _
  · unfold hiddenParts
    split
    · have hnames : ∀ n ns, Holds (namesKeys (n :: ns)) := fun n ns =>
        .intercalate (.one (by decide)) (by simp) (List.forall_mem_map.2 fun n _ => holds_nameKeys n)
      exact List.forall_mem_singleton.2 (.inner (inner_name _) ((hnames _ _).1.ofParens (hnames _ _).2))
    · exact List.forall_mem_nil _

namespace Printable

variable {r : Rule} {e : Outline}

theorem printed (h : Printable r e) : r.printed = .ok (r.toDeclaration.text linkedName) := by
  obtain ⟨d, hd, rfl⟩ := Option.map_eq_some_iff.1 h.definition
  have hunprintable : r.unprintable? = none := by
    rw [Rule.unprintable?, hd, Option.bind_some, ← unprintable?_map linkedName]
    exact h.texts
  rw [Rule.printed, hunprintable]

/-- a printed rule is cut into its tokens, whatever stands behind it -/
theorem cuts_text (h : Printable r e) (rest : Text) :
    Cuts (r.toDeclaration.text linkedName) (declarationKeys r.toDeclaration e) rest := by
  obtain ⟨d, hd, rfl⟩ := Option.map_eq_some_iff.1 h.definition
  exact cuts_declaration linkedName h.headed hd h.cuts rest

theorem nested (h : Printable r e) : Nested (declarationKeys r.toDeclaration e) := by
  have hbody := holds_dressKeys 1 e h.holds
  exact (nested_headerKeys _).append (.inner (by decide) (hbody.1.append (.one (by decide))))

/-- a printed rule is a text of words: those of its header, a colon, those of its definition and a semicolon -/
theorem words (h : Printable r e) (file : Path) :
    ∃ text lexed hs c ws s, r.printed = .ok text ∧ Lexed.ofSource file text = .ok lexed ∧
      wordsOf lexed.tokens = hs ++ c :: (ws ++ [s]) ∧ hs.map Word.key = r.headerKeys ∧ c.Is .colon ∧
        ws.map Word.key = e.keys 1 ∧ s.Is .semicolon ∧ LexicalWords ws := by
  obtain ⟨lexed, hlexed, hkeys⟩ := (h.cuts_text []).ofSource file
  have hcomments : ∀ t ∈ lexed.tokens, t.kind ≠ .headComment := fun t ht =>
    h.nested.no_comment t.key (hkeys ▸ List.mem_map_of_mem ht)
  have hwords := (keys_wordsOf hcomments).trans hkeys
  obtain ⟨hs, more, hsplit, hhs, hmore⟩ := words_append hwords
  obtain ⟨c, more, rfl, hc, hmore⟩ := words_cons hmore
  obtain ⟨ws, last, rfl, hws, hlast⟩ := words_append hmore
  obtain ⟨s, rfl, hs'⟩ := words_one hlast
  refine ⟨_, lexed, hs, c, ws, s, h.printed, hlexed, hsplit, hhs, Word.is_of_key hc, hws, Word.is_of_key hs', ?_⟩
  exact fun w hw => lexicalWords_of_ofSource hlexed w (by simp [hsplit, hw])

end Printable

theorem readsBack_of_words {r : Rule} {e : Outline} (h : Printable r e)
    (hread : ∀ (c : Word) (ws : List Word) (s : Word), c.Is .colon → ws.map Word.key = e.keys 1 → s.Is .semicolon →
      ∃ t, ReadsDefinition r.kind (c :: (ws ++ [s])) t [] ∧ outline t = e) : ReadsBack r := by
  intro file
  obtain ⟨text, lexed, hs, c, ws, s, hprinted, hlexed, hwords, hhs, hc, hws, hs', -⟩ := h.words file
  obtain ⟨line, hgives⟩ := gives_header h.headed hhs hc (ws ++ [s])
  obtain ⟨t, ht, houtline⟩ := hread c ws s hc hws hs'
  refine ⟨text, lexed, _, hprinted, hlexed, hwords ▸ (hgives _ []).2 ⟨t, ht, rfl⟩, rfl, rfl, rfl, ?_⟩
  rw [h.definition, ← houtline]
  rfl

theorem ReadsBack.words {r : Rule} {e : Outline} (h : ReadsBack r) (hp : Printable r e) :
    ∃ c ws s t, ws.map Word.key = e.keys 1 ∧ LexicalWords ws ∧ ReadsDefinition r.kind (c :: (ws ++ [s])) t [] ∧
      outline t = e := by
  obtain ⟨text, lexed, hs, c, ws, s, hprinted, hlexed, hwords, hhs, hc, hws, -, hlex⟩ := hp.words (Path.ofText "")
  obtain ⟨text', lexed', read, hprinted', hlexed', hread, hagrees⟩ := h (Path.ofText "")
  cases hprinted.symm.trans hprinted'
  cases hlexed.symm.trans hlexed'
  obtain ⟨line, hgives⟩ := gives_header hp.headed hhs hc (ws ++ [s])
  obtain ⟨t, ht, rfl⟩ := (hgives read []).1 (hwords ▸ hread)
  have houtline := hagrees.definition
  rw [hp.definition] at houtline
  exact ⟨c, ws, s, t, hws, hlex, ht, Option.some.inj houtline⟩

/-! ## Grammars of one rule -/

def Undotted (rest : List Word) : Prop := atSymbol .dot rest = false

theorem gives_moreNameParts_nil {rest : List Word} (h : Undotted rest) : (moreNameParts rest).Gives [] rest := by
  match rest, h with
  | [], _ => exact (gives_nothing ..).2 ⟨rfl, rfl⟩
  | [_], _ => exact (gives_nothing ..).2 ⟨rfl, rfl⟩
  | d :: n :: rest, h =>
    have hdot : d.token.isSymbol .dot = false := h
    rw [moreNameParts, if_neg (by simp [hdot])]
    exact (gives_nothing ..).2 ⟨rfl, rfl⟩

/-- a name without a dot behind it is a qualified name of one part -/
theorem gives_qualifiedName_cons {n : Word} {rest : List Word} (hn : n.IsName) (hdot : Undotted rest) :
    (qualifiedName (n :: rest)).Gives n.token.value rest := by
  simp only [qualifiedName, gives_next', gives_take, gives_map]
  exact ⟨_, _, ⟨n, rfl, hn, rfl⟩, [], gives_moreNameParts_nil hdot, by simp [Text.join]⟩

theorem gives_header_cons {x n : Word} {rest : List Word} (hx : x.IsWord "grammar") (hn : n.IsName)
    (hdot : Undotted rest) : (WrittenGrammar.header (x :: n :: rest)).Gives n.token.value rest := by
  simp only [WrittenGrammar.header, gives_next', gives_takeWord]
  exact ⟨_, _, ⟨x, rfl, hx, rfl⟩, gives_qualifiedName_cons hn hdot⟩

theorem metamodels_of_none {rest : List Word} (h : metamodel? rest = none) : (metamodels rest).Gives [] rest := by
  rw [metamodels, h]
  exact (gives_nothing ..).2 ⟨rfl, rfl⟩

/-- the words that begin a clause behind the name of a grammar -/
def clauseWords : List Text := ["with", "hidden", "generate", "import"]

theorem annotations_none {comment : Option Text} {words : List Word} (h : atSymbol .atSign words = false) :
    (annotations comment words).Gives comment words := by
  rw [annotations, gives_map]
  exact ⟨[], (gives_behindSymbols ..).2 (.stop (by simp [atMark_iff, h])), rfl⟩

theorem rules_nil : (rules []).Gives [] [] := by
  rw [rules, gives_next]
  exact ⟨none, [], Nat.le_refl 0, annotations_none rfl, by simp⟩

/-- a rule and further rules behind it -/
theorem rules_cons {a : Word} {words rest : List Word} {r : WrittenRule} {rs : List WrittenRule} (ha : a.IsName)
    (h : (rule (a :: words)).Gives r rest) (hrest : (rules rest).Gives rs []) :
    (rules (a :: words)).Gives ({ r with comment := a.comment } :: rs) [] := by
  rw [rules, gives_next]
  refine ⟨a.comment, a :: words, Nat.le_refl _, annotations_none ?_, ?_⟩
  · simp [atSymbol, Token.isSymbol, ha.kind]
  · rw [if_neg (by simp), gives_loose, h.next_iff, gives_map]
    exact ⟨rs, hrest, rfl⟩

/-- a text of one rule is a grammar -/
theorem ofWords_of_rule {x n a : Word} {words : List Word} {r : WrittenRule} (hx : x.IsWord "grammar") (hn : n.IsName)
    (ha : a.IsName) (hclause : a.token.value ∉ clauseWords) (h : (rule (a :: words)).Gives r []) :
    WrittenGrammar.ofWords (x :: n :: a :: words) =
      .ok ⟨n.token.value, x.comment, [], [], [], [{ r with comment := a.comment }]⟩ := by
  simp only [clauseWords, List.mem_cons, List.not_mem_nil, or_false, not_or] at hclause
  obtain ⟨hwith, hhidden, hgenerate, himport⟩ := hclause
  have hheader : (WrittenGrammar.header (x :: n :: a :: words)).Gives n.token.value (a :: words) :=
    gives_header_cons hx hn (by simp [Undotted, atSymbol, Token.isSymbol, ha.kind])
  have huses : (usesHere (a :: words)).Gives [] (a :: words) := by
    rw [usesHere, gives_map]
    exact ⟨none, (gives_behindWord? ..).2 (.inl ⟨rfl, rfl, by simp [atWord, Token.isWord, hwith]⟩), rfl⟩
  have hhiddenHere : (hiddenHere (a :: words)).Gives [] (a :: words) := by
    rw [hiddenHere, gives_map]
    exact ⟨none, (gives_behindWord? ..).2 (.inl ⟨rfl, rfl, by simp [atWord, Token.isWord, hhidden]⟩), rfl⟩
  have hmodels : (metamodels (a :: words)).Gives [] (a :: words) :=
    metamodels_of_none (by simp [metamodel?, introduces, atWord, Token.isWord, hgenerate, himport])
  have hafter : (afterName (commentHere (x :: n :: a :: words)) n.token.value (a :: words)).Gives
      ⟨n.token.value, x.comment, [], [], [], [{ r with comment := a.comment }]⟩ [] := by
    rw [afterName, huses.next_iff, hhiddenHere.next_iff, hmodels.next_iff, gives_map]
    exact ⟨_, rules_cons ha h rules_nil, rfl⟩
  obtain ⟨_, hheader⟩ := hheader
  obtain ⟨_, hafter⟩ := hafter
  simp only [WrittenGrammar.ofWords, hheader, hafter]

theorem readWith_of_ofText (load : Text → Library → Library.Outcome Grammar) (l : Library) {file : Path} {source : Text}
    {w : WrittenGrammar} (h : WrittenGrammar.ofText file source = .ok w) (huses : w.uses = []) :
    (Library.readWith load file source l).1 = .ok (w.link l.fresh []) := by
  have hfresh : ((l.enter w.name).leave w.name).fresh = l.fresh := by
    unfold Library.enter
    split <;> rfl
  rw [Library.readWith, h]
  simp only [huses, Library.eachUsed, hfresh]

/-! ## Parser rules and enumerations -/

theorem printable_of_formed {m : Mode} {r : Rule} {e : Outline} (hhead : Headed r.kind r.name r.typeName)
    (hdefinition : r.definition.map (Element.map linkedName) = some e) (h : Formed m e) : Printable r e :=
  ⟨hhead, hdefinition, printable_formed h, cutsInLines_formed h, holds_bodyKeys h⟩

theorem printable_of_enumerated {r : Rule} {e : Outline} (hhead : Headed r.kind r.name r.typeName)
    (hdefinition : r.definition.map (Element.map linkedName) = some e) (h : Enumerated e) : Printable r e :=
  ⟨hhead, hdefinition, printable_enumerated h, cutsInLines_enumerated h, holds_enumerated h⟩

/-- what is printed of a linked definition -/
theorem definition_linkRule (s : Scope) (i : Nat) {r : WrittenRule} {t : Tree} (ht : r.definition = some t) :
    (s.linkRule i r).definition.map (Element.map linkedName) = some (t.map s.shown) := by
  rw [Scope.linkRule, ht, Option.map_some, Option.map_some, Element.map_map]
  rfl

/-- a parser rule that was read can be printed, and its definition has the shape that reading builds -/
theorem printable_parserRule {load : Text → Library → Library.Outcome Grammar} {file : Path} {source : Text}
    {l : Library} {g : Grammar} (hg : (Library.readWith load file source l).1 = .ok g) {r : Rule} (hr : r ∈ g.rules)
    {fragment : Bool} {hidden : List Text} (hkind : r.kind = .parser fragment hidden) :
    ∃ e, Printable r e ∧ Formed .parser e := by
  obtain ⟨w, used, id, hw, rfl⟩ := linked_of_readWith hg
  obtain ⟨i, hi⟩ := List.mem_iff_getElem?.1 hr
  obtain ⟨wr, hwr, rfl⟩ := rule_of_link hi
  obtain ⟨words, hlex, hdefined⟩ := defined_of_ofText hw
  obtain ⟨hhead, hdef⟩ := hdefined wr (List.mem_of_getElem? hwr)
  have hkind' : wr.kind = .parser fragment hidden := hkind
  cases hdef with
  | @parser _ _ ws t _ ht hspells hws =>
    have hformed : Formed .parser (t.map (w.scope id used).shown) :=
      formed_of_spells (fun c hc => (w.scope id used).callable_shown hc) hspells fun x hx => hlex x (hws hx)
    exact ⟨_, printable_of_formed hhead (definition_linkRule (w.scope id used) i ht) hformed, hformed⟩
  | terminal hterminal _ _ _ => cases hterminal.symm.trans hkind'
  | enumeration henum _ _ => cases henum.symm.trans hkind'

/-- the definition of a formed element is read behind a header -/
theorem gives_printedDefinition {m : Mode} {e : Outline} (h : Formed m e) (hreadable : ∀ x ∈ e.nodes, Readable m x)
    {c s : Word} {ws : List Word} (hc : c.Is .colon) (hws : ws.map Word.key = e.keys 1) (hs : s.Is .semicolon) :
    ∃ t, (definition m (c :: (ws ++ [s]))).Gives t [] ∧ outline t = e := by
  obtain ⟨t, ht, houtline⟩ := spells_of_keys h hreadable 1 hws
  exact ⟨t, (gives_definition ..).2 ⟨c, ws, s, rfl, hc, ht, hs⟩, houtline⟩

theorem Element.actionBare_map {ρ σ : Type} (f : ρ → σ) {e : Element ρ} (h : ActionBare e) : ActionBare (e.map f) := by
  cases e <;> exact h

/-- **A printed parser rule or enumeration is read as the same rule**: for every grammar that is read, whatever it uses,
and every rule of it in which no action has a cardinality or a predicate. Calls may be qualified or not. -/
theorem printed_rule_reads_back {load : Text → Library → Library.Outcome Grammar} {file : Path} {source : Text}
    {l : Library} {g : Grammar} (hg : (Library.readWith load file source l).1 = .ok g) {r : Rule} (hr : r ∈ g.rules)
    (hkind : (∃ fragment hidden, r.kind = .parser fragment hidden) ∨ r.kind = .enumeration)
    (hactions : ∀ d ∈ r.definition, ∀ x ∈ d.nodes, ActionBare x) : ReadsBack r := by
  obtain ⟨w, used, id, hw, rfl⟩ := linked_of_readWith hg
  obtain ⟨i, hi⟩ := List.mem_iff_getElem?.1 hr
  obtain ⟨wr, hwr, rfl⟩ := rule_of_link hi
  obtain ⟨words, hlex, hdefined⟩ := defined_of_ofText hw
  obtain ⟨hhead, hdef⟩ := hdefined wr (List.mem_of_getElem? hwr)
  have hkind' : (∃ fragment hidden, wr.kind = .parser fragment hidden) ∨ wr.kind = .enumeration := hkind
  cases hdef with
  | @parser fragment hidden ws t hparser ht hspells hws =>
    have hdefinition := definition_linkRule (w.scope id used) i ht
    have hformed : Formed .parser (t.map (w.scope id used).shown) :=
      formed_of_spells (fun c hc => (w.scope id used).callable_shown hc) hspells fun x hx => hlex x (hws hx)
    refine readsBack_of_words (printable_of_formed hhead hdefinition hformed) fun c us s hc hus hs => ?_
    have hreadable : ∀ x ∈ (t.map (w.scope id used).shown).nodes, Readable .parser x := by
      obtain ⟨d, hd, hmap⟩ := Option.map_eq_some_iff.1 hdefinition
      rw [← hmap, nodes_map]
      exact List.forall_mem_map.2 fun x hx => actionBare_map linkedName (hactions d hd x hx)
    rw [show ((w.scope id used).linkRule i wr).kind = _ from hparser]
    exact gives_printedDefinition hformed hreadable hc hus hs
  | terminal hterminal _ _ _ =>
    rw [hterminal] at hkind'
    rcases hkind' with ⟨_, _, hcontra⟩ | hcontra <;> cases hcontra
  | @enumeration t henum ht he =>
    have hdefinition := definition_linkRule (w.scope id used) i ht
    have henumerated := he.map (w.scope id used).shown
    refine readsBack_of_words (printable_of_enumerated hhead hdefinition henumerated) fun c us s hc hus hs => ?_
    obtain ⟨t', ht', houtline⟩ := enumLiterals_of_keys henumerated hus (atSymbol_of_is hs (by decide) [])
      (atSymbol_of_is hs (by decide) [])
    rw [show ((w.scope id used).linkRule i wr).kind = _ from henum]
    exact ⟨t', ⟨c, us ++ [s], s, rfl, hc, ht', hs⟩, houtline⟩

/-- the tokens of the text `grammar a A:('b'|c)*;` -/
def repetitionTokens : List Token :=
  [⟨.name, "grammar", 1, 1, 7⟩, ⟨.name, "a", 1, 9, 1⟩, ⟨.name, "A", 1, 11, 1⟩, ⟨.symbol .colon, ":", 1, 12, 1⟩,
    ⟨.symbol .openParen, "(", 1, 13, 1⟩, ⟨.literal, "b", 1, 14, 3⟩, ⟨.symbol .bar, "|", 1, 17, 1⟩,
    ⟨.name, "c", 1, 18, 1⟩,
    ⟨.symbol .closeParen, ")", 1, 19, 1⟩, ⟨.symbol .star, "*", 1, 20, 1⟩, ⟨.symbol .semicolon, ";", 1, 21, 1⟩]

def repetitionRule : WrittenRule :=
  ⟨.parser false [], "A", none, none, some 1,
    some (.compound ⟨some .any, none⟩ .choice [.keyword .none "b", .call .none ⟨none, "c", 1, 18⟩])⟩

theorem repetition_reads_back : ∃ (g : Grammar) (r : Rule),
    (Library.readWith (fun name l => (.ok (Library.stub l.fresh name), l)) (Path.ofText "a") "grammar a A:('b'|c)*;"
      Library.empty).1 = .ok g ∧ r ∈ g.rules ∧ ReadsBack r := by
  have hlexed : Lexed.ofSource (Path.ofText "a") "grammar a A:('b'|c)*;" = .ok ⟨repetitionTokens, ⟨1, 22⟩⟩ := by cbv
  have hrule : (rule ((wordsOf repetitionTokens).drop 2)).Gives repetitionRule [] := by
    have hdefinition : (definition .parser ((wordsOf repetitionTokens).drop 3)).Gives
        (.compound ⟨some .any, none⟩ .choice [.keyword .none "b", .call .none ⟨none, "c", 1, 18⟩]) [] :=
      ⟨by decide, by cbv⟩
    have hparser : (parserRule ((wordsOf repetitionTokens).drop 2)).Gives repetitionRule [] :=
      (gives_parserRule_iff (n := ⟨⟨.name, "A", 1, 11, 1⟩, none⟩) FragmentClause.absent rfl TypeClause.absent
        HiddenClause.absent rfl _ (fun _ h => absurd h (by decide)) repetitionRule []).2 ⟨_, hdefinition, rfl⟩
    rw [rule, if_neg (by decide), if_neg (by decide)]
    exact hparser
  have htext : WrittenGrammar.ofText (Path.ofText "a") "grammar a A:('b'|c)*;" =
      .ok ⟨"a", none, [], [], [], [repetitionRule]⟩ := by
    have hwords : WrittenGrammar.ofWords (wordsOf repetitionTokens) = .ok ⟨"a", none, [], [], [], [repetitionRule]⟩ :=
      ofWords_of_rule (x := ⟨⟨.name, "grammar", 1, 1, 7⟩, none⟩) (n := ⟨⟨.name, "a", 1, 9, 1⟩, none⟩) ⟨rfl, rfl⟩ rfl rfl
        (by decide) hrule
    exact WrittenGrammar.ofText_eq_ok_iff.2 ⟨_, hlexed, hwords⟩
  have hread := readWith_of_ofText (fun name l => (.ok (Library.stub l.fresh name), l)) Library.empty htext rfl
  refine ⟨_, _, hread, List.mem_cons_self, printed_rule_reads_back hread List.mem_cons_self (.inl ⟨false, [], rfl⟩) ?_⟩
  intro _ heq
  cases heq
  refine (forall_nodes_iff _).2 ⟨trivial, List.forall_mem_cons.2 ⟨?_, List.forall_mem_singleton.2 ?_⟩⟩
  · exact (forall_nodes_iff _).2 ⟨trivial, List.forall_mem_nil _⟩
  · exact (forall_nodes_iff _).2 ⟨trivial, List.forall_mem_nil _⟩

end Rulebook
