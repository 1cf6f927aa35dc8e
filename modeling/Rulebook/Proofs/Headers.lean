/-
Declarations of rules: what stands before the colon. `Headed kind name type` says what is true of every header that was
read: its names are identifiers, and a rule whose name could be taken for the word that introduces another kind of rule
has nothing behind its name that would make it so (`defined_of_rule`).
-/
import Rulebook.Proofs.Endings
import Rulebook.Proofs.Printing

namespace Rulebook

open Source Rulebook.Reading

/-! ## Parts of a declaration -/

theorem Source.gives_definition (m : Mode) (words rest : List Word) (t : Tree) :
    (definition m words).Gives t rest ↔ ∃ c ws s, words = c :: (ws ++ s :: rest) ∧ c.Is .colon ∧
      Spells m .alternatives ws [t] ∧ s.Is .semicolon := by
  simp only [definition, gives_next', gives_takeSymbol, gives_map]
  refine ⟨?_, ?_⟩
  · intro h
    rcases h with ⟨_, _, ⟨c, rfl, hc, -⟩, _, _, ht, _, ⟨s, rfl, hs, -⟩, rfl⟩
    obtain ⟨ws, rfl, hws⟩ := spells_of_alternatives m _ _ _ ht
    exact ⟨c, ws, s, rfl, hc, hws, hs⟩
  · intro h
    rcases h with ⟨c, ws, s, rfl, hc, hws, hs⟩
    have hfollows := follows_of_is hs (.inr rfl) rest
    exact ⟨_, _, ⟨c, rfl, hc, rfl⟩, t, _, alternatives_of_spells hws hfollows, _, ⟨s, rfl, hs, rfl⟩, rfl⟩

abbrev Source.Word.IsWord (w : Word) (word : Text) : Prop := w.IsName ∧ w.token.value = word

theorem Source.gives_returnsHere (words rest : List Word) (t : Option Text) :
    (returnsHere words).Gives t rest ↔
      (t = none ∧ rest = words ∧ atWord "returns" words = false) ∨
        ∃ x ws v, words = x :: (ws ++ rest) ∧ x.IsWord "returns" ∧ Named ws v ∧
          (v.2 = none → atSymbol .doubleColon rest = false) ∧ t = some (writtenName v) := by
  simp only [returnsHere, gives_behindWord?, gives_typeRef]
  refine or_congr_right ⟨?_, ?_⟩
  · intro h
    rcases h with ⟨x, _, _, rfl, hx, ⟨ws, v, rfl, hv, hc, rfl⟩, rfl⟩
    exact ⟨x, ws, v, rfl, hx, hv, hc, rfl⟩
  · intro h
    rcases h with ⟨x, ws, v, rfl, hx, hv, hc, rfl⟩
    exact ⟨x, _, _, rfl, hx, ⟨ws, v, rfl, hv, hc, rfl⟩, rfl⟩

theorem Source.gives_fragmentHere (words rest : List Word) (fragment : Bool) :
    (fragmentHere words).Gives fragment rest ↔
      (fragment = false ∧ rest = words ∧ introduces "fragment" words = false) ∨
        (fragment = true ∧ ∃ x, words = x :: rest ∧ x.IsWord "fragment" ∧ atName rest = true) := by
  unfold fragmentHere
  split
  · next h =>
    simp only [gives_loose, gives_map, gives_takeWord, h, Bool.true_eq_false, and_false, false_or]
    simp only [introduces, Bool.and_eq_true] at h
    refine ⟨?_, ?_⟩
    · intro hread
      rcases hread with ⟨_, ⟨x, rfl, hx, -⟩, rfl⟩
      exact ⟨rfl, x, rfl, hx, h.2⟩
    · intro hread
      rcases hread with ⟨rfl, x, rfl, hx, -⟩
      exact ⟨_, ⟨x, rfl, hx, rfl⟩, rfl⟩
  · next h =>
    simp only [gives_nothing, Bool.not_eq_true] at h ⊢
    simp only [h, and_true]
    refine ⟨.inl, ?_⟩
    intro hread
    rcases hread with h' | ⟨-, x, rfl, hx, hname⟩
    · exact h'
    · have hword : atWord "fragment" (x :: rest) = true := (atWord_cons ..).2 hx
      simp [introduces, hname, hword] at h

/-- names of rules with commas between them, up to where no comma stands -/
inductive RuleNames : List Word → List Text → Prop where
  | one {ws : List Word} {v : Token × Option Token} : Named ws v → RuleNames ws [writtenName v]
  | more {ws us : List Word} {v : Token × Option Token} {c : Word} {ns : List Text} :
    Named ws v → c.Is .comma → RuleNames us ns → RuleNames (ws ++ c :: us) (writtenName v :: ns)

theorem Source.ruleNames_of_gives {words rest : List Word} {ns : List Text}
    (h : (oneOrMore .comma ruleName words).Gives ns rest) : ∃ ws, words = ws ++ rest ∧ RuleNames ws ns := by
  simp only [oneOrMore, gives_next', gives_map, gives_behindSymbols] at h
  obtain ⟨first, mid, hfirst, more, hmore, rfl⟩ := h
  obtain ⟨ws, v, rfl, hv, -, rfl⟩ := (gives_ruleName ..).1 hfirst
  clear hfirst
  suffices hsuffices : ∀ {mid rest : List Word} {more : List Text},
      BehindSymbols .comma (fun r a m => (ruleName r).Gives a m) mid more rest →
      ∀ {ws : List Word} {v : Token × Option Token}, Named ws v →
        ∃ us, ws ++ mid = us ++ rest ∧ RuleNames us (writtenName v :: more) from hsuffices hmore hv
  intro mid rest more hmore
  induction hmore with
  | stop _ => exact fun {ws _} hv => ⟨ws, rfl, .one hv⟩
  | @more c _ mid rest n ns hc hread _ ih =>
    intro ws v hv
    obtain ⟨us, u, rfl, hu, -, rfl⟩ := (gives_ruleName ..).1 hread
    obtain ⟨vs, hvs, hnames⟩ := ih hu
    exact ⟨ws ++ c :: vs, by rw [hvs]; simp, .more hv (by simpa using hc) hnames⟩

theorem Source.gives_of_ruleNames {ws rest : List Word} {ns : List Text} (h : RuleNames ws ns)
    (hcolons : atSymbol .doubleColon rest = false) (hcomma : atSymbol .comma rest = false) :
    (oneOrMore .comma ruleName (ws ++ rest)).Gives ns rest := by
  simp only [oneOrMore, gives_next', gives_map, gives_behindSymbols]
  induction h with
  | @one ws v hv =>
    exact ⟨_, rest, (gives_ruleName ..).2 ⟨ws, v, rfl, hv, fun _ => hcolons, rfl⟩, [],
      .stop (by simp [atMark_iff, hcomma]), rfl⟩
  | @more ws us v c ns hv hc _ ih =>
    obtain ⟨first, mid, hfirst, more, hmore, rfl⟩ := ih
    refine ⟨_, c :: (us ++ rest), (gives_ruleName ..).2 ⟨ws, v, by simp, hv, ?_, rfl⟩, first :: more,
      .more (by simpa using hc) hfirst hmore, rfl⟩
    exact fun _ => atSymbol_of_is hc (by decide) _

/-- words that name the hidden tokens, perhaps none -/
inductive HiddenClause : List Word → List Text → Prop where
  | absent : HiddenClause [] []
  | empty {x o c : Word} : x.IsWord "hidden" → o.Is .openParen → c.Is .closeParen → HiddenClause [x, o, c] []
  | names {x o c : Word} {ws : List Word} {ns : List Text} : x.IsWord "hidden" → o.Is .openParen → RuleNames ws ns →
    c.Is .closeParen → HiddenClause (x :: o :: (ws ++ [c])) ns

theorem RuleNames.begins {ws : List Word} {ns : List Text} (h : RuleNames ws ns) :
    ∃ n more, ws = n :: more ∧ n.IsName := by
  cases h with
  | one hv =>
    obtain ⟨n, more, rfl, hn, -⟩ := hv.begins
    exact ⟨n, more, rfl, hn⟩
  | more hv _ _ =>
    obtain ⟨n, more, rfl, hn, -⟩ := hv.begins
    exact ⟨n, _, rfl, hn⟩

theorem Source.hiddenClause_of_gives {words rest : List Word} {ns : List Text}
    (h : (hiddenHere words).Gives ns rest) : ∃ ws, words = ws ++ rest ∧ HiddenClause ws ns := by
  simp only [hiddenHere, hiddenClause, gives_map, gives_behindWord?, gives_next', gives_takeSymbol] at h
  obtain ⟨_, ⟨rfl, rfl, -⟩ | ⟨x, _, _, rfl, hx, ⟨_, _, ⟨o, rfl, ho, -⟩, _, _, hnames, _, ⟨c, rfl, hc, -⟩, rfl⟩, rfl⟩,
    rfl⟩ := h
  · exact ⟨[], rfl, .absent⟩
  · unfold hiddenNames at hnames
    split at hnames
    · obtain ⟨rfl, rfl⟩ := (gives_nothing ..).1 hnames
      exact ⟨[x, o, c], rfl, .empty hx ho hc⟩
    · obtain ⟨ws, rfl, hws⟩ := ruleNames_of_gives ((gives_loose ..).1 hnames)
      exact ⟨x :: o :: (ws ++ [c]), by simp, .names hx ho hws hc⟩

/-- a clause is read whatever follows; that there is none has to be seen from what follows -/
theorem Source.gives_of_hiddenClause {ws rest : List Word} {ns : List Text} (h : HiddenClause ws ns)
    (hrest : ws = [] → atWord "hidden" rest = false) : (hiddenHere (ws ++ rest)).Gives ns rest := by
  simp only [hiddenHere, hiddenClause, gives_map, gives_behindWord?, gives_next', gives_takeSymbol]
  cases h with
  | absent => exact ⟨none, .inl ⟨rfl, rfl, hrest rfl⟩, rfl⟩
  | @empty x o c hx ho hc =>
    refine ⟨some [], .inr ⟨x, o :: c :: rest, [], rfl, hx, ?_, rfl⟩, rfl⟩
    refine ⟨_, _, ⟨o, rfl, ho, rfl⟩, [], c :: rest, ?_, _, ⟨c, rfl, hc, rfl⟩, rfl⟩
    simp [hiddenNames, atSymbol, Token.isSymbol, hc.kind]
  | @names x o c ws _ hx ho hws hc =>
    refine ⟨some ns, .inr ⟨x, o :: (ws ++ c :: rest), ns, by simp, hx, ?_, rfl⟩, rfl⟩
    refine ⟨_, _, ⟨o, rfl, ho, rfl⟩, ns, c :: rest, ?_, _, ⟨c, rfl, hc, rfl⟩, rfl⟩
    have hread : (oneOrMore .comma ruleName (ws ++ c :: rest)).Gives ns (c :: rest) :=
      gives_of_ruleNames hws (atSymbol_of_is hc (by decide) _) (atSymbol_of_is hc (by decide) _)
    obtain ⟨n, more, rfl, hn⟩ := hws.begins
    have hclose : atSymbol .closeParen (n :: more ++ c :: rest) = false := by
      simp [atSymbol, Token.isSymbol, hn.kind]
    unfold hiddenNames
    rw [if_neg (Bool.eq_false_iff.1 hclose)]
    exact (gives_loose ..).2 hread

/-! ## Headers that were read -/

/-- the words that introduce another kind of rule when a name follows -/
def introducers : List Text := ["terminal", "enum", "fragment"]

/-- a header that can be read: its names can be, and it is not taken for the header of another kind of rule -/
structure Headed (kind : RuleKind) (n : Text) (type : Option Text) : Prop where
  identifier : IsIdentifier n
  callable : ∀ t ∈ type, Callable .parser t
  distinct : match kind with
    | .parser fragment hidden => (∀ h ∈ hidden, Callable .parser h) ∧
        (fragment = false → type ≠ none ∨ hidden ≠ [] → n ∉ introducers)
    | .terminal fragment => fragment = false → type ≠ none → n ≠ "fragment"
    | .enumeration => True
    | .unresolved => False

def IsEnumLiteral {ρ : Type} (e : Element ρ) : Prop :=
  ∃ n k, IsIdentifier n ∧ e = .literal .none n (Option.map (fun v => ⟨.none, v⟩) k)

/-- the literals of an enumeration -/
inductive Enumerated {ρ : Type} : Element ρ → Prop where
  | one {e : Element ρ} : IsEnumLiteral e → Enumerated e
  | choice {es : List (Element ρ)} :
    2 ≤ es.length → (∀ e ∈ es, IsEnumLiteral e) → Enumerated (.compound .none .choice es)

/-- the definition of a rule that was read: it is spelled in the words, as the kind of the rule asks -/
inductive Defined (words : List Word) (r : WrittenRule) : Prop where
  | parser {fragment : Bool} {hidden : List Text} {ws : List Word} {t : Tree} : r.kind = .parser fragment hidden →
    r.definition = some t → Spells .parser .alternatives ws [t] → ws ⊆ words → Defined words r
  | terminal {fragment : Bool} {ws : List Word} {t : Tree} : r.kind = .terminal fragment →
    r.definition = some t → Spells .terminal .alternatives ws [t] → ws ⊆ words → Defined words r
  | enumeration {t : Tree} : r.kind = .enumeration → r.definition = some t → Enumerated t → Defined words r

theorem callables_of_ruleNames {ws : List Word} {ns : List Text} (hlex : LexicalWords ws) (h : RuleNames ws ns) :
    ∀ n ∈ ns, Callable .parser n := by
  induction h with
  | one hv => exact List.forall_mem_singleton.2 (callable_writtenName hlex hv)
  | more hv _ _ ih =>
    exact List.forall_mem_cons.2 ⟨callable_writtenName (fun w hw => hlex w (by simp [hw])) hv,
      ih fun w hw => hlex w (by simp [hw])⟩

theorem callables_of_hiddenClause {ws : List Word} {ns : List Text} (hlex : LexicalWords ws) (h : HiddenClause ws ns) :
    ∀ n ∈ ns, Callable .parser n := by
  cases h with
  | absent => simp
  | empty _ _ _ => simp
  | names _ _ hws _ => exact callables_of_ruleNames (fun w hw => hlex w (by simp [hw])) hws

/-- a type that was read is a name, and a name stands where it was read from -/
theorem type_of_returnsHere {words rest : List Word} {t : Option Text} (hlex : LexicalWords words)
    (h : (returnsHere words).Gives t rest) :
    (∀ n ∈ t, Callable .parser n) ∧ rest <:+ words ∧ (t ≠ none → atName words = true) ∧ (t = none → rest = words) := by
  rcases (gives_returnsHere ..).1 h with ⟨rfl, rfl, -⟩ | ⟨x, ws, v, rfl, hx, hv, -, rfl⟩
  · exact ⟨nofun, List.suffix_refl _, fun h => absurd rfl h, fun _ => rfl⟩
  · refine ⟨?_, ⟨x :: ws, by simp⟩, fun _ => by simpa using hx.1, nofun⟩
    intro _ hread
    cases hread
    exact callable_writtenName (fun w hw => hlex w (by simp [hw])) hv

theorem LexicalWords.suffix {words rest : List Word} (hlex : LexicalWords words) (h : rest <:+ words) :
    LexicalWords rest := fun w hw => hlex w (h.subset hw)

/-- the word is not one that would introduce a rule here -/
theorem not_word_of_introduces {word : Text} {n : Word} {rest : List Word} (h : introduces word (n :: rest) = false)
    (hn : n.IsName) (hname : atName rest = true) : n.token.value ≠ word := by
  rintro rfl
  have hword : atWord n.token.value (n :: rest) = true := (atWord_cons ..).2 ⟨hn, rfl⟩
  simp [introduces, hword, hname] at h

theorem defined_of_parserRule {words rest : List Word} {r : WrittenRule} (hlex : LexicalWords words)
    (hterminal : introduces "terminal" words = false) (henum : introduces "enum" words = false)
    (h : (parserRule words).Gives r rest) : Headed r.kind r.name r.typeName ∧ Defined words r := by
  simp only [parserRule, gives_next', gives_take] at h
  obtain ⟨fragment, _, hfragment, _, behind, ⟨n, rfl, hn, rfl⟩, hbehind⟩ := h
  have hnamed := (takes_fragmentHere _).leavesEnd _ _ hfragment
  split at hbehind
  · simp at hbehind
  simp only [gives_next', gives_map, gives_definition] at hbehind
  obtain ⟨_, typed, hstar, type, _, hreturns, hidden, _, hhidden, t, ⟨c, ws, s, rfl, hc, ht, hs⟩, rfl⟩ := hbehind
  have htyped := (takes_starHere _ _).leavesEnd _ _ hstar
  have hlexNamed := hlex.suffix hnamed
  have hlexTyped := (hlexNamed.suffix (List.suffix_cons _ _)).suffix htyped
  obtain ⟨hcallable, hclause, hsome, hnone⟩ := type_of_returnsHere hlexTyped hreturns
  obtain ⟨us, rfl, hus⟩ := hiddenClause_of_gives hhidden
  have hlexClause := hlexTyped.suffix hclause
  have hhiddenNames := callables_of_hiddenClause (fun w hw => hlexClause w (by simp [hw])) hus
  refine ⟨⟨(hlexNamed n (by simp)).name hn, hcallable, hhiddenNames, ?_⟩, .parser rfl rfl ht ?_⟩
  · -- without `fragment` before it, the name is the first word, and another name follows it
    rintro rfl hmore
    obtain ⟨hwords, hnot⟩ : n :: behind = words ∧ introduces "fragment" words = false := by
      simpa using (gives_fragmentHere ..).1 hfragment
    subst hwords
    have hsame : typed = behind := (by simpa [starHere] using hstar : _ ∧ typed = behind).2
    subst hsame
    have hname : atName typed = true := by
      by_cases htype : type = none
      · rw [← hnone htype]
        cases hus with
        | absent => exact absurd rfl (hmore.resolve_left (fun h => h htype))
        | empty hx _ _ => simpa using hx.1
        | names hx _ _ _ => simpa using hx.1
      · exact hsome htype
    simp only [introducers, List.mem_cons, List.not_mem_nil, or_false, not_or]
    exact ⟨not_word_of_introduces hterminal hn hname, not_word_of_introduces henum hn hname,
      not_word_of_introduces hnot hn hname⟩
  · have hin := (hclause.trans (htyped.trans ((List.suffix_cons n behind).trans hnamed))).subset
    exact fun w hw => hin (by simp [hw])

theorem defined_of_terminalRule {words rest : List Word} {r : WrittenRule} (hlex : LexicalWords words)
    (h : (terminalRule words).Gives r rest) : Headed r.kind r.name r.typeName ∧ Defined words r := by
  simp only [terminalRule, gives_next', gives_take, gives_takeWord, gives_map, gives_definition] at h
  obtain ⟨_, introduced, ⟨x, rfl, -, -⟩, fragment, _, hfragment, _, typed, ⟨n, rfl, hn, rfl⟩, type, _, hreturns, t,
    ⟨c, ws, s, rfl, hc, ht, hs⟩, rfl⟩ := h
  have hnamed := (takes_fragmentHere _).leavesEnd _ _ hfragment
  have hlexNamed := (hlex.suffix (List.suffix_cons _ _)).suffix hnamed
  obtain ⟨hcallable, hclause, hsome, -⟩ := type_of_returnsHere (hlexNamed.suffix (List.suffix_cons _ _)) hreturns
  refine ⟨⟨(hlexNamed n (by simp)).name hn, hcallable, ?_⟩, .terminal rfl rfl ht ?_⟩
  · rintro rfl htype
    obtain ⟨hwords, hnot⟩ : n :: typed = introduced ∧ introduces "fragment" introduced = false := by
      simpa using (gives_fragmentHere ..).1 hfragment
    subst hwords
    exact not_word_of_introduces hnot hn (hsome htype)
  · have hin := (hclause.trans ((List.suffix_cons n typed).trans (hnamed.trans (List.suffix_cons x introduced)))).subset
    exact fun w hw => hin (by simp [hw])

theorem isEnumLiteral_of_gives {words rest : List Word} {t : Tree} (hlex : LexicalWords words)
    (h : (enumLiteral words).Gives t rest) : IsEnumLiteral t := by
  simp only [enumLiteral, gives_next', gives_take, gives_map, gives_behindSymbol?] at h
  obtain ⟨_, _, ⟨n, rfl, hn, rfl⟩, keyword, -, rfl⟩ := h
  exact ⟨_, keyword.map Token.value, (hlex n (by simp)).name hn, by rw [Option.map_map]; rfl⟩

theorem enumerated_of_enumLiterals {words rest : List Word} {t : Tree} (hlex : LexicalWords words)
    (h : (enumLiterals words).Gives t rest) : Enumerated t := by
  simp only [enumLiterals, gives_next', gives_map, gives_behindSymbols] at h
  obtain ⟨first, mid, hfirst, more, hmore, rfl⟩ := h
  have hend := (takes_enumLiteral _).leavesEnd _ _ hfirst
  have hone := isEnumLiteral_of_gives hlex hfirst
  have hall : ∀ e ∈ more, IsEnumLiteral e := by
    have hlexMid := hlex.suffix hend
    clear hfirst hone hend
    induction hmore with
    | stop _ => simp
    | more _ hread _ ih =>
      have hlexTail := hlexMid.suffix (List.suffix_cons _ _)
      have hend := (takes_enumLiteral _).leavesEnd _ _ hread
      exact List.forall_mem_cons.2 ⟨isEnumLiteral_of_gives hlexTail hread, ih (hlexTail.suffix hend)⟩
  cases more with
  | nil => exact .one hone
  | cons second more => exact .choice (by simp) (List.forall_mem_cons.2 ⟨hone, hall⟩)

theorem defined_of_enumRule {words rest : List Word} {r : WrittenRule} (hlex : LexicalWords words)
    (h : (enumRule words).Gives r rest) : Headed r.kind r.name r.typeName ∧ Defined words r := by
  simp only [enumRule, gives_next', gives_take, gives_takeWord, gives_takeSymbol, gives_map] at h
  obtain ⟨_, _, ⟨x, rfl, -, -⟩, _, typed, ⟨n, rfl, hn, rfl⟩, type, _, hreturns, _, body, ⟨c, rfl, -, -⟩, t, _, ht, -,
    -, rfl⟩ := h
  have hlexTyped : LexicalWords typed := fun w hw => hlex w (by simp [hw])
  obtain ⟨hcallable, hclause, -, -⟩ := type_of_returnsHere hlexTyped hreturns
  have hlexBody := (hlexTyped.suffix hclause).suffix (List.suffix_cons _ _)
  exact ⟨⟨(hlex n (by simp)).name hn, hcallable, trivial⟩,
    .enumeration rfl rfl (enumerated_of_enumLiterals hlexBody ht)⟩

/-- every rule that is read has a header that can be read, and a definition of its kind -/
theorem defined_of_rule {words rest : List Word} {r : WrittenRule} (hlex : LexicalWords words)
    (h : (rule words).Gives r rest) : Headed r.kind r.name r.typeName ∧ Defined words r := by
  unfold rule at h
  split at h
  · exact defined_of_terminalRule hlex h
  · next hterminal =>
    split at h
    · exact defined_of_enumRule hlex h
    · next henum =>
      exact defined_of_parserRule hlex (Bool.eq_false_iff.2 hterminal) (Bool.eq_false_iff.2 henum) h

end Rulebook
