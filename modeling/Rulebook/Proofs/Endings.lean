/-
No reader of the language goes back or leaves a gap: what it takes stands before what it leaves. Each statement here
follows the reader that it is about, part by part.

The body of a rule stands between a colon and a semicolon, and neither occurs anywhere else: a word is `Ordinary` when it
is none of the two, and ordinary words are all that is taken outside of bodies.
-/
import Rulebook.Proofs.Recognition
import Rulebook.Source.Grammar

namespace Rulebook.Source

open Rulebook.Reading

/-- the word neither opens nor closes the body of a rule -/
def Word.Ordinary (w : Word) : Prop := ¬ w.Is .colon ∧ ¬ w.Is .semicolon

theorem Word.ordinary_of_kind {w : Word} {kind : TokenKind} (h : w.token.kind = kind)
    (hkind : kind ∉ [TokenKind.symbol .colon, TokenKind.symbol .semicolon]) : w.Ordinary := by
  subst h
  simpa [Word.Ordinary, Word.Is] using hkind

theorem Word.Is.ordinary {w : Word} {s : Symbol} (h : w.Is s) (hs : s ∉ [Symbol.colon, .semicolon]) : w.Ordinary :=
  ordinary_of_kind h.kind (by simpa using hs)

theorem Word.IsName.ordinary {w : Word} (h : w.IsName) : w.Ordinary := ordinary_of_kind h.kind (by decide)

theorem Word.IsLiteral.ordinary {w : Word} (h : w.IsLiteral) : w.Ordinary := ordinary_of_kind h.kind (by decide)

/-! ## Words and names -/

section

variable {P : Word → Prop}

theorem takes_complain {α : Type} {takes : Bool} (words : List Word) (c : Complaint) :
    Takes P (complain words c : Reading α takes words) :=
  takes_error P _

theorem takes_takeIf {wanted : Token → Bool} (h : ∀ w : Word, wanted w.token = true → P w) (c : Complaint)
    (words : List Word) : (takeIf wanted c words).Takes P := by
  intro t rest hread
  obtain ⟨w, rfl, hw, -⟩ := (gives_takeIf ..).1 hread
  exact ⟨[w], rfl, List.forall_mem_singleton.2 (h w hw)⟩

theorem takes_take {kind : TokenKind} (h : ∀ w : Word, w.token.kind = kind → P w) (what : Text) (words : List Word) :
    (take kind what words).Takes P :=
  takes_takeIf (fun w hw => h w (by simpa using hw)) _ words

theorem takes_takeSymbol {s : Symbol} (h : ∀ w : Word, w.Is s → P w) (words : List Word) :
    (takeSymbol s words).Takes P :=
  takes_take h _ words

theorem takes_takeWord (h : ∀ w : Word, w.IsName → P w) (word : Text) (words : List Word) :
    (takeWord word words).Takes P :=
  takes_takeIf (fun w hw => h w ((Token.isWord_iff ..).1 hw).1) _ words

theorem takes_behindSymbols {α : Type} {takes : Bool} {s : Symbol} (h : ∀ w : Word, w.Is s → P w) (words : List Word)
    {read : (r : List Word) → Reading α takes r} (hread : ∀ r, (read r).Takes P) :
    (behindSymbols s words fun r _ => read r).Takes P := by
  intro as rest hgives
  exact ((gives_behindSymbols ..).1 hgives).taken (fun w hw => h w ((Token.isSymbol_iff ..).1 hw))
    fun r a mid ha => hread r a mid ha

theorem takes_oneOrMore {α : Type} {s : Symbol} (h : ∀ w : Word, w.Is s → P w) {read : (r : List Word) → Reading α true r}
    (hread : ∀ r, (read r).Takes P) (words : List Word) : (oneOrMore s read words).Takes P :=
  (hread words).next fun _ mid _ => (takes_behindSymbols h mid hread).map _

end

theorem Named.ordinary {ws : List Word} {v : Token × Option Token} (h : Named ws v) : ∀ w ∈ ws, w.Ordinary := by
  cases h with
  | plain hn => exact List.forall_mem_singleton.2 hn.ordinary
  | qualified hq hc hn =>
    exact List.forall_mem_cons.2 ⟨hq.ordinary, List.forall_mem_cons.2
      ⟨hc.ordinary (by decide), List.forall_mem_singleton.2 hn.ordinary⟩⟩

theorem takes_qualified (what : Text) (words : List Word) : (qualified what words).Takes Word.Ordinary := by
  intro v rest h
  obtain ⟨ws, rfl, hv, -⟩ := (gives_qualified ..).1 h
  exact ⟨ws, rfl, hv.ordinary⟩

theorem takes_typeRef (words : List Word) : (typeRef words).Takes Word.Ordinary := (takes_qualified _ words).map _

theorem takes_ruleName (words : List Word) : (ruleName words).Takes Word.Ordinary := (takes_qualified _ words).map _

theorem takes_name (what : Text) (words : List Word) : (take .name what words).Takes Word.Ordinary :=
  takes_take (fun _ => Word.IsName.ordinary) what words

theorem takes_literal (what : Text) (words : List Word) : (take .literal what words).Takes Word.Ordinary :=
  takes_take (fun _ => Word.IsLiteral.ordinary) what words

theorem takes_word (word : Text) (words : List Word) : (takeWord word words).Takes Word.Ordinary :=
  takes_takeWord (fun _ => Word.IsName.ordinary) word words

theorem takes_symbol {s : Symbol} (hs : s ∉ [Symbol.colon, .semicolon]) (words : List Word) :
    (takeSymbol s words).Takes Word.Ordinary :=
  takes_takeSymbol (fun _ hw => hw.ordinary hs) words

theorem takes_behindWord? {α : Type} {takes : Bool} (word : Text) {read : (r : List Word) → Reading α takes r}
    (hread : ∀ r, (read r).Takes Word.Ordinary) (words : List Word) :
    (behindWord? word read words).Takes Word.Ordinary :=
  takes_behindMark? (fun _ hw => Word.IsName.ordinary ((Token.isWord_iff ..).1 hw).1) hread words

/-! ## Declarations of rules -/

theorem takes_alternatives (m : Mode) (words : List Word) : (alternatives m words).Takes fun _ => True := by
  intro t rest h
  obtain ⟨ws, rfl, -⟩ := spells_of_alternatives m words rest t h
  exact ⟨ws, rfl, fun _ _ => trivial⟩

theorem takes_definition (m : Mode) (words : List Word) : (definition m words).Takes fun _ => True := by
  have hsymbol : ∀ (s : Symbol) (words : List Word), (takeSymbol s words).Takes fun _ => True :=
    fun s words => takes_takeSymbol (fun _ _ => trivial) words
  exact (hsymbol _ words).next fun _ mid _ => (takes_alternatives m mid).next fun _ mid _ => (hsymbol _ mid).map _

theorem takes_hiddenHere (words : List Word) : (hiddenHere words).Takes Word.Ordinary := by
  have hnames : ∀ words, (hiddenNames words).Takes Word.Ordinary := by
    intro words
    unfold hiddenNames
    split
    · exact takes_nothing _ _ _
    · exact (takes_oneOrMore (fun _ hw => hw.ordinary (by decide)) takes_ruleName words).loose
  have hclause : ∀ words, (hiddenClause words).Takes Word.Ordinary := fun words =>
    (takes_symbol (by decide) words).next fun _ mid _ => (hnames mid).next fun _ mid _ =>
      (takes_symbol (by decide) mid).map _
  exact (takes_behindWord? _ hclause words).map _

theorem takes_returnsHere (words : List Word) : (returnsHere words).Takes Word.Ordinary :=
  takes_behindWord? _ takes_typeRef words

theorem takes_fragmentHere (words : List Word) : (fragmentHere words).Takes Word.Ordinary := by
  unfold fragmentHere
  split
  · exact ((takes_word _ words).map _).loose
  · exact takes_nothing _ _ _

theorem takes_starHere (fragment : Bool) (words : List Word) : (starHere fragment words).Takes Word.Ordinary := by
  unfold starHere
  split
  · exact ((takes_symbol (by decide) words).map _).loose
  · exact takes_nothing _ _ _

theorem takes_parserRule (words : List Word) : (parserRule words).Takes fun _ => True := by
  refine (takes_fragmentHere words).any.next fun _ mid _ => (takes_name _ mid).any.next fun _ mid _ => ?_
  split
  · exact takes_complain _ _
  · exact (takes_starHere _ mid).any.next fun _ mid _ => (takes_returnsHere mid).any.next fun _ mid _ =>
      (takes_hiddenHere mid).any.next fun _ mid _ => (takes_definition _ mid).map _

theorem takes_terminalRule (words : List Word) : (terminalRule words).Takes fun _ => True :=
  (takes_word _ words).any.next fun _ mid _ => (takes_fragmentHere mid).any.next fun _ mid _ =>
    (takes_name _ mid).any.next fun _ mid _ => (takes_returnsHere mid).any.next fun _ mid _ =>
      (takes_definition _ mid).map _

theorem takes_enumLiteral (words : List Word) : (enumLiteral words).Takes Word.Ordinary :=
  (takes_name _ words).next fun _ mid _ =>
    (takes_behindMark? (fun _ hw => Word.Is.ordinary ((Token.isSymbol_iff ..).1 hw) (by decide)) (takes_literal _) mid).map _

theorem takes_enumLiterals (words : List Word) : (enumLiterals words).Takes Word.Ordinary :=
  (takes_enumLiteral words).next fun _ mid _ =>
    (takes_behindSymbols (fun _ hw => hw.ordinary (by decide)) mid takes_enumLiteral).map _

theorem takes_enumRule (words : List Word) : (enumRule words).Takes fun _ => True := by
  have hsymbol : ∀ (s : Symbol) (words : List Word), (takeSymbol s words).Takes fun _ => True :=
    fun s words => takes_takeSymbol (fun _ _ => trivial) words
  exact (takes_word _ words).any.next fun _ mid _ => (takes_name _ mid).any.next fun _ mid _ =>
    (takes_returnsHere mid).any.next fun _ mid _ => (hsymbol _ mid).next fun _ mid _ =>
      (takes_enumLiterals mid).any.next fun _ mid _ => (hsymbol _ mid).map _

theorem takes_rule (words : List Word) : (rule words).Takes fun _ => True := by
  unfold rule
  split
  · exact takes_terminalRule words
  · split
    · exact takes_enumRule words
    · exact takes_parserRule words

/-! ## Grammars -/

theorem takes_moreNameParts (words : List Word) : (moreNameParts words).Takes Word.Ordinary := by
  fun_induction moreNameParts words with
  | case1 d n rest h ih =>
    simp only [Bool.and_eq_true, Token.isSymbol_iff, decide_eq_true_eq] at h
    have hdot : d.Is .dot := h.1
    have hname : n.IsName := h.2
    exact ((ih.map _).behind hname.ordinary |>.behind (hdot.ordinary (by decide))).loose
  | case2 => exact takes_nothing _ _ _
  | case3 => exact takes_nothing _ _ _

theorem takes_qualifiedName (words : List Word) : (qualifiedName words).Takes Word.Ordinary :=
  (takes_name _ words).next fun _ mid _ => (takes_moreNameParts mid).map _

theorem takes_usesHere (words : List Word) : (usesHere words).Takes Word.Ordinary :=
  (takes_behindWord? _ (takes_oneOrMore (fun _ hw => hw.ordinary (by decide)) takes_qualifiedName) words).map _

theorem takes_metamodel? (words : List Word) : ∀ r ∈ metamodel? words, r.Takes Word.Ordinary := by
  have hshort : ∀ words, (shortNameHere words).Takes Word.Ordinary := fun words =>
    (takes_behindWord? _ (takes_name _) words).map _
  intro r hr
  unfold metamodel? at hr
  split at hr
  · cases hr
    exact (takes_word _ words).next fun _ mid _ => (takes_name _ mid).next fun _ mid _ =>
      (takes_literal _ mid).next fun _ mid _ => (hshort mid).map _
  · split at hr
    · cases hr
      exact (takes_word _ words).next fun _ mid _ => (takes_literal _ mid).next fun _ mid _ => (hshort mid).map _
    · cases hr

theorem takes_metamodels (words : List Word) : (metamodels words).Takes Word.Ordinary := by
  induction hn : words.length using Nat.strong_induction_on generalizing words with
  | _ n ih =>
    subst hn
    rw [metamodels]
    split
    · exact takes_nothing _ _ _
    · next r hr => exact ((takes_metamodel? words r hr).next fun _ mid hmid => (ih _ hmid mid rfl).map _).loose

theorem takes_annotations (comment : Option Text) (words : List Word) :
    (annotations comment words).Takes Word.Ordinary := by
  have hone : ∀ words, ( annotation words).Takes Word.Ordinary := fun words =>
    (takes_name _ words).next fun _ _ _ => takes_nothing _ _ _
  exact (takes_behindSymbols (fun _ hw => hw.ordinary (by decide)) words hone).map _

theorem takes_header (words : List Word) : (WrittenGrammar.header words).Takes Word.Ordinary :=
  (takes_word _ words).next fun _ mid _ => takes_qualifiedName mid

/-! ## The rules of a grammar -/

/-- the rule is read from an end of the words, and gets a comment -/
def ReadFrom (words : List Word) (r : WrittenRule) : Prop :=
  ∃ start rest declared comment, start <:+ words ∧ (rule start).Gives declared rest ∧ r = { declared with comment }

theorem ReadFrom.of_suffix {words end' : List Word} {r : WrittenRule} (h : ReadFrom end' r) (hend : end' <:+ words) :
    ReadFrom words r := by
  obtain ⟨start, rest, declared, comment, hstart, hread, hr⟩ := h
  exact ⟨start, rest, declared, comment, hstart.trans hend, hread, hr⟩

/-- rules one after the other, ordinary words before each of them and behind the last one -/
inductive RulesFrom : List Word → List WrittenRule → Prop where
  | none {words : List Word} : (∀ w ∈ words, w.Ordinary) → RulesFrom words []
  | more {before words rest : List Word} {r : WrittenRule} {comment : Option Text} {rs : List WrittenRule} :
    (∀ w ∈ before, w.Ordinary) → (rule words).Gives r rest → RulesFrom rest rs →
    RulesFrom (before ++ words) ({ r with comment } :: rs)

/-- ordinary words in front belong to no rule -/
theorem RulesFrom.behind {before words : List Word} {rs : List WrittenRule} (hbefore : ∀ w ∈ before, w.Ordinary)
    (h : RulesFrom words rs) : RulesFrom (before ++ words) rs := by
  cases h with
  | none hwords => exact .none (List.forall_mem_append.2 ⟨hbefore, hwords⟩)
  | more hfirst hread hmore =>
    rw [← List.append_assoc]
    exact .more (List.forall_mem_append.2 ⟨hbefore, hfirst⟩) hread hmore

theorem rulesFrom_of_rules (words rest : List Word) (rs : List WrittenRule) (h : (rules words).Gives rs rest) :
    RulesFrom words rs := by
  induction hn : words.length using Nat.strong_induction_on generalizing words rs with
  | _ n ih =>
    subst hn
    rw [rules] at h
    obtain ⟨comment, declared, hle, hannotations, hrules⟩ := (gives_next ..).1 h
    obtain ⟨before, rfl, hbefore⟩ := takes_annotations _ _ _ _ hannotations
    split at hrules
    · next hempty =>
      obtain ⟨rfl, -⟩ := (gives_nothing ..).1 hrules
      rw [List.isEmpty_iff.1 hempty, List.append_nil]
      exact .none hbefore
    · simp only [gives_loose, gives_next', gives_map] at hrules
      obtain ⟨first, tail, hfirst, more, hmore, rfl⟩ := hrules
      have hshort : tail.length < (before ++ declared).length := Nat.lt_of_lt_of_le hfirst.shorter hle
      exact .more hbefore hfirst (ih _ hshort tail more hmore rfl)

/-- a grammar is ordinary words and rules -/
theorem rulesFrom_of_ofWords {words : List Word} {g : WrittenGrammar} (h : WrittenGrammar.ofWords words = .ok g) :
    RulesFrom words g.rules := by
  unfold WrittenGrammar.ofWords at h
  split at h
  · cases h
  · next name start hstart hheader =>
    obtain ⟨front, rfl, hfront⟩ := takes_header words name start ⟨hstart, hheader⟩
    split at h
    · cases h
    · next step hafter =>
      cases h
      have hgives : (afterName (commentHere (front ++ start)) name start).Gives step.value step.rest :=
        ⟨step.within, hafter⟩
      simp only [afterName, gives_next', gives_map] at hgives
      obtain ⟨_, mid, huses, _, mid', hhidden, _, body, hmodels, rs, hrules, hg⟩ := hgives
      obtain ⟨usesWords, rfl, husesWords⟩ := takes_usesHere _ _ _ huses
      obtain ⟨hiddenWords, rfl, hhiddenWords⟩ := takes_hiddenHere _ _ _ hhidden
      obtain ⟨modelWords, rfl, hmodelWords⟩ := takes_metamodels _ _ _ hmodels
      rw [← hg]
      exact (((rulesFrom_of_rules body _ rs hrules).behind hmodelWords).behind hhiddenWords).behind husesWords
        |>.behind hfront

/-- every rule of a grammar is read from some end of its words -/
theorem RulesFrom.readFrom {words : List Word} {rs : List WrittenRule} (h : RulesFrom words rs) :
    ∀ r ∈ rs, ReadFrom words r := by
  induction h with
  | none _ => exact List.forall_mem_nil _
  | @more before words rest r comment rs _ hread _ ih =>
    have hend : words <:+ before ++ words := List.suffix_append before words
    have hrest := (takes_rule words).leavesEnd _ _ hread
    exact List.forall_mem_cons.2 ⟨⟨words, rest, r, comment, hend, hread, rfl⟩, fun r hr =>
      (ih r hr).of_suffix (hrest.trans hend)⟩

theorem readFrom_of_ofWords {words : List Word} {g : WrittenGrammar} (h : WrittenGrammar.ofWords words = .ok g) :
    ∀ r ∈ g.rules, ReadFrom words r := (rulesFrom_of_ofWords h).readFrom

end Rulebook.Source
