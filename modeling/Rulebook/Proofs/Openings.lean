/-
The words of a whole grammar. It begins with a name and the names of the grammars it uses (`Begun`), goes on with
hidden tokens and metamodels (`Clauses`), and then come its rules one after the other (`Rows`), each with its
annotations and the comment that counts for it.

- `ofWords_iff`: the reader of grammars reads just that;
- `Begun.again`, `Clauses.again`: what was read at the beginning is read again in front of other words, as long as
  these do not carry it on;
- `gives_rules_iff`, `Row.same`: the rules are read row by row, and a row is the same rule elsewhere.
-/
import Rulebook.Proofs.Pieces
import Rulebook.Proofs.Places

namespace Rulebook

open Source Rulebook.Reading

/-! ## Reading again -/

section Again

variable {us ws rest rest' : List Word}

theorem atWord_same (word : Text) (hus : us.map Word.key = ws.map Word.key) (hne : ws ≠ []) (rest rest' : List Word) :
    atWord word (us ++ rest') = atWord word (ws ++ rest) := by
  obtain ⟨w, ws, rfl⟩ := List.exists_cons_of_ne_nil hne
  obtain ⟨u, us, rfl, hkey, -⟩ := same_cons hus
  simp only [List.cons_append, atWord, Token.isWord, kind_eq hkey, value_eq hkey]

/-- in front of any words that it may stop at, the reader takes words that say the same, for the same value -/
def Rereads {α : Type} {takes : Bool} (read : (r : List Word) → Source.Reading α takes r) (stops : List Word → Prop)
    (ws : List Word) (a : α) : Prop :=
  ∀ us rest, us.map Word.key = ws.map Word.key → stops rest → (read (us ++ rest)).Gives a rest

theorem rereads_moreNameParts_nil : Rereads moreNameParts Undotted [] [] := by
  intro us rest hus hrest
  obtain rfl := words_nil hus
  exact gives_moreNameParts_nil hrest

theorem rereads_moreNameParts {words : List Word} {parts : List Text} (h : (moreNameParts words).Gives parts rest) :
    ∃ ws, words = ws ++ rest ∧ Rereads moreNameParts Undotted ws parts := by
  fun_induction moreNameParts words generalizing parts with
  | case1 d n tail hnext ih =>
    simp only [gives_loose, gives_behind, gives_map] at h
    obtain ⟨more, hmore, rfl⟩ := h
    obtain ⟨ws, rfl, hws⟩ := ih hmore
    refine ⟨d :: n :: ws, rfl, fun us rest' hus hrest' => ?_⟩
    obtain ⟨d', _, rfl, hd, hus⟩ := same_cons hus
    obtain ⟨n', us, rfl, hn, hus⟩ := same_cons hus
    rw [List.cons_append, List.cons_append, moreNameParts, if_pos (by rwa [isSymbol_same hd, kind_eq hn]), gives_loose,
      gives_behind, gives_behind, gives_map]
    exact ⟨more, hws us rest' hus hrest', by rw [value_eq hn]⟩
  | case2 =>
    obtain ⟨rfl, rfl⟩ := (gives_nothing ..).1 h
    exact ⟨[], rfl, rereads_moreNameParts_nil⟩
  | case3 =>
    obtain ⟨rfl, rfl⟩ := (gives_nothing ..).1 h
    exact ⟨[], rfl, rereads_moreNameParts_nil⟩

theorem rereads_qualifiedName {words : List Word} {name : Text} (h : (qualifiedName words).Gives name rest) :
    ∃ ws, words = ws ++ rest ∧ Rereads qualifiedName Undotted ws name := by
  simp only [qualifiedName, gives_next', gives_take, gives_map] at h
  obtain ⟨_, tail, ⟨n, rfl, hn, rfl⟩, parts, hparts, rfl⟩ := h
  obtain ⟨ws, rfl, hws⟩ := rereads_moreNameParts hparts
  refine ⟨n :: ws, rfl, fun us rest' hus hrest' => ?_⟩
  obtain ⟨n', us, rfl, hkey, hus⟩ := same_cons hus
  rw [List.cons_append, qualifiedName, (gives_takeName ((kind_eq hkey).trans hn) _ _).next_iff, gives_map]
  exact ⟨parts, hws us rest' hus hrest', by rw [value_eq hkey]⟩

/-- several of a kind with a symbol between them are read again when each one is -/
theorem rereads_oneOrMore {α : Type} {s : Symbol} {read : (r : List Word) → Source.Reading α true r}
    {stops : List Word → Prop}
    (hread : ∀ words a rest, (read words).Gives a rest → ∃ ws, words = ws ++ rest ∧ Rereads read stops ws a)
    (hmark : ∀ (x : Word) more, x.Is s → stops (x :: more)) {words : List Word} {as : List α}
    (h : (oneOrMore s read words).Gives as rest) :
    ∃ ws, words = ws ++ rest ∧ Rereads (oneOrMore s read) (fun rest => stops rest ∧ atSymbol s rest = false) ws as := by
  simp only [oneOrMore, gives_next', gives_map, gives_behindSymbols] at h
  obtain ⟨first, mid, hfirst, more, hmore, rfl⟩ := h
  obtain ⟨ws, rfl, hws⟩ := hread _ _ _ hfirst
  have htail : ∃ vs, mid = vs ++ rest ∧ ∀ us rest', us.map Word.key = vs.map Word.key → stops rest' →
      atSymbol s rest' = false → stops (us ++ rest') ∧
        BehindSymbols s (fun r a m => (read r).Gives a m) (us ++ rest') more rest' := by
    clear hfirst hws
    induction hmore with
    | stop _ =>
      refine ⟨[], rfl, fun us rest' hus hstops hsymbol => ?_⟩
      obtain rfl := words_nil hus
      exact ⟨hstops, .stop (by simp [atMark_iff, hsymbol])⟩
    | @more x s' mid rest a as hx hone _ ih =>
      obtain ⟨ws, rfl, hws⟩ := hread _ _ _ hone
      obtain ⟨vs, rfl, hvs⟩ := ih
      refine ⟨x :: (ws ++ vs), by simp, fun us rest' hus hstops hsymbol => ?_⟩
      obtain ⟨x', us, rfl, hkey, hus⟩ := same_cons hus
      obtain ⟨us₁, us₂, rfl, hus₁, hus₂⟩ := same_append hus
      obtain ⟨hstops', hbehind⟩ := hvs us₂ rest' hus₂ hstops hsymbol
      have hx' : x'.Is s := Word.Is.same (by simpa using hx) hkey
      have hone' := hws us₁ _ hus₁ hstops'
      rw [← List.append_assoc] at hone'
      exact ⟨hmark _ _ hx', .more (by simpa using hx') hone' hbehind⟩
  obtain ⟨vs, rfl, hvs⟩ := htail
  refine ⟨ws ++ vs, by simp, fun us rest' hus hrest' => ?_⟩
  obtain ⟨us₁, us₂, rfl, hus₁, hus₂⟩ := same_append hus
  obtain ⟨hstops, hbehind⟩ := hvs us₂ rest' hus₂ hrest'.1 hrest'.2
  have hfirst' := hws us₁ _ hus₁ hstops
  rw [← List.append_assoc] at hfirst'
  simp only [oneOrMore, gives_next', gives_map, gives_behindSymbols]
  exact ⟨first, _, hfirst', more, hbehind, rfl⟩

/-! ### Hidden tokens -/

/-- the hidden tokens are read again, as long as a missing clause is missed again -/
theorem rereads_hiddenHere {words : List Word} {hidden : List Text} (h : (hiddenHere words).Gives hidden rest) :
    ∃ ws, words = ws ++ rest ∧ (∀ w ∈ ws.head?, w.IsWord "hidden") ∧ ∀ us rest', us.map Word.key = ws.map Word.key →
      (ws = [] → atWord "hidden" rest' = false) → (hiddenHere (us ++ rest')).Gives hidden rest' := by
  obtain ⟨ws, rfl, hws⟩ := hiddenClause_of_gives h
  refine ⟨ws, rfl, ?_, fun us rest' hus hrest' => ?_⟩
  · cases hws with
    | absent => exact nofun
    | empty hx _ _ => rintro _ ⟨⟩; exact hx
    | names hx _ _ _ => rintro _ ⟨⟩; exact hx
  · have hempty : us = [] → ws = [] := by
      rintro rfl
      exact words_nil hus.symm
    exact gives_of_hiddenClause (hiddenClause_same hws hus) fun h => hrest' (hempty h)

/-! ### Metamodels -/

/-- no short name is next -/
def Unnamed (rest : List Word) : Prop := atWord "as" rest = false

/-- a missing short name is missed again, unless one comes next only now -/
theorem rereads_shortNameHere {words : List Word} {short : Option Text} (h : (shortNameHere words).Gives short rest) :
    ∃ ws, words = ws ++ rest ∧ Rereads shortNameHere (fun rest' => Unnamed rest → Unnamed rest') ws short := by
  simp only [shortNameHere, gives_map, gives_behindWord?, gives_take] at h
  obtain ⟨_, ⟨rfl, rfl, hunnamed⟩ | ⟨x, _, _, rfl, hx, ⟨n, rfl, hn, rfl⟩, rfl⟩, rfl⟩ := h
  · refine ⟨[], rfl, fun us rest' hus hrest' => ?_⟩
    obtain rfl := words_nil hus
    simp only [shortNameHere, gives_map, gives_behindWord?]
    exact ⟨none, .inl ⟨rfl, rfl, hrest' hunnamed⟩, rfl⟩
  · refine ⟨[x, n], rfl, fun us rest' hus _ => ?_⟩
    obtain ⟨x', _, rfl, hxkey, hus⟩ := same_cons hus
    obtain ⟨n', rfl, hnkey⟩ := same_one hus
    simp only [shortNameHere, gives_map, gives_behindWord?, gives_take]
    refine ⟨_, .inr ⟨x', _, _, rfl, isWord_same hx hxkey, ⟨n', rfl, (kind_eq hnkey).trans hn, rfl⟩, rfl⟩, ?_⟩
    rw [Option.map_some, Option.map_some, value_eq hnkey]

theorem metamodel?_generated {g n : Word} (hg : g.IsWord "generate") (hn : n.IsName) (more : List Word) :
    metamodel? (g :: n :: more) = some (generated (g :: n :: more)) :=
  if_pos (introduces_of_isWord hg ((atName_cons ..).2 hn))

theorem metamodel?_imported {i u : Word} (hi : i.IsWord "import") (hu : u.IsLiteral) (more : List Word) :
    metamodel? (i :: u :: more) = some (imported (i :: u :: more)) := by
  have hgenerate : introduces "generate" (i :: u :: more) = false := introduces_eq_false fun _ => by
    rw [hi.2]
    decide
  have himport : atWord "import" (i :: u :: more) = true := (atWord_cons ..).2 hi
  simp [metamodel?, hgenerate, himport, atLiteral, hu.kind]

/-- the words of a metamodel: the one that introduces it, and those behind it -/
theorem rereads_metamodel? {words : List Word} {m : Source.Reading Metamodel true words} {a : Metamodel}
    (hm : metamodel? words = some m) (h : m.Gives a rest) :
    ∃ x ws, words = x :: (ws ++ rest) ∧ x.IsName ∧ x.token.value ∈ (["generate", "import"] : List Text) ∧
      ∀ us rest', us.map Word.key = (x :: ws).map Word.key → (Unnamed rest → Unnamed rest') →
        ∃ m', metamodel? (us ++ rest') = some m' ∧ m'.Gives a rest' := by
  unfold metamodel? at hm
  split at hm
  · cases hm
    simp only [generated, gives_next', gives_takeWord, gives_take, gives_map] at h
    obtain ⟨_, _, ⟨g, rfl, hg, rfl⟩, _, _, ⟨n, rfl, hn, rfl⟩, _, _, ⟨u, rfl, hu, rfl⟩, short, hshort, rfl⟩ := h
    obtain ⟨ws, rfl, hws⟩ := rereads_shortNameHere hshort
    refine ⟨g, n :: u :: ws, rfl, hg.1, by rw [hg.2]; decide, fun us rest' hus hrest' => ?_⟩
    obtain ⟨g', _, rfl, hgkey, hus⟩ := same_cons hus
    obtain ⟨n', _, rfl, hnkey, hus⟩ := same_cons hus
    obtain ⟨u', us, rfl, hukey, hus⟩ := same_cons hus
    have hg' := isWord_same hg hgkey
    have hn' : n'.IsName := (kind_eq hnkey).trans hn
    have hread : (generated (g' :: n' :: u' :: (us ++ rest'))).Gives ⟨u.token.value, some n.token.value, short, true⟩
        rest' := by
      simp only [generated, gives_next', gives_takeWord, gives_take, gives_map]
      exact ⟨_, _, ⟨g', rfl, hg', rfl⟩, _, _, ⟨n', rfl, hn', rfl⟩, _, _, ⟨u', rfl, (kind_eq hukey).trans hu, rfl⟩,
        short, hws us rest' hus hrest', by rw [value_eq hnkey, value_eq hukey]⟩
    exact ⟨_, metamodel?_generated hg' hn' _, hread⟩
  · split at hm
    · cases hm
      simp only [imported, gives_next', gives_takeWord, gives_take, gives_map] at h
      obtain ⟨_, _, ⟨i, rfl, hi, rfl⟩, _, _, ⟨u, rfl, hu, rfl⟩, short, hshort, rfl⟩ := h
      obtain ⟨ws, rfl, hws⟩ := rereads_shortNameHere hshort
      refine ⟨i, u :: ws, rfl, hi.1, by rw [hi.2]; decide, fun us rest' hus hrest' => ?_⟩
      obtain ⟨i', _, rfl, hikey, hus⟩ := same_cons hus
      obtain ⟨u', us, rfl, hukey, hus⟩ := same_cons hus
      have hi' := isWord_same hi hikey
      have hu' : u'.IsLiteral := (kind_eq hukey).trans hu
      have hread : (imported (i' :: u' :: (us ++ rest'))).Gives ⟨u.token.value, none, short, false⟩ rest' := by
        simp only [imported, gives_next', gives_takeWord, gives_take, gives_map]
        exact ⟨_, _, ⟨i', rfl, hi', rfl⟩, _, _, ⟨u', rfl, hu', rfl⟩, short, hws us rest' hus hrest',
          by rw [value_eq hukey]⟩
      exact ⟨_, metamodel?_imported hi' hu' _, hread⟩
    · cases hm

theorem metamodel?_of_gives_nil {words : List Word} (h : (metamodels words).Gives [] rest) : metamodel? words = none := by
  rw [metamodels] at h
  split at h
  · assumption
  · simp only [gives_loose, gives_next', gives_map] at h
    obtain ⟨_, _, _, _, _, hcontra⟩ := h
    cases hcontra

/-- the metamodels of some words come first, and then those of the words behind -/
theorem gives_metamodels_append {words : List Word} {ms : List Metamodel} (h : (metamodels words).Gives ms rest) :
    ∃ ws, words = ws ++ rest ∧ (∀ w ∈ ws.head?, w.IsName ∧ w.token.value ∈ (["generate", "import"] : List Text)) ∧
      ∀ us rest', us.map Word.key = ws.map Word.key → (Unnamed rest → Unnamed rest') →
        ∀ ns rest'', (metamodels (us ++ rest')).Gives ns rest'' ↔
          ∃ more, ns = ms ++ more ∧ (metamodels rest').Gives more rest'' := by
  induction hn : words.length using Nat.strong_induction_on generalizing words ms with
  | _ n ih =>
    subst hn
    rw [metamodels] at h
    split at h
    · obtain ⟨rfl, rfl⟩ := (gives_nothing ..).1 h
      refine ⟨[], rfl, nofun, fun us rest' hus _ ns rest'' => ?_⟩
      obtain rfl := words_nil hus
      simp
    · next m hm =>
      simp only [gives_loose, gives_next', gives_map] at h
      obtain ⟨first, mid, hfirst, more, hmore, rfl⟩ := h
      obtain ⟨vs, rfl, hvs, hbehind⟩ := ih _ hfirst.shorter hmore rfl
      obtain ⟨x, ws, rfl, hx, hvalue, hws⟩ := rereads_metamodel? hm hfirst
      refine ⟨x :: (ws ++ vs), by simp, by rintro _ ⟨⟩; exact ⟨hx, hvalue⟩, fun us rest' hus hrest' ns rest'' => ?_⟩
      obtain ⟨us₁, us₂, rfl, hus₁, hus₂⟩ := same_append (show us.map Word.key = (x :: ws ++ vs).map Word.key from hus)
      have hmid : Unnamed (vs ++ rest) → Unnamed (us₂ ++ rest') := by
        intro hunnamed
        by_cases hvs' : vs = []
        · subst hvs'
          obtain rfl := words_nil hus₂
          exact hrest' hunnamed
        · obtain ⟨v, vs, rfl⟩ := List.exists_cons_of_ne_nil hvs'
          rw [Unnamed, atWord_same "as" hus₂ hvs' rest, Bool.eq_false_iff]
          intro has
          obtain ⟨-, hvalue⟩ := hvs v rfl
          rw [((atWord_cons ..).1 has).2] at hvalue
          exact absurd hvalue (by decide)
      obtain ⟨m', hm', hgives⟩ := hws us₁ _ hus₁ hmid
      rw [List.append_assoc, metamodels, hm']
      simp only [gives_loose, hgives.next_iff, gives_map, hbehind us₂ rest' hus₂ hrest']
      refine ⟨?_, ?_⟩
      · rintro ⟨_, ⟨last, rfl, hlast⟩, rfl⟩
        exact ⟨last, rfl, hlast⟩
      · rintro ⟨last, rfl, hlast⟩
        exact ⟨_, ⟨last, rfl, hlast⟩, rfl⟩

end Again

/-! ## The beginning of a grammar -/

/-- the name of a grammar and the names of the grammars it uses are read, up to a rest -/
def Begun (words : List Word) (name : Text) (uses : List Text) (rest : List Word) : Prop :=
  ∃ mid, (WrittenGrammar.header words).Gives name mid ∧ (usesHere mid).Gives uses rest

/-- hidden tokens and metamodels are read, up to a rest -/
def Clauses (words : List Word) (hidden : List Text) (models : List Metamodel) (rest : List Word) : Prop :=
  ∃ mid, (hiddenHere words).Gives hidden mid ∧ (metamodels mid).Gives models rest

/-- the words, if there are any, begin with a name or an annotation -/
def StartsRules (words : List Word) : Prop := ∀ w ∈ words.head?, w.IsName ∨ w.Is .atSign

section Beginning

variable {words rest rest' : List Word} {name : Text} {uses hidden : List Text} {models : List Metamodel}

theorem StartsRules.not_symbol (h : StartsRules words) {s : Symbol} (hs : Symbol.atSign ≠ s) :
    atSymbol s words = false := by
  cases words with
  | nil => rfl
  | cons w words =>
    rcases h w rfl with hw | hw
    · simp [atSymbol, Token.isSymbol, hw.kind]
    · exact atSymbol_of_is hw hs words

theorem Begun.unique {name' : Text} {uses' : List Text} (h : Begun words name uses rest)
    (h' : Begun words name' uses' rest') : name' = name ∧ uses' = uses ∧ rest' = rest := by
  obtain ⟨mid, hname, huses⟩ := h
  obtain ⟨mid', hname', huses'⟩ := h'
  obtain ⟨rfl, rfl⟩ := hname.unique hname'
  obtain ⟨rfl, rfl⟩ := huses.unique huses'
  exact ⟨rfl, rfl, rfl⟩

theorem Clauses.unique {hidden' : List Text} {models' : List Metamodel} (h : Clauses words hidden models rest)
    (h' : Clauses words hidden' models' rest') : hidden' = hidden ∧ models' = models ∧ rest' = rest := by
  obtain ⟨mid, hhidden, hmodels⟩ := h
  obtain ⟨mid', hhidden', hmodels'⟩ := h'
  obtain ⟨rfl, rfl⟩ := hhidden.unique hhidden'
  obtain ⟨rfl, rfl⟩ := hmodels.unique hmodels'
  exact ⟨rfl, rfl, rfl⟩

theorem Begun.first (h : Begun words name uses rest) : ∃ x more, words = x :: more ∧ x.IsWord "grammar" := by
  obtain ⟨_, hheader, -⟩ := h
  simp only [WrittenGrammar.header, gives_next', gives_takeWord] at hheader
  obtain ⟨_, _, ⟨x, rfl, hx, -⟩, -⟩ := hheader
  exact ⟨x, _, rfl, hx⟩

/-- a grammar may begin with its name alone -/
theorem begun_of_name {x n : Word} (hx : x.IsWord "grammar") (hn : n.IsName) (hdot : Undotted rest)
    (hwith : atWord "with" rest = false) : Begun (x :: n :: rest) n.token.value [] rest := by
  refine ⟨rest, gives_header_cons hx hn hdot, ?_⟩
  simp only [usesHere, gives_map, gives_behindWord?]
  exact ⟨none, .inl ⟨rfl, trivial, hwith⟩, rfl⟩

/-- and with the name of a grammar that it uses -/
theorem begun_of_use {x n y u : Word} (hx : x.IsWord "grammar") (hn : n.IsName) (hy : y.IsWord "with") (hu : u.IsName)
    (hdot : Undotted rest) (hcomma : atSymbol .comma rest = false) :
    Begun (x :: n :: y :: u :: rest) n.token.value [u.token.value] rest := by
  have hbehind : Undotted (y :: u :: rest) := by simp [Undotted, atSymbol, Token.isSymbol, hy.1.kind]
  have hend : BehindSymbols .comma (fun words name rest => (qualifiedName words).Gives name rest) rest [] rest :=
    .stop (by simp [atMark_iff, hcomma])
  refine ⟨y :: u :: rest, gives_header_cons hx hn hbehind, ?_⟩
  simp only [usesHere, gives_map, gives_behindWord?, oneOrMore, gives_next', gives_behindSymbols]
  exact ⟨_, .inr ⟨y, _, _, rfl, hy, ⟨_, rest, gives_qualifiedName_cons hu hdot, [], hend, rfl⟩, rfl⟩, rfl⟩

theorem clauses_of_none (hhidden : atWord "hidden" rest = false) (hmodels : metamodel? rest = none) :
    Clauses rest [] [] rest := by
  refine ⟨rest, ?_, metamodels_of_none hmodels⟩
  simp only [hiddenHere, gives_map, gives_behindWord?]
  exact ⟨none, .inl ⟨rfl, trivial, hhidden⟩, rfl⟩

/-- where the clauses leave all words, no clause of hidden tokens stands -/
theorem Clauses.not_hidden (h : Clauses rest hidden models rest) : atWord "hidden" rest = false := by
  obtain ⟨mid, hhidden, hmodels⟩ := h
  simp only [hiddenHere, gives_map, gives_behindWord?] at hhidden
  obtain ⟨_, ⟨-, -, hnone⟩ | ⟨x, behind, _, rfl, -, hread, -⟩, -⟩ := hhidden
  · exact hnone
  · have hshort := hread.shorter
    have hlong := hmodels.notLonger
    rw [List.length_cons] at hlong
    omega

/-- the beginning of a grammar is read again in front of words that do not carry it on -/
theorem Begun.again (h : Begun words name uses rest) :
    ∃ w ws, words = w :: (ws ++ rest) ∧ ∀ us rest', us.map Word.key = (w :: ws).map Word.key → StartsRules rest' →
      (atWord "with" rest = false → atWord "with" rest' = false) → Begun (us ++ rest') name uses rest' := by
  obtain ⟨mid, hname, huses⟩ := h
  simp only [WrittenGrammar.header, gives_next', gives_takeWord] at hname
  obtain ⟨_, _, ⟨x, rfl, hx, rfl⟩, hname⟩ := hname
  obtain ⟨ws, rfl, hws⟩ := rereads_qualifiedName hname
  simp only [usesHere, gives_map, gives_behindWord?] at huses
  have hheader : ∀ {u : Word} {us behind : List Word}, u.key = x.key → us.map Word.key = ws.map Word.key →
      Undotted behind → (WrittenGrammar.header (u :: (us ++ behind))).Gives name behind := by
    intro u us behind hu hus hbehind
    simp only [WrittenGrammar.header, gives_next', gives_takeWord]
    exact ⟨_, _, ⟨u, rfl, isWord_same hx hu, rfl⟩, hws us behind hus hbehind⟩
  obtain ⟨_, ⟨rfl, rfl, hnone⟩ | ⟨y, _, names, rfl, hy, hnames, rfl⟩, rfl⟩ := huses
  · refine ⟨x, ws, rfl, fun us rest' hus hstarts hwith => ?_⟩
    obtain ⟨u, us, rfl, hu, hus⟩ := same_cons hus
    refine ⟨rest', hheader hu hus (hstarts.not_symbol (by decide)), ?_⟩
    simp only [usesHere, gives_map, gives_behindWord?]
    exact ⟨none, .inl ⟨rfl, trivial, hwith hnone⟩, rfl⟩
  · obtain ⟨vs, rfl, hvs⟩ := rereads_oneOrMore (fun _ _ _ h => rereads_qualifiedName h)
      (fun x more hx => atSymbol_of_is hx (by decide) more) hnames
    refine ⟨x, ws ++ y :: vs, by simp, fun us rest' hus hstarts _ => ?_⟩
    obtain ⟨u, us, rfl, hu, hus⟩ := same_cons hus
    obtain ⟨us₁, more, rfl, hus₁, hmore⟩ := same_append hus
    obtain ⟨v, vs', rfl, hv, hvs'⟩ := same_cons hmore
    have hy' := isWord_same hy hv
    refine ⟨v :: (vs' ++ rest'), ?_, ?_⟩
    · rw [List.cons_append, List.append_assoc]
      exact hheader hu hus₁ (by simp [Undotted, atSymbol, Token.isSymbol, hy'.1.kind])
    · simp only [usesHere, gives_map, gives_behindWord?]
      exact ⟨_, .inr ⟨v, _, names, rfl, hy',
        hvs vs' rest' hvs' ⟨hstarts.not_symbol (by decide), hstarts.not_symbol (by decide)⟩, rfl⟩, rfl⟩

/-- hidden tokens and metamodels are read again, and then come the metamodels of the words behind -/
theorem Clauses.again (h : Clauses words hidden models rest) :
    ∃ ws, words = ws ++ rest ∧
      (∀ w ∈ ws.head?, w.IsName ∧ w.token.value ∈ (["hidden", "generate", "import"] : List Text)) ∧
      ∀ us rest', us.map Word.key = ws.map Word.key → (Unnamed rest → Unnamed rest') →
        (ws = [] → atWord "hidden" rest' = false) → ∀ hidden' models' rest'', Clauses (us ++ rest') hidden' models' rest'' ↔
          hidden' = hidden ∧ ∃ more, models' = models ++ more ∧ (metamodels rest').Gives more rest'' := by
  obtain ⟨mid, hhidden, hmodels⟩ := h
  obtain ⟨hs, rfl, hfront, hhs⟩ := rereads_hiddenHere hhidden
  obtain ⟨ms, rfl, hmodel, hms⟩ := gives_metamodels_append hmodels
  refine ⟨hs ++ ms, by simp, ?_, ?_⟩
  · intro w hw
    cases hs with
    | nil =>
      obtain ⟨hname, hvalue⟩ := hmodel w hw
      exact ⟨hname, List.mem_cons_of_mem _ hvalue⟩
    | cons v hs =>
      obtain ⟨hname, hvalue⟩ := hfront w hw
      exact ⟨hname, hvalue ▸ List.mem_cons_self⟩
  · intro us rest' hus hunnamed hbare hidden' models' rest''
    obtain ⟨us₁, us₂, rfl, hus₁, hus₂⟩ := same_append hus
    have hread : (hiddenHere (us₁ ++ (us₂ ++ rest'))).Gives hidden (us₂ ++ rest') := by
      refine hhs us₁ _ hus₁ fun hnil => ?_
      subst hnil
      by_cases hne : ms = []
      · subst hne
        obtain rfl := words_nil hus₂
        exact hbare rfl
      · obtain ⟨m, ms, rfl⟩ := List.exists_cons_of_ne_nil hne
        rw [atWord_same "hidden" hus₂ hne rest, Bool.eq_false_iff]
        intro hword
        obtain ⟨-, hvalue⟩ := hmodel m rfl
        rw [((atWord_cons ..).1 hword).2] at hvalue
        exact absurd hvalue (by decide)
    rw [List.append_assoc]
    refine ⟨?_, ?_⟩
    · rintro ⟨mid, hhidden', hmodels'⟩
      obtain ⟨rfl, rfl⟩ := hread.unique hhidden'
      exact ⟨rfl, (hms us₂ rest' hus₂ hunnamed _ _).1 hmodels'⟩
    · rintro ⟨rfl, hmore⟩
      exact ⟨_, hread, (hms us₂ rest' hus₂ hunnamed _ _).2 hmore⟩

end Beginning

/-! ## Rules one after the other -/

/-- annotations, perhaps none -/
inductive Annotated : List Word → Prop where
  | none : Annotated []
  | more {a n : Word} {ws : List Word} : a.Is .atSign → n.IsName → Annotated ws → Annotated (a :: n :: ws)

/-- the comment that counts: the last one that stands before an annotation or before what is declared -/
def lastComment (comment : Option Text) (declared : List Word) : List Word → Option Text
  | _ :: _ :: annotated => lastComment ((commentHere (annotated ++ declared)).or comment) declared annotated
  | _ => comment

/-- the words are one rule with its annotations; the rule has the comment that counts -/
inductive Row : List Word → WrittenRule → Prop where
  | intro {as ds : List Word} {r : WrittenRule} : Annotated as → Declared ds r →
    Row (as ++ ds) { r with comment := lastComment (commentHere (as ++ ds)) ds as }

/-- the words are rules one after the other; annotations at the end say nothing -/
inductive Rows : List Word → List WrittenRule → Prop where
  | done {as : List Word} : Annotated as → Rows as []
  | more {ws rest : List Word} {r : WrittenRule} {rs : List WrittenRule} : Row ws r → Rows rest rs →
    Rows (ws ++ rest) (r :: rs)

/-- a definition between a colon and a semicolon makes a rule -/
theorem Declared.bare {n c s : Word} {ws : List Word} {t : Tree} (hn : n.IsName) (hc : c.Is .colon)
    (ht : Spells .parser .alternatives ws [t]) (hs : s.Is .semicolon) :
    Declared (n :: c :: (ws ++ [s])) ⟨.parser false [], n.token.value, none, none, some n.token.line, some t⟩ := by
  have hname : atName ([] ++ ([] ++ [c])) = false := by simp [atName, hc.kind]
  exact .parser .absent hn .absent .absent .absent hc ht hs fun _ h => absurd (h.symm.trans hname) (by decide)

/-- a keyword or a call alone makes a rule -/
theorem Declared.leaf {n c s : Word} {ws : List Word} {t : Tree} (hn : n.IsName) (hc : c.Is .colon)
    (ht : Leaf .parser ws t) (hs : s.Is .semicolon) :
    Declared (n :: c :: (ws ++ [s])) ⟨.parser false [], n.token.value, none, none, some n.token.line, some t⟩ := by
  have helement : Spells .parser .element ws [t] := by
    have h := Spells.element .absent (fun _ => rfl) (.plainAtom rfl (.leaf ht)) .absent
    rwa [List.nil_append, List.append_nil] at h
  exact .bare hn hc (.alternatives (.rowOne (.unordered (.rowOne (.sequence (.elementsOne helement)))))) hs

theorem Row.leaf {n c s : Word} {ws : List Word} {t : Tree} (hn : n.IsName) (hc : c.Is .colon)
    (ht : Leaf .parser ws t) (hs : s.Is .semicolon) :
    Row (n :: c :: (ws ++ [s]))
      ⟨.parser false [], n.token.value, none, n.comment, some n.token.line, some t⟩ :=
  .intro .none (Declared.leaf hn hc ht hs)

theorem Declared.begins {ws : List Word} {r : WrittenRule} (h : Declared ws r) :
    ∃ a more, ws = a :: more ∧ a.IsName := by
  cases h with
  | parser hf hn =>
    cases hf with
    | absent => exact ⟨_, _, rfl, hn⟩
    | present hx => exact ⟨_, _, rfl, hx.1⟩
  | terminal hx => exact ⟨_, _, rfl, hx.1⟩
  | enumeration hx => exact ⟨_, _, rfl, hx.1⟩

theorem commentHere_append {ws : List Word} (hne : ws ≠ []) (rest : List Word) :
    commentHere (ws ++ rest) = commentHere ws := by
  obtain ⟨w, ws, rfl⟩ := List.exists_cons_of_ne_nil hne
  rfl

theorem lastComment_append {ds : List Word} (hne : ds ≠ []) (rest : List Word) :
    (comment : Option Text) → (as : List Word) → lastComment comment (ds ++ rest) as = lastComment comment ds as
  | _, [] => rfl
  | _, [_] => rfl
  | comment, _ :: _ :: as => by
    rw [lastComment, lastComment, ← List.append_assoc, commentHere_append (by simp [hne]), lastComment_append hne rest]

/-- annotations are read up to where none stands -/
theorem gives_annotations (comment : Option Text) (words rest : List Word) (k : Option Text) :
    (annotations comment words).Gives k rest ↔
      ∃ as, words = as ++ rest ∧ Annotated as ∧ atSymbol .atSign rest = false ∧ k = lastComment comment rest as := by
  have hone : ∀ (words rest : List Word) (c : Option Text),
      ( annotation words).Gives c rest ↔ ∃ n, words = n :: rest ∧ n.IsName ∧ c = commentHere rest := by
    intro words rest c
    unfold annotation
    simp only [gives_next', gives_take, gives_nothing]
    refine ⟨?_, ?_⟩
    · rintro ⟨_, _, ⟨n, rfl, hn, -⟩, rfl, rfl⟩
      exact ⟨n, rfl, hn, rfl⟩
    · rintro ⟨n, rfl, hn, rfl⟩
      exact ⟨_, rest, ⟨n, rfl, hn, rfl⟩, rfl, rfl⟩
  simp only [annotations, gives_map, gives_behindSymbols]
  refine ⟨?_, ?_⟩
  · rintro ⟨cs, hcs, rfl⟩
    induction hcs generalizing comment with
    | stop hstop => exact ⟨[], rfl, .none, by simpa [atMark_iff] using hstop, rfl⟩
    | @more a _ mid rest _ _ ha hread _ ih =>
      obtain ⟨n, rfl, hn, rfl⟩ := (hone ..).1 hread
      obtain ⟨as, rfl, has, hrest, hk⟩ := ih ((commentHere mid).or comment)
      exact ⟨a :: n :: as, rfl, .more (by simpa using ha) hn has, hrest, hk⟩
  · rintro ⟨as, rfl, has, hrest, rfl⟩
    induction has generalizing comment with
    | none => exact ⟨[], .stop (by simp [atMark_iff, hrest]), rfl⟩
    | @more a n as ha hn _ ih =>
      obtain ⟨cs, hcs, hk⟩ := ih ((commentHere (as ++ rest)).or comment)
      exact ⟨_ :: cs, .more (by simpa using ha) ((hone ..).2 ⟨n, rfl, hn, rfl⟩) hcs, hk⟩

/-- the reader of rules reads rows, up to the end -/
theorem gives_rules_iff (words rest : List Word) (rs : List WrittenRule) :
    (rules words).Gives rs rest ↔ rest = [] ∧ Rows words rs := by
  refine ⟨fun h => ?_, ?_⟩
  · induction hn : words.length using Nat.strong_induction_on generalizing words rs with
    | _ n ih =>
      subst hn
      rw [rules] at h
      obtain ⟨comment, declared, hle, hannotations, hrules⟩ := (gives_next ..).1 h
      obtain ⟨as, rfl, has, hat, rfl⟩ := (gives_annotations ..).1 hannotations
      split at hrules
      · next hempty =>
        obtain ⟨rfl, rfl⟩ := (gives_nothing ..).1 hrules
        obtain rfl := List.isEmpty_iff.1 hempty
        rw [List.append_nil]
        exact ⟨rfl, .done has⟩
      · simp only [gives_loose, gives_next', gives_map] at hrules
        obtain ⟨first, tail, hfirst, more, hmore, rfl⟩ := hrules
        have hshort : tail.length < (as ++ declared).length := Nat.lt_of_lt_of_le hfirst.shorter hle
        obtain ⟨rfl, hrows⟩ := ih _ hshort tail more hmore rfl
        obtain ⟨ds, rfl, hds⟩ := (gives_rule_iff ..).1 hfirst
        obtain ⟨a, ds, rfl, -⟩ := hds.begins
        rw [lastComment_append (by simp), ← List.append_assoc, commentHere_append (by simp)]
        exact ⟨rfl, .more (.intro has hds) hrows⟩
  · rintro ⟨rfl, h⟩
    induction h with
    | @done as has =>
      rw [rules, gives_next]
      refine ⟨_, [], Nat.zero_le _, (gives_annotations ..).2 ⟨as, by simp, has, rfl, rfl⟩, ?_⟩
      simp
    | @more ws rest r rs hrow _ ih =>
      obtain ⟨has, hds⟩ := hrow
      rename_i as ds d
      obtain ⟨a, ds', hcons, ha⟩ := hds.begins
      have hne : ds ≠ [] := by simp [hcons]
      have hat : atSymbol .atSign (ds ++ rest) = false := by simp [hcons, atSymbol, Token.isSymbol, ha.kind]
      rw [List.append_assoc, rules, gives_next]
      refine ⟨_, ds ++ rest, by simp, (gives_annotations ..).2 ⟨as, rfl, has, hat, rfl⟩, ?_⟩
      rw [if_neg (by simp [hcons]), gives_loose, ((gives_rule_iff ..).2 ⟨ds, rfl, hds⟩).next_iff, gives_map]
      refine ⟨rs, ih, ?_⟩
      rw [lastComment_append hne, ← List.append_assoc, commentHere_append (by simp [hne])]

theorem Rows.unique {words : List Word} {rs rs' : List WrittenRule} (h : Rows words rs) (h' : Rows words rs') :
    rs' = rs :=
  (((gives_rules_iff words [] rs').2 ⟨rfl, h'⟩).unique ((gives_rules_iff ..).2 ⟨rfl, h⟩)).1

/-- the reader of grammars reads a beginning, clauses and rules -/
theorem ofWords_iff (words : List Word) (g : WrittenGrammar) :
    WrittenGrammar.ofWords words = .ok g ↔ ∃ mid rest, Begun words g.name g.uses mid ∧
      Clauses mid g.hidden g.metamodels rest ∧ Rows rest g.rules ∧ g.comment = commentHere words := by
  unfold WrittenGrammar.ofWords
  refine ⟨fun h => ?_, ?_⟩
  · split at h
    · cases h
    · next name start hstart hheader =>
      split at h
      · cases h
      · next step hafter =>
        cases h
        have hgives : (afterName (commentHere words) name start).Gives step.value step.rest := ⟨step.within, hafter⟩
        simp only [afterName, gives_next', gives_map, gives_rules_iff] at hgives
        obtain ⟨uses, mid, huses, hidden, behind, hhidden, models, rest, hmodels, rs, ⟨-, hrules⟩, hg⟩ := hgives
        rw [← hg]
        exact ⟨mid, rest, ⟨start, ⟨hstart, hheader⟩, huses⟩, ⟨behind, hhidden, hmodels⟩, hrules, rfl⟩
  · rintro ⟨mid, rest, ⟨start, ⟨_, hheader⟩, huses⟩, ⟨behind, hhidden, hmodels⟩, hrules, hcomment⟩
    have hgives : (afterName (commentHere words) g.name start).Gives g [] := by
      rw [afterName, huses.next_iff, hhidden.next_iff, hmodels.next_iff, gives_map]
      exact ⟨g.rules, (gives_rules_iff ..).2 ⟨rfl, hrules⟩, by rw [← hcomment]⟩
    obtain ⟨_, hafter⟩ := hgives
    simp only [hheader, hafter]

/-- a text that is a grammar is cut into pieces, and its words are read -/
theorem ofWords_of_ofText {file : Path} {source : Text} {g : WrittenGrammar}
    (h : WrittenGrammar.ofText file source = .ok g) : ∃ pieces, Piece.cut source = .ok pieces ∧
      WrittenGrammar.ofWords (wordsOf (Lexed.ofPieces Mark.start pieces).tokens) = .ok g := by
  obtain ⟨_, hlexed, hwords⟩ := WrittenGrammar.ofText_eq_ok_iff.1 h
  obtain ⟨pieces, hcut, rfl⟩ := Lexed.ofSource_eq_ok_iff.1 hlexed
  exact ⟨pieces, hcut, hwords⟩

theorem ofText_of_ofWords {source : Text} {pieces : List Piece} {g : WrittenGrammar}
    (hcut : Piece.cut source = .ok pieces)
    (h : WrittenGrammar.ofWords (wordsOf (Lexed.ofPieces Mark.start pieces).tokens) = .ok g) (file : Path) :
    WrittenGrammar.ofText file source = .ok g :=
  WrittenGrammar.ofText_eq_ok_iff.2 ⟨_, Lexed.ofSource_eq_ok_iff.2 ⟨pieces, hcut, rfl⟩, h⟩

/-- a text of a name and rules is a grammar -/
theorem ofText_of_rows {file : Path} {source : Text} {lexed : Lexed} {x n : Word} {rows : List Word}
    {rs : List WrittenRule} (hlexed : Lexed.ofSource file source = .ok lexed)
    (hwords : wordsOf lexed.tokens = x :: n :: rows) (hx : x.IsWord "grammar") (hn : n.IsName) (hdot : Undotted rows)
    (hclause : ∀ word ∈ (["with", "hidden"] : List Text), atWord word rows = false) (hmodels : metamodel? rows = none)
    (hrows : Rows rows rs) :
    WrittenGrammar.ofText file source = .ok ⟨n.token.value, x.comment, [], [], [], rs⟩ := by
  have hgrammar : WrittenGrammar.ofWords (x :: n :: rows) = .ok ⟨n.token.value, x.comment, [], [], [], rs⟩ :=
    (ofWords_iff ..).2 ⟨rows, rows, begun_of_name hx hn hdot (hclause _ (by simp)),
      clauses_of_none (hclause _ (by simp)) hmodels, hrows, rfl⟩
  exact WrittenGrammar.ofText_eq_ok_iff.2 ⟨_, hlexed, hwords ▸ hgrammar⟩

/-- a text of a name and one parser rule that is only a name and a definition is read as such a grammar -/
theorem readWith_bare (load : Text → Library → Library.Outcome Grammar) {file : Path} {source : Text} {lexed : Lexed}
    {x n a c s : Word} {ws : List Word} {t : Tree} (hlexed : Lexed.ofSource file source = .ok lexed)
    (hwords : wordsOf lexed.tokens = x :: n :: a :: c :: (ws ++ [s])) (hx : x.IsWord "grammar") (hn : n.IsName)
    (ha : a.IsName) (hclause : a.token.value ∉ clauseWords) (hc : c.Is .colon)
    (ht : Spells .parser .alternatives ws [t]) (hs : s.Is .semicolon) :
    (Library.readWith load file source .empty).1 = .ok ((WrittenGrammar.mk n.token.value x.comment [] [] []
      [⟨.parser false [], a.token.value, none, a.comment, some a.token.line, some t⟩]).link 0 []) := by
  have hrule := (gives_rule_iff ..).2 ⟨_, (List.append_nil _).symm, Declared.bare ha hc ht hs⟩
  have hwhole := ofWords_of_rule hx hn ha hclause hrule
  exact readWith_of_ofText load .empty (WrittenGrammar.ofText_eq_ok_iff.2 ⟨_, hlexed, hwords ▸ hwhole⟩) rfl

/-! ## How a row begins -/

/-- what stands behind the name of a rule: no parenthesis, no literal, and behind a name no literal either -/
def Continues (words : List Word) : Prop :=
  ∃ b more, words = b :: more ∧ ¬ b.Is .openParen ∧ ¬ b.IsLiteral ∧
    (b.IsName → ∃ d more', more = d :: more' ∧ ¬ d.IsLiteral)

theorem continues_of_symbol {w : Word} {s : Symbol} (hw : w.Is s) (hs : Symbol.openParen ≠ s) (more : List Word) :
    Continues (w :: more) := by
  refine ⟨w, more, rfl, ?_, ?_, ?_⟩
  · intro hopen
    exact hs (TokenKind.symbol.inj (hopen.symm.trans hw.kind))
  · intro hliteral
    cases hliteral.symm.trans hw.kind
  · intro hname
    cases hname.symm.trans hw.kind

theorem continues_of_name {b d : Word} (hb : b.IsName) (hd : ¬ d.IsLiteral) (more : List Word) :
    Continues (b :: d :: more) := by
  refine ⟨b, d :: more, rfl, ?_, ?_, fun _ => ⟨d, more, rfl, hd⟩⟩
  · intro hopen
    cases hb.symm.trans hopen
  · intro hliteral
    cases hb.symm.trans hliteral

theorem Continues.not_literal {words : List Word} (h : Continues words) :
    ∃ b more, words = b :: more ∧ ¬ b.IsLiteral := by
  obtain ⟨b, more, rfl, -, hb, -⟩ := h
  exact ⟨b, more, rfl, hb⟩

/-- a name and what continues it -/
theorem Continues.behind {words : List Word} (h : Continues words) {n : Word} (hn : n.IsName) :
    Continues (n :: words) := by
  obtain ⟨b, more, rfl, hb⟩ := h.not_literal
  exact continues_of_name hn hb more

theorem continues_clauses {ts hs : List Word} {type : Option Text} {hidden : List Text} {c : Word}
    (ht : TypeClause ts type) (hh : HiddenClause hs hidden) (hc : c.Is .colon) (more : List Word) :
    Continues (ts ++ (hs ++ c :: more)) := by
  cases ht with
  | declared hx hv =>
    obtain ⟨n, names, rfl, hn, -⟩ := hv.begins
    exact continues_of_name hx.1 (by simp [hn.kind]) _
  | absent =>
    cases hh with
    | absent => exact continues_of_symbol hc (by decide) _
    | empty hx ho _ => exact continues_of_name hx.1 (by simp [ho.kind]) _
    | names hx ho _ _ => exact continues_of_name hx.1 (by simp [ho.kind]) _

/-- a declaration begins with its name or with the word that introduces it -/
theorem Declared.front {ws : List Word} {r : WrittenRule} (h : Declared ws r) :
    ∃ a more, ws = a :: more ∧ a.IsName ∧ a.token.value ∈ r.name :: introducers ∧ Continues more := by
  have hstarred : ∀ {ss ts hs more : List Word} {fragment : Bool} {type : Option Text} {hidden : List Text} {c : Word},
      Starred fragment ss → TypeClause ts type → HiddenClause hs hidden → c.Is .colon →
      Continues (ss ++ (ts ++ (hs ++ c :: more))) := by
    intro ss ts hs more fragment type hidden c hss ht hh hc
    cases hss with
    | absent => exact continues_clauses ht hh hc more
    | star _ hx => exact continues_of_symbol hx (by decide) _
  cases h with
  | parser hf hn hss ht hh hc _ _ _ =>
    cases hf with
    | absent => exact ⟨_, _, rfl, hn, List.mem_cons_self, hstarred hss ht hh hc⟩
    | present hx => exact ⟨_, _, rfl, hx.1, by rw [hx.2]; simp [introducers], (hstarred hss ht hh hc).behind hn⟩
  | terminal hx hf hn ht hc _ _ _ =>
    have hclauses := continues_clauses ht .absent hc
    cases hf with
    | absent => exact ⟨_, _, rfl, hx.1, by rw [hx.2]; simp [introducers], (hclauses _).behind hn⟩
    | present hf => exact ⟨_, _, rfl, hx.1, by rw [hx.2]; simp [introducers], ((hclauses _).behind hn).behind hf.1⟩
  | enumeration hx hn ht hc _ _ =>
    exact ⟨_, _, rfl, hx.1, by rw [hx.2]; simp [introducers], (continues_clauses ht .absent hc _).behind hn⟩

/-- no reader of metamodels takes a declaration -/
theorem metamodel?_of_continues {a : Word} {words : List Word} (h : Continues words)
    {m : Source.Reading Metamodel true (a :: words)} (hm : metamodel? (a :: words) = some m) (v : Metamodel)
    (rest : List Word) : ¬ m.Gives v rest := by
  obtain ⟨b, more, rfl, -, hb, hbehind⟩ := h
  intro hread
  unfold metamodel? at hm
  split at hm
  · next hintroduces =>
    cases hm
    obtain ⟨-, hname⟩ := Bool.and_eq_true_iff.1 hintroduces
    obtain ⟨d, more, rfl, hd⟩ := hbehind ((atName_cons ..).1 hname)
    simp only [generated, gives_next', gives_takeWord, gives_take, gives_map] at hread
    obtain ⟨_, _, ⟨_, hwords, -, -⟩, _, _, ⟨_, rfl, -, -⟩, _, _, ⟨u, rfl, hu, -⟩, -⟩ := hread
    cases hwords
    exact hd hu
  · split at hm
    · next himport =>
      obtain ⟨-, hliteral⟩ := Bool.and_eq_true_iff.1 himport
      exact hb (by simpa [atLiteral] using hliteral)
    · cases hm

section Fronts

variable {ws rest rest' : List Word} {r : WrittenRule} (h : Row ws r)

include h

/-- a row begins with an annotation or as its declaration does -/
theorem Row.front : ∃ a more, ws = a :: more ∧ (a.Is .atSign ∨ a.IsName ∧ a.token.value ∈ r.name :: introducers ∧
    ∀ rest, Continues (more ++ rest)) := by
  obtain ⟨has, hds⟩ := h
  cases has with
  | none =>
    obtain ⟨a, more, rfl, ha, hvalue, b, behind, rfl, hopen, hliteral, hname⟩ := hds.front
    refine ⟨a, _, rfl, .inr ⟨ha, hvalue, fun rest => ⟨b, behind ++ rest, rfl, hopen, hliteral, fun hb => ?_⟩⟩⟩
    obtain ⟨d, more, rfl, hd⟩ := hname hb
    exact ⟨d, more ++ rest, rfl, hd⟩
  | more ha _ _ => exact ⟨_, _, rfl, .inl ha⟩

theorem Row.startsRules : StartsRules (ws ++ rest) := by
  obtain ⟨a, more, rfl, ha⟩ := h.front
  rintro _ ⟨⟩
  rcases ha with ha | ⟨ha, -, -⟩
  · exact .inr ha
  · exact .inl ha

theorem Row.not_word {word : Text} (hword : word ∉ r.name :: introducers) : atWord word (ws ++ rest) = false := by
  obtain ⟨a, more, rfl, ha⟩ := h.front
  rcases ha with ha | ⟨-, hvalue, -⟩
  · simp [atWord, Token.isWord, ha.kind]
  · rw [Bool.eq_false_iff]
    intro hat
    rw [((atWord_cons ..).1 hat).2] at hvalue
    exact hword hvalue

/-- where a row stands, there is no clause of hidden tokens -/
theorem Row.not_hidden {hidden : List Text} (hread : (hiddenHere (ws ++ rest)).Gives hidden rest') :
    atWord "hidden" (ws ++ rest) = false := by
  obtain ⟨a, more, rfl, ha⟩ := h.front
  simp only [hiddenHere, hiddenClause, gives_map, gives_behindWord?, gives_next', gives_takeSymbol] at hread
  obtain ⟨_, ⟨-, -, hno⟩ | ⟨x, _, _, hwords, hx, ⟨_, _, ⟨o, rfl, ho, -⟩, -⟩, -⟩, -⟩ := hread
  · exact hno
  · obtain ⟨rfl, hmore⟩ := List.cons.inj hwords
    rcases ha with ha | ⟨-, -, hcontinues⟩
    · cases ha.symm.trans hx.1
    · obtain ⟨b, behind, hb, hopen, -, -⟩ := hcontinues rest
      cases hb.symm.trans hmore
      exact absurd ho hopen

/-- where a row stands, there is no metamodel -/
theorem Row.not_metamodel {models : List Metamodel} (hread : (metamodels (ws ++ rest)).Gives models rest') :
    models = [] ∧ rest' = ws ++ rest := by
  rw [metamodels] at hread
  split at hread
  · exact (gives_nothing ..).1 hread
  · next m hm =>
    simp only [gives_loose, gives_next', gives_map] at hread
    obtain ⟨first, mid, hfirst, -⟩ := hread
    obtain ⟨a, more, rfl, ha⟩ := h.front
    rcases ha with ha | ⟨-, -, hcontinues⟩
    · simp [metamodel?, introduces, atWord, Token.isWord, ha.kind] at hm
    · exact absurd hfirst (metamodel?_of_continues (hcontinues rest) hm _ _)

end Fronts

/-! ## Rows elsewhere -/

section Elsewhere

variable {us ws : List Word}

theorem keys_of_said (h : us.map Word.said = ws.map Word.said) : us.map Word.key = ws.map Word.key := by
  have hkeys := congrArg (List.map Prod.fst) h
  rw [List.map_map, List.map_map] at hkeys
  exact hkeys

theorem commentHere_said (h : us.map Word.said = ws.map Word.said) : commentHere us = commentHere ws := by
  cases ws with
  | nil => rw [List.map_eq_nil_iff.1 h]
  | cons w ws =>
    obtain ⟨u, us, rfl, hu, -⟩ := List.map_eq_cons_iff.1 h
    exact congrArg Prod.snd hu

theorem Annotated.same (h : Annotated ws) (hus : us.map Word.key = ws.map Word.key) : Annotated us := by
  induction h generalizing us with
  | none =>
    obtain rfl := words_nil hus
    exact .none
  | more ha hn _ ih =>
    obtain ⟨a', _, rfl, hakey, hus⟩ := same_cons hus
    obtain ⟨n', us, rfl, hnkey, hus⟩ := same_cons hus
    exact .more (ha.same hakey) ((kind_eq hnkey).trans hn) (ih hus)

theorem commentHere_same {ds es as bs : List Word} (hds : commentHere es = commentHere ds)
    (has : bs.map Word.said = as.map Word.said) : commentHere (bs ++ es) = commentHere (as ++ ds) := by
  cases as with
  | nil =>
    rw [List.map_eq_nil_iff.1 has]
    exact hds
  | cons a as =>
    obtain ⟨_, _, rfl, hsaid, -⟩ := List.map_eq_cons_iff.1 has
    exact congrArg Prod.snd hsaid

/-- the comment that counts is the same where the comments before each word are -/
theorem lastComment_same {ds es : List Word} (hds : commentHere es = commentHere ds) {as bs : List Word}
    (has : bs.map Word.said = as.map Word.said) (comment : Option Text) :
    lastComment comment es bs = lastComment comment ds as := by
  match as with
  | [] =>
    rw [List.map_eq_nil_iff.1 has]
    rfl
  | [_] =>
    obtain ⟨_, rfl, -⟩ := List.map_eq_singleton_iff.1 has
    rfl
  | _ :: _ :: as =>
    obtain ⟨_, _, rfl, -, has⟩ := List.map_eq_cons_iff.1 has
    obtain ⟨_, bs, rfl, -, has⟩ := List.map_eq_cons_iff.1 has
    rw [lastComment, lastComment, commentHere_same hds has, lastComment_same hds has]

/-- a row is the same rule wherever it stands, up to places -/
theorem Row.same {r : WrittenRule} (h : Row ws r) (hus : us.map Word.said = ws.map Word.said) :
    ∃ r', Row us r' ∧ r'.placeless = r.placeless := by
  cases h with
  | @intro as ds r has hds =>
    obtain ⟨bs, es, rfl, hbs, hes⟩ := List.map_eq_append_iff.1 (hus.trans List.map_append)
    obtain ⟨r', hr', hsame⟩ := declared_same hds (keys_of_said hes)
    have hcomment : lastComment (commentHere (bs ++ es)) es bs = lastComment (commentHere (as ++ ds)) ds as := by
      rw [commentHere_said hus, lastComment_same (commentHere_said hes) hbs]
    refine ⟨_, .intro (has.same (keys_of_said hbs)) hr', ?_⟩
    calc Declaration.placeless { r' with comment := lastComment (commentHere (bs ++ es)) es bs }
        = { r'.placeless with comment := lastComment (commentHere (bs ++ es)) es bs } := rfl
      _ = { r.placeless with comment := lastComment (commentHere (as ++ ds)) ds as } := by rw [hsame, hcomment]
      _ = Declaration.placeless { r with comment := lastComment (commentHere (as ++ ds)) ds as } := rfl

end Elsewhere

end Rulebook
