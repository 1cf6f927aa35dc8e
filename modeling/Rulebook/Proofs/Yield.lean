/-
Reading a definition loses no token and makes none up. `Element.tokens` writes a tree back from left to right, and
`tokens_of_rule` says that this gives the tokens of the body the tree was read from, but for the parentheses. So however
parentheses, cardinalities and predicates are nested, none of them ends up twice, on another element or on the other
side of one.

- `tokens_formed`: a tree that reading can build is written back as it is printed, but for the parentheses;
- `body_of_declared`: the words of a rule, and what its tree is written back as;
- `tokens_of_rule`: the same for every rule that is read from a text.
-/
import Mathlib
import Rulebook.Proofs.Bodies
import Rulebook.Proofs.Parentheses
import Rulebook.Proofs.Places

namespace Rulebook

open Source Element

/-! ## Writing back -/

/-- the tokens of an element with its predicate before them and its cardinality behind them -/
def Decoration.around (d : Decoration) (own : List Key) : List Key :=
  (d.predicate.map Predicate.key).toList ++ (own ++ (d.cardinality.map Cardinality.key).toList)

def KeywordPart.tokens (k : KeywordPart) : List Key := k.decoration.around [(.literal, k.value)]

namespace Element

def featureTokens : Option Text → Option Text → List Key
  | none, _ => []
  | some f, o =>
    [Symbol.dot.key, (.name, f)] ++ (o.map operatorKey).toList ++ [(TokenKind.name, Text.ofString "current")]

mutual

/-- the tokens of an element and of what is below it, in order, without what stands around the element itself -/
def ownTokens : Outline → List Key
  | keyword _ v => [(.literal, v)]
  | call _ n => nameKeys n
  | assignment _ f o t => (.name, f) :: operatorKey o :: t.decoration.around (ownTokens t)
  | crossReference _ n t => Symbol.openBracket.key :: (nameKeys n ++ (ownTokensOption t ++ [Symbol.closeBracket.key]))
  | action _ n f o => Symbol.openBrace.key :: (nameKeys n ++ (featureTokens f o ++ [Symbol.closeBrace.key]))
  | compound _ g es => List.intercalate g.keys (ownTokensList es)
  | range _ l r => l.tokens ++ Symbol.doubleDot.key :: r.tokens
  | wildcard _ => [Symbol.dot.key]
  | endOfFile _ => [(.name, "EOF")]
  | negated _ e => Symbol.bang.key :: e.decoration.around (ownTokens e)
  | upTo _ e => Symbol.arrow.key :: e.decoration.around (ownTokens e)
  | literal _ n none => [(.name, n)]
  | literal _ n (some k) => (.name, n) :: Symbol.equals.key :: k.tokens
  | bare _ => []

/-- the tokens of the terminal of a cross reference, if it has one -/
def ownTokensOption : Option Outline → List Key
  | none => []
  | some e => Symbol.bar.key :: e.decoration.around (ownTokens e)

def ownTokensList : List Outline → List (List Key)
  | [] => []
  | e :: es => e.decoration.around (ownTokens e) :: ownTokensList es

end

/-- the tokens of a tree, written back from left to right -/
def tokens (e : Outline) : List Key := e.decoration.around (ownTokens e)

theorem ownTokensList_eq_map (es : List Outline) : ownTokensList es = es.map tokens := by
  induction es with
  | nil => rfl
  | cons e es ih => rw [ownTokensList, ih, List.map_cons, tokens]

/-! ## Trees are written back as they are printed -/

theorem loose_nameKeys (n : Text) : loose (nameKeys n) = nameKeys n := loose_of_inner (inner_nameKeys n)

theorem looseKeys_of_own {e : Outline} (h : e.ownTokens = loose e.bodyKeys) : e.tokens = looseKeys e := by
  rw [tokens, Decoration.around, h, looseKeys]

end Element

/-- without what stands around it, the element is written back as it is printed, but for the parentheses -/
abbrev WritesBack (e : Outline) : Prop := e.ownTokens = loose e.bodyKeys

theorem writesBack_call (d : Decoration) (n : Text) : WritesBack (.call d n) := by
  rw [WritesBack, ownTokens, bodyKeys, loose_nameKeys]

theorem writesBack_referable {e : Outline} (h : Referable e) : WritesBack e := by
  cases h with
  | keyword v => exact (loose_of_inner (List.forall_mem_singleton.2 (inner_literal v))).symm
  | call _ => exact writesBack_call _ _

theorem writesBack_compound (d : Decoration) (g : Gathering) {es : List Outline} (h : ∀ e ∈ es, WritesBack e) :
    WritesBack (.compound d g es) := by
  rw [WritesBack, ownTokens, loose_bodyKeys_compound, ownTokensList_eq_map]
  exact congrArg _ (List.map_congr_left fun e he => looseKeys_of_own (h e he))

/-- an element with one token in front of another one -/
theorem loose_front {k : Key} (hk : Inner k) {e : Outline} (h : WritesBack e) :
    loose (k :: e.keys 4) = k :: e.tokens := by
  rw [loose_cons hk, loose_keys, looseKeys_of_own h]

theorem writesBack_assignable {e : Outline} (h : Assignable e) : WritesBack e := by
  induction h with
  | reference h => exact writesBack_referable h
  | @crossReference n t _ ht =>
    have hthrough : ownTokensOption t = loose (bodyKeysOption t) := by
      cases t with
      | none => rfl
      | some e => exact (loose_front (by decide) (writesBack_referable (ht e rfl))).symm
    rw [WritesBack, ownTokens, bodyKeys, loose_cons (by decide), loose_append, loose_append, loose_nameKeys, hthrough]
    rfl
  | choice _ _ ih => exact writesBack_compound _ _ ih

theorem writesBack_formed {m : Mode} {e : Outline} (h : Formed m e) : WritesBack e := by
  -- parentheses stand around what is inside only, and `loose_front` and `writesBack_compound` take them off there
  induction h with
  | keyword v _ => exact (loose_of_inner (List.forall_mem_singleton.2 (inner_literal v))).symm
  | call _ _ => exact writesBack_call _ _
  | @assignment _ f o e _ _ _ he =>
    have hvalue := loose_front (inner_operator o) (writesBack_assignable he)
    rw [WritesBack, ownTokens, bodyKeys, loose_cons (inner_name f)]
    exact congrArg _ hvalue.symm
  | @action _ n f o _ _ hf =>
    cases hf with
    | none =>
      rw [WritesBack, ownTokens, bodyKeys, loose_cons (by decide), loose_append, loose_nameKeys]
      rfl
    | @some f o _ _ =>
      have hfeature : loose [Symbol.dot.key, (.name, f), operatorKey o, (.name, "current"), Symbol.closeBrace.key] =
          [Symbol.dot.key, (.name, f), operatorKey o, (.name, "current"), Symbol.closeBrace.key] := by
        rw [loose_cons (by decide), loose_cons (inner_name f), loose_cons (inner_operator o)]
        rfl
      rw [WritesBack, ownTokens, bodyKeys, loose_cons (by decide), loose_append, loose_nameKeys, Option.getD_some,
        hfeature]
      rfl
  | compound _ _ _ _ ih => exact writesBack_compound _ _ ih
  | wrapped _ _ _ ih => exact writesBack_compound _ _ (List.forall_mem_singleton.2 ih)
  | range l r _ _ =>
    exact (loose_of_inner (List.forall_mem_cons.2 ⟨inner_literal l, List.forall_mem_cons.2 ⟨by decide,
      List.forall_mem_singleton.2 (inner_literal r)⟩⟩)).symm
  | wildcard _ _ => rfl
  | endOfFile _ _ => rfl
  | negated _ _ _ ih => exact (loose_front (by decide) ih).symm
  | upTo _ _ _ ih => exact (loose_front (by decide) ih).symm

/-- what reading builds is written back as it is printed, but for the parentheses -/
theorem tokens_formed {m : Mode} {e : Outline} (h : Formed m e) : e.tokens = looseKeys e :=
  looseKeys_of_own (writesBack_formed h)

/-! ## The words of a rule -/

/-- the tokens of some words that are no parentheses -/
def Source.withoutParens (ws : List Word) : List Key :=
  (ws.filter fun w => !w.token.isSymbol .openParen && !w.token.isSymbol .closeParen).map Word.key

theorem withoutParens_append (ws us : List Word) : withoutParens (ws ++ us) = withoutParens ws ++ withoutParens us := by
  rw [withoutParens, List.filter_append, List.map_append, withoutParens, withoutParens]

theorem loose_words {ws : List Word} (h : ∀ w ∈ ws, w.token.kind ≠ .headComment) :
    loose (ws.map Word.key) = withoutParens ws := by
  rw [loose, withoutParens, List.filter_map]
  refine congrArg _ (List.filter_congr fun w hw => ?_)
  simp [Inner, Word.key, Token.key, Token.isSymbol, h w hw]

theorem loose_words_of_nested {ws : List Word} (h : Nested (ws.map Word.key)) :
    loose (ws.map Word.key) = withoutParens ws :=
  loose_words fun w hw => h.no_comment w.key (List.mem_map_of_mem hw)

/-- a definition is written back as its words, but for the parentheses -/
theorem tokens_of_spells {m : Mode} {ws : List Word} {t : Tree} (h : Spells m .alternatives ws [t])
    (hlex : LexicalWords ws) : (outline t).tokens = withoutParens ws := by
  -- the words and the printed tree differ in parentheses only, and so do the printed tree and its own tokens
  have hmatches := matches_of_spells h trivial hlex
  have hformed : Formed m (outline t) := formed_of_spells (fun _ hc => hc.callable) h hlex
  rw [tokens_formed hformed, ← hmatches.loose_one, loose_words_of_nested hmatches.holds.1]

/-! ## Rows of literals -/

theorem LiteralWords.ordinary {ws : List Word} {t : Tree} (h : LiteralWords ws t) : ∀ w ∈ ws, w.Ordinary := by
  cases h with
  | name hn => exact List.forall_mem_singleton.2 hn.ordinary
  | keyword hn he hk =>
    exact List.forall_mem_cons.2 ⟨hn.ordinary, List.forall_mem_cons.2 ⟨he.ordinary (by decide),
      List.forall_mem_singleton.2 hk.ordinary⟩⟩

theorem LiteralRow.ordinary {ws : List Word} {ts : List Tree} (h : LiteralRow ws ts) : ∀ w ∈ ws, w.Ordinary := by
  induction h with
  | one h => exact h.ordinary
  | more h hb _ ih =>
    exact List.forall_mem_append.2 ⟨h.ordinary, List.forall_mem_cons.2 ⟨hb.ordinary (by decide), ih⟩⟩

/-- a literal and its keyword are written back -/
theorem LiteralWords.tokens {ws : List Word} {t : Tree} (h : LiteralWords ws t) (hlex : LexicalWords ws) :
    (outline t).tokens = withoutParens ws := by
  cases h with
  | @name n hn => simp [outline, map, Element.tokens, ownTokens, decoration, Decoration.around, Decoration.none,
      withoutParens, Token.isSymbol, hn.kind, Word.key, Token.key]
  | @keyword n e k hn he hk =>
    have hequals : e.key = Symbol.equals.key := key_of_is (hlex e (by simp)) he
    simp [outline, map, Element.tokens, ownTokens, decoration, Decoration.around, Decoration.none, KeywordPart.tokens,
      withoutParens, Token.isSymbol, hn.kind, he.kind, hk.kind, ← hequals, Word.key, Token.key]

theorem tokens_gather (g : Gathering) (t : Tree) (ts : List Tree) :
    (outline (gather g t ts)).tokens = List.intercalate g.keys ((t :: ts).map fun t => (outline t).tokens) := by
  rw [outline_gather]
  split
  · next h =>
    subst h
    simp [List.intercalate]
  · rw [Element.tokens, ownTokens, ownTokensList_eq_map, List.map_map]
    simp [decoration, Decoration.around, Decoration.none, Function.comp_def]

theorem LiteralRow.tokens {ws : List Word} {ts : List Tree} (h : LiteralRow ws ts) (hlex : LexicalWords ws) :
    List.intercalate Gathering.choice.keys (ts.map fun t => (outline t).tokens) = withoutParens ws := by
  induction h with
  | one h => simpa using h.tokens hlex
  | @more ws us b t ts h hb hrow ih =>
    have hfirst := h.tokens (hlex.subset (by simp))
    have hmore := ih (hlex.subset (by simp))
    obtain ⟨u, us', rfl⟩ : ∃ u us', ts = u :: us' := by
      cases hrow with
      | one _ => exact ⟨_, _, rfl⟩
      | more _ _ _ => exact ⟨_, _, rfl⟩
    have hbar : withoutParens (b :: us) = Symbol.bar.key :: withoutParens us := by
      simp [withoutParens, Token.isSymbol, hb.kind, key_of_is (hlex b (by simp)) hb]
    rw [List.map_cons] at hmore ⊢
    rw [List.map_cons, List.intercalate_cons_cons, hmore, hfirst, withoutParens_append, hbar]
    simp [Gathering.keys]

/-! ## Rules -/

theorem FragmentClause.ordinary {ws : List Word} {fragment : Bool} (h : FragmentClause ws fragment) :
    ∀ w ∈ ws, w.Ordinary := by
  cases h with
  | absent => exact List.forall_mem_nil _
  | present hx => exact List.forall_mem_singleton.2 (Word.IsName.ordinary hx.1)

theorem Starred.ordinary {ws : List Word} {fragment : Bool} (h : Starred fragment ws) : ∀ w ∈ ws, w.Ordinary := by
  cases h with
  | absent => exact List.forall_mem_nil _
  | star _ hx => exact List.forall_mem_singleton.2 (hx.ordinary (by decide))

theorem TypeClause.ordinary {ws : List Word} {type : Option Text} (h : TypeClause ws type) : ∀ w ∈ ws, w.Ordinary := by
  cases h with
  | absent => exact List.forall_mem_nil _
  | declared hx hv => exact List.forall_mem_cons.2 ⟨Word.IsName.ordinary hx.1, hv.ordinary⟩

theorem RuleNames.ordinary {ws : List Word} {ns : List Text} (h : RuleNames ws ns) : ∀ w ∈ ws, w.Ordinary := by
  induction h with
  | one hv => exact hv.ordinary
  | more hv hc _ ih =>
    exact List.forall_mem_append.2 ⟨hv.ordinary, List.forall_mem_cons.2 ⟨hc.ordinary (by decide), ih⟩⟩

theorem HiddenClause.ordinary {ws : List Word} {ns : List Text} (h : HiddenClause ws ns) : ∀ w ∈ ws, w.Ordinary := by
  cases h with
  | absent => exact List.forall_mem_nil _
  | empty hx ho hc =>
    exact List.forall_mem_cons.2 ⟨Word.IsName.ordinary hx.1, List.forall_mem_cons.2 ⟨ho.ordinary (by decide),
      List.forall_mem_singleton.2 (hc.ordinary (by decide))⟩⟩
  | names hx ho hns hc =>
    exact List.forall_mem_cons.2 ⟨Word.IsName.ordinary hx.1, List.forall_mem_cons.2 ⟨ho.ordinary (by decide),
      List.forall_mem_append.2 ⟨hns.ordinary, List.forall_mem_singleton.2 (hc.ordinary (by decide))⟩⟩⟩

theorem ordinary_enumHeader {x n : Word} {ts : List Word} {type : Option Text} (hx : x.IsWord "enum") (hn : n.IsName)
    (hts : TypeClause ts type) : ∀ w ∈ x :: n :: ts, w.Ordinary :=
  List.forall_mem_cons.2 ⟨Word.IsName.ordinary hx.1, List.forall_mem_cons.2 ⟨hn.ordinary, hts.ordinary⟩⟩

/-- the body of a rule stands between the first colon and the next semicolon, and the tree is written back as it -/
theorem body_of_declared {ws : List Word} {r : WrittenRule} (h : Declared ws r) (hlex : LexicalWords ws) :
    ∃ tree header colon body semicolon, ws = header ++ colon :: (body ++ [semicolon]) ∧
      (∀ w ∈ header, w.Ordinary) ∧ colon.Is .colon ∧ (∀ w ∈ body, w.Ordinary) ∧ semicolon.Is .semicolon ∧
      r.definition = some tree ∧ (outline tree).tokens = withoutParens body := by
  cases h with
  | @parser fs ss ts hs ws fragment n c s type hidden t hf hn hss hts hhs hc ht hsemi _ =>
    refine ⟨t, fs ++ n :: (ss ++ (ts ++ hs)), c, ws, s, by simp, ?_, hc, (scanned_of_spells ht trivial).ordinary,
      hsemi, rfl, tokens_of_spells ht (hlex.subset fun w hw => by simp [hw])⟩
    exact List.forall_mem_append.2 ⟨hf.ordinary, List.forall_mem_cons.2 ⟨Word.IsName.ordinary hn,
      List.forall_mem_append.2 ⟨hss.ordinary, List.forall_mem_append.2 ⟨hts.ordinary, hhs.ordinary⟩⟩⟩⟩
  | @terminal x fs ts ws fragment n c s type t hx hf hn hts hc ht hsemi _ =>
    refine ⟨t, x :: (fs ++ n :: ts), c, ws, s, by simp, ?_, hc, (scanned_of_spells ht trivial).ordinary, hsemi,
      rfl, tokens_of_spells ht (hlex.subset fun w hw => by simp [hw])⟩
    exact List.forall_mem_cons.2 ⟨Word.IsName.ordinary hx.1, List.forall_mem_append.2 ⟨hf.ordinary,
      List.forall_mem_cons.2 ⟨Word.IsName.ordinary hn, hts.ordinary⟩⟩⟩
  | @enumeration x n c s ts ws type first more hx hn hts hc hrow hsemi =>
    refine ⟨gather .choice first more, x :: n :: ts, c, ws, s, by simp, ordinary_enumHeader hx hn hts, hc, hrow.ordinary,
      hsemi, rfl, ?_⟩
    rw [tokens_gather]
    exact hrow.tokens (hlex.subset fun w hw => by simp [hw])

/-- **Reading a definition loses no token and makes none up**: wherever a rule is read among the words of a text, its
body stands between the first colon and the next semicolon, and its tree, written back from left to right, gives the
tokens of the body in order without the parentheses. -/
theorem tokens_of_rule {file : Path} {source : Text} {lexed : Lexed} {words rest : List Word} {r : WrittenRule}
    (hlexed : Lexed.ofSource file source = .ok lexed) (hwords : words <:+ wordsOf lexed.tokens)
    (h : (rule words).Gives r rest) :
    ∃ tree header colon body semicolon, words = header ++ colon :: (body ++ semicolon :: rest) ∧
      (∀ w ∈ header ++ body, ¬ w.Is .colon ∧ ¬ w.Is .semicolon) ∧ colon.Is .colon ∧ semicolon.Is .semicolon ∧
      r.definition = some tree ∧ (outline tree).tokens = withoutParens body := by
  obtain ⟨ws, rfl, hdeclared⟩ := (gives_rule_iff ..).1 h
  have hlex : LexicalWords ws := fun w hw =>
    lexicalWords_of_ofSource hlexed w (hwords.subset (List.mem_append_left _ hw))
  obtain ⟨tree, header, colon, body, semicolon, rfl, hheader, hcolon, hbody, hsemicolon, hdefinition, htokens⟩ :=
    body_of_declared hdeclared hlex
  exact ⟨tree, header, colon, body, semicolon, by simp, List.forall_mem_append.2 ⟨hheader, hbody⟩, hcolon, hsemicolon,
    hdefinition, htokens⟩

/-- the tokens of the text `grammar a R:=>(('b'?)+|c)*;` -/
def wrappedMemberTokens : List Token :=
  [⟨.name, "grammar", 1, 1, 7⟩, ⟨.name, "a", 1, 9, 1⟩, ⟨.name, "R", 1, 11, 1⟩, ⟨.symbol .colon, ":", 1, 12, 1⟩,
    ⟨.symbol .fatArrow, "=>", 1, 13, 2⟩, ⟨.symbol .openParen, "(", 1, 15, 1⟩, ⟨.symbol .openParen, "(", 1, 16, 1⟩,
    ⟨.literal, "b", 1, 17, 3⟩, ⟨.symbol .question, "?", 1, 20, 1⟩, ⟨.symbol .closeParen, ")", 1, 21, 1⟩,
    ⟨.symbol .plus, "+", 1, 22, 1⟩, ⟨.symbol .bar, "|", 1, 23, 1⟩, ⟨.name, "c", 1, 24, 1⟩,
    ⟨.symbol .closeParen, ")", 1, 25, 1⟩, ⟨.symbol .star, "*", 1, 26, 1⟩, ⟨.symbol .semicolon, ";", 1, 27, 1⟩]

/-- the definition in it: a choice between a keyword that has two cardinalities and a call -/
def wrappedMember : Tree :=
  .compound ⟨some .any, some .syntactic⟩ .choice
    [.compound ⟨some .atLeastOne, none⟩ .sequence [.keyword ⟨some .optional, none⟩ "b"],
      .call .none ⟨none, "c", 1, 24⟩]

example : (outline wrappedMember).tokens =
    [Symbol.fatArrow.key, (.literal, "b"), Symbol.question.key, Symbol.plus.key, Symbol.bar.key, (.name, "c"),
      Symbol.star.key] := by decide

/-- a predicate and three cardinalities stay where they stand -/
theorem wrapped_member_tokens : ∃ (lexed : Lexed) (r : WrittenRule) (words : List Word),
    Lexed.ofSource (Path.ofText "a") "grammar a R:=>(('b'?)+|c)*;" = .ok lexed ∧ words <:+ wordsOf lexed.tokens ∧
      (rule words).Gives r [] ∧ ∃ tree header colon body semicolon,
        words = header ++ colon :: (body ++ semicolon :: []) ∧
        (∀ w ∈ header ++ body, ¬ w.Is .colon ∧ ¬ w.Is .semicolon) ∧ colon.Is .colon ∧ semicolon.Is .semicolon ∧
        r.definition = some tree ∧ (outline tree).tokens = withoutParens body := by
  have hlexed : Lexed.ofSource (Path.ofText "a") "grammar a R:=>(('b'?)+|c)*;" =
      .ok ⟨wrappedMemberTokens, ⟨1, 28⟩⟩ := by cbv
  have hwords : (wordsOf wrappedMemberTokens).drop 2 <:+ wordsOf wrappedMemberTokens := List.drop_suffix _ _
  have hdefinition : (definition .parser ((wordsOf wrappedMemberTokens).drop 3)).Gives wrappedMember [] :=
    ⟨by decide, by cbv⟩
  have hrule : (rule ((wordsOf wrappedMemberTokens).drop 2)).Gives
      ⟨.parser false [], "R", none, none, some 1, some wrappedMember⟩ [] := by
    rw [rule, if_neg (by decide), if_neg (by decide)]
    exact (gives_parserRule_iff (n := ⟨⟨.name, "R", 1, 11, 1⟩, none⟩) FragmentClause.absent rfl TypeClause.absent
      HiddenClause.absent rfl _ (fun _ h => absurd h (by decide)) _ _).2 ⟨_, hdefinition, rfl⟩
  exact ⟨_, _, _, hlexed, hwords, hrule, tokens_of_rule hlexed hwords hrule⟩

end Rulebook
