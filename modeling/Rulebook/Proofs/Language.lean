/-
The language of definitions as a grammar without trees. `Derives reserved m p words` says that the words are derived from
the part `p` by the productions below; in a terminal rule no call begins with a word of `reserved`.

- `accepts_iff_derives`: before a semicolon, the reader of alternatives takes exactly the derived words, when the one
  reserved word is `EOF`;
- `reserved_end_of_file`: with no reserved word, a call that begins with `EOF` is derived but not read.

Productions, where a row is one part and any number of further ones behind its symbol:

  alternatives -> row '|' unordered         unordered -> row '&' sequence        sequence -> elements -> element+
  element (parser)   -> action | ('=>' | '->')? plain ('?' | '*' | '+')?
  element (terminal) -> plain ('?' | '*' | '+')?
  plain (parser)     -> name ('=' | '+=' | '?=') member | atom
  plain (terminal)   -> '->'? operand
  operand    -> '.' | 'EOF' | literal '..' literal | '!' operand | atom
  atom       -> literal | call | '(' alternatives ')'
  member     -> '[' typeName ('|' (literal | call))? ']' | assignable
  assignable -> literal | call | '(' row '|' member ')'
  action     -> '\x7b' typeName ('.' name ('=' | '+=') 'current')? '\x7d'
-/
import Rulebook.Proofs.Recognition

namespace Rulebook.Source

open Rulebook.Reading

/-! ## The grammar -/

/-- no word, or one word of a class -/
inductive Maybe (p : Word → Prop) : List Word → Prop where
  | absent : Maybe p []
  | present {w : Word} : p w → Maybe p [w]

/-- a name, or two with two colons between them -/
inductive QualifiedName : List Word → Prop where
  | plain {n : Word} : n.IsName → QualifiedName [n]
  | qualified {q c n : Word} : q.IsName → c.Is .doubleColon → n.IsName → QualifiedName [q, c, n]

/-- a literal, or a call that does not begin with a reserved word -/
inductive LiteralOrCall (reserved : List Text) : List Word → Prop where
  | literal {w : Word} : w.IsLiteral → LiteralOrCall reserved [w]
  | call {ws : List Word} : QualifiedName ws → (∀ w ∈ ws.head?, w.token.value ∉ reserved) → LiteralOrCall reserved ws

/-- a type in brackets, perhaps with a bar and what it is written with -/
inductive CrossReference : List Word → Prop where
  | bare {o c : Word} {ws : List Word} :
    o.Is .openBracket → QualifiedName ws → c.Is .closeBracket → CrossReference (o :: (ws ++ []) ++ [c])
  | through {o b c : Word} {ws us : List Word} :
    o.Is .openBracket → QualifiedName ws → b.Is .bar → LiteralOrCall [] us → c.Is .closeBracket →
    CrossReference (o :: (ws ++ b :: us) ++ [c])

/-- a type in braces, perhaps with a dot and a feature of the current object -/
inductive Action : List Word → Prop where
  | bare {o c : Word} {ws : List Word} :
    o.Is .openBrace → QualifiedName ws → c.Is .closeBrace → Action (o :: (ws ++ []) ++ [c])
  | feature {o d f e k c : Word} {ws : List Word} :
    o.Is .openBrace → QualifiedName ws → d.Is .dot → f.IsName → (e.Is .equals ∨ e.Is .plusEquals) →
    (k.IsName ∧ k.token.value = "current") → c.Is .closeBrace → Action (o :: (ws ++ [d, f, e, k]) ++ [c])

def IsOperator (w : Word) : Prop := w.Is .equals ∨ w.Is .plusEquals ∨ w.Is .questionEquals

def IsPredicate (w : Word) : Prop := w.Is .fatArrow ∨ w.Is .arrow

def IsCardinality (w : Word) : Prop := w.Is .question ∨ w.Is .star ∨ w.Is .plus

/-- the words that no call of a rule begins with -/
def reservedIn (reserved : List Text) : Mode → List Text
  | .parser => []
  | .terminal => reserved

/-- the words are derived from a part of a definition -/
inductive Derives (reserved : List Text) (m : Mode) : Part → List Word → Prop where
  | rowOne {s : Symbol} {p : Part} {ws : List Word} : Derives reserved m p ws → Derives reserved m (.row s p) ws
  | rowMore {s : Symbol} {p : Part} {b : Word} {ws us : List Word} :
    Derives reserved m p ws → b.Is s → Derives reserved m (.row s p) us → Derives reserved m (.row s p) (ws ++ b :: us)
  | alternatives {ws : List Word} : Derives reserved m (.row .bar .unordered) ws → Derives reserved m .alternatives ws
  | unordered {ws : List Word} : Derives reserved m (.row .ampersand .sequence) ws → Derives reserved m .unordered ws
  | sequence {ws : List Word} : Derives reserved m .elements ws → Derives reserved m .sequence ws
  | elementsOne {ws : List Word} : Derives reserved m .element ws → Derives reserved m .elements ws
  | elementsMore {ws us : List Word} :
    Derives reserved m .element ws → Derives reserved m .elements us → Derives reserved m .elements (ws ++ us)
  | action {ws : List Word} : m = .parser → Action ws → Derives reserved m .element ws
  | element {ps ws cs : List Word} :
    m = .parser → Maybe IsPredicate ps → Derives reserved m .plain ws → Maybe IsCardinality cs →
    Derives reserved m .element (ps ++ ws ++ cs)
  | terminalElement {ws cs : List Word} :
    m = .terminal → Derives reserved m .plain ws → Maybe IsCardinality cs → Derives reserved m .element (ws ++ cs)
  | assignment {f o : Word} {ws : List Word} :
    m = .parser → f.IsName → IsOperator o → Derives reserved m .member ws → Derives reserved m .plain (f :: o :: ws)
  | plainAtom {ws : List Word} : m = .parser → Derives reserved m .atom ws → Derives reserved m .plain ws
  | upTo {a : Word} {ws : List Word} :
    m = .terminal → a.Is .arrow → Derives reserved m .operand ws → Derives reserved m .plain (a :: ws)
  | plainOperand {ws : List Word} : m = .terminal → Derives reserved m .operand ws → Derives reserved m .plain ws
  | wildcard {d : Word} : d.Is .dot → Derives reserved m .operand [d]
  | endOfFile {n : Word} : n.IsName ∧ n.token.value = "EOF" → Derives reserved m .operand [n]
  | range {l d r : Word} : l.IsLiteral → d.Is .doubleDot → r.IsLiteral → Derives reserved m .operand [l, d, r]
  | negated {b : Word} {ws : List Word} :
    b.Is .bang → Derives reserved m .operand ws → Derives reserved m .operand (b :: ws)
  | operandAtom {ws : List Word} : Derives reserved m .atom ws → Derives reserved m .operand ws
  | leaf {ws : List Word} : LiteralOrCall (reservedIn reserved m) ws → Derives reserved m .atom ws
  | group {o c : Word} {ws : List Word} :
    o.Is .openParen → Derives reserved m .alternatives ws → c.Is .closeParen → Derives reserved m .atom (o :: ws ++ [c])
  | crossReference {ws : List Word} : CrossReference ws → Derives reserved m .member ws
  | memberAssignable {ws : List Word} : Derives reserved m .assignable ws → Derives reserved m .member ws
  | assignableLeaf {ws : List Word} : LiteralOrCall [] ws → Derives reserved m .assignable ws
  | assignableGroup {o c : Word} {ws : List Word} :
    o.Is .openParen → Derives reserved m (.row .bar .member) ws → c.Is .closeParen →
    Derives reserved m .assignable (o :: ws ++ [c])

/-! ## The small parts -/

theorem qualifiedName_iff {ws : List Word} : QualifiedName ws ↔ ∃ v, Named ws v := by
  refine ⟨?_, ?_⟩
  · intro h
    cases h with
    | plain hn => exact ⟨_, .plain hn⟩
    | qualified hq hc hn => exact ⟨_, .qualified hq hc hn⟩
  · intro hspelled
    rcases hspelled with ⟨v, h⟩
    cases h with
    | plain hn => exact .plain hn
    | qualified hq hc hn => exact .qualified hq hc hn

theorem literalOrCall_iff {m : Mode} {ws : List Word} :
    LiteralOrCall (reservedIn ["EOF"] m) ws ↔ ∃ t, Leaf m ws t := by
  refine ⟨?_, ?_⟩
  · intro h
    cases h with
    | literal hw => exact ⟨_, .keyword hw⟩
    | call hname hfree =>
      obtain ⟨v, hv⟩ := qualifiedName_iff.1 hname
      obtain ⟨n, more, rfl, -, hnv⟩ := hv.begins
      refine ⟨_, .call (.named hv ?_)⟩
      rintro rfl
      rw [← hnv]
      simpa [reservedIn] using hfree
  · intro hspelled
    rcases hspelled with ⟨t, h⟩
    cases h with
    | keyword hw => exact .literal hw
    | call h =>
      obtain ⟨hv, heof⟩ := h
      obtain ⟨n, more, rfl, -, hnv⟩ := hv.begins
      refine .call (qualifiedName_iff.2 ⟨_, hv⟩) ?_
      cases m with
      | parser => simp [reservedIn]
      | terminal => simpa [reservedIn, hnv] using heof rfl

theorem crossReference_iff {ws : List Word} : CrossReference ws ↔ ∃ t, Referenced ws t := by
  refine ⟨?_, ?_⟩
  · intro h
    cases h with
    | bare ho hname hc =>
      obtain ⟨v, hv⟩ := qualifiedName_iff.1 hname
      exact ⟨_, .intro ho hv .nothing hc⟩
    | through ho hname hb hleaf hc =>
      obtain ⟨v, hv⟩ := qualifiedName_iff.1 hname
      obtain ⟨t, ht⟩ := (literalOrCall_iff (m := .parser)).1 hleaf
      exact ⟨_, .intro ho hv (.terminal hb ht) hc⟩
  · intro hspelled
    rcases hspelled with ⟨t, h⟩
    obtain ⟨ho, hv, hu, hc⟩ := h
    have hname := qualifiedName_iff.2 ⟨_, hv⟩
    cases hu with
    | nothing => exact .bare ho hname hc
    | terminal hb hl => exact .through ho hname hb ((literalOrCall_iff (m := .parser)).2 ⟨_, hl⟩) hc

theorem action_iff {ws : List Word} : Action ws ↔ ∃ t, Acts ws t := by
  refine ⟨?_, ?_⟩
  · intro h
    cases h with
    | bare ho hname hc =>
      obtain ⟨v, hv⟩ := qualifiedName_iff.1 hname
      exact ⟨_, .intro ho hv .nothing hc⟩
    | feature ho hname hd hf he hk hc =>
      obtain ⟨v, hv⟩ := qualifiedName_iff.1 hname
      exact ⟨_, .intro ho hv (.feature hd hf he hk) hc⟩
  · intro hspelled
    rcases hspelled with ⟨t, h⟩
    obtain ⟨ho, hv, hu, hc⟩ := h
    have hname := qualifiedName_iff.2 ⟨_, hv⟩
    cases hu with
    | nothing => exact .bare ho hname hc
    | feature hd hf he hk => exact .feature ho hname hd hf he hk hc

theorem isOperator_iff (w : Word) : IsOperator w ↔ isAssignment w.token = true := by
  simp [IsOperator, isAssignment, or_assoc]

theorem maybe_predicate_iff {ws : List Word} : Maybe IsPredicate ws ↔ ∃ p, Marked predicate? ws p := by
  refine ⟨?_, ?_⟩
  · intro h
    cases h with
    | absent => exact ⟨_, .absent⟩
    | present hw =>
      rcases hw with hw | hw
      · exact ⟨some .syntactic, .present (by simp [predicate?, hw.kind])⟩
      · exact ⟨some .firstToken, .present (by simp [predicate?, hw.kind])⟩
  · intro hspelled
    rcases hspelled with ⟨p, h⟩
    cases h with
    | absent => exact .absent
    | present hw =>
      refine .present ?_
      unfold predicate? at hw
      split at hw <;> simp_all [IsPredicate, Word.Is]

theorem maybe_cardinality_iff {ws : List Word} : Maybe IsCardinality ws ↔ ∃ c, Marked cardinality? ws c := by
  refine ⟨?_, ?_⟩
  · intro h
    cases h with
    | absent => exact ⟨_, .absent⟩
    | present hw =>
      rcases hw with hw | hw | hw
      · exact ⟨some .optional, .present (by simp [cardinality?, hw.kind])⟩
      · exact ⟨some .any, .present (by simp [cardinality?, hw.kind])⟩
      · exact ⟨some .atLeastOne, .present (by simp [cardinality?, hw.kind])⟩
  · intro hspelled
    rcases hspelled with ⟨c, h⟩
    cases h with
    | absent => exact .absent
    | present hw =>
      refine .present ?_
      unfold cardinality? at hw
      split at hw <;> simp_all [IsCardinality, Word.Is]

/-! ## The language and its trees -/

/-- what spells trees is derived -/
theorem derives_of_spells {m : Mode} {p : Part} {ws : List Word} {ts : List Tree} (h : Spells m p ws ts) :
    Derives ["EOF"] m p ws := by
  induction h with
  | rowOne _ ih => exact .rowOne ih
  | rowMore _ hb _ ih ihrow => exact .rowMore ih hb ihrow
  | alternatives _ ih => exact .alternatives ih
  | unordered _ ih => exact .unordered ih
  | sequence _ ih => exact .sequence ih
  | elementsOne _ ih => exact .elementsOne ih
  | elementsMore _ _ ih ihtail => exact .elementsMore ih ihtail
  | action hm h => exact .action hm (action_iff.2 ⟨_, h⟩)
  | element hp hmode _ hc ih =>
    cases m with
    | parser => exact .element rfl (maybe_predicate_iff.2 ⟨_, hp⟩) ih (maybe_cardinality_iff.2 ⟨_, hc⟩)
    | terminal =>
      cases hmode rfl
      cases hp
      exact .terminalElement rfl ih (maybe_cardinality_iff.2 ⟨_, hc⟩)
  | assignment hm hf ho _ ih => exact .assignment hm hf ((isOperator_iff _).2 ho) ih
  | plainAtom hm _ ih => exact .plainAtom hm ih
  | upTo hm ha _ ih => exact .upTo hm ha ih
  | plainOperand hm _ ih => exact .plainOperand hm ih
  | wildcard hd => exact .wildcard hd
  | endOfFile hn => exact .endOfFile hn
  | range hl hd hr => exact .range hl hd hr
  | negated hb _ ih => exact .negated hb ih
  | operandAtom _ ih => exact .operandAtom ih
  | leaf h => exact .leaf (literalOrCall_iff.2 ⟨_, h⟩)
  | group ho _ hc ih => exact .group ho ih hc
  | crossReference h => exact .crossReference (crossReference_iff.2 ⟨_, h⟩)
  | memberAssignable _ ih => exact .memberAssignable ih
  | assignableLeaf h => exact .assignableLeaf ((literalOrCall_iff (m := .parser)).2 ⟨_, h⟩)
  | assignableGroup ho _ hc ih => exact .assignableGroup ho ih hc

def InRows (p : Part) : Prop := p = .unordered ∨ p = .sequence ∨ p = .member

/-- the words spell a tree, or in a row and among elements a tree and more behind it -/
def Spelled (m : Mode) : Part → List Word → Prop
  | .row s p, ws => InRows p → ∃ t ts, Spells m (.row s p) ws (t :: ts)
  | .elements, ws => ∃ t ts, Spells m .elements ws (t :: ts)
  | p, ws => ∃ t, Spells m p ws [t]

/-- what is derived spells trees -/
theorem spelled_of_derives {m : Mode} {p : Part} {ws : List Word} (h : Derives ["EOF"] m p ws) : Spelled m p ws := by
  induction h with
  | rowOne _ ih =>
    rintro (rfl | rfl | rfl) <;> obtain ⟨t, h⟩ := ih <;> exact ⟨t, [], .rowOne h⟩
  | rowMore _ hb _ ih ihrow =>
    intro hp
    obtain ⟨u, us, hrow⟩ := ihrow hp
    rcases hp with rfl | rfl | rfl <;> obtain ⟨t, h⟩ := ih <;> exact ⟨t, u :: us, .rowMore h hb hrow⟩
  | alternatives _ ih =>
    obtain ⟨_, _, h⟩ := ih (.inl rfl)
    exact ⟨_, .alternatives h⟩
  | unordered _ ih =>
    obtain ⟨_, _, h⟩ := ih (.inr (.inl rfl))
    exact ⟨_, .unordered h⟩
  | sequence _ ih =>
    obtain ⟨_, _, h⟩ := ih
    exact ⟨_, .sequence h⟩
  | elementsOne _ ih =>
    obtain ⟨_, h⟩ := ih
    exact ⟨_, _, .elementsOne h⟩
  | elementsMore _ _ ih ihtail =>
    obtain ⟨_, h⟩ := ih
    obtain ⟨_, _, htail⟩ := ihtail
    exact ⟨_, _, .elementsMore h htail⟩
  | action hm h =>
    obtain ⟨_, ha⟩ := action_iff.1 h
    exact ⟨_, .action hm ha⟩
  | element hm hp _ hc ih =>
    obtain ⟨_, hps⟩ := maybe_predicate_iff.1 hp
    obtain ⟨_, hcs⟩ := maybe_cardinality_iff.1 hc
    obtain ⟨_, h⟩ := ih
    exact ⟨_, .element hps (by rintro rfl; cases hm) h hcs⟩
  | terminalElement hm _ hc ih =>
    obtain ⟨_, hcs⟩ := maybe_cardinality_iff.1 hc
    obtain ⟨_, h⟩ := ih
    have hrow := Spells.element .absent (fun _ => rfl) h hcs
    exact ⟨_, hrow⟩
  | assignment hm hf ho _ ih =>
    obtain ⟨_, h⟩ := ih
    exact ⟨_, .assignment hm hf ((isOperator_iff _).1 ho) h⟩
  | plainAtom hm _ ih =>
    obtain ⟨_, h⟩ := ih
    exact ⟨_, .plainAtom hm h⟩
  | upTo hm ha _ ih =>
    obtain ⟨_, h⟩ := ih
    exact ⟨_, .upTo hm ha h⟩
  | plainOperand hm _ ih =>
    obtain ⟨_, h⟩ := ih
    exact ⟨_, .plainOperand hm h⟩
  | wildcard hd => exact ⟨_, .wildcard hd⟩
  | endOfFile hn => exact ⟨_, .endOfFile hn⟩
  | range hl hd hr => exact ⟨_, .range hl hd hr⟩
  | negated hb _ ih =>
    obtain ⟨_, h⟩ := ih
    exact ⟨_, .negated hb h⟩
  | operandAtom _ ih =>
    obtain ⟨_, h⟩ := ih
    exact ⟨_, .operandAtom h⟩
  | leaf h =>
    obtain ⟨_, hl⟩ := literalOrCall_iff.1 h
    exact ⟨_, .leaf hl⟩
  | group ho _ hc ih =>
    obtain ⟨_, h⟩ := ih
    exact ⟨_, .group ho h hc⟩
  | crossReference h =>
    obtain ⟨_, hr⟩ := crossReference_iff.1 h
    exact ⟨_, .crossReference hr⟩
  | memberAssignable _ ih =>
    obtain ⟨_, h⟩ := ih
    exact ⟨_, .memberAssignable h⟩
  | assignableLeaf h =>
    obtain ⟨_, hl⟩ := (literalOrCall_iff (m := .parser)).1 h
    exact ⟨_, .assignableLeaf hl⟩
  | assignableGroup ho _ hc ih =>
    obtain ⟨_, _, h⟩ := ih (.inr (.inr rfl))
    exact ⟨_, .assignableGroup ho h hc⟩

/-! ## Acceptance -/

theorem derives_iff_spells (m : Mode) (ws : List Word) :
    Derives ["EOF"] m .alternatives ws ↔ ∃ t, Spells m .alternatives ws [t] := by
  refine ⟨spelled_of_derives, ?_⟩
  intro h
  rcases h with ⟨t, h⟩
  exact derives_of_spells h

/-- before a semicolon that ends the text, the reader takes exactly the derived words -/
theorem accepts_iff_derives (m : Mode) (ws : List Word) (stop : Word) (hstop : stop.Is .semicolon) :
    (∃ t, (alternatives m (ws ++ [stop])).Gives t [stop]) ↔ Derives ["EOF"] m .alternatives ws := by
  have hfollows : Follows .alternatives [stop] := follows_of_is hstop (.inr rfl) []
  rw [derives_iff_spells]
  refine ⟨?_, ?_⟩
  · intro h
    rcases h with ⟨t, h⟩
    exact ⟨t, (gives_alternatives_iff m ws [stop] t hfollows).1 h⟩
  · intro hspelled
    rcases hspelled with ⟨t, h⟩
    exact ⟨t, (gives_alternatives_iff m ws [stop] t hfollows).2 h⟩

def wordAt (kind : TokenKind) (value : Text) (column : Nat) : Word :=
  ⟨⟨kind, value, 1, column, value.length⟩, none⟩

def endOfFileCall : List Word :=
  [wordAt .name "EOF" 1, wordAt (.symbol .doubleColon) "::" 4, wordAt .name "X" 6]

def endOfFileStop : Word := wordAt (.symbol .semicolon) ";" 7

/-- a negated keyword is read and derived -/
theorem accepts_negated_keyword :
    (wordAt (.symbol .semicolon) ";" 5).Is .semicolon ∧
      ((∃ t, (alternatives .terminal ([wordAt (.symbol .bang) "!" 1, wordAt .literal "a" 2] ++
        [wordAt (.symbol .semicolon) ";" 5])).Gives t [wordAt (.symbol .semicolon) ";" 5]) ↔
      Derives ["EOF"] .terminal .alternatives [wordAt (.symbol .bang) "!" 1, wordAt .literal "a" 2]) :=
  ⟨rfl, accepts_iff_derives _ _ _ rfl⟩

/-- without a reserved word, the call `EOF::X` is derived in a terminal rule; the reader refuses its two colons -/
theorem reserved_end_of_file :
    endOfFileStop.Is .semicolon ∧ Derives [] .terminal .alternatives endOfFileCall ∧
      ¬ ∃ t, (alternatives .terminal (endOfFileCall ++ [endOfFileStop])).Gives t [endOfFileStop] := by
  refine ⟨rfl, ?_, ?_⟩
  · have hcall : LiteralOrCall (reservedIn [] .terminal) endOfFileCall :=
      .call (.qualified rfl rfl rfl) (by simp [reservedIn])
    have helement : Derives [] .terminal .element (endOfFileCall ++ []) :=
      .terminalElement rfl (.plainOperand rfl (.operandAtom (.leaf hcall))) .absent
    exact .alternatives (.rowOne (.unordered (.rowOne (.sequence (.elementsOne helement)))))
  · intro h
    rcases h with ⟨t, h⟩
    have hread : alternatives .terminal (endOfFileCall ++ [endOfFileStop]) =
        .error ⟨.unexpected, some (wordAt (.symbol .doubleColon) "::" 4).token, none⟩ := by cbv
    rw [hread] at h
    exact gives_error _ _ _ h

end Rulebook.Source
