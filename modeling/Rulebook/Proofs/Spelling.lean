/-
The language of definitions, with the tree of every text. `Spells m p words trees` says that the words are a part `p` of
a definition and stand for the trees: one tree, or the members of a row. The readers of a definition are sound and
complete for it:

- `spells_of_alternatives`: what the reader of alternatives takes spells the tree that it gives;
- `alternatives_of_spells`: words that spell a tree are read as that tree, wherever a definition may end.

No reader looks back. So an element must not be followed by what would carry it on, a second colon, an operator or a
cardinality, and words of the language never are: `openers` lists what a part begins with, and that carries nothing on.
-/
import Rulebook.Proofs.Words

namespace Rulebook.Source

open Rulebook.Reading

/-- the parts of a definition; a row has a symbol between its members, elements have nothing between them -/
inductive Part where
  | alternatives
  | unordered
  | sequence
  | elements
  | element
  | plain
  | operand
  | atom
  | member
  | assignable
  | row (mark : Symbol) (part : Part)

/-! ## The small parts -/

/-- no word, or one word that means something -/
inductive Marked {α : Type} (meaning : Token → Option α) : List Word → Option α → Prop where
  | absent : Marked meaning [] none
  | present {w : Word} {a : α} : meaning w.token = some a → Marked meaning [w] (some a)

/-- the words call a rule; in a terminal rule the call does not begin with the word for the end of the text -/
inductive Called (m : Mode) : List Word → Tree → Prop where
  | named {ws : List Word} {v : Token × Option Token} :
    Named ws v → (m = .terminal → v.1.value ≠ "EOF") → Called m ws (.call .none (callOf v))

/-- the words are a keyword or a call -/
inductive Leaf (m : Mode) : List Word → Tree → Prop where
  | keyword {w : Word} : w.IsLiteral → Leaf m [w] (keywordOf w)
  | call {ws : List Word} {t : Tree} : Called m ws t → Leaf m ws t

/-- the words are what a cross reference is written with, if it says so -/
inductive Through : List Word → Option Tree → Prop where
  | nothing : Through [] none
  | terminal {b : Word} {ws : List Word} {t : Tree} : b.Is .bar → Leaf .parser ws t → Through (b :: ws) (some t)

inductive Referenced : List Word → Tree → Prop where
  | intro {o c : Word} {ws us : List Word} {v : Token × Option Token} {t : Option Tree} :
    o.Is .openBracket → Named ws v → Through us t → c.Is .closeBracket →
    Referenced (o :: (ws ++ us) ++ [c]) (.crossReference .none (writtenName v) t)

inductive Featured : List Word → Option (Text × Text) → Prop where
  | nothing : Featured [] none
  | feature {d f o k : Word} : d.Is .dot → f.IsName → (o.Is .equals ∨ o.Is .plusEquals) →
    (k.IsName ∧ k.token.value = "current") → Featured [d, f, o, k] (some (f.token.value, o.token.value))

inductive Acts : List Word → Tree → Prop where
  | intro {o c : Word} {ws us : List Word} {v : Token × Option Token} {f : Option (Text × Text)} :
    o.Is .openBrace → Named ws v → Featured us f → c.Is .closeBrace →
    Acts (o :: (ws ++ us) ++ [c]) (.action .none (writtenName v) (f.map Prod.fst) (f.map Prod.snd))

/-- an element with a predicate before it and a cardinality behind it -/
def dress (p : Option Predicate) (c : Option Cardinality) (e : Tree) : Tree :=
  let inner := p.elim e fun p => withPredicate p e
  c.elim inner fun c => withCardinality c inner

/-! ## The language -/

/-- the words are a part of a definition and spell trees -/
inductive Spells (m : Mode) : Part → List Word → List Tree → Prop where
  | rowOne {s : Symbol} {p : Part} {ws : List Word} {t : Tree} : Spells m p ws [t] → Spells m (.row s p) ws [t]
  | rowMore {s : Symbol} {p : Part} {ws us : List Word} {b : Word} {t : Tree} {ts : List Tree} :
    Spells m p ws [t] → b.Is s → Spells m (.row s p) us ts → Spells m (.row s p) (ws ++ b :: us) (t :: ts)
  | alternatives {ws : List Word} {t : Tree} {ts : List Tree} :
    Spells m (.row .bar .unordered) ws (t :: ts) → Spells m .alternatives ws [gather .choice t ts]
  | unordered {ws : List Word} {t : Tree} {ts : List Tree} :
    Spells m (.row .ampersand .sequence) ws (t :: ts) → Spells m .unordered ws [gather .anyOrder t ts]
  | sequence {ws : List Word} {t : Tree} {ts : List Tree} :
    Spells m .elements ws (t :: ts) → Spells m .sequence ws [gather .sequence t ts]
  | elementsOne {ws : List Word} {t : Tree} : Spells m .element ws [t] → Spells m .elements ws [t]
  | elementsMore {ws us : List Word} {t : Tree} {ts : List Tree} :
    Spells m .element ws [t] → Spells m .elements us ts → Spells m .elements (ws ++ us) (t :: ts)
  | action {ws : List Word} {t : Tree} : m = .parser → Acts ws t → Spells m .element ws [t]
  | element {ps ws cs : List Word} {p : Option Predicate} {c : Option Cardinality} {t : Tree} :
    Marked predicate? ps p → (m = .terminal → p = none) → Spells m .plain ws [t] → Marked cardinality? cs c →
    Spells m .element (ps ++ ws ++ cs) [dress p c t]
  | assignment {f o : Word} {ws : List Word} {t : Tree} :
    m = .parser → f.IsName → isAssignment o.token = true → Spells m .member ws [t] →
    Spells m .plain (f :: o :: ws) [.assignment .none f.token.value o.token.value t]
  | plainAtom {ws : List Word} {t : Tree} : m = .parser → Spells m .atom ws [t] → Spells m .plain ws [t]
  | upTo {a : Word} {ws : List Word} {t : Tree} :
    m = .terminal → a.Is .arrow → Spells m .operand ws [t] → Spells m .plain (a :: ws) [.upTo .none t]
  | plainOperand {ws : List Word} {t : Tree} : m = .terminal → Spells m .operand ws [t] → Spells m .plain ws [t]
  | wildcard {d : Word} : d.Is .dot → Spells m .operand [d] [.wildcard .none]
  | endOfFile {n : Word} : n.IsName ∧ n.token.value = "EOF" → Spells m .operand [n] [.endOfFile .none]
  | range {l d r : Word} : l.IsLiteral → d.Is .doubleDot → r.IsLiteral →
    Spells m .operand [l, d, r] [.range .none ⟨.none, l.token.value⟩ ⟨.none, r.token.value⟩]
  | negated {b : Word} {ws : List Word} {t : Tree} :
    b.Is .bang → Spells m .operand ws [t] → Spells m .operand (b :: ws) [.negated .none t]
  | operandAtom {ws : List Word} {t : Tree} : Spells m .atom ws [t] → Spells m .operand ws [t]
  | leaf {ws : List Word} {t : Tree} : Leaf m ws t → Spells m .atom ws [t]
  | group {o c : Word} {ws : List Word} {t : Tree} :
    o.Is .openParen → Spells m .alternatives ws [t] → c.Is .closeParen → Spells m .atom (o :: ws ++ [c]) [t]
  | crossReference {ws : List Word} {t : Tree} : Referenced ws t → Spells m .member ws [t]
  | memberAssignable {ws : List Word} {t : Tree} : Spells m .assignable ws [t] → Spells m .member ws [t]
  | assignableLeaf {ws : List Word} {t : Tree} : Leaf .parser ws t → Spells m .assignable ws [t]
  | assignableGroup {o c : Word} {ws : List Word} {t : Tree} {ts : List Tree} :
    o.Is .openParen → Spells m (.row .bar .member) ws (t :: ts) → c.Is .closeParen →
    Spells m .assignable (o :: ws ++ [c]) [gather .choice t ts]

/-! ## What may follow -/

/-- the symbols that carry on what seems to have ended -/
def carriers : List Symbol := [.doubleColon, .less, .doubleDot, .equals, .plusEquals, .questionEquals]

/-- nothing carries on what has been read so far -/
def Apart (rest : List Word) : Prop := ∀ s ∈ carriers, atSymbol s rest = false

def Uncounted (rest : List Word) : Prop := ∀ w ∈ rest.head?, cardinality? w.token = none

def Follows : Part → List Word → Prop
  | .alternatives, rest => atSequenceEnd rest = true ∧ atSymbol .bar rest = false ∧ atSymbol .ampersand rest = false
  | .unordered, rest => atSequenceEnd rest = true ∧ atSymbol .ampersand rest = false
  | .sequence, rest => atSequenceEnd rest = true
  | .elements, rest => atSequenceEnd rest = true
  | .element, rest => Apart rest ∧ Uncounted rest
  | .row s p, rest => (∀ (b : Word) (more : List Word), b.Is s → Follows p (b :: more)) ∧ Follows p rest ∧
      atSymbol s rest = false
  | _, rest => Apart rest

def openers (m : Mode) : Part → List TokenKind
  | .operand => [.name, .literal, .symbol .openParen, .symbol .dot, .symbol .bang]
  | .atom => [.name, .literal, .symbol .openParen]
  | .member => [.name, .literal, .symbol .openParen, .symbol .openBracket]
  | .assignable => [.name, .literal, .symbol .openParen]
  | .plain =>
    match m with
    | .parser => [.name, .literal, .symbol .openParen]
    | .terminal => [.name, .literal, .symbol .openParen, .symbol .dot, .symbol .bang, .symbol .arrow]
  | .row _ p => openers m p
  | _ => [.name, .literal, .symbol .openParen, .symbol .dot, .symbol .bang, .symbol .arrow, .symbol .fatArrow,
      .symbol .openBrace]

theorem Named.begins {ws : List Word} {v : Token × Option Token} (h : Named ws v) :
    ∃ n more, ws = n :: more ∧ n.IsName ∧ n.token = v.1 := by
  cases h with
  | plain hn => exact ⟨_, _, rfl, hn, rfl⟩
  | qualified hq _ _ => exact ⟨_, _, rfl, hq, rfl⟩

theorem Leaf.begins {m : Mode} {ws : List Word} {t : Tree} (h : Leaf m ws t) :
    ∃ w more, ws = w :: more ∧ (w.IsLiteral ∨ w.IsName ∧ (m = .terminal → w.token.value ≠ "EOF")) := by
  cases h with
  | keyword hw => exact ⟨_, _, rfl, .inl hw⟩
  | call h =>
    obtain ⟨hv, heof⟩ := h
    obtain ⟨n, more, rfl, hn, hv⟩ := hv.begins
    exact ⟨n, more, rfl, .inr ⟨hn, fun hm => hv ▸ heof hm⟩⟩

theorem Spells.begins {m : Mode} {p : Part} {ws : List Word} {ts : List Tree} (h : Spells m p ws ts) :
    ∃ w more, ws = w :: more ∧ w.token.kind ∈ openers m p := by
  have hplain : openers m .plain ⊆ openers m .element := by cases m <;> decide
  have hatom : openers m .atom ⊆ openers m .operand := by cases m <;> decide
  have hassignable : openers m .assignable ⊆ openers m .member := by cases m <;> decide
  induction h with
  | rowOne _ ih => exact ih
  | rowMore _ _ _ ih _ =>
    obtain ⟨w, more, rfl, hw⟩ := ih
    exact ⟨w, _, rfl, hw⟩
  | alternatives _ ih => exact ih
  | unordered _ ih => exact ih
  | sequence _ ih => exact ih
  | elementsOne _ ih => exact ih
  | elementsMore _ _ ih _ =>
    obtain ⟨w, more, rfl, hw⟩ := ih
    exact ⟨w, _, rfl, hw⟩
  | action _ h =>
    obtain ⟨ho, _, _, _⟩ := h
    exact ⟨_, _, rfl, by simp [openers, ho.kind]⟩
  | element hp _ _ _ ih =>
    obtain ⟨w, more, rfl, hw⟩ := ih
    cases hp with
    | absent => exact ⟨w, _, rfl, hplain hw⟩
    | @present x _ hx =>
      refine ⟨x, _, rfl, ?_⟩
      unfold predicate? at hx
      split at hx <;> simp_all [openers]
  | assignment hm hf _ _ _ => exact ⟨_, _, rfl, by simp [openers, hm, hf.kind]⟩
  | plainAtom hm _ ih =>
    obtain ⟨w, more, rfl, hw⟩ := ih
    exact ⟨w, _, rfl, by simpa [openers, hm] using hw⟩
  | upTo hm ha _ _ => exact ⟨_, _, rfl, by simp [openers, hm, ha.kind]⟩
  | plainOperand hm _ ih =>
    obtain ⟨w, more, rfl, hw⟩ := ih
    subst hm
    have hoperand : openers .terminal .operand ⊆ openers .terminal .plain := by decide
    exact ⟨w, _, rfl, hoperand hw⟩
  | wildcard hd => exact ⟨_, _, rfl, by simp [openers, hd.kind]⟩
  | endOfFile hn => exact ⟨_, _, rfl, by simp [openers, hn.1.kind]⟩
  | range hl _ _ => exact ⟨_, _, rfl, by simp [openers, hl.kind]⟩
  | negated hb _ _ => exact ⟨_, _, rfl, by simp [openers, hb.kind]⟩
  | operandAtom _ ih =>
    obtain ⟨w, more, rfl, hw⟩ := ih
    exact ⟨w, _, rfl, hatom hw⟩
  | leaf h =>
    obtain ⟨w, more, rfl, hw | ⟨hw, _⟩⟩ := h.begins <;> exact ⟨w, more, rfl, by simp [openers, hw.kind]⟩
  | group ho _ _ _ => exact ⟨_, _, rfl, by simp [openers, ho.kind]⟩
  | crossReference h =>
    obtain ⟨ho, _, _, _⟩ := h
    exact ⟨_, _, rfl, by simp [openers, ho.kind]⟩
  | memberAssignable _ ih =>
    obtain ⟨w, more, rfl, hw⟩ := ih
    exact ⟨w, _, rfl, hassignable hw⟩
  | assignableLeaf h =>
    obtain ⟨w, more, rfl, hw | ⟨hw, _⟩⟩ := h.begins <;> exact ⟨w, more, rfl, by simp [openers, hw.kind]⟩
  | assignableGroup ho _ _ _ => exact ⟨_, _, rfl, by simp [openers, ho.kind]⟩

/-- a row has a member -/
theorem Spells.ne_nil {m : Mode} {p : Part} {ws : List Word} {ts : List Tree} (h : Spells m p ws ts) : ts ≠ [] := by
  induction h with
  | rowOne _ ih => exact ih
  | elementsOne _ ih => exact ih
  | _ => exact List.cons_ne_nil _ _

/-! ## The readers of the small parts -/

theorem gives_marked {α : Type} (meaning : Token → Option α) (words rest : List Word) (a : Option α) :
    (Reading.meaning? (fun w : Word => meaning w.token) words : Reading (Option α) false words).Gives a rest ↔
      ∃ ms, words = ms ++ rest ∧ Marked meaning ms a ∧ (a = none → ∀ w ∈ rest.head?, meaning w.token = none) := by
  rw [gives_meaning?]
  refine ⟨?_, ?_⟩
  · intro h
    rcases h with ⟨rfl, rfl, h⟩ | ⟨w, v, rfl, hw, rfl⟩
    · exact ⟨[], rfl, .absent, fun _ => h⟩
    · exact ⟨[w], rfl, .present hw, nofun⟩
  · intro hread
    rcases hread with ⟨_, rfl, hm, hrest⟩
    cases hm with
    | absent => exact .inl ⟨rfl, rfl, hrest rfl⟩
    | @present w a hw => exact .inr ⟨w, a, rfl, hw, rfl⟩

/-- nothing behind a call or a name carries it on -/
def CallEnds (rest : List Word) : Prop := atSymbol .doubleColon rest = false ∧ atSymbol .less rest = false

theorem Apart.callEnds {rest : List Word} (h : Apart rest) : CallEnds rest :=
  ⟨h _ (by simp [carriers]), h _ (by simp [carriers])⟩

/-- a call is read from its name; neither arguments nor a further part of a single name may follow -/
theorem gives_call (words rest : List Word) (t : Tree) :
    (call words).Gives t rest ↔ ∃ ws v, words = ws ++ rest ∧ Named ws v ∧ t = .call .none (callOf v) ∧
      atSymbol .less rest = false ∧ (v.2 = none → atSymbol .doubleColon rest = false) := by
  simp only [call, gives_next', gives_qualified]
  refine ⟨?_, ?_⟩
  · intro h
    rcases h with ⟨v, mid, ⟨ws, rfl, hv, hc⟩, hcall⟩
    by_cases hl : atSymbol .less mid = true
    · simp [hl] at hcall
    · simp only [hl, Bool.false_eq_true, ↓reduceIte, gives_nothing] at hcall
      obtain ⟨rfl, rfl⟩ := hcall
      exact ⟨ws, v, rfl, hv, rfl, by simpa using hl, hc⟩
  · intro h
    rcases h with ⟨ws, v, rfl, hv, rfl, hl, hc⟩
    exact ⟨v, rest, ⟨ws, rfl, hv, hc⟩, by simp [hl]⟩

theorem called_of_call {words rest : List Word} {t : Tree} (h : (call words).Gives t rest) :
    ∃ ws, words = ws ++ rest ∧ Called .parser ws t := by
  obtain ⟨ws, v, rfl, hv, rfl, _, _⟩ := (gives_call ..).1 h
  exact ⟨ws, rfl, .named hv nofun⟩

theorem call_of_called {m : Mode} {ws rest : List Word} {t : Tree} (h : Called m ws t) (hrest : CallEnds rest) :
    (call (ws ++ rest)).Gives t rest := by
  obtain ⟨hv, _⟩ := h
  exact (gives_call ..).2 ⟨_, _, rfl, hv, rfl, hrest.2, fun _ => hrest.1⟩

theorem leaf_of_gives {words rest : List Word} {t : Tree} (h : (leaf words).Gives t rest) :
    ∃ ws, words = ws ++ rest ∧ Leaf .parser ws t := by
  unfold leaf at h
  split at h
  · simp at h
  · rename_i w tail
    split at h
    · rename_i hl
      obtain ⟨rfl, rfl⟩ := (gives_first ..).1 h
      exact ⟨[w], rfl, .keyword hl⟩
    · split at h
      · obtain ⟨ws, hws, hc⟩ := called_of_call h
        exact ⟨ws, hws, .call hc⟩
      · split at h <;> simp at h

theorem gives_of_leaf {m : Mode} {ws rest : List Word} {t : Tree} (h : Leaf m ws t) (hrest : CallEnds rest) :
    (leaf (ws ++ rest)).Gives t rest := by
  cases h with
  | @keyword w hw => simp [leaf, hw.kind, keywordOf]
  | call h =>
    have hcall := call_of_called h hrest
    obtain ⟨hv, _⟩ := h
    obtain ⟨n, more, rfl, hn, _⟩ := hv.begins
    simpa [leaf, hn.kind] using hcall

theorem referenceTerminal_of_gives {words rest : List Word} {t : Tree} (h : (referenceTerminal words).Gives t rest) :
    ∃ ws, words = ws ++ rest ∧ Leaf .parser ws t := by
  have hcall : ∀ {s : List Word}, (call s).Gives t rest → ∃ ws, s = ws ++ rest ∧ Leaf .parser ws t := by
    intro s hs
    obtain ⟨ws, hws, hc⟩ := called_of_call hs
    exact ⟨ws, hws, .call hc⟩
  unfold referenceTerminal at h
  split at h
  · exact hcall h
  · rename_i w tail
    split at h
    · rename_i hl
      obtain ⟨rfl, rfl⟩ := (gives_first ..).1 h
      exact ⟨[w], rfl, .keyword hl⟩
    · exact hcall h

theorem gives_of_referenceTerminal {m : Mode} {ws rest : List Word} {t : Tree} (h : Leaf m ws t)
    (hrest : CallEnds rest) : (referenceTerminal (ws ++ rest)).Gives t rest := by
  cases h with
  | @keyword w hw => simp [referenceTerminal, hw.kind, keywordOf]
  | call h =>
    have hcall := call_of_called h hrest
    obtain ⟨hv, _⟩ := h
    obtain ⟨n, more, rfl, hn, _⟩ := hv.begins
    simpa [referenceTerminal, hn.kind] using hcall

theorem referenced_of_gives {words rest : List Word} {t : Tree} (h : (crossReference words).Gives t rest) :
    ∃ ws, words = ws ++ rest ∧ Referenced ws t := by
  simp only [crossReference, gives_next', gives_takeSymbol, gives_typeRef, gives_behindSymbol?, gives_map] at h
  obtain ⟨_, _, ⟨o, rfl, ho, rfl⟩, _, _, ⟨ws, v, rfl, hv, -, rfl⟩, _, _, hus, _, ⟨c, rfl, hc, rfl⟩, rfl⟩ := h
  rcases hus with ⟨rfl, rfl, -⟩ | ⟨b, mid, t, rfl, hb, ht, rfl⟩
  · exact ⟨o :: (ws ++ []) ++ [c], by simp, .intro ho hv .nothing hc⟩
  · obtain ⟨us, rfl, hu⟩ := referenceTerminal_of_gives ht
    exact ⟨o :: (ws ++ b :: us) ++ [c], by simp, .intro ho hv (.terminal hb hu) hc⟩

/-- a symbol that is not the given one -/
theorem atSymbol_of_is {w : Word} {s s' : Symbol} (h : w.Is s) (hne : s ≠ s') (ws : List Word) :
    atSymbol s' (w :: ws) = false := by
  simp [atSymbol, Token.isSymbol, h.kind, hne]

theorem gives_of_referenced {ws : List Word} {t : Tree} (h : Referenced ws t) (rest : List Word) :
    (crossReference (ws ++ rest)).Gives t rest := by
  obtain ⟨ho, hv, hu, hc⟩ := h
  rename_i o c ws us v t
  simp only [crossReference, gives_next', gives_takeSymbol, gives_typeRef, gives_behindSymbol?, gives_map]
  refine ⟨_, ws ++ (us ++ c :: rest), ⟨o, by simp, ho, rfl⟩, _, us ++ c :: rest, ⟨ws, v, rfl, hv, ?_, rfl⟩, t, c :: rest,
    ?_, _, ⟨c, rfl, hc, rfl⟩, rfl⟩
  · intro _
    cases hu with
    | nothing => exact atSymbol_of_is hc (by decide) _
    | terminal hb _ => exact atSymbol_of_is hb (by decide) _
  · cases hu with
    | nothing => exact .inl ⟨rfl, rfl, atSymbol_of_is hc (by decide) _⟩
    | @terminal b us t hb hl =>
      exact .inr ⟨b, us ++ c :: rest, t, rfl, hb, gives_of_referenceTerminal hl
        ⟨atSymbol_of_is hc (by decide) _, atSymbol_of_is hc (by decide) _⟩, rfl⟩

theorem gives_actionFeature (words rest : List Word) (f : Text × Text) :
    (actionFeature words).Gives f rest ↔ ∃ n o k, words = n :: o :: k :: rest ∧ n.IsName ∧
      (o.Is .equals ∨ o.Is .plusEquals) ∧ (k.IsName ∧ k.token.value = "current") ∧
      f = (n.token.value, o.token.value) := by
  simp only [actionFeature, actionOperator, gives_next', gives_take, gives_takeIf, gives_takeWord, gives_map,
    Bool.or_eq_true, Token.isSymbol_iff]
  refine ⟨?_, ?_⟩
  · intro h
    rcases h with ⟨_, _, ⟨n, rfl, hn, rfl⟩, _, _, ⟨o, rfl, ho, rfl⟩, _, ⟨k, rfl, hk, rfl⟩, rfl⟩
    exact ⟨n, o, k, rfl, hn, ho, hk, rfl⟩
  · intro h
    rcases h with ⟨n, o, k, rfl, hn, ho, hk, rfl⟩
    exact ⟨_, _, ⟨n, rfl, hn, rfl⟩, _, _, ⟨o, rfl, ho, rfl⟩, _, ⟨k, rfl, hk, rfl⟩, rfl⟩

theorem acts_of_gives {words rest : List Word} {t : Tree} (h : (action words).Gives t rest) :
    ∃ ws, words = ws ++ rest ∧ Acts ws t := by
  simp only [action, gives_next', gives_takeSymbol, gives_typeRef, gives_behindSymbol?, gives_actionFeature,
    gives_map] at h
  obtain ⟨_, _, ⟨o, rfl, ho, rfl⟩, _, _, ⟨ws, v, rfl, hv, -, rfl⟩, _, _, hus, _, ⟨c, rfl, hc, rfl⟩, rfl⟩ := h
  rcases hus with ⟨rfl, rfl, -⟩ | ⟨d, _, _, rfl, hd, ⟨f, op, k, rfl, hf, hop, hk, rfl⟩, rfl⟩
  · exact ⟨o :: (ws ++ []) ++ [c], by simp, .intro ho hv .nothing hc⟩
  · exact ⟨o :: (ws ++ [d, f, op, k]) ++ [c], by simp, .intro ho hv (.feature hd hf hop hk) hc⟩

theorem gives_of_acts {ws : List Word} {t : Tree} (h : Acts ws t) (rest : List Word) :
    (action (ws ++ rest)).Gives t rest := by
  obtain ⟨ho, hv, hu, hc⟩ := h
  rename_i o c ws us v f
  simp only [action, gives_next', gives_takeSymbol, gives_typeRef, gives_behindSymbol?, gives_actionFeature, gives_map]
  refine ⟨_, ws ++ (us ++ c :: rest), ⟨o, by simp, ho, rfl⟩, _, us ++ c :: rest, ⟨ws, v, rfl, hv, ?_, rfl⟩, f, c :: rest,
    ?_, _, ⟨c, rfl, hc, rfl⟩, rfl⟩
  · intro _
    cases hu with
    | nothing => exact atSymbol_of_is hc (by decide) _
    | feature hd _ _ _ => exact atSymbol_of_is hd (by decide) _
  · cases hu with
    | nothing => exact .inl ⟨rfl, rfl, atSymbol_of_is hc (by decide) _⟩
    | @feature d f op k hd hf hop hk =>
      exact .inr ⟨d, _, _, rfl, hd, ⟨f, op, k, rfl, hf, hop, hk, rfl⟩, rfl⟩

end Rulebook.Source
