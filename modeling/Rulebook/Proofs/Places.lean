/-
What is read does not depend on where the words stand, nor on what stands behind them. Words say the same when their
keys are the same; what is read from them then differs in places only, and `placeless` takes these away.

`Declared ws r` says that the words are the declaration of a rule, from its first word to its semicolon, and
`gives_rule_iff` that the reader of rules is that: it takes such words and looks at nothing behind them.
-/
import Rulebook.Proofs.RoundTrip

namespace Rulebook

open Source Rulebook.Reading

/-! ## Places -/

def Source.WrittenCall.placeless (c : WrittenCall) : WrittenCall := { c with line := 0, column := 0 }

abbrev placeless (t : Tree) : Tree := t.map WrittenCall.placeless

theorem placeless_withCardinality (c : Cardinality) (t : Tree) :
    placeless (withCardinality c t) = withCardinality c (placeless t) := by
  unfold withCardinality
  rw [Element.decoration_map]
  split
  · simp [Element.map, Element.mapList]
  · exact Element.map_decorated _ _ t

theorem placeless_withPredicate (p : Predicate) (t : Tree) :
    placeless (withPredicate p t) = withPredicate p (placeless t) := by
  unfold withPredicate
  rw [Element.decoration_map]
  split
  · exact Element.map_decorated _ _ t
  · simp [Element.map, Element.mapList]

theorem placeless_dress (p : Option Predicate) (c : Option Cardinality) (t : Tree) :
    placeless (dress p c t) = dress p c (placeless t) := by
  cases p <;> cases c <;> simp [dress, placeless_withCardinality, placeless_withPredicate]

theorem placeless_gather (g : Gathering) (t : Tree) (ts : List Tree) :
    placeless (gather g t ts) = gather g (placeless t) (ts.map placeless) := by
  cases ts with
  | nil => rfl
  | cons u us => simp [gather, Element.map, Element.mapList_eq_map]

/-! ## Words that say the same -/

section Words

variable {us ws vs : List Word} {u w : Word}

theorem same_cons (h : us.map Word.key = (w :: ws).map Word.key) :
    ∃ u us', us = u :: us' ∧ u.key = w.key ∧ us'.map Word.key = ws.map Word.key :=
  words_cons h

theorem same_append (h : us.map Word.key = (ws ++ vs).map Word.key) :
    ∃ us₁ us₂, us = us₁ ++ us₂ ∧ us₁.map Word.key = ws.map Word.key ∧ us₂.map Word.key = vs.map Word.key :=
  words_append (h.trans List.map_append)

theorem same_one (h : us.map Word.key = [w].map Word.key) : ∃ u, us = [u] ∧ u.key = w.key :=
  words_one h

theorem kind_eq (h : u.key = w.key) : u.token.kind = w.token.kind := congrArg Prod.fst h

theorem value_eq (h : u.key = w.key) : u.token.value = w.token.value := congrArg Prod.snd h

theorem Source.Word.Is.same {s : Symbol} (hw : w.Is s) (h : u.key = w.key) : u.Is s := (kind_eq h).trans hw

theorem Source.Word.IsName.same (hw : w.IsName) (h : u.key = w.key) : u.IsName := (kind_eq h).trans hw

theorem Source.Word.IsLiteral.same (hw : w.IsLiteral) (h : u.key = w.key) : u.IsLiteral := (kind_eq h).trans hw

theorem isWord_same {word : Text} (hw : w.IsWord word) (h : u.key = w.key) : u.IsWord word :=
  ⟨hw.1.same h, (value_eq h).trans hw.2⟩

theorem isSymbol_same (h : u.key = w.key) (s : Symbol) : u.token.isSymbol s = w.token.isSymbol s := by
  rw [Token.isSymbol, Token.isSymbol, kind_eq h]

end Words

/-! ## Definitions -/

section Definitions

variable {m : Mode} {ws us : List Word}

theorem named_same {v : Token × Option Token} (h : Named ws v) (hus : us.map Word.key = ws.map Word.key) :
    ∃ v', Named us v' ∧ v'.1.value = v.1.value ∧ (callOf v').placeless = (callOf v).placeless ∧
      writtenName v' = writtenName v := by
  cases h with
  | plain hn =>
    obtain ⟨n, rfl, hkey⟩ := same_one hus
    refine ⟨_, .plain (hn.same hkey), value_eq hkey, ?_, value_eq hkey⟩
    simp [callOf, WrittenCall.placeless, value_eq hkey]
  | qualified hq hc hn =>
    obtain ⟨q, _, rfl, hqkey, hmore⟩ := same_cons hus
    obtain ⟨c, _, rfl, hckey, hlast⟩ := same_cons hmore
    obtain ⟨n, rfl, hkey⟩ := same_one hlast
    refine ⟨_, .qualified (hq.same hqkey) (hc.same hckey) (hn.same hkey), value_eq hqkey, ?_, ?_⟩
    · simp [callOf, WrittenCall.placeless, value_eq hkey, value_eq hqkey]
    · simp [writtenName, value_eq hkey, value_eq hqkey]

theorem called_same {t : Tree} (h : Called m ws t) (hus : us.map Word.key = ws.map Word.key) :
    ∃ t', Called m us t' ∧ placeless t' = placeless t := by
  obtain ⟨hv, heof⟩ := h
  obtain ⟨v', hv', hvalue, hcall, -⟩ := named_same hv hus
  exact ⟨_, .named hv' fun hm => hvalue ▸ heof hm, by simp [Element.map, hcall]⟩

theorem leaf_same {t : Tree} (h : Leaf m ws t) (hus : us.map Word.key = ws.map Word.key) :
    ∃ t', Leaf m us t' ∧ placeless t' = placeless t := by
  cases h with
  | keyword hw =>
    obtain ⟨u, rfl, hkey⟩ := same_one hus
    exact ⟨_, .keyword (hw.same hkey), by simp [keywordOf, Element.map, value_eq hkey]⟩
  | call h =>
    obtain ⟨t', ht', heq⟩ := called_same h hus
    exact ⟨t', .call ht', heq⟩

theorem referenced_same {t : Tree} (h : Referenced ws t) (hus : us.map Word.key = ws.map Word.key) :
    ∃ t', Referenced us t' ∧ placeless t' = placeless t := by
  obtain ⟨ho, hv, hthrough, hc⟩ := h
  obtain ⟨o, more, rfl, hokey, hmore⟩ := same_cons hus
  obtain ⟨inside, last, rfl, hinside, hlast⟩ := same_append hmore
  obtain ⟨named, through, rfl, hnamed, hrest⟩ := same_append hinside
  obtain ⟨c, rfl, hckey⟩ := same_one hlast
  obtain ⟨v', hv', -, -, hname⟩ := named_same hv hnamed
  cases hthrough with
  | nothing =>
    obtain rfl := words_nil hrest
    exact ⟨_, .intro (ho.same hokey) hv' .nothing (hc.same hckey), by simp [Element.map, Element.mapOption, hname]⟩
  | terminal hb ht =>
    obtain ⟨b, leaf, rfl, hbkey, hleaf⟩ := same_cons hrest
    obtain ⟨t', ht', heq⟩ := leaf_same ht hleaf
    refine ⟨_, .intro (ho.same hokey) hv' (.terminal (hb.same hbkey) ht') (hc.same hckey), ?_⟩
    simpa [Element.map, Element.mapOption, hname] using heq

theorem acts_same {t : Tree} (h : Acts ws t) (hus : us.map Word.key = ws.map Word.key) :
    ∃ t', Acts us t' ∧ placeless t' = placeless t := by
  obtain ⟨ho, hv, hfeatured, hc⟩ := h
  obtain ⟨o, more, rfl, hokey, hmore⟩ := same_cons hus
  obtain ⟨inside, last, rfl, hinside, hlast⟩ := same_append hmore
  obtain ⟨named, featured, rfl, hnamed, hrest⟩ := same_append hinside
  obtain ⟨c, rfl, hckey⟩ := same_one hlast
  obtain ⟨v', hv', -, -, hname⟩ := named_same hv hnamed
  cases hfeatured with
  | nothing =>
    obtain rfl := words_nil hrest
    exact ⟨_, .intro (ho.same hokey) hv' .nothing (hc.same hckey), by simp [Element.map, hname]⟩
  | feature hd hf hop hk =>
    obtain ⟨d, _, rfl, hdkey, hrest⟩ := same_cons hrest
    obtain ⟨f, _, rfl, hfkey, hrest⟩ := same_cons hrest
    obtain ⟨p, _, rfl, hpkey, hrest⟩ := same_cons hrest
    obtain ⟨k, rfl, hkkey⟩ := same_one hrest
    have hop' : p.Is .equals ∨ p.Is .plusEquals := hop.imp (·.same hpkey) (·.same hpkey)
    refine ⟨_, .intro (ho.same hokey) hv' (.feature (hd.same hdkey) (hf.same hfkey) hop' (isWord_same hk hkkey))
      (hc.same hckey), ?_⟩
    simp [Element.map, hname, value_eq hfkey, value_eq hpkey]

theorem marked_same {α : Type} {meaning : Token → Option α} {a : Option α} (h : Marked meaning ws a)
    (hmeaning : ∀ t t' : Token, t'.kind = t.kind → meaning t' = meaning t)
    (hus : us.map Word.key = ws.map Word.key) : Marked meaning us a := by
  cases h with
  | absent =>
    obtain rfl := words_nil hus
    exact .absent
  | present hw =>
    obtain ⟨u, rfl, hkey⟩ := same_one hus
    exact .present ((hmeaning _ _ (kind_eq hkey)).trans hw)

theorem predicate?_same (t t' : Token) (h : t'.kind = t.kind) : predicate? t' = predicate? t := by
  rw [predicate?, predicate?, h]

theorem cardinality?_same (t t' : Token) (h : t'.kind = t.kind) : cardinality? t' = cardinality? t := by
  rw [cardinality?, cardinality?, h]

/-- the words spell trees like these, which may name other lines and columns -/
def SpellsLike (m : Mode) (p : Part) (us : List Word) (ts : List Tree) : Prop :=
  ∃ ts', Spells m p us ts' ∧ ts'.map placeless = ts.map placeless

namespace SpellsLike

variable {p q : Part} {vs : List Word} {t u : Tree} {ts : List Tree}

theorem of_tree (h : ∃ t', Spells m p us [t'] ∧ placeless t' = placeless t) : SpellsLike m p us [t] := by
  obtain ⟨t', ht', heq⟩ := h
  exact ⟨[t'], ht', by simp [heq]⟩

theorem tree (h : SpellsLike m p us [t]) : ∃ t', Spells m p us [t'] ∧ placeless t' = placeless t := by
  obtain ⟨ts', h', heq⟩ := h
  obtain ⟨t', rfl, ht'⟩ := List.map_eq_singleton_iff.1 heq
  exact ⟨t', h', ht'⟩

/-- a part that is all of another one -/
theorem lift (h : SpellsLike m p us [t]) (hq : ∀ t', Spells m p us [t'] → Spells m q vs [t']) :
    SpellsLike m q vs [t] := by
  obtain ⟨t', h', heq⟩ := h.tree
  exact of_tree ⟨t', hq t' h', heq⟩

/-- one tree and more of them -/
theorem cons {us' : List Word} (h : SpellsLike m p us [t]) (hmore : SpellsLike m q us' ts)
    (hq : ∀ t' ts', Spells m p us [t'] → Spells m q us' ts' → Spells m q vs (t' :: ts')) :
    SpellsLike m q vs (t :: ts) := by
  obtain ⟨t', h', heq⟩ := h.tree
  obtain ⟨ts', hts', hmore⟩ := hmore
  exact ⟨t' :: ts', hq t' ts' h' hts', by simp [heq, hmore]⟩

/-- trees that become one -/
theorem gathered {g : Gathering} (h : SpellsLike m p us (t :: ts))
    (hq : ∀ t' ts', Spells m p us (t' :: ts') → Spells m q vs [gather g t' ts']) :
    SpellsLike m q vs [gather g t ts] := by
  obtain ⟨ts', h', heq⟩ := h
  obtain ⟨t', more, rfl, ht', hmore⟩ := List.map_eq_cons_iff.1 heq
  exact of_tree ⟨_, hq t' more h', by simp [placeless_gather, ht', hmore]⟩

end SpellsLike

/-- words that say the same spell the same trees -/
theorem spells_same {p : Part} {ts : List Tree} (h : Spells m p ws ts) (hus : us.map Word.key = ws.map Word.key) :
    SpellsLike m p us ts := by
  induction h generalizing us with
  | rowOne _ ih => exact (ih hus).lift fun _ => .rowOne
  | rowMore _ hb _ ih ihrow =>
    obtain ⟨us₁, more, rfl, hus₁, hmore⟩ := same_append hus
    obtain ⟨b, us₂, rfl, hbkey, hus₂⟩ := same_cons hmore
    exact (ih hus₁).cons (ihrow hus₂) fun _ _ h₁ h₂ => .rowMore h₁ (hb.same hbkey) h₂
  | alternatives _ ih => exact (ih hus).gathered fun _ _ => .alternatives
  | unordered _ ih => exact (ih hus).gathered fun _ _ => .unordered
  | sequence _ ih => exact (ih hus).gathered fun _ _ => .sequence
  | elementsOne _ ih => exact (ih hus).lift fun _ => .elementsOne
  | elementsMore _ _ ih ihmore =>
    obtain ⟨us₁, us₂, rfl, hus₁, hus₂⟩ := same_append hus
    exact (ih hus₁).cons (ihmore hus₂) fun _ _ => .elementsMore
  | action hm h =>
    obtain ⟨t', ht', heq⟩ := acts_same h hus
    exact .of_tree ⟨t', .action hm ht', heq⟩
  | element hps hp _ hcs ih =>
    obtain ⟨more, us₃, rfl, hmore, hus₃⟩ := same_append hus
    obtain ⟨us₁, us₂, rfl, hus₁, hus₂⟩ := same_append hmore
    obtain ⟨t', h', ht'⟩ := (ih hus₂).tree
    exact .of_tree ⟨_, .element (marked_same hps predicate?_same hus₁) hp h' (marked_same hcs cardinality?_same hus₃),
      by simp [placeless_dress, ht']⟩
  | assignment hm hf ho _ ih =>
    obtain ⟨f, _, rfl, hfkey, hmore⟩ := same_cons hus
    obtain ⟨o, us', rfl, hokey, hus'⟩ := same_cons hmore
    obtain ⟨t', h', ht'⟩ := (ih hus').tree
    have ho' : isAssignment o.token = true := by simpa [isAssignment, isSymbol_same hokey] using ho
    exact .of_tree ⟨_, .assignment hm (hf.same hfkey) ho' h',
      by simp [Element.map, ht', value_eq hfkey, value_eq hokey]⟩
  | plainAtom hm _ ih => exact (ih hus).lift fun _ => .plainAtom hm
  | upTo hm ha _ ih =>
    obtain ⟨a, us', rfl, hakey, hus'⟩ := same_cons hus
    obtain ⟨t', h', ht'⟩ := (ih hus').tree
    exact .of_tree ⟨_, .upTo hm (ha.same hakey) h', by simp [Element.map, ht']⟩
  | plainOperand hm _ ih => exact (ih hus).lift fun _ => .plainOperand hm
  | wildcard hd =>
    obtain ⟨d, rfl, hkey⟩ := same_one hus
    exact .of_tree ⟨_, .wildcard (hd.same hkey), rfl⟩
  | endOfFile hn =>
    obtain ⟨n, rfl, hkey⟩ := same_one hus
    exact .of_tree ⟨_, .endOfFile (isWord_same hn hkey), rfl⟩
  | range hl hd hr =>
    obtain ⟨l, _, rfl, hlkey, hmore⟩ := same_cons hus
    obtain ⟨d, _, rfl, hdkey, hlast⟩ := same_cons hmore
    obtain ⟨r, rfl, hrkey⟩ := same_one hlast
    exact .of_tree ⟨_, .range (hl.same hlkey) (hd.same hdkey) (hr.same hrkey),
      by simp [Element.map, value_eq hlkey, value_eq hrkey]⟩
  | negated hb _ ih =>
    obtain ⟨b, us', rfl, hbkey, hus'⟩ := same_cons hus
    obtain ⟨t', h', ht'⟩ := (ih hus').tree
    exact .of_tree ⟨_, .negated (hb.same hbkey) h', by simp [Element.map, ht']⟩
  | operandAtom _ ih => exact (ih hus).lift fun _ => .operandAtom
  | leaf h =>
    obtain ⟨t', ht', heq⟩ := leaf_same h hus
    exact .of_tree ⟨t', .leaf ht', heq⟩
  | group ho _ hc ih =>
    obtain ⟨more, last, rfl, hmore, hlast⟩ := same_append hus
    obtain ⟨o, us', rfl, hokey, hus'⟩ := same_cons hmore
    obtain ⟨c, rfl, hckey⟩ := same_one hlast
    exact (ih hus').lift fun _ h' => .group (ho.same hokey) h' (hc.same hckey)
  | crossReference h =>
    obtain ⟨t', ht', heq⟩ := referenced_same h hus
    exact .of_tree ⟨t', .crossReference ht', heq⟩
  | memberAssignable _ ih => exact (ih hus).lift fun _ => .memberAssignable
  | assignableLeaf h =>
    obtain ⟨t', ht', heq⟩ := leaf_same h hus
    exact .of_tree ⟨t', .assignableLeaf ht', heq⟩
  | assignableGroup ho _ hc ih =>
    obtain ⟨more, last, rfl, hmore, hlast⟩ := same_append hus
    obtain ⟨o, us', rfl, hokey, hus'⟩ := same_cons hmore
    obtain ⟨c, rfl, hckey⟩ := same_one hlast
    exact (ih hus').gathered fun _ _ h' => .assignableGroup (ho.same hokey) h' (hc.same hckey)

end Definitions

/-! ## Declarations -/

/-- a literal of an enumeration, perhaps with its keyword -/
inductive LiteralWords : List Word → Tree → Prop where
  | name {n : Word} : n.IsName → LiteralWords [n] (.literal .none n.token.value none)
  | keyword {n e k : Word} : n.IsName → e.Is .equals → k.IsLiteral →
    LiteralWords [n, e, k] (.literal .none n.token.value (some ⟨.none, k.token.value⟩))

/-- literals of an enumeration with bars between them -/
inductive LiteralRow : List Word → List Tree → Prop where
  | one {ws : List Word} {t : Tree} : LiteralWords ws t → LiteralRow ws [t]
  | more {ws us : List Word} {b : Word} {t : Tree} {ts : List Tree} : LiteralWords ws t → b.Is .bar →
    LiteralRow us ts → LiteralRow (ws ++ b :: us) (t :: ts)

theorem gives_enumLiteral (words rest : List Word) (t : Tree) :
    (enumLiteral words).Gives t rest ↔ ∃ ws, words = ws ++ rest ∧ LiteralWords ws t ∧
      (ws.length = 1 → atSymbol .equals rest = false) := by
  simp only [enumLiteral, gives_next', gives_take, gives_map, gives_behindSymbol?]
  refine ⟨?_, ?_⟩
  · intro h
    rcases h with ⟨_, _, ⟨n, rfl, hn, rfl⟩, _, ⟨rfl, rfl, he⟩ | ⟨e, _, _, rfl, he, ⟨k, rfl, hk, rfl⟩, rfl⟩, rfl⟩
    · exact ⟨[n], rfl, .name hn, fun _ => he⟩
    · exact ⟨[n, e, k], rfl, .keyword hn he hk, by simp⟩
  · intro h
    rcases h with ⟨_, rfl, ht, hrest⟩
    cases ht with
    | @name n hn => exact ⟨_, rest, ⟨n, rfl, hn, rfl⟩, none, .inl ⟨rfl, rfl, hrest rfl⟩, rfl⟩
    | @keyword n e k hn he hk =>
      exact ⟨_, _, ⟨n, rfl, hn, rfl⟩, _, .inr ⟨e, k :: rest, _, rfl, he, ⟨k, rfl, hk, rfl⟩, rfl⟩, rfl⟩

theorem gives_enumLiterals {words rest : List Word} (hbar : atSymbol .bar rest = false)
    (hequals : atSymbol .equals rest = false) (t : Tree) :
    (enumLiterals words).Gives t rest ↔ ∃ ws first more, words = ws ++ rest ∧ LiteralRow ws (first :: more) ∧
      t = gather .choice first more := by
  simp only [enumLiterals, gives_next', gives_map, gives_behindSymbols]
  refine ⟨?_, ?_⟩
  · intro h
    obtain ⟨first, mid, hfirst, more, hmore, rfl⟩ := h
    obtain ⟨ws, rfl, hws, -⟩ := (gives_enumLiteral ..).1 hfirst
    clear hfirst
    suffices hrow : ∀ {mid rest : List Word} {more : List Tree},
        BehindSymbols .bar (fun r a m => (enumLiteral r).Gives a m) mid more rest →
        ∀ {ws : List Word} {t : Tree}, LiteralWords ws t →
          ∃ us, ws ++ mid = us ++ rest ∧ LiteralRow us (t :: more) by
      obtain ⟨us, hus, hliterals⟩ := hrow hmore hws
      exact ⟨us, first, more, hus, hliterals, rfl⟩
    intro mid rest more hmore
    induction hmore with
    | stop _ => exact fun {ws _} hws => ⟨ws, rfl, .one hws⟩
    | @more b _ mid rest t ts hb hread _ ih =>
      intro ws first hws
      obtain ⟨us, rfl, hus, -⟩ := (gives_enumLiteral ..).1 hread
      obtain ⟨vs, hvs, hliterals⟩ := ih hus
      exact ⟨ws ++ b :: vs, by rw [hvs]; simp, .more hws (by simpa using hb) hliterals⟩
  · intro h
    obtain ⟨ws, first, more, rfl, hrow, rfl⟩ := h
    suffices hread : ∀ {ts : List Tree}, LiteralRow ws ts → ∃ first mid more,
        (enumLiteral (ws ++ rest)).Gives first mid ∧
        BehindSymbols .bar (fun r a m => (enumLiteral r).Gives a m) mid more rest ∧ ts = first :: more by
      obtain ⟨first', mid, more', hfirst, hmore, heq⟩ := hread hrow
      cases heq
      exact ⟨first, mid, hfirst, more, hmore, rfl⟩
    intro ts hts
    clear hrow
    induction hts with
    | @one ws t ht =>
      have hread : (enumLiteral (ws ++ rest)).Gives t rest := (gives_enumLiteral ..).2 ⟨ws, rfl, ht, fun _ => hequals⟩
      exact ⟨t, rest, [], hread, .stop (by simp [atMark_iff, hbar]), rfl⟩
    | @more ws us b t ts ht hb _ ih =>
      obtain ⟨first, mid, more, hfirst, hmore, rfl⟩ := ih
      have hread : (enumLiteral (ws ++ b :: us ++ rest)).Gives t (b :: (us ++ rest)) :=
        (gives_enumLiteral ..).2 ⟨ws, by simp, ht, fun _ => atSymbol_of_is hb (by decide) _⟩
      exact ⟨t, _, first :: more, hread, .more (by simpa using hb) hfirst hmore, rfl⟩

/-- a star, or nothing; only a fragment may have one -/
inductive Starred (fragment : Bool) : List Word → Prop where
  | absent : Starred fragment []
  | star {x : Word} : fragment = true → x.Is .star → Starred fragment [x]

/-- the words are the declaration of a rule, without annotations before it -/
inductive Declared : List Word → WrittenRule → Prop where
  | parser {fs ss ts hs ws : List Word} {fragment : Bool} {n c s : Word} {type : Option Text} {hidden : List Text}
    {t : Tree} : FragmentClause fs fragment → n.IsName → Starred fragment ss → TypeClause ts type →
    HiddenClause hs hidden → c.Is .colon → Spells .parser .alternatives ws [t] → s.Is .semicolon →
    (fragment = false → atName (ts ++ (hs ++ [c])) = true → n.token.value ∉ introducers) →
    Declared (fs ++ n :: (ss ++ (ts ++ (hs ++ c :: (ws ++ [s])))))
      ⟨.parser fragment hidden, n.token.value, type, none, some n.token.line, some t⟩
  | terminal {x : Word} {fs ts ws : List Word} {fragment : Bool} {n c s : Word} {type : Option Text} {t : Tree} :
    x.IsWord "terminal" → FragmentClause fs fragment → n.IsName → TypeClause ts type → c.Is .colon →
    Spells .terminal .alternatives ws [t] → s.Is .semicolon →
    (fragment = false → atName (ts ++ [c]) = true → n.token.value ≠ "fragment") →
    Declared (x :: (fs ++ n :: (ts ++ c :: (ws ++ [s]))))
      ⟨.terminal fragment, n.token.value, type, none, some n.token.line, some t⟩
  | enumeration {x n c s : Word} {ts ws : List Word} {type : Option Text} {first : Tree} {more : List Tree} :
    x.IsWord "enum" → n.IsName → TypeClause ts type → c.Is .colon → LiteralRow ws (first :: more) → s.Is .semicolon →
    Declared (x :: n :: (ts ++ c :: (ws ++ [s])))
      ⟨.enumeration, n.token.value, type, none, some n.token.line, some (gather .choice first more)⟩

theorem atName_append_cons (ws : List Word) (c : Word) (more : List Word) :
    atName (ws ++ c :: more) = atName (ws ++ [c]) := by
  cases ws <;> rfl

theorem typeClause_of_gives {words rest : List Word} {type : Option Text} (h : (returnsHere words).Gives type rest) :
    ∃ ts, words = ts ++ rest ∧ TypeClause ts type := by
  rcases (gives_returnsHere ..).1 h with ⟨rfl, rfl, -⟩ | ⟨x, ws, v, rfl, hx, hv, -, rfl⟩
  · exact ⟨[], rfl, .absent⟩
  · exact ⟨x :: ws, rfl, .declared hx hv⟩

theorem starred_of_gives {fragment star : Bool} {words rest : List Word}
    (h : (starHere fragment words).Gives star rest) : ∃ ss, words = ss ++ rest ∧ Starred fragment ss := by
  unfold starHere at h
  split at h
  · next hstar =>
    simp only [gives_loose, gives_map, gives_takeSymbol] at h
    obtain ⟨_, ⟨x, rfl, hx, -⟩, -⟩ := h
    exact ⟨[x], rfl, .star (Bool.and_eq_true_iff.1 hstar).1 hx⟩
  · obtain ⟨-, rfl⟩ := (gives_nothing ..).1 h
    exact ⟨[], rfl, .absent⟩

theorem declared_of_terminalRule {words rest : List Word} {r : WrittenRule} (h : (terminalRule words).Gives r rest) :
    ∃ ws, words = ws ++ rest ∧ Declared ws r := by
  simp only [terminalRule, gives_next', gives_take, gives_takeWord, gives_map, gives_definition] at h
  obtain ⟨_, introduced, ⟨x, rfl, hx, -⟩, fragment, _, hfragment, _, typed, ⟨n, rfl, hn, rfl⟩, type, _, hreturns, t,
    ⟨c, ws, s, rfl, hc, ht, hs⟩, rfl⟩ := h
  obtain ⟨ts, rfl, hts⟩ := typeClause_of_gives hreturns
  rcases (gives_fragmentHere ..).1 hfragment with ⟨rfl, rfl, hnot⟩ | ⟨rfl, f, rfl, hf, -⟩
  · refine ⟨x :: ([] ++ n :: (ts ++ c :: (ws ++ [s]))), by simp, .terminal hx .absent hn hts hc ht hs fun _ hname => ?_⟩
    exact not_word_of_introduces hnot hn ((atName_append_cons ..).trans hname)
  · exact ⟨x :: ([f] ++ n :: (ts ++ c :: (ws ++ [s]))), by simp, .terminal hx (.present hf) hn hts hc ht hs (by simp)⟩

theorem declared_of_enumRule {words rest : List Word} {r : WrittenRule} (h : (enumRule words).Gives r rest) :
    ∃ ws, words = ws ++ rest ∧ Declared ws r := by
  simp only [enumRule, gives_next', gives_take, gives_takeWord, gives_takeSymbol, gives_map] at h
  obtain ⟨_, _, ⟨x, rfl, hx, -⟩, _, typed, ⟨n, rfl, hn, rfl⟩, type, _, hreturns, _, body, ⟨c, rfl, hc, -⟩, t, _, ht, _,
    ⟨s, rfl, hs, -⟩, rfl⟩ := h
  obtain ⟨ts, rfl, hts⟩ := typeClause_of_gives hreturns
  obtain ⟨ws, first, more, rfl, hrow, rfl⟩ :=
    (gives_enumLiterals (atSymbol_of_is hs (by decide) _) (atSymbol_of_is hs (by decide) _) t).1 ht
  exact ⟨x :: n :: (ts ++ c :: (ws ++ [s])), by simp, .enumeration hx hn hts hc hrow hs⟩

theorem declared_of_parserRule {words rest : List Word} {r : WrittenRule}
    (hterminal : introduces "terminal" words = false) (henum : introduces "enum" words = false)
    (h : (parserRule words).Gives r rest) : ∃ ws, words = ws ++ rest ∧ Declared ws r := by
  simp only [parserRule, gives_next', gives_take] at h
  obtain ⟨fragment, _, hfragment, _, behind, ⟨n, rfl, hn, rfl⟩, hbehind⟩ := h
  split at hbehind
  · simp at hbehind
  simp only [gives_next', gives_map, gives_definition] at hbehind
  obtain ⟨_, typed, hstar, type, _, hreturns, hidden, _, hhidden, t, ⟨c, ws, s, rfl, hc, ht, hs⟩, rfl⟩ := hbehind
  obtain ⟨ss, rfl, hss⟩ := starred_of_gives hstar
  obtain ⟨ts, rfl, hts⟩ := typeClause_of_gives hreturns
  obtain ⟨hs', rfl, hhs⟩ := hiddenClause_of_gives hhidden
  rcases (gives_fragmentHere ..).1 hfragment with ⟨rfl, rfl, hnot⟩ | ⟨rfl, f, rfl, hf, -⟩
  · obtain rfl : ss = [] := by
      cases hss with
      | absent => rfl
      | star hstarred _ => cases hstarred
    refine ⟨[] ++ n :: ([] ++ (ts ++ (hs' ++ c :: (ws ++ [s])))), by simp,
      .parser .absent hn .absent hts hhs hc ht hs fun _ hname => ?_⟩
    have hat : atName ([] ++ (ts ++ (hs' ++ c :: (ws ++ s :: rest)))) = true := by
      rw [List.nil_append, ← List.append_assoc, atName_append_cons, List.append_assoc]
      exact hname
    simp only [introducers, List.mem_cons, List.not_mem_nil, or_false, not_or]
    exact ⟨not_word_of_introduces hterminal hn hat, not_word_of_introduces henum hn hat,
      not_word_of_introduces hnot hn hat⟩
  · exact ⟨[f] ++ n :: (ss ++ (ts ++ (hs' ++ c :: (ws ++ [s])))), by simp,
      .parser (.present hf) hn hss hts hhs hc ht hs (by simp)⟩

/-- where a star may stand, the reader of one takes it -/
theorem gives_of_starred {fragment : Bool} {ss rest : List Word} (h : Starred fragment ss)
    (hrest : atSymbol .star rest = false) : ∃ star, (starHere fragment (ss ++ rest)).Gives star rest := by
  cases h with
  | absent => exact ⟨false, by simp [starHere, hrest]⟩
  | @star x hfragment hx => exact ⟨true, by simp [starHere, hfragment, hx.kind, Word.Is, atSymbol, Token.isSymbol]⟩

/-- the reader of rules takes the declaration of a rule, whatever stands behind it -/
theorem gives_rule_iff (words rest : List Word) (r : WrittenRule) :
    (rule words).Gives r rest ↔ ∃ ws, words = ws ++ rest ∧ Declared ws r := by
  refine ⟨?_, ?_⟩
  · intro h
    unfold rule at h
    split at h
    · exact declared_of_terminalRule h
    · split at h
      · exact declared_of_enumRule h
      · next hterminal henum => exact declared_of_parserRule (by simpa using hterminal) (by simpa using henum) h
  · intro h
    obtain ⟨ws, rfl, h⟩ := h
    cases h with
    | @parser fs ss ts hs ws fragment n c s type hidden t hf hn hss hts hhs hc ht hsemi hdistinct =>
      set more := ws ++ s :: rest
      have hwords : fs ++ n :: (ss ++ (ts ++ (hs ++ c :: (ws ++ [s])))) ++ rest =
          fs ++ n :: (ss ++ (ts ++ (hs ++ c :: more))) := by simp [more]
      -- a star stands behind `fragment` only, and that introduces nothing else
      have hname : fragment = false → atName (ss ++ (ts ++ (hs ++ c :: more))) = true →
          n.token.value ∉ introducers := by
        intro hplain hat
        refine hdistinct hplain ?_
        cases hss with
        | absent =>
          rwa [List.nil_append, ← List.append_assoc, atName_append_cons, List.append_assoc] at hat
        | star hfragment _ => rw [hplain] at hfragment; cases hfragment
      have hfragment := gives_of_fragmentClause hf hn fun hplain hat heq =>
        hname hplain hat (by rw [heq]; decide)
      have hless : ¬ atSymbol .less (ss ++ (ts ++ (hs ++ c :: more))) = true := by
        cases hss with
        | absent => exact Bool.eq_false_iff.1 (atSymbol_clauses hts hhs hc (by decide) more)
        | star _ hx => simp [hx.kind, Word.Is]
      obtain ⟨star, hstar⟩ := gives_of_starred hss (atSymbol_clauses hts hhs hc (by decide) more)
      have htype : (returnsHere (ts ++ (hs ++ c :: more))).Gives type (hs ++ c :: more) :=
        gives_of_typeClause hts (atSymbol_hidden hhs hc (by decide) more) (atWord_hidden hhs hc (by decide) more)
      have hhidden : (hiddenHere (hs ++ c :: more)).Gives hidden (c :: more) :=
        gives_of_hiddenClause hhs fun _ => by simp [atWord, Token.isWord, hc.kind]
      have hdefinition : (definition .parser (c :: more)).Gives t rest :=
        (gives_definition ..).2 ⟨c, ws, s, rfl, hc, ht, hsemi⟩
      rw [hwords, rule_eq_parserRule hf hname, parserRule, hfragment.next_iff, (gives_takeName hn _ _).next_iff,
        if_neg hless, hstar.next_iff, htype.next_iff, hhidden.next_iff, gives_map]
      exact ⟨t, hdefinition, rfl⟩
    | @terminal x fs ts ws fragment n c s type t hx hf hn hts hc ht hs hdistinct =>
      set more := ws ++ s :: rest
      have hwords : x :: (fs ++ n :: (ts ++ c :: (ws ++ [s]))) ++ rest = x :: (fs ++ n :: (ts ++ c :: more)) := by
        simp [more]
      have hdefinition : (definition .terminal (c :: more)).Gives t rest :=
        (gives_definition ..).2 ⟨c, ws, s, rfl, hc, ht, hs⟩
      have hname : fragment = false → atName (ts ++ c :: more) = true → n.token.value ≠ "fragment" := fun hplain hat =>
        hdistinct hplain ((atName_append_cons ..).symm.trans hat)
      rw [hwords, rule_eq_terminalRule hx hf hn]
      exact (gives_terminalRule_iff hx hf hn hts hc more hname _ rest).2 ⟨t, hdefinition, rfl⟩
    | @enumeration x n c s ts ws type first more hx hn hts hc hrow hs =>
      set body := ws ++ s :: rest
      have hwords : x :: n :: (ts ++ c :: (ws ++ [s])) ++ rest = x :: n :: (ts ++ c :: body) := by simp [body]
      have hliterals : (enumLiterals body).Gives (gather .choice first more) (s :: rest) :=
        (gives_enumLiterals (atSymbol_of_is hs (by decide) _) (atSymbol_of_is hs (by decide) _) _).2
          ⟨ws, first, more, rfl, hrow, rfl⟩
      rw [hwords, rule_eq_enumRule hx hn]
      exact (gives_enumRule_iff hx hn hts hc body _ rest).2 ⟨_, ⟨c, body, s, rfl, hc, hliterals, hs⟩, rfl⟩

/-! ## Declarations elsewhere -/

/-- what is read of a rule, wherever it stands -/
def Declaration.placeless (r : WrittenRule) : WrittenRule :=
  { r with line := none, definition := r.definition.map Rulebook.placeless }

/-- what is the same about rules that differ in places only -/
theorem written_of_placeless {r r' : WrittenRule} (h : r'.placeless = r.placeless) :
    r'.kind = r.kind ∧ r'.name = r.name ∧ r'.typeName = r.typeName ∧ r'.comment = r.comment := by
  simp only [Declaration.placeless, Declaration.mk.injEq] at h
  exact ⟨h.1, h.2.1, h.2.2.1, h.2.2.2.1⟩

theorem names_of_placeless {rs rs' : List WrittenRule}
    (h : rs'.map Declaration.placeless = rs.map Declaration.placeless) :
    rs'.map Declaration.name = rs.map Declaration.name := by
  have hnames := congrArg (List.map Declaration.name) h
  rw [List.map_map, List.map_map] at hnames
  exact hnames

/-- where a call stands does not matter to what it means -/
theorem Scope.resolve_placeless (s : Scope) (c : WrittenCall) : s.resolve c.placeless = s.resolve c := rfl

section Elsewhere

variable {us ws : List Word}

theorem fragmentClause_same {fragment : Bool} (h : FragmentClause ws fragment)
    (hus : us.map Word.key = ws.map Word.key) : FragmentClause us fragment := by
  cases h with
  | absent =>
    obtain rfl := words_nil hus
    exact .absent
  | present hx =>
    obtain ⟨x, rfl, hkey⟩ := same_one hus
    exact .present (isWord_same hx hkey)

theorem starred_same {fragment : Bool} (h : Starred fragment ws) (hus : us.map Word.key = ws.map Word.key) :
    Starred fragment us := by
  cases h with
  | absent =>
    obtain rfl := words_nil hus
    exact .absent
  | star hfragment hx =>
    obtain ⟨x, rfl, hkey⟩ := same_one hus
    exact .star hfragment (hx.same hkey)

theorem typeClause_same {type : Option Text} (h : TypeClause ws type) (hus : us.map Word.key = ws.map Word.key) :
    TypeClause us type := by
  cases h with
  | absent =>
    obtain rfl := words_nil hus
    exact .absent
  | declared hx hv =>
    obtain ⟨x, us', rfl, hkey, hus'⟩ := same_cons hus
    obtain ⟨v', hv', -, -, hname⟩ := named_same hv hus'
    exact hname ▸ .declared (isWord_same hx hkey) hv'

theorem ruleNames_same {ns : List Text} (h : RuleNames ws ns) (hus : us.map Word.key = ws.map Word.key) :
    RuleNames us ns := by
  induction h generalizing us with
  | one hv =>
    obtain ⟨v', hv', -, -, hname⟩ := named_same hv hus
    exact hname ▸ .one hv'
  | more hv hc _ ih =>
    obtain ⟨us₁, more, rfl, hus₁, hmore⟩ := same_append hus
    obtain ⟨c, us₂, rfl, hckey, hus₂⟩ := same_cons hmore
    obtain ⟨v', hv', -, -, hname⟩ := named_same hv hus₁
    exact hname ▸ .more hv' (hc.same hckey) (ih hus₂)

theorem hiddenClause_same {ns : List Text} (h : HiddenClause ws ns) (hus : us.map Word.key = ws.map Word.key) :
    HiddenClause us ns := by
  cases h with
  | absent =>
    obtain rfl := words_nil hus
    exact .absent
  | empty hx ho hc =>
    obtain ⟨x, _, rfl, hxkey, hmore⟩ := same_cons hus
    obtain ⟨o, _, rfl, hokey, hlast⟩ := same_cons hmore
    obtain ⟨c, rfl, hckey⟩ := same_one hlast
    exact .empty (isWord_same hx hxkey) (ho.same hokey) (hc.same hckey)
  | names hx ho hns hc =>
    obtain ⟨x, _, rfl, hxkey, hmore⟩ := same_cons hus
    obtain ⟨o, _, rfl, hokey, hmore⟩ := same_cons hmore
    obtain ⟨us', _, rfl, hus', hlast⟩ := same_append hmore
    obtain ⟨c, rfl, hckey⟩ := same_one hlast
    exact .names (isWord_same hx hxkey) (ho.same hokey) (ruleNames_same hns hus') (hc.same hckey)

theorem literalWords_same {t : Tree} (h : LiteralWords ws t) (hus : us.map Word.key = ws.map Word.key) :
    LiteralWords us t := by
  cases h with
  | name hn =>
    obtain ⟨n, rfl, hkey⟩ := same_one hus
    exact value_eq hkey ▸ .name (hn.same hkey)
  | keyword hn he hk =>
    obtain ⟨n, _, rfl, hnkey, hmore⟩ := same_cons hus
    obtain ⟨e, _, rfl, hekey, hlast⟩ := same_cons hmore
    obtain ⟨k, rfl, hkkey⟩ := same_one hlast
    exact value_eq hnkey ▸ value_eq hkkey ▸ .keyword (hn.same hnkey) (he.same hekey) (hk.same hkkey)

theorem literalRow_same {ts : List Tree} (h : LiteralRow ws ts) (hus : us.map Word.key = ws.map Word.key) :
    LiteralRow us ts := by
  induction h generalizing us with
  | one ht => exact .one (literalWords_same ht hus)
  | more ht hb _ ih =>
    obtain ⟨us₁, more, rfl, hus₁, hmore⟩ := same_append hus
    obtain ⟨b, us₂, rfl, hbkey, hus₂⟩ := same_cons hmore
    exact .more (literalWords_same ht hus₁) (hb.same hbkey) (ih hus₂)

theorem atName_same (hus : us.map Word.key = ws.map Word.key) : atName us = atName ws := by
  cases ws with
  | nil => rw [words_nil hus]
  | cons w ws =>
    obtain ⟨u, us', rfl, hkey, -⟩ := same_cons hus
    rw [atName, atName, kind_eq hkey]

/-- words that say the same declare the same rule -/
theorem declared_same {r : WrittenRule} (h : Declared ws r) (hus : us.map Word.key = ws.map Word.key) :
    ∃ r', Declared us r' ∧ r'.placeless = r.placeless := by
  cases h with
  | parser hf hn hss hts hhs hc ht hs hdistinct =>
    obtain ⟨fs', _, rfl, hfs', hmore⟩ := same_append hus
    obtain ⟨n', _, rfl, hnkey, hmore⟩ := same_cons hmore
    obtain ⟨ss', _, rfl, hss', hmore⟩ := same_append hmore
    obtain ⟨ts', _, rfl, hts', hmore⟩ := same_append hmore
    obtain ⟨hs', _, rfl, hhs', hmore⟩ := same_append hmore
    obtain ⟨c', _, rfl, hckey, hmore⟩ := same_cons hmore
    obtain ⟨ws', _, rfl, hws', hlast⟩ := same_append hmore
    obtain ⟨s', rfl, hskey⟩ := same_one hlast
    obtain ⟨trees, ht', htrees⟩ := spells_same ht hws'
    obtain ⟨t', rfl, htree⟩ := List.map_eq_singleton_iff.1 htrees
    refine ⟨_, .parser (fragmentClause_same hf hfs') (hn.same hnkey) (starred_same hss hss') (typeClause_same hts hts')
      (hiddenClause_same hhs hhs') (hc.same hckey) ht' (hs.same hskey) fun hplain hat => ?_, ?_⟩
    · rw [value_eq hnkey]
      refine hdistinct hplain ((atName_same ?_).symm.trans hat)
      simp [hts', hhs', hckey]
    · simp [Declaration.placeless, value_eq hnkey, htree]
  | terminal hx hf hn hts hc ht hs hdistinct =>
    obtain ⟨x', _, rfl, hxkey, hmore⟩ := same_cons hus
    obtain ⟨fs', _, rfl, hfs', hmore⟩ := same_append hmore
    obtain ⟨n', _, rfl, hnkey, hmore⟩ := same_cons hmore
    obtain ⟨ts', _, rfl, hts', hmore⟩ := same_append hmore
    obtain ⟨c', _, rfl, hckey, hmore⟩ := same_cons hmore
    obtain ⟨ws', _, rfl, hws', hlast⟩ := same_append hmore
    obtain ⟨s', rfl, hskey⟩ := same_one hlast
    obtain ⟨trees, ht', htrees⟩ := spells_same ht hws'
    obtain ⟨t', rfl, htree⟩ := List.map_eq_singleton_iff.1 htrees
    refine ⟨_, .terminal (isWord_same hx hxkey) (fragmentClause_same hf hfs') (hn.same hnkey)
      (typeClause_same hts hts') (hc.same hckey) ht' (hs.same hskey) fun hplain hat => ?_, ?_⟩
    · rw [value_eq hnkey]
      refine hdistinct hplain ((atName_same ?_).symm.trans hat)
      simp [hts', hckey]
    · simp [Declaration.placeless, value_eq hnkey, htree]
  | enumeration hx hn hts hc hrow hs =>
    obtain ⟨x', _, rfl, hxkey, hmore⟩ := same_cons hus
    obtain ⟨n', _, rfl, hnkey, hmore⟩ := same_cons hmore
    obtain ⟨ts', _, rfl, hts', hmore⟩ := same_append hmore
    obtain ⟨c', _, rfl, hckey, hmore⟩ := same_cons hmore
    obtain ⟨ws', _, rfl, hws', hlast⟩ := same_append hmore
    obtain ⟨s', rfl, hskey⟩ := same_one hlast
    refine ⟨_, .enumeration (isWord_same hx hxkey) (hn.same hnkey) (typeClause_same hts hts') (hc.same hckey)
      (literalRow_same hrow hws') (hs.same hskey), ?_⟩
    simp [Declaration.placeless, value_eq hnkey]

end Elsewhere

end Rulebook
