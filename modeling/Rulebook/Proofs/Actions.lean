/-
Actions in a printed rule. The printer writes parentheses around what binds too loosely for its place. An action binds
as tightly as a keyword, so it gets none, and what stands around it is written right beside its braces; but the language
has no cardinality behind an action and no predicate before one. A tree has such an action where parentheses stood.

Which token may stand beside which (`Beside`) is enough to tell. The words of a parser rule are always `Spaced`, and the
tokens of a printed definition only if nothing stands around any action.

- `printed_rule_is_accepted_iff`: the text of a parser rule is read exactly when no action in it has a cardinality or a
  predicate;
- `starred_action_is_refused`: the text of `A:({X})*;` is not.
-/
import Rulebook.Proofs.Openings
import Rulebook.Proofs.PrintedCalls

namespace Rulebook

open Source Rulebook.Reading Element

/-! ## Tokens beside each other -/

def cardinalityKinds : List TokenKind := [.symbol .question, .symbol .star, .symbol .plus]

def predicateKinds : List TokenKind := [.symbol .fatArrow, .symbol .arrow]

/-- in a parser rule a token of the second kind may stand right behind one of the first: it is no cardinality behind an
action and no action behind a predicate -/
def Beside (k l : TokenKind) : Prop :=
  (k = .symbol .closeBrace → l ∉ cardinalityKinds) ∧ (k ∈ predicateKinds → l ≠ .symbol .openBrace)

/-- any token may stand behind one of this kind -/
def Neutral (k : TokenKind) : Prop := k ≠ .symbol .closeBrace ∧ k ∉ predicateKinds

instance (k l : TokenKind) : Decidable (Beside k l) := inferInstanceAs (Decidable (_ ∧ _))

instance (k : TokenKind) : Decidable (Neutral k) := inferInstanceAs (Decidable (_ ∧ _))

/-- one of this kind may stand behind any token -/
def Mild (l : TokenKind) : Prop := l ∉ cardinalityKinds ∧ l ≠ .symbol .openBrace

instance (l : TokenKind) : Decidable (Mild l) := inferInstanceAs (Decidable (_ ∧ _))

theorem Neutral.beside {k : TokenKind} (h : Neutral k) (l : TokenKind) : Beside k l :=
  ⟨fun hk => absurd hk h.1, fun hk => absurd hk h.2⟩

theorem Mild.beside {l : TokenKind} (h : Mild l) (k : TokenKind) : Beside k l := ⟨fun _ => h.1, fun _ => h.2⟩

namespace Source

variable {w : Word} {s : Symbol}

theorem Word.IsName.neutral (h : w.IsName) : Neutral w.token.kind := h.kind ▸ by decide

theorem Word.IsLiteral.neutral (h : w.IsLiteral) : Neutral w.token.kind := h.kind ▸ by decide

theorem Word.Is.neutral (h : w.Is s) (hs : Neutral (.symbol s)) : Neutral w.token.kind := h.kind ▸ hs

theorem Word.Is.mild (h : w.Is s) (hs : Mild (.symbol s)) : Mild w.token.kind := h.kind ▸ hs

theorem kind_of_predicate {p : Predicate} (h : predicate? w.token = some p) : w.token.kind ∈ predicateKinds := by
  unfold predicate? at h
  split at h
  · next hkind => exact hkind ▸ by decide
  · next hkind => exact hkind ▸ by decide
  · cases h

theorem kind_of_cardinality {c : Cardinality} (h : cardinality? w.token = some c) :
    w.token.kind ∈ cardinalityKinds := by
  unfold cardinality? at h
  split at h
  · next hkind => exact hkind ▸ by decide
  · next hkind => exact hkind ▸ by decide
  · next hkind => exact hkind ▸ by decide
  · cases h

theorem neutral_of_assignment (h : isAssignment w.token = true) : Neutral w.token.kind := by
  simp only [isAssignment, Bool.or_eq_true, Token.isSymbol_iff] at h
  rcases h with (h | h) | h <;> exact h ▸ by decide

theorem Named.neutral {ws : List Word} {v : Token × Option Token} (h : Named ws v) :
    ∀ w ∈ ws, Neutral w.token.kind := by
  cases h with
  | plain hn => exact List.forall_mem_singleton.2 hn.neutral
  | qualified hq hc hn =>
    exact List.forall_mem_cons.2 ⟨hq.neutral, List.forall_mem_cons.2 ⟨hc.neutral (by decide),
      List.forall_mem_singleton.2 hn.neutral⟩⟩

theorem Leaf.neutral {m : Mode} {ws : List Word} {t : Tree} (h : Leaf m ws t) : ∀ w ∈ ws, Neutral w.token.kind := by
  cases h with
  | keyword hw => exact List.forall_mem_singleton.2 hw.neutral
  | call h =>
    obtain ⟨hv, -⟩ := h
    exact hv.neutral

theorem Referenced.neutral {ws : List Word} {t : Tree} (h : Referenced ws t) : ∀ w ∈ ws, Neutral w.token.kind := by
  obtain ⟨ho, hv, hu, hc⟩ := h
  refine List.forall_mem_append.2 ⟨List.forall_mem_cons.2 ⟨ho.neutral (by decide),
    List.forall_mem_append.2 ⟨hv.neutral, ?_⟩⟩, List.forall_mem_singleton.2 (hc.neutral (by decide))⟩
  cases hu with
  | nothing => exact List.forall_mem_nil _
  | terminal hb ht => exact List.forall_mem_cons.2 ⟨hb.neutral (by decide), ht.neutral⟩

end Source

/-! ## Words that are read -/

/-- each word may stand beside the next -/
abbrev Spaced (ws : List Word) : Prop := ws.IsChain fun w u => Beside w.token.kind u.token.kind

theorem spaced_of_neutral {ws : List Word} (h : ∀ w ∈ ws, Neutral w.token.kind) : Spaced ws := by
  induction ws with
  | nil => exact .nil
  | cons w ws ih =>
    obtain ⟨hw, hws⟩ := List.forall_mem_cons.1 h
    exact (ih hws).cons fun u _ => hw.beside _

/-- a part that ends neither in an action nor in a predicate -/
def Source.Part.Firm : Part → Prop
  | .plain | .atom | .member | .assignable => True
  | _ => False

/-- the words are spaced, and they end as the part does -/
structure Settled (p : Part) (ws : List Word) : Prop where
  spaced : Spaced ws
  ends : ∀ w ∈ ws.getLast?, w.token.kind ∉ predicateKinds ∧ (p.Firm → Neutral w.token.kind)

namespace Settled

variable {p q : Part} {ws us : List Word}

theorem of_neutral (h : ∀ w ∈ ws, Neutral w.token.kind) : Settled p ws :=
  ⟨spaced_of_neutral h, fun w hw =>
    have hlast := h w (List.mem_of_getLast? hw)
    ⟨hlast.2, fun _ => hlast⟩⟩

theorem lift (h : Settled p ws) (hfirm : q.Firm → p.Firm) : Settled q ws :=
  ⟨h.spaced, fun w hw => ⟨(h.ends w hw).1, fun hq => (h.ends w hw).2 (hfirm hq)⟩⟩

/-- words stand in front of words that end as the part does -/
theorem behind (h : Settled p ws) (hne : ws ≠ []) (hus : Spaced us)
    (hmeet : ∀ u ∈ us.getLast?, ∀ w ∈ ws.head?, Beside u.token.kind w.token.kind) : Settled p (us ++ ws) := by
  refine ⟨hus.append h.spaced hmeet, ?_⟩
  rw [List.getLast?_append_of_ne_nil _ hne]
  exact h.ends

theorem behindNeutral (h : Settled p ws) (hne : ws ≠ []) (hus : ∀ u ∈ us, Neutral u.token.kind) :
    Settled p (us ++ ws) :=
  h.behind hne (spaced_of_neutral hus) fun u hu _ _ => (hus u (List.mem_of_getLast? hu)).beside _

/-- a last word that may stand behind any other -/
theorem close (h : Spaced ws) {c : Word} (hmild : Mild c.token.kind) (hfinal : c.token.kind ∉ predicateKinds)
    (hfirm : p.Firm → Neutral c.token.kind) : Settled p (ws ++ [c]) :=
  behind (p := p) ⟨.singleton c, by rintro _ ⟨⟩; exact ⟨hfinal, hfirm⟩⟩ (by simp) h
    (by rintro u - _ ⟨⟩; exact hmild.beside _)

theorem inParens (h : Settled p ws) {o c : Word} (ho : o.Is .openParen) (hc : c.Is .closeParen) :
    Settled q (o :: ws ++ [c]) :=
  close (h.spaced.cons fun _ _ => (ho.neutral (by decide)).beside _) (hc.mild (by decide)) (hc.kind ▸ by decide)
    fun _ => hc.neutral (by decide)

end Settled

theorem settled_of_acts {ws : List Word} {t : Tree} (h : Acts ws t) : Settled .element ws := by
  obtain ⟨ho, hv, hu, hc⟩ := h
  refine .close (spaced_of_neutral (List.forall_mem_cons.2 ⟨ho.neutral (by decide),
    List.forall_mem_append.2 ⟨hv.neutral, ?_⟩⟩)) (hc.mild (by decide)) (hc.kind ▸ by decide) (fun h => h.elim)
  cases hu with
  | nothing => exact List.forall_mem_nil _
  | feature hd hf hop hk =>
    have hoperator := hop.elim (fun h => h.neutral (by decide)) fun h => h.neutral (by decide)
    exact List.forall_mem_cons.2 ⟨hd.neutral (by decide), List.forall_mem_cons.2 ⟨hf.neutral,
      List.forall_mem_cons.2 ⟨hoperator, List.forall_mem_singleton.2 hk.1.neutral⟩⟩⟩

/-- a cardinality behind what ends in no action -/
theorem settled_counted {ws cs : List Word} {c : Option Cardinality} (h : Settled .plain ws)
    (hcs : Marked cardinality? cs c) :
    Settled .element (ws ++ cs) := by
  cases hcs with
  | absent =>
    rw [List.append_nil]
    exact h.lift fun h => h.elim
  | @present x c hx =>
    have hlast : Settled .element [x] := by
      refine ⟨.singleton x, fun w hw => ?_⟩
      obtain rfl := Option.some.inj hw
      exact ⟨(by decide : ∀ k ∈ cardinalityKinds, k ∉ predicateKinds) _ (kind_of_cardinality hx), fun h => h.elim⟩
    exact hlast.behind (by simp) h.spaced fun w hw _ _ => ((h.ends w hw).2 trivial).beside _

/-- the words of a parser rule are spaced -/
theorem settled_of_spells {p : Part} {ws : List Word} {ts : List Tree} (h : Spells .parser p ws ts)
    (hp : p.Of .parser) :
    Settled p ws := by
  induction h with
  | rowOne _ ih => exact (ih hp.2).lift fun h => h.elim
  | @rowMore s p ws us b t ts _ hb hrow ih ihrow =>
    have hmark : Neutral (.symbol s) ∧ Mild (.symbol s) := by
      rcases hp.1 with rfl | rfl <;> exact ⟨by decide, by decide⟩
    obtain ⟨u, more, rfl, -⟩ := hrow.begins
    have hmore : Settled (.row s p) ([b] ++ u :: more) :=
      (ihrow hp).behindNeutral (by simp) (List.forall_mem_singleton.2 (hb.neutral hmark.1))
    exact hmore.behind (by simp) (ih hp.2).spaced fun _ _ _ hw => Option.some.inj hw ▸ (hb.mild hmark.2).beside _
  | alternatives _ ih => exact (ih ⟨.inl rfl, trivial⟩).lift fun h => h.elim
  | unordered _ ih => exact (ih ⟨.inr rfl, trivial⟩).lift fun h => h.elim
  | sequence _ ih => exact (ih trivial).lift fun h => h.elim
  | elementsOne _ ih => exact (ih trivial).lift fun h => h.elim
  | elementsMore _ hmore ih ihmore =>
    -- an element may begin with a brace, but none ends in a predicate
    obtain ⟨u, more, rfl, hu⟩ := hmore.begins
    refine (ihmore trivial).behind (by simp) (ih trivial).spaced fun w hw _ hhead => ?_
    obtain rfl := Option.some.inj hhead
    refine ⟨fun _ => ?_, fun hpredicate => absurd hpredicate ((ih trivial).ends w hw).1⟩
    exact (by decide : ∀ k ∈ openers .parser .elements, k ∉ cardinalityKinds) _ hu
  | action _ h => exact settled_of_acts h
  | @element ps ws cs p c t hps _ hplain hcs ih =>
    have hcounted := settled_counted (ih trivial) hcs
    obtain ⟨u, more, rfl, hu⟩ := hplain.begins
    rw [List.append_assoc]
    cases hps with
    | absent => exact hcounted
    | present hx =>
      refine hcounted.behind (by simp) (.singleton _) fun w hw _ hhead => ?_
      obtain rfl := Option.some.inj hw
      obtain rfl := Option.some.inj hhead
      exact (by decide : ∀ k ∈ predicateKinds, ∀ l ∈ openers .parser .plain, Beside k l) _
        (kind_of_predicate hx) _ hu
  | assignment hm hf ho hmember ih =>
    obtain ⟨u, more, rfl, -⟩ := hmember.begins
    have ho' := neutral_of_assignment ho
    have hwhole := (ih hm).behindNeutral (by simp)
      (List.forall_mem_cons.2 ⟨hf.neutral, List.forall_mem_singleton.2 ho'⟩)
    exact hwhole.lift fun _ => trivial
  | plainAtom _ _ ih => exact (ih trivial).lift fun _ => trivial
  | upTo hm _ _ _ => cases hm
  | plainOperand hm _ _ => cases hm
  | wildcard _ => cases hp
  | endOfFile _ => cases hp
  | range _ _ _ => cases hp
  | negated _ _ _ => cases hp
  | operandAtom _ _ => cases hp
  | leaf h => exact .of_neutral h.neutral
  | group ho _ hc ih => exact (ih trivial).inParens ho hc
  | crossReference h => exact .of_neutral h.neutral
  | memberAssignable _ ih => exact (ih hp).lift fun _ => trivial
  | assignableLeaf h => exact .of_neutral h.neutral
  | assignableGroup ho _ hc ih => exact (ih ⟨.inl rfl, hp⟩).inParens ho hc

/-! ## Definitions that are printed -/

/-- the tokens are spaced as those of a parser rule -/
abbrev SpacedKeys (ks : List Key) : Prop := ks.IsChain fun k l => Beside k.1 l.1

namespace Element

theorem bodyKeys_infix_keys (context : Nat) (e : Outline) : e.bodyKeys <:+: e.keys context := by
  have hinner : e.bodyKeys <:+: if e.parenthesized context then parenKeys e.bodyKeys else e.bodyKeys := by
    split
    · exact ⟨[Symbol.openParen.key], [Symbol.closeParen.key], rfl⟩
    · exact List.infix_refl _
  exact hinner.trans ((List.prefix_append _ _).isInfix.trans (List.suffix_append _ _).isInfix)

theorem infix_intercalate {α : Type} {sep l : List α} {ls : List (List α)} (h : l ∈ ls) :
    l <:+: List.intercalate sep ls := by
  induction ls with
  | nil => cases h
  | cons a ls ih =>
    cases ls with
    | nil =>
      obtain rfl := List.mem_singleton.1 h
      simp
    | cons b ls =>
      rw [List.intercalate_cons_cons, List.append_assoc]
      rcases List.mem_cons.1 h with rfl | hmore
      · exact (List.prefix_append _ _).isInfix
      · exact (ih hmore).trans ((List.suffix_append _ _).isInfix.trans (List.suffix_append _ _).isInfix)

/-- a member is printed as part of its compound -/
theorem keys_infix_compound {d : Decoration} {g : Gathering} {es : List Outline} {e : Outline} (he : e ∈ es)
    (context : Nat) : e.keys g.memberContext <:+: (compound d g es).keys context := by
  refine List.IsInfix.trans ?_ (bodyKeys_infix_keys context _)
  rw [bodyKeys_compound]
  exact infix_intercalate (List.mem_map_of_mem he)

theorem bodyKeys_action (d : Decoration) (n : Text) (f o : Option Text) :
    ∃ inside, bodyKeys (.action d n f o) = Symbol.openBrace.key :: (inside ++ [Symbol.closeBrace.key]) := by
  cases f with
  | none => exact ⟨nameKeys n, rfl⟩
  | some f =>
    exact ⟨nameKeys n ++ [Symbol.dot.key, (.name, f), operatorKey (o.getD "None"), (.name, "current")],
      by simp [bodyKeys]⟩

/-- braces have no predicate before them and no cardinality behind them -/
theorem actionBare_of_spacedKeys {d : Decoration} {n : Text} {f o : Option Text} {context : Nat}
    (h : SpacedKeys ((action d n f o).keys context)) : d.isNone = true := by
  obtain ⟨inside, hbody⟩ := bodyKeys_action d n f o
  have hkeys : (action d n f o).keys context = (d.predicate.map Predicate.key).toList ++
      (Symbol.openBrace.key :: (inside ++ [Symbol.closeBrace.key]) ++ (d.cardinality.map Cardinality.key).toList) := by
    rw [keys, dressKeys, hbody]
    rfl
  rw [hkeys] at h
  obtain ⟨-, hbehind, hbefore⟩ := List.isChain_append.1 h
  obtain ⟨-, -, hafter⟩ := List.isChain_append.1 hbehind
  obtain ⟨c, p⟩ := d
  cases p with
  | some p =>
    have hpredicate : p.key.1 ∈ predicateKinds := by cases p <;> decide
    exact absurd rfl ((hbefore p.key rfl Symbol.openBrace.key rfl).2 hpredicate)
  | none =>
    cases c with
    | some c =>
      have hcardinality : c.key.1 ∈ cardinalityKinds := by cases c <;> decide
      have hlast : (Symbol.openBrace.key :: inside ++ [Symbol.closeBrace.key]).getLast? = some Symbol.closeBrace.key :=
        List.getLast?_concat
      exact absurd hcardinality ((hafter Symbol.closeBrace.key hlast c.key rfl).1 rfl)
    | none => rfl

theorem actionBare_map_iff {ρ σ : Type} (f : ρ → σ) (e : Element ρ) : ActionBare (e.map f) ↔ ActionBare e := by
  cases e <;> exact Iff.rfl

theorem actionBare_of_assignable {e : Outline} (h : Assignable e) : ∀ x ∈ e.nodes, ActionBare x := by
  have hreference : ∀ {e : Outline}, Referable e → ∀ x ∈ e.nodes, ActionBare x := by
    intro e h
    cases h with
    | keyword v => exact (forall_nodes_iff _).2 ⟨trivial, List.forall_mem_nil _⟩
    | call _ => exact (forall_nodes_iff _).2 ⟨trivial, List.forall_mem_nil _⟩
  induction h with
  | reference h => exact hreference h
  | crossReference _ ht =>
    exact (forall_nodes_iff _).2 ⟨trivial, fun c hc => hreference (ht c (by simpa [children] using hc))⟩
  | choice _ _ ih => exact (forall_nodes_iff _).2 ⟨trivial, ih⟩

/-- where the printed tokens are spaced, nothing stands around an action -/
theorem forall_actionBare_of_spacedKeys {e : Outline} (hformed : Formed .parser e) {context : Nat}
    (h : SpacedKeys (e.keys context)) : ∀ x ∈ e.nodes, ActionBare x := by
  induction hformed generalizing context with
  | keyword v _ => exact (forall_nodes_iff _).2 ⟨trivial, List.forall_mem_nil _⟩
  | call _ _ => exact (forall_nodes_iff _).2 ⟨trivial, List.forall_mem_nil _⟩
  | assignment _ _ _ he =>
    exact (forall_nodes_iff _).2 ⟨trivial, List.forall_mem_singleton.2 (actionBare_of_assignable he)⟩
  | action _ _ _ => exact (forall_nodes_iff _).2 ⟨actionBare_of_spacedKeys h, List.forall_mem_nil _⟩
  | compound _ _ _ _ ih =>
    refine (forall_nodes_iff _).2 ⟨trivial, fun e he => ?_⟩
    have hmember := List.IsChain.infix h (keys_infix_compound he context)
    exact ih e he hmember
  | wrapped _ _ _ ih =>
    have hmember := List.IsChain.infix h (keys_infix_compound (List.mem_singleton_self _) context)
    exact (forall_nodes_iff _).2 ⟨trivial, List.forall_mem_singleton.2 (ih hmember)⟩
  | range _ _ hm _ => cases hm
  | wildcard hm _ => cases hm
  | endOfFile hm _ => cases hm
  | negated hm _ _ _ => cases hm
  | upTo hm _ _ _ => cases hm

end Element

/-! ## Printed rules -/

/-- the text of a parser rule is read exactly where nothing stands around an action -/
theorem Printable.readsAs_iff {r : Rule} {e : Outline} (h : Printable r e) (hformed : Formed .parser e)
    {fragment : Bool} {hidden : List Text} (hkind : r.kind = .parser fragment hidden) {p : Text}
    (hp : r.printed = .ok p) : (∃ q, ReadsAs p q) ↔ ∀ x ∈ e.nodes, ActionBare x := by
  refine ⟨fun hread => ?_, fun hbare => ?_⟩
  · obtain ⟨q, hq⟩ := hread
    obtain ⟨hs, c, ws, s, t, -, -, -, hws, -, -, hdefinition, -⟩ := h.accepted hp hq
    rw [hkind] at hdefinition
    obtain ⟨_, us, _, hwords, -, hspells, -⟩ := (gives_definition ..).1 hdefinition
    obtain rfl : ws = us := (List.append_inj' (List.cons.inj hwords).2 rfl).1
    have hspaced : SpacedKeys (ws.map Word.key) :=
      (List.isChain_map Word.key).2 (settled_of_spells hspells trivial).spaced
    exact forall_actionBare_of_spacedKeys hformed (hws ▸ hspaced)
  · have hreads : ReadsBack r := readsBack_of_words h fun c us s hc hus hs => by
      rw [hkind]
      exact gives_printedDefinition hformed hbare hc hus hs
    obtain ⟨text, lexed, read, htext, hlexed, hgives, -⟩ := hreads (Path.ofText "")
    cases hp.symm.trans htext
    exact ⟨read, _, lexed, hlexed, hgives⟩

/-- **The text of a parser rule is accepted if and only if no action in it has a cardinality or a predicate**: every
parser rule of a grammar that is read has a text, and that text is read as a rule, up to its end, exactly when nothing
stands around an action, directly or in parentheses that are gone. -/
theorem printed_rule_is_accepted_iff {load : Text → Library → Library.Outcome Grammar} {file : Path} {source : Text}
    {l : Library} {g : Grammar} (hg : (Library.readWith load file source l).1 = .ok g) {r : Rule} (hr : r ∈ g.rules)
    {fragment : Bool} {hidden : List Text} (hkind : r.kind = .parser fragment hidden) :
    ∃ text, r.printed = .ok text ∧ ((∃ q, ReadsAs text q) ↔ ∀ d ∈ r.definition, ∀ x ∈ d.nodes, ActionBare x) := by
  obtain ⟨e, hprintable, hformed⟩ := printable_parserRule hg hr hkind
  refine ⟨_, hprintable.printed, (hprintable.readsAs_iff hformed hkind hprintable.printed).trans ?_⟩
  obtain ⟨d, hd, rfl⟩ := Option.map_eq_some_iff.1 hprintable.definition
  rw [nodes_map, List.forall_mem_map, hd]
  simp only [actionBare_map_iff, Option.mem_def, Option.some.injEq, forall_eq']

/-- the words of an action `X` that begins in a column -/
def actionWords (column : Nat) : List Word :=
  [⟨⟨.symbol .openBrace, "\x7b", 1, column, 1⟩, none⟩, ⟨⟨.name, "X", 1, column + 1, 1⟩, none⟩,
    ⟨⟨.symbol .closeBrace, "\x7d", 1, column + 2, 1⟩, none⟩]

theorem spells_actionWords (column : Nat) :
    Spells .parser .element (actionWords column) [.action .none "X" none none] :=
  .action rfl (@Acts.intro _ _ [_] [] _ none rfl (.plain rfl) .nothing rfl)

/-- the text of a rule with a plain action is accepted -/
theorem plain_action_is_accepted : ∃ (g : Grammar) (r : Rule) (text : Text),
    (Library.readWith (fun name l => (.ok (Library.stub l.fresh name), l)) (Path.ofText "a") "grammar a A:\x7bX\x7d;"
      Library.empty).1 = .ok g ∧ r ∈ g.rules ∧ r.printed = .ok text ∧ ∃ q, ReadsAs text q := by
  have hlexed : Lexed.ofSource (Path.ofText "a") "grammar a A:\x7bX\x7d;" = .ok
      ⟨[⟨.name, "grammar", 1, 1, 7⟩, ⟨.name, "a", 1, 9, 1⟩, ⟨.name, "A", 1, 11, 1⟩, ⟨.symbol .colon, ":", 1, 12, 1⟩] ++
        (actionWords 13).map Word.token ++ [⟨.symbol .semicolon, ";", 1, 16, 1⟩], ⟨1, 17⟩⟩ := by cbv
  have hread := readWith_bare (fun name l => (.ok (Library.stub l.fresh name), l))
    (s := ⟨⟨.symbol .semicolon, ";", 1, 16, 1⟩, none⟩) hlexed rfl ⟨rfl, rfl⟩ rfl rfl (by decide) rfl
    (alternatives_of_element (spells_actionWords 13)) rfl
  obtain ⟨text, hprinted, hiff⟩ := printed_rule_is_accepted_iff hread List.mem_cons_self rfl
  refine ⟨_, _, text, hread, List.mem_cons_self, hprinted, hiff.2 ?_⟩
  rintro _ ⟨⟩
  exact (forall_nodes_iff _).2 ⟨rfl, List.forall_mem_nil _⟩

/-- the text of a rule that repeats an action is `\x7bX\x7d*` without the parentheses, and it is refused -/
theorem starred_action_is_refused : ∃ (g : Grammar) (r : Rule),
    (Library.readWith (fun name l => (.ok (Library.stub l.fresh name), l)) (Path.ofText "a") "grammar a A:(\x7bX\x7d)*;"
      Library.empty).1 = .ok g ∧ r ∈ g.rules ∧ r.kind = .parser false [] ∧
      r.printed = .ok "A:\n    \x7bX\x7d*;" ∧ ¬ ∃ q, ReadsAs "A:\n    \x7bX\x7d*;" q := by
  let group : List Word := ⟨⟨.symbol .openParen, "(", 1, 13, 1⟩, none⟩ :: actionWords 14 ++
    [⟨⟨.symbol .closeParen, ")", 1, 17, 1⟩, none⟩]
  let star : Word := ⟨⟨.symbol .star, "*", 1, 18, 1⟩, none⟩
  have hlexed : Lexed.ofSource (Path.ofText "a") "grammar a A:(\x7bX\x7d)*;" = .ok
      ⟨[⟨.name, "grammar", 1, 1, 7⟩, ⟨.name, "a", 1, 9, 1⟩, ⟨.name, "A", 1, 11, 1⟩, ⟨.symbol .colon, ":", 1, 12, 1⟩] ++
        (group ++ [star]).map Word.token ++ [⟨.symbol .semicolon, ";", 1, 19, 1⟩], ⟨1, 20⟩⟩ := by cbv
  have hgroup : Spells .parser .plain group [.action .none "X" none none] :=
    plain_of_atom (.group rfl (alternatives_of_element (spells_actionWords 14)) rfl)
  have hcounted : Spells .parser .element (group ++ [star]) [.action ⟨some .any, none⟩ "X" none none] :=
    .element .absent (fun _ => rfl) hgroup (.present rfl)
  have hread := readWith_bare (fun name l => (.ok (Library.stub l.fresh name), l))
    (s := ⟨⟨.symbol .semicolon, ";", 1, 19, 1⟩, none⟩) hlexed rfl ⟨rfl, rfl⟩ rfl rfl (by decide) rfl
    (alternatives_of_element hcounted) rfl
  obtain ⟨e, hprintable, hformed⟩ := printable_parserRule hread List.mem_cons_self rfl
  have hprinted : Rule.printed _ = .ok "A:\n    \x7bX\x7d*;" := hprintable.printed
  refine ⟨_, _, hread, List.mem_cons_self, rfl, hprinted, fun haccepted => ?_⟩
  have hbare := (hprintable.readsAs_iff hformed rfl hprinted).1 haccepted
  obtain rfl : Element.action ⟨some .any, none⟩ "X" none none = e := Option.some.inj hprintable.definition
  cases hbare _ (mem_nodes_self _)

end Rulebook
