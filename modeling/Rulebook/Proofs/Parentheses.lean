/-
Reading and printing change no token but parentheses. The words of a definition are nested as parentheses are
(`holds_of_spells`), and apart from parentheses they are the tokens that its tree is printed as (`loose_of_spells`). So
where a printed definition is read, its parts stand where the parts of the printed one do.
-/
import Rulebook.Proofs.Nesting
import Rulebook.Proofs.Printing

namespace Rulebook

open Source Element

/-! ## Words and their keys -/

section Words

variable {w : Word}

theorem key_of_is {s : Symbol} (hlex : Lexical w.key) (h : w.Is s) : w.key = s.key := Prod.ext h (hlex.symbol s h)

theorem key_of_predicate {p : Predicate} (hlex : Lexical w.key) (h : predicate? w.token = some p) : w.key = p.key := by
  unfold predicate? at h
  split at h
  · next hkind =>
    cases h
    exact key_of_is hlex hkind
  · next hkind =>
    cases h
    exact key_of_is hlex hkind
  · cases h

theorem key_of_cardinality {c : Cardinality} (hlex : Lexical w.key) (h : cardinality? w.token = some c) :
    w.key = c.key := by
  unfold cardinality? at h
  split at h
  · next hkind =>
    cases h
    exact key_of_is hlex hkind
  · next hkind =>
    cases h
    exact key_of_is hlex hkind
  · next hkind =>
    cases h
    exact key_of_is hlex hkind
  · cases h

theorem key_of_operator (hlex : Lexical w.key) (h : isAssignment w.token = true) :
    w.key = operatorKey w.token.value := by
  simp only [isAssignment, Bool.or_eq_true, or_assoc, Token.isSymbol_iff] at h
  rcases h with h | h | h
  · rw [key_of_is hlex h, show w.token.value = _ from hlex.symbol _ h]
    rfl
  · rw [key_of_is hlex h, show w.token.value = _ from hlex.symbol _ h]
    rfl
  · rw [key_of_is hlex h, show w.token.value = _ from hlex.symbol _ h]
    rfl

end Words

theorem LexicalWords.subset {us ws : List Word} (hlex : LexicalWords ws) (h : us ⊆ ws) : LexicalWords us :=
  fun w hw => hlex w (h hw)

theorem keys_of_named {ws : List Word} {v : Token × Option Token} (hlex : LexicalWords ws) (h : Named ws v) :
    ws.map Word.key = nameKeys (writtenName v) := by
  cases h with
  | @plain n hn =>
    have hkey := hlex n (by simp)
    rw [show writtenName (n.token, none) = n.token.value from rfl,
      nameKeys_plain (show IsIdentifier n.token.value from hkey.name hn)]
    exact congrArg (fun k => [k]) (Prod.ext hn rfl)
  | @qualified q c n hq hc hn =>
    rw [show writtenName (q.token, some n.token) = q.token.value ++ "::" ++ n.token.value from rfl,
      nameKeys_qualified _ (show IsIdentifier q.token.value from (hlex q (by simp)).name hq)]
    simp only [List.map_cons, List.map_nil, List.cons.injEq, and_true]
    exact ⟨Prod.ext hq rfl, key_of_is (hlex c (by simp)) hc, Prod.ext hn rfl⟩

theorem keys_of_markedPredicate {ws : List Word} {p : Option Predicate} (hlex : LexicalWords ws)
    (h : Marked predicate? ws p) : ws.map Word.key = (p.map Predicate.key).toList := by
  cases h with
  | absent => rfl
  | @present w p hw => exact congrArg (fun k => [k]) (key_of_predicate (hlex w List.mem_cons_self) hw)

theorem keys_of_markedCardinality {ws : List Word} {c : Option Cardinality} (hlex : LexicalWords ws)
    (h : Marked cardinality? ws c) : ws.map Word.key = (c.map Cardinality.key).toList := by
  cases h with
  | absent => rfl
  | @present w c hw => exact congrArg (fun k => [k]) (key_of_cardinality (hlex w List.mem_cons_self) hw)

theorem keys_of_parens {o c : Word} {ws : List Word} (hlex : LexicalWords (o :: ws ++ [c])) (ho : o.Is .openParen)
    (hc : c.Is .closeParen) : (o :: ws ++ [c]).map Word.key = parenKeys (ws.map Word.key) := by
  rw [List.cons_append, List.map_cons, List.map_append, key_of_is (hlex o (by simp)) ho, parenKeys]
  simp only [List.map_cons, List.map_nil]
  rw [key_of_is (hlex c (by simp)) hc]

theorem keys_of_leaf {m : Mode} {ws : List Word} {t : Tree} (hlex : LexicalWords ws) (h : Leaf m ws t) :
    ws.map Word.key = bodyKeys (outline t) := by
  cases h with
  | @keyword w hw => exact congrArg (fun k => [k]) (Prod.ext hw rfl)
  | call h =>
    obtain ⟨hv, -⟩ := h
    rw [keys_of_named hlex hv, writtenName_eq]
    rfl

/-! ## Printed elements apart from parentheses -/

theorem loose_of_inner {ks : List Key} (h : ∀ k ∈ ks, Inner k) : loose ks = ks :=
  List.filter_eq_self.2 fun k hk => decide_eq_true (h k hk)

theorem nested_of_inner {ks : List Key} (h : ∀ k ∈ ks, Inner k) : Nested ks := by
  induction ks with
  | nil => exact .nil
  | cons k ks ih => exact .inner (h k List.mem_cons_self) (ih fun l hl => h l (List.mem_cons_of_mem _ hl))

theorem inner_predicateKeys (p : Option Predicate) : ∀ k ∈ (p.map Predicate.key).toList, Inner k := by
  cases p with
  | none => exact List.forall_mem_nil _
  | some p => cases p <;> exact List.forall_mem_singleton.2 (by decide)

theorem inner_cardinalityKeys (c : Option Cardinality) : ∀ k ∈ (c.map Cardinality.key).toList, Inner k := by
  cases c with
  | none => exact List.forall_mem_nil _
  | some c => cases c <;> exact List.forall_mem_singleton.2 (by decide)

theorem loose_intercalate (sep : List Key) (kss : List (List Key)) :
    loose (List.intercalate sep kss) = List.intercalate (loose sep) (kss.map loose) := by
  induction kss with
  | nil => rfl
  | cons ks kss ih =>
    cases kss with
    | nil => simp
    | cons ls kss =>
      rw [List.intercalate_cons_cons, loose_append, loose_append, ih]
      simp only [List.map_cons, List.intercalate_cons_cons]

namespace Element

/-- the tokens of a printed element that are no parentheses -/
def looseKeys (e : Outline) : List Key :=
  (e.decoration.predicate.map Predicate.key).toList ++
    (loose e.bodyKeys ++ (e.decoration.cardinality.map Cardinality.key).toList)

/-- where an element stands changes only its parentheses -/
theorem loose_keys (context : Nat) (e : Outline) : loose (e.keys context) = looseKeys e := by
  have hbody : loose (if e.parenthesized context then parenKeys e.bodyKeys else e.bodyKeys) = loose e.bodyKeys := by
    split
    · exact loose_parenKeys _
    · rfl
  rw [keys, dressKeys, loose_append, loose_append, hbody, loose_of_inner (inner_predicateKeys _),
    loose_of_inner (inner_cardinalityKeys _), looseKeys]

theorem bodyKeys_decorated (d : Decoration) (e : Outline) : bodyKeys (e.decorated d) = e.bodyKeys := by
  cases e with
  | action _ n f o => cases f <;> rfl
  | literal _ n k => cases k <;> rfl
  | _ => rfl

theorem looseKeys_decorated (d : Decoration) (e : Outline) :
    looseKeys (e.decorated d) =
      (d.predicate.map Predicate.key).toList ++ (loose e.bodyKeys ++ (d.cardinality.map Cardinality.key).toList) := by
  rw [looseKeys, bodyKeys_decorated, decoration_decorated]

theorem loose_bodyKeys_compound (d : Decoration) (g : Gathering) (es : List Outline) :
    loose (bodyKeys (compound d g es)) = List.intercalate g.keys (es.map looseKeys) := by
  rw [bodyKeys_compound, loose_intercalate, loose_of_inner (inner_gatheringKeys g), List.map_map]
  exact congrArg _ (List.map_congr_left fun e _ => loose_keys _ e)

theorem looseKeys_gather (g : Gathering) (t : Tree) (ts : List Tree) :
    looseKeys (outline (gather g t ts)) = List.intercalate g.keys ((t :: ts).map fun t => looseKeys (outline t)) := by
  rw [outline_gather]
  split
  · next h =>
    subst h
    simp [List.intercalate]
  · rw [looseKeys, loose_bodyKeys_compound, List.map_map]
    simp [decoration, Decoration.none, Function.comp_def]

/-- a predicate before a tree and a cardinality behind it are printed there, however the tree takes them -/
theorem looseKeys_dress (p : Option Predicate) (c : Option Cardinality) (t : Tree) :
    looseKeys (outline (dress p c t)) =
      (p.map Predicate.key).toList ++ (looseKeys (outline t) ++ (c.map Cardinality.key).toList) := by
  have hpredicate : ∀ p : Predicate, looseKeys (outline (withPredicate p t)) = p.key :: looseKeys (outline t) := by
    intro p
    unfold withPredicate
    split
    · next hnone =>
      have hbare := (decoration_map WrittenCall.written t).trans (Decoration.eq_none_of_isNone hnone)
      rw [outline, map_decorated, looseKeys_decorated]
      simp [outline, looseKeys, hbare, Decoration.none]
    · simp [outline, map, mapList, looseKeys, loose_bodyKeys_compound, decoration, List.intercalate]
  have hcardinality : ∀ (c : Cardinality) (t : Tree),
      looseKeys (outline (withCardinality c t)) = looseKeys (outline t) ++ [c.key] := by
    intro c t
    unfold withCardinality
    split
    · simp [outline, map, mapList, looseKeys, loose_bodyKeys_compound, decoration, List.intercalate]
    · next hnone =>
      have hdecoration := decoration_map WrittenCall.written t
      rw [outline, map_decorated, looseKeys_decorated]
      simp [outline, looseKeys, hdecoration, hnone]
  cases p with
  | none =>
    cases c with
    | none => simp [dress]
    | some c => simp [dress, hcardinality]
  | some p =>
    cases c with
    | none => simp [dress, hpredicate]
    | some c => simp [dress, hpredicate, hcardinality]

end Element

/-! ## What is read and what is printed -/

/-- no parenthesis stands between the members of a row -/
def Source.Part.Marks : Part → Prop
  | .row s p => Inner s.key ∧ p.Marks
  | _ => True

def Source.Part.between : Part → List Key
  | .row s _ => [s.key]
  | _ => []

/-- the words stand for what their trees are printed as, apart from parentheses -/
structure Matches (p : Part) (ws : List Word) (ts : List Tree) : Prop where
  holds : Holds (ws.map Word.key)
  loose : loose (ws.map Word.key) = List.intercalate p.between (ts.map fun t => looseKeys (outline t))

namespace Matches

variable {p : Part} {ws : List Word} {t : Tree}

theorem one (hholds : Holds (ws.map Word.key)) (h : Rulebook.loose (ws.map Word.key) = looseKeys (outline t)) :
    Matches p ws [t] :=
  ⟨hholds, by simpa using h⟩

theorem loose_one (h : Matches p ws [t]) : Rulebook.loose (ws.map Word.key) = looseKeys (outline t) := by
  simpa using h.loose

theorem lift {q : Part} (h : Matches p ws [t]) : Matches q ws [t] := .one h.holds h.loose_one

/-- words with something in front of them, where the tree is printed with the same in front -/
theorem behind {q : Part} {fs : List Word} {front : List Key} {u : Tree} (h : Matches p ws [t])
    (hfs : fs.map Word.key = front) (hinner : ∀ k ∈ front, Inner k) (hnone : (outline u).decoration = .none)
    (hbody : bodyKeys (outline u) = front ++ keys 4 (outline t)) : Matches q (fs ++ ws) [u] := by
  refine .one ⟨?_, ?_⟩ ?_
  · rw [List.map_append, hfs]
    exact (nested_of_inner hinner).append h.holds.1
  · have hne := h.holds.2
    simp only [ne_eq, List.map_eq_nil_iff, List.append_eq_nil_iff] at hne ⊢
    exact fun h => hne h.2
  · have hbare : looseKeys (outline u) = Rulebook.loose (bodyKeys (outline u)) := by
      simp [looseKeys, hnone, Decoration.none]
    rw [List.map_append, hfs, loose_append, loose_of_inner hinner, h.loose_one, hbare, hbody, loose_append,
      loose_of_inner hinner, loose_keys]

/-- words of a tree in front of those of more trees, with what separates them -/
theorem cons {q : Part} {seps us : List Word} {ts : List Tree} (h : Matches p ws [t]) (hmore : Matches q us ts)
    (hne : ts ≠ []) (hseps : seps.map Word.key = q.between) (hinner : ∀ k ∈ q.between, Inner k) :
    Matches q (ws ++ seps ++ us) (t :: ts) := by
  obtain ⟨u, ts, rfl⟩ := List.exists_cons_of_ne_nil hne
  refine ⟨⟨?_, ?_⟩, ?_⟩
  · rw [List.map_append, List.map_append, hseps]
    exact (h.holds.1.append (nested_of_inner hinner)).append hmore.holds.1
  · have hfilled := h.holds.2
    simp only [ne_eq, List.map_eq_nil_iff, List.append_eq_nil_iff] at hfilled ⊢
    exact fun h => hfilled h.1.1
  · rw [List.map_append, List.map_append, hseps, loose_append, loose_append, h.loose_one, loose_of_inner hinner,
      hmore.loose, List.append_assoc]
    simp

/-- words with a predicate before them and a cardinality behind them -/
theorem dressed {q : Part} {ps cs : List Word} {d : Option Predicate} {c : Option Cardinality}
    (h : Matches p ws [t]) (hlex : LexicalWords (ps ++ ws ++ cs)) (hp : Marked predicate? ps d)
    (hc : Marked cardinality? cs c) : Matches q (ps ++ ws ++ cs) [dress d c t] := by
  have hps := keys_of_markedPredicate (hlex.subset (by simp)) hp
  have hcs := keys_of_markedCardinality (hlex.subset (by simp)) hc
  refine .one ⟨?_, ?_⟩ ?_
  · rw [List.map_append, List.map_append, hps, hcs]
    exact ((nested_of_inner (inner_predicateKeys d)).append h.holds.1).append (nested_of_inner (inner_cardinalityKeys c))
  · have hne := h.holds.2
    simp only [ne_eq, List.map_eq_nil_iff, List.append_eq_nil_iff] at hne ⊢
    exact fun h => hne h.1.2
  · rw [List.map_append, List.map_append, hps, hcs, loose_append, loose_append, loose_of_inner (inner_predicateKeys d),
      loose_of_inner (inner_cardinalityKeys c), h.loose_one, looseKeys_dress, List.append_assoc]

theorem inParens {q : Part} {o c : Word} (h : Matches p ws [t]) (hlex : LexicalWords (o :: ws ++ [c]))
    (ho : o.Is .openParen) (hc : c.Is .closeParen) : Matches q (o :: ws ++ [c]) [t] := by
  have hkeys := keys_of_parens hlex ho hc
  refine .one ?_ ?_
  · rw [hkeys]
    exact ⟨h.holds.1.ofParens h.holds.2, by simp [parenKeys]⟩
  · rw [hkeys, loose_parenKeys, h.loose_one]

end Matches

theorem matches_of_keys {p : Part} {ws : List Word} {t : Tree} (hholds : Holds (bodyKeys (outline t)))
    (hnone : t.decoration.isNone = true) (h : ws.map Word.key = bodyKeys (outline t)) : Matches p ws [t] := by
  have hbare : (outline t).decoration = .none :=
    (decoration_map WrittenCall.written t).trans (Decoration.eq_none_of_isNone hnone)
  refine .one (h ▸ hholds) ?_
  rw [h, looseKeys, hbare]
  simp [Decoration.none]

theorem matches_of_leaf {m : Mode} {p : Part} {ws : List Word} {t : Tree} (hlex : LexicalWords ws) (h : Leaf m ws t) :
    Matches p ws [t] := by
  have hkeys := keys_of_leaf hlex h
  cases h with
  | keyword _ => exact matches_of_keys (.one (inner_literal _)) rfl hkeys
  | call h =>
    cases h
    exact matches_of_keys (holds_nameKeys _) rfl hkeys

theorem matches_of_referenced {p : Part} {ws : List Word} {t : Tree} (hlex : LexicalWords ws) (h : Referenced ws t) :
    Matches p ws [t] := by
  have hholds := holds_assignable (assignable_of_referenced (f := WrittenCall.written) (fun _ hc => hc.callable) hlex h)
  obtain @⟨o, c, ws, us, v, t, ho, hv, hu, hc⟩ := h
  refine matches_of_keys hholds rfl ?_
  have hthrough : us.map Word.key = bodyKeysOption (mapOption WrittenCall.written t) := by
    cases hu with
    | nothing => rfl
    | @terminal b vs t hb hl =>
      have hleaf := keys_of_leaf (fun w hw => hlex w (by simp [hw])) hl
      have hnone : (t.map WrittenCall.written).keys 4 = bodyKeys (outline t) := by
        cases hl with
        | keyword _ => exact keys_eq_bodyKeys rfl fun _ => Nat.le_refl 4
        | call h =>
          cases h
          exact keys_eq_bodyKeys rfl fun _ => Nat.le_refl 4
      rw [List.map_cons, key_of_is (hlex b (by simp)) hb, hleaf, ← hnone]
      rfl
  simp only [List.cons_append, List.map_cons, List.map_append, List.map_nil, key_of_is (hlex o (by simp)) ho,
    key_of_is (hlex c (by simp)) hc, keys_of_named (hlex.subset (by simp)) hv, hthrough, List.append_assoc]
  rfl

theorem matches_of_acts {p : Part} {ws : List Word} {t : Tree} (hlex : LexicalWords ws) (h : Acts ws t) :
    Matches p ws [t] := by
  have hholds := holds_bodyKeys (formed_of_acts (f := WrittenCall.written) rfl hlex h)
  obtain @⟨o, c, ws, us, v, f, ho, hv, hu, hc⟩ := h
  refine matches_of_keys hholds rfl ?_
  simp only [List.cons_append, List.map_cons, List.map_append, List.map_nil, key_of_is (hlex o (by simp)) ho,
    key_of_is (hlex c (by simp)) hc, keys_of_named (hlex.subset (by simp)) hv, List.append_assoc]
  cases hu with
  | nothing => rfl
  | @feature d f e k hd hf he hk =>
    have hoperator : e.key = operatorKey e.token.value := by
      refine key_of_operator (hlex e (by simp)) ?_
      rcases he with he | he <;> simp [isAssignment, he.kind]
    have hfeature : f.key = (.name, f.token.value) := Prod.ext hf rfl
    have hcurrent : k.key = (.name, Text.ofString "current") := Prod.ext hk.1 hk.2
    simp only [List.map_cons, List.map_nil, key_of_is (hlex d (by simp)) hd, hoperator, hfeature, hcurrent]
    simp [outline, map, bodyKeys]

/-- the words of a definition are nested, and they are what its tree is printed as, but for parentheses -/
theorem matches_of_spells {m : Mode} {p : Part} {ws : List Word} {ts : List Tree} (h : Spells m p ws ts)
    (hmarks : p.Marks) (hlex : LexicalWords ws) : Matches p ws ts := by
  induction h with
  | rowOne _ ih => exact (ih hmarks.2 hlex).lift
  | @rowMore s p ws us b t ts _ hb hrow ih ihrow =>
    have hfirst := ih hmarks.2 (hlex.subset (by simp))
    have hmore := ihrow hmarks (hlex.subset (by simp))
    have hkey : [b].map Word.key = [s.key] := congrArg (fun k => [k]) (key_of_is (hlex b (by simp)) hb)
    simpa using hfirst.cons hmore hrow.ne_nil hkey (List.forall_mem_singleton.2 hmarks.1)
  | alternatives _ ih =>
    have hrow := ih ⟨by decide, trivial⟩ hlex
    exact .one hrow.holds (hrow.loose.trans (looseKeys_gather .choice _ _).symm)
  | unordered _ ih =>
    have hrow := ih ⟨by decide, trivial⟩ hlex
    exact .one hrow.holds (hrow.loose.trans (looseKeys_gather .anyOrder _ _).symm)
  | sequence _ ih =>
    have helements := ih trivial hlex
    exact .one helements.holds (helements.loose.trans (looseKeys_gather .sequence _ _).symm)
  | elementsOne _ ih => exact (ih trivial hlex).lift
  | @elementsMore ws us t ts _ helements ih ihtail =>
    have hfirst := ih trivial (hlex.subset (by simp))
    have hmore := ihtail trivial (hlex.subset (by simp))
    have hseps : ([] : List Word).map Word.key = Part.elements.between := rfl
    simpa using hfirst.cons hmore helements.ne_nil hseps (List.forall_mem_nil _)
  | action _ h => exact matches_of_acts hlex h
  | @element ps ws cs p c t hp _ _ hc ih =>
    have hinner := ih trivial (hlex.subset (by simp))
    exact hinner.dressed hlex hp hc
  | @assignment f o ws t _ hf ho _ ih =>
    have hvalue := ih trivial (hlex.subset (by simp))
    have hfront : [f, o].map Word.key = [((.name, f.token.value) : Key), operatorKey o.token.value] := by
      rw [List.map_cons, List.map_singleton, key_of_operator (hlex o (by simp)) ho,
        show f.key = (.name, f.token.value) from Prod.ext hf rfl]
    exact hvalue.behind hfront
      (List.forall_mem_cons.2 ⟨inner_name _, List.forall_mem_singleton.2 (inner_operator _)⟩) rfl rfl
  | plainAtom _ _ ih => exact (ih trivial hlex).lift
  | @upTo a ws t _ ha _ ih =>
    have hoperand := ih trivial (hlex.subset (by simp))
    have hfront : [a].map Word.key = [Symbol.arrow.key] := congrArg (fun k => [k]) (key_of_is (hlex a (by simp)) ha)
    exact hoperand.behind hfront (List.forall_mem_singleton.2 (by decide)) rfl rfl
  | plainOperand _ _ ih => exact (ih trivial hlex).lift
  | @wildcard d hd =>
    exact matches_of_keys (.one (by decide)) rfl (congrArg (fun k => [k]) (key_of_is (hlex d (by simp)) hd))
  | @endOfFile n hn =>
    exact matches_of_keys (.one (inner_name _)) rfl (congrArg (fun k => [k]) (Prod.ext hn.1 hn.2))
  | @range l d r hl hd hr =>
    refine matches_of_keys (.cons (inner_literal _) (.inner (by decide) (.one (inner_literal _)))) rfl ?_
    simp only [List.map_cons, List.map_nil, key_of_is (hlex d (by simp)) hd,
      show l.key = (.literal, l.token.value) from Prod.ext hl rfl,
      show r.key = (.literal, r.token.value) from Prod.ext hr rfl]
    rfl
  | @negated b ws t hb _ ih =>
    have hoperand := ih trivial (hlex.subset (by simp))
    have hfront : [b].map Word.key = [Symbol.bang.key] := congrArg (fun k => [k]) (key_of_is (hlex b (by simp)) hb)
    exact hoperand.behind hfront (List.forall_mem_singleton.2 (by decide)) rfl rfl
  | operandAtom _ ih => exact (ih trivial hlex).lift
  | leaf h => exact matches_of_leaf hlex h
  | group ho _ hc ih =>
    have hinner := ih trivial (hlex.subset (by simp))
    exact hinner.inParens hlex ho hc
  | crossReference h => exact matches_of_referenced hlex h
  | memberAssignable _ ih => exact (ih trivial hlex).lift
  | assignableLeaf h => exact matches_of_leaf hlex h
  | assignableGroup ho _ hc ih =>
    have hrow := ih ⟨by decide, trivial⟩ (hlex.subset (by simp))
    have hchoice : Matches .member _ [gather .choice _ _] :=
      .one hrow.holds (hrow.loose.trans (looseKeys_gather .choice _ _).symm)
    exact hchoice.inParens hlex ho hc

end Rulebook
