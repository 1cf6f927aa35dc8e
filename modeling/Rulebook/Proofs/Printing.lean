/-
Printed definitions are read back. Words that have the keys of a formed definition spell it again, at the part that its
context expects, as long as every node is readable: an action has nothing around it, and what is negated or skipped to
is undecorated and does not skip itself.

- `spells_of_keys`: the words of a printed definition spell the definition;
- `dress_naked`: putting decoration around what is printed bare gives the node back, the sequences of one member too.
-/
import Rulebook.Proofs.Keys

namespace Rulebook

open Source Element

/-- a tree with the written name for every call -/
def Source.outline (t : Tree) : Outline := t.map WrittenCall.written

namespace Element

variable {ρ : Type}

/-- nothing stands around an action -/
def ActionBare : Element ρ → Prop
  | action d _ _ _ => d.isNone = true
  | _ => True

/-- what is negated or skipped to needs no parentheses of its own -/
def OperandFits : Element ρ → Prop
  | negated _ e => e.decoration.isNone = true ∧ e.isUpTo = false
  | upTo _ e => e.decoration.isNone = true ∧ e.isUpTo = false
  | _ => True

/-- the node is printed so that it can be read -/
def Readable (m : Mode) (e : Element ρ) : Prop :=
  match m with
  | .parser => ActionBare e
  | .terminal => OperandFits e

/-- what is printed of a node without its decoration -/
def naked : Outline → Outline
  | compound _ .sequence [e] => e
  | e => e.decorated .none

end Element

/-- the part that is read where an element that binds like `context` is expected -/
def contextPart : Nat → Part
  | 0 => .alternatives
  | 1 => .alternatives
  | 2 => .unordered
  | 3 => .sequence
  | _ => .element

def bodyPart : Outline → Part
  | .compound _ g _ => contextPart g.binding
  | .action _ _ _ _ => .element
  | _ => .plain

/-! ## Words with given keys -/

theorem Source.Word.is_of_key {w : Word} {s : Symbol} (h : w.key = s.key) : w.Is s := congrArg Prod.fst h

theorem Source.Word.value_of_key {w : Word} {k : TokenKind} {v : Text} (h : w.key = (k, v)) :
    w.token.kind = k ∧ w.token.value = v := ⟨congrArg Prod.fst h, congrArg Prod.snd h⟩

theorem words_nil {ws : List Word} (h : ws.map Word.key = []) : ws = [] := List.map_eq_nil_iff.1 h

theorem words_cons {ws : List Word} {k : Key} {ks : List Key} (h : ws.map Word.key = k :: ks) :
    ∃ w us, ws = w :: us ∧ w.key = k ∧ us.map Word.key = ks := List.map_eq_cons_iff.1 h

theorem words_append {ws : List Word} {ks ls : List Key} (h : ws.map Word.key = ks ++ ls) :
    ∃ us vs, ws = us ++ vs ∧ us.map Word.key = ks ∧ vs.map Word.key = ls := List.map_eq_append_iff.1 h

theorem words_one {ws : List Word} {k : Key} (h : ws.map Word.key = [k]) : ∃ w, ws = [w] ∧ w.key = k := by
  obtain ⟨w, us, rfl, hw, hus⟩ := words_cons h
  exact ⟨w, by rw [words_nil hus], hw⟩

theorem words_parens {ws : List Word} {ks : List Key} (h : ws.map Word.key = parenKeys ks) :
    ∃ o us c, ws = o :: us ++ [c] ∧ o.Is .openParen ∧ us.map Word.key = ks ∧ c.Is .closeParen := by
  obtain ⟨o, more, rfl, ho, hmore⟩ := words_cons h
  obtain ⟨us, last, rfl, hus, hlast⟩ := words_append hmore
  obtain ⟨c, rfl, hc⟩ := words_one hlast
  exact ⟨o, us, c, rfl, Word.is_of_key ho, hus, Word.is_of_key hc⟩

theorem named_of_keys {m : Mode} {n : Text} (h : Callable m n) {ws : List Word} (hws : ws.map Word.key = nameKeys n) :
    ∃ v, Named ws v ∧ (m = .terminal → v.1.value ≠ "EOF") ∧ (callOf v).written = n := by
  cases h with
  | plain hn heof =>
    rw [nameKeys_plain hn] at hws
    obtain ⟨w, rfl, hw⟩ := words_one hws
    obtain ⟨hkind, rfl⟩ := Word.value_of_key hw
    exact ⟨_, .plain hkind, heof, rfl⟩
  | @qualified q n hq hn heof =>
    rw [nameKeys_qualified n hq] at hws
    obtain ⟨a, more, rfl, ha, hmore⟩ := words_cons hws
    obtain ⟨c, more, rfl, hc, hmore⟩ := words_cons hmore
    obtain ⟨b, rfl, hb⟩ := words_one hmore
    obtain ⟨hakind, rfl⟩ := Word.value_of_key ha
    obtain ⟨hbkind, rfl⟩ := Word.value_of_key hb
    exact ⟨_, .qualified hakind (Word.is_of_key hc) hbkind, heof, rfl⟩

theorem writtenName_eq (v : Token × Option Token) : writtenName v = (callOf v).written := by
  obtain ⟨first, second⟩ := v
  cases second <;> rfl

/-! ## Lifting -/

variable {m : Mode}

theorem plain_of_atom {ws : List Word} {t : Tree} (h : Spells m .atom ws [t]) : Spells m .plain ws [t] := by
  cases m with
  | parser => exact .plainAtom rfl h
  | terminal => exact .plainOperand rfl (.operandAtom h)

theorem element_of_plain {ws : List Word} {t : Tree} (h : Spells m .plain ws [t]) : Spells m .element ws [t] := by
  simpa [dress] using Spells.element (p := none) (c := none) .absent (fun _ => rfl) h .absent

theorem sequence_of_element {ws : List Word} {t : Tree} (h : Spells m .element ws [t]) : Spells m .sequence ws [t] :=
  .sequence (.elementsOne h)

theorem unordered_of_sequence {ws : List Word} {t : Tree} (h : Spells m .sequence ws [t]) :
    Spells m .unordered ws [t] :=
  .unordered (.rowOne h)

theorem alternatives_of_unordered {ws : List Word} {t : Tree} (h : Spells m .unordered ws [t]) :
    Spells m .alternatives ws [t] :=
  .alternatives (.rowOne h)

theorem alternatives_of_element {ws : List Word} {t : Tree} (h : Spells m .element ws [t]) :
    Spells m .alternatives ws [t] :=
  alternatives_of_unordered (unordered_of_sequence (sequence_of_element h))

/-- what is read as a tight part is read as a looser one -/
theorem loosen {ws : List Word} {t : Tree} {loose : Nat} (tight : Nat) (h : Spells m (contextPart tight) ws [t])
    (hle : loose ≤ tight) : Spells m (contextPart loose) ws [t] := by
  have helement : Spells m .element ws [t] → Spells m (contextPart loose) ws [t] := by
    intro h
    match loose with
    | 0 => exact alternatives_of_element h
    | 1 => exact alternatives_of_element h
    | 2 => exact unordered_of_sequence (sequence_of_element h)
    | 3 => exact sequence_of_element h
    | _ + 4 => exact h
  match tight, loose, hle with
  | 0, 0, _ => exact h
  | 1, 0, _ => exact h
  | 1, 1, _ => exact h
  | 2, 0, _ => exact alternatives_of_unordered h
  | 2, 1, _ => exact alternatives_of_unordered h
  | 2, 2, _ => exact h
  | 3, 0, _ => exact alternatives_of_unordered (unordered_of_sequence h)
  | 3, 1, _ => exact alternatives_of_unordered (unordered_of_sequence h)
  | 3, 2, _ => exact unordered_of_sequence h
  | 3, 3, _ => exact h
  | _ + 4, _, _ => exact helement h

/-- parentheses around any part make an atom -/
theorem atom_of_parens {ws : List Word} {t : Tree} {o c : Word} {context : Nat} (ho : o.Is .openParen)
    (h : Spells m (contextPart context) ws [t]) (hc : c.Is .closeParen) : Spells m .atom (o :: ws ++ [c]) [t] :=
  .group ho (loosen context h (Nat.zero_le context)) hc

/-! ## Decoration -/

/-- an undecorated tree takes all decoration itself -/
theorem dress_of_isNone {t : Tree} (h : t.decoration.isNone = true) (p : Option Predicate) (c : Option Cardinality) :
    dress p c t = t.decorated ⟨c, p⟩ := by
  have hnone := Decoration.eq_none_of_isNone h
  have hinner : (p.elim t fun p => withPredicate p t) = t.decorated ⟨none, p⟩ := by
    cases p with
    | none => exact (hnone ▸ decorated_self t).symm
    | some p => exact if_pos h
  unfold dress
  rw [hinner]
  cases c with
  | none => rfl
  | some c => simp [withCardinality, decoration_decorated, decorated_decorated]

/-- a tree that cannot take the decoration becomes the member of a sequence -/
theorem dress_of_wraps {t : Tree} {d : Decoration} (h : Wraps d t.decoration) :
    dress d.predicate d.cardinality t = .compound d .sequence [t] := by
  obtain ⟨c, p⟩ := d
  cases p with
  | none =>
    obtain ⟨hc, hinner⟩ := h
    obtain ⟨c, rfl⟩ := Option.isSome_iff_exists.1 hc
    obtain ⟨c', hc'⟩ := Option.isSome_iff_exists.1 hinner
    simp [dress, withCardinality, hc']
  | some p =>
    have hp : withPredicate p t = .compound ⟨none, some p⟩ .sequence [t] := if_neg (by simpa [Wraps] using h)
    cases c with
    | none => simp [dress, hp]
    | some c => simp [dress, hp, withCardinality, decoration, Element.decorated]

/-- dressing what is printed bare gives the node back -/
theorem dress_naked {e : Outline} (h : Formed m e) {t : Tree} (ht : outline t = naked e) :
    outline (dress e.decoration.predicate e.decoration.cardinality t) = e := by
  have hplain : naked e = e.decorated .none →
      outline (dress e.decoration.predicate e.decoration.cardinality t) = e := by
    intro hnaked
    have hnone : t.decoration = .none := by
      rw [← decoration_map WrittenCall.written t, show t.map _ = _ from ht, hnaked, decoration_decorated]
    rw [dress_of_isNone (by rw [hnone]; rfl), outline, map_decorated, show t.map _ = _ from ht, hnaked,
      decorated_decorated]
    exact decorated_self e
  cases h with
  | wrapped _ hw _ =>
    have hdecoration : t.decoration = _ := (decoration_map WrittenCall.written t).symm.trans (congrArg decoration ht)
    rw [decoration, dress_of_wraps (hdecoration ▸ hw), outline, map, mapList, mapList, show t.map _ = _ from ht]
    rfl
  | @compound d g es _ _ hlen _ =>
    refine hplain ?_
    cases g with
    | sequence =>
      rcases es with _ | ⟨_, _ | ⟨_, _⟩⟩
      · simp at hlen
      · simp at hlen
      · rfl
    | _ => rfl
  | _ => exact hplain rfl

/-! ## Bodies -/

/-- words with the keys of the bare element spell it, at the part that its body belongs to -/
def BodySpells (m : Mode) (e : Outline) : Prop :=
  ∀ ws : List Word, ws.map Word.key = e.bodyKeys → ∃ t, Spells m (bodyPart e) ws [t] ∧ outline t = naked e

theorem marked_of_predicate {ws : List Word} {p : Option Predicate}
    (h : ws.map Word.key = (p.map Predicate.key).toList) : Marked predicate? ws p := by
  cases p with
  | none =>
    rw [words_nil h]
    exact .absent
  | some p =>
    obtain ⟨w, rfl, hw⟩ := words_one h
    refine .present ?_
    cases p <;> simp [predicate?, show w.token.kind = _ from congrArg Prod.fst hw, Predicate.key, Symbol.key]

theorem marked_of_cardinality {ws : List Word} {c : Option Cardinality}
    (h : ws.map Word.key = (c.map Cardinality.key).toList) : Marked cardinality? ws c := by
  cases c with
  | none =>
    rw [words_nil h]
    exact .absent
  | some c =>
    obtain ⟨w, rfl, hw⟩ := words_one h
    refine .present ?_
    cases c <;> simp [cardinality?, show w.token.kind = _ from congrArg Prod.fst hw, Cardinality.key, Symbol.key]

/-- a body is read where parentheses are open -/
theorem loose_of_body {e : Outline} {ws : List Word} {t : Tree} (h : Spells m (bodyPart e) ws [t]) :
    ∃ context, Spells m (contextPart context) ws [t] := by
  cases e with
  | compound d g es => exact ⟨g.binding, h⟩
  | action d n f o => exact ⟨4, h⟩
  | _ => exact ⟨4, element_of_plain h⟩

theorem bodyPart_of_binding {e : Outline} (hbinding : e.binding = 4) (hplain : ∀ d es, e ≠ .compound d .plain es)
    (haction : ∀ d n f o, e ≠ .action d n f o) : bodyPart e = .plain := by
  cases e with
  | compound d g es => cases g <;> simp_all [binding, Gathering.binding]
  | action d n f o => exact absurd rfl (haction d n f o)
  | _ => rfl

theorem Formed.ne_plain {e : Outline} (h : Formed m e) : ∀ d es, e ≠ .compound d .plain es := by
  rintro d es rfl
  cases h with
  | compound _ hg => exact hg rfl

/-- the body of an element that is no compound, or in parentheses, is a plain element -/
theorem plain_of_body {e : Outline} {context : Nat} (hformed : Formed m e) (hbody : BodySpells m e)
    (haction : ∀ d n f o, e ≠ .action d n f o) (htight : e.binding = 4 ∨ e.parenthesized context = true)
    {ws : List Word} (hws : ws.map Word.key = if e.parenthesized context then parenKeys e.bodyKeys else e.bodyKeys) :
    ∃ t, Spells m .plain ws [t] ∧ outline t = naked e := by
  by_cases hparens : e.parenthesized context = true
  · rw [if_pos hparens] at hws
    obtain ⟨o, us, c, rfl, ho, hus, hc⟩ := words_parens hws
    obtain ⟨t, ht, houtline⟩ := hbody us hus
    obtain ⟨k, hk⟩ := loose_of_body ht
    exact ⟨t, plain_of_atom (atom_of_parens ho hk hc), houtline⟩
  · rw [if_neg hparens] at hws
    obtain ⟨t, ht, houtline⟩ := hbody ws hws
    rw [bodyPart_of_binding (htight.resolve_right hparens) hformed.ne_plain haction] at ht
    exact ⟨t, ht, houtline⟩

theorem binding_le (e : Outline) : e.binding ≤ 4 := by
  cases e with
  | compound d g es => cases g <;> simp [binding, Gathering.binding]
  | _ => simp [binding]

/-- words with the keys of an element spell it, once words with the keys of its body do -/
theorem spells_of_body {e : Outline} (hformed : Formed m e) (hbody : BodySpells m e) (hbare : ActionBare e)
    (context : Nat) {ws : List Word} (hws : ws.map Word.key = e.keys context) :
    ∃ t, Spells m (contextPart context) ws [t] ∧ outline t = e := by
  obtain ⟨ps, more, rfl, hps, hmore⟩ := words_append hws
  obtain ⟨us, cs, rfl, hus, hcs⟩ := words_append hmore
  have hp := marked_of_predicate hps
  have hc := marked_of_cardinality hcs
  by_cases haction : ∃ d n f o, e = .action d n f o
  · obtain ⟨d, n, f, o, rfl⟩ := haction
    cases Decoration.eq_none_of_isNone hbare
    cases hp
    cases hc
    obtain ⟨t, ht, houtline⟩ := hbody us (by simpa [parenthesized, binding, isUpTo] using hus)
    exact ⟨t, by simpa using loosen (context + 4) ht (by omega), houtline⟩
  · have haction' : ∀ d n f o, e ≠ .action d n f o := fun d n f o h => haction ⟨d, n, f, o, h⟩
    by_cases htight : e.binding = 4 ∨ e.parenthesized context = true
    · obtain ⟨t, ht, houtline⟩ := plain_of_body hformed hbody haction' htight hus
      refine ⟨_, ?_, dress_naked hformed houtline⟩
      have helement := Spells.element hp hformed.allows ht hc
      rw [← List.append_assoc]
      exact loosen (context + 4) helement (by omega)
    · obtain ⟨hbinding, hparens⟩ := not_or.1 htight
      have hle := binding_le e
      rw [if_neg hparens] at hus
      simp only [parenthesized, Bool.or_eq_true, Bool.and_eq_true, decide_eq_true_eq, Bool.not_eq_true',
        not_or, not_and] at hparens
      have hloose := hparens.1 (by omega)
      have hnone := Decoration.eq_none_of_isNone (Bool.eq_true_of_not_eq_false hloose.1)
      rw [hnone] at hp hc
      cases hp
      cases hc
      obtain ⟨t, ht, houtline⟩ := hbody us hus
      have htree := dress_naked hformed houtline
      rw [hnone] at htree
      refine ⟨t, ?_, htree⟩
      have hpart : bodyPart e = contextPart e.binding := by
        cases e with
        | compound d g es => rfl
        | _ => exact absurd rfl hbinding
      rw [hpart] at ht
      simpa using loosen e.binding ht (by omega)

/-- words with the keys of an undecorated element that does not skip spell an operand -/
theorem operand_of_body {e : Outline} (hformed : Formed .terminal e) (hbody : BodySpells .terminal e)
    (hnone : e.decoration.isNone = true) (hskip : e.isUpTo = false) {ws : List Word}
    (hws : ws.map Word.key = e.keys 4) : ∃ t, Spells .terminal .operand ws [t] ∧ outline t = e := by
  have hdecoration := Decoration.eq_none_of_isNone hnone
  have hkeys : ws.map Word.key = if e.parenthesized 4 then parenKeys e.bodyKeys else e.bodyKeys := by
    simpa [keys, dressKeys, hdecoration, Decoration.none] using hws
  have haction : ∀ d n f o, e ≠ .action d n f o := by
    rintro d n f o rfl
    cases hformed with
    | action hm => cases hm
  have htight : e.binding = 4 ∨ e.parenthesized 4 = true := by
    have hle := binding_le e
    by_cases hbinding : e.binding = 4
    · exact .inl hbinding
    · exact .inr (by simp [parenthesized, show e.binding < 4 by omega])
  obtain ⟨t, ht, houtline⟩ := plain_of_body hformed hbody haction htight hkeys
  have htree := dress_naked hformed houtline
  rw [hdecoration] at htree
  refine ⟨t, ?_, htree⟩
  cases ht with
  | assignment hm => cases hm
  | plainAtom hm => cases hm
  | upTo _ _ _ =>
    subst htree
    cases hskip
  | plainOperand _ h => exact h

/-! ## Rows -/

/-- words with the keys of members between symbols are a row, once words with the keys of each member spell it -/
theorem row_of_keys {s : Symbol} {p : Part} {keysOf : Outline → List Key} {es : List Outline} (hne : es ≠ [])
    (h : ∀ e ∈ es, ∀ ws : List Word, ws.map Word.key = keysOf e → ∃ t, Spells m p ws [t] ∧ outline t = e)
    {ws : List Word} (hws : ws.map Word.key = List.intercalate [s.key] (es.map keysOf)) :
    ∃ t ts, Spells m (.row s p) ws (t :: ts) ∧ (t :: ts).map outline = es := by
  induction es generalizing ws with
  | nil => exact absurd rfl hne
  | cons e es ih =>
    cases es with
    | nil =>
      obtain ⟨t, ht, rfl⟩ := h e List.mem_cons_self ws (by simpa using hws)
      exact ⟨t, [], .rowOne ht, rfl⟩
    | cons u es =>
      have hkeys : ws.map Word.key = keysOf e ++ s.key :: List.intercalate [s.key] ((u :: es).map keysOf) := by
        rw [hws]
        simp [List.intercalate_cons_cons]
      obtain ⟨us, more, rfl, hus, hmore⟩ := words_append hkeys
      obtain ⟨b, vs, rfl, hb, hvs⟩ := words_cons hmore
      obtain ⟨t, ht, rfl⟩ := h e List.mem_cons_self us hus
      obtain ⟨t', ts, hts, houtlines⟩ := ih (by simp) (fun x hx => h x (List.mem_cons_of_mem _ hx)) hvs
      exact ⟨t, t' :: ts, .rowMore ht (Word.is_of_key hb) hts, by rw [List.map_cons, houtlines]⟩

/-- the same of elements, which have nothing between them -/
theorem elements_of_keys {keysOf : Outline → List Key} {es : List Outline} (hne : es ≠ [])
    (h : ∀ e ∈ es, ∀ ws : List Word, ws.map Word.key = keysOf e → ∃ t, Spells m .element ws [t] ∧ outline t = e)
    {ws : List Word} (hws : ws.map Word.key = List.intercalate [] (es.map keysOf)) :
    ∃ t ts, Spells m .elements ws (t :: ts) ∧ (t :: ts).map outline = es := by
  induction es generalizing ws with
  | nil => exact absurd rfl hne
  | cons e es ih =>
    cases es with
    | nil =>
      obtain ⟨t, ht, rfl⟩ := h e List.mem_cons_self ws (by simpa using hws)
      exact ⟨t, [], .elementsOne ht, rfl⟩
    | cons u es =>
      have hkeys : ws.map Word.key = keysOf e ++ List.intercalate [] ((u :: es).map keysOf) := by
        rw [hws]
        simp [List.intercalate_cons_cons]
      obtain ⟨us, vs, rfl, hus, hvs⟩ := words_append hkeys
      obtain ⟨t, ht, rfl⟩ := h e List.mem_cons_self us hus
      obtain ⟨t', ts, hts, houtlines⟩ := ih (by simp) (fun x hx => h x (List.mem_cons_of_mem _ hx)) hvs
      exact ⟨t, t' :: ts, .elementsMore ht hts, by rw [List.map_cons, houtlines]⟩

theorem outline_gather (g : Gathering) (t : Tree) (ts : List Tree) :
    outline (gather g t ts) = if ts = [] then outline t else .compound .none g ((t :: ts).map outline) := by
  cases ts with
  | nil => rfl
  | cons u us => simp [gather, outline, map, mapList_eq_map]

/-- the members of a compound spell it together -/
theorem body_of_members {d : Decoration} {g : Gathering} {es : List Outline} (hg : g ≠ .plain) (hne : es ≠ [])
    (h : ∀ e ∈ es, ∀ ws : List Word, ws.map Word.key = e.keys g.memberContext →
      ∃ t, Spells m (contextPart g.memberContext) ws [t] ∧ outline t = e)
    {ws : List Word} (hws : ws.map Word.key = bodyKeys (.compound d g es)) :
    ∃ t ts, Spells m (contextPart g.binding) ws [gather g t ts] ∧ (t :: ts).map outline = es := by
  rw [bodyKeys_compound] at hws
  cases g with
  | choice =>
    obtain ⟨t, ts, hts, hes⟩ := row_of_keys hne h hws
    exact ⟨t, ts, .alternatives hts, hes⟩
  | anyOrder =>
    obtain ⟨t, ts, hts, hes⟩ := row_of_keys hne h hws
    exact ⟨t, ts, .unordered hts, hes⟩
  | sequence =>
    obtain ⟨t, ts, hts, hes⟩ := elements_of_keys hne h hws
    exact ⟨t, ts, .sequence hts, hes⟩
  | plain => exact absurd rfl hg

/-! ## Values of assignments -/

theorem leaf_of_reference {e : Outline} (h : Referable e) {ws : List Word} (hws : ws.map Word.key = e.bodyKeys) :
    ∃ t, Leaf .parser ws t ∧ outline t = e := by
  cases h with
  | keyword v =>
    obtain ⟨w, rfl, hw⟩ := words_one hws
    obtain ⟨hkind, rfl⟩ := Word.value_of_key hw
    exact ⟨_, .keyword hkind, rfl⟩
  | call hn =>
    obtain ⟨v, hv, heof, rfl⟩ := named_of_keys hn hws
    exact ⟨_, .call (.named hv heof), rfl⟩

theorem Referable.keys_eq {e : Outline} (h : Referable e) (context : Nat) : e.keys context = e.bodyKeys := by
  cases h <;> exact keys_eq_bodyKeys rfl (absurd · (Nat.lt_irrefl 4))

theorem member_of_keys {e : Outline} (h : Assignable e) {context : Nat} (hcontext : 2 ≤ context) {ws : List Word}
    (hws : ws.map Word.key = e.keys context) : ∃ t, Spells m .member ws [t] ∧ outline t = e := by
  induction h generalizing context ws with
  | reference h =>
    rw [h.keys_eq] at hws
    obtain ⟨t, ht, houtline⟩ := leaf_of_reference h hws
    exact ⟨t, .memberAssignable (.assignableLeaf ht), houtline⟩
  | @crossReference n t hn ht =>
    have hkeys : ws.map Word.key =
        Symbol.openBracket.key :: (nameKeys n ++ (bodyKeysOption t ++ [Symbol.closeBracket.key])) :=
      hws.trans (keys_eq_bodyKeys rfl (absurd · (Nat.lt_irrefl 4)))
    obtain ⟨o, more, rfl, ho, hmore⟩ := words_cons hkeys
    obtain ⟨us, more, rfl, hus, hmore⟩ := words_append hmore
    obtain ⟨vs, last, rfl, hvs, hlast⟩ := words_append hmore
    obtain ⟨c, rfl, hc⟩ := words_one hlast
    obtain ⟨v, hv, -, hwritten⟩ := named_of_keys hn hus
    rw [← List.append_assoc, ← List.cons_append]
    cases t with
    | none =>
      rw [words_nil hvs]
      refine ⟨_, .crossReference (.intro (Word.is_of_key ho) hv .nothing (Word.is_of_key hc)), ?_⟩
      rw [writtenName_eq, hwritten]
      rfl
    | some e =>
      have href := ht e rfl
      obtain ⟨b, ls, rfl, hb, hls⟩ := words_cons hvs
      obtain ⟨t, hleaf, rfl⟩ := leaf_of_reference href (hls.trans (href.keys_eq 4))
      refine ⟨_, .crossReference (.intro (Word.is_of_key ho) hv (.terminal (Word.is_of_key hb) hleaf)
        (Word.is_of_key hc)), ?_⟩
      rw [writtenName_eq, hwritten]
      rfl
  | @choice es hlen _ ih =>
    have hkeys : ws.map Word.key = parenKeys (List.intercalate [Symbol.bar.key] (es.map (keys 2))) := by
      have hparens : parenthesized context (.compound .none .choice es : Outline) = true := by
        simp [parenthesized, binding, Gathering.binding, show 1 < context by omega]
      rw [hws, keys, dressKeys, if_pos hparens, bodyKeys_compound]
      simp [decoration, Decoration.none, Gathering.keys, Gathering.memberContext]
    obtain ⟨o, us, c, rfl, ho, hus, hc⟩ := words_parens hkeys
    have hne : es ≠ [] := by
      rintro rfl
      simp at hlen
    obtain ⟨t, ts, hrow, hes⟩ := row_of_keys hne (fun e he ws hws => ih e he (Nat.le_refl 2) hws) hus
    refine ⟨_, .memberAssignable (.assignableGroup ho hrow hc), ?_⟩
    have hmore : ts ≠ [] := by
      rintro rfl
      simp [← hes] at hlen
    rw [outline_gather, if_neg hmore, hes]

/-! ## Definitions -/

/-- the operator of an assignment or an action -/
theorem operator_of_key {w : Word} {o : Text} (ho : o = "=" ∨ o = "+=" ∨ o = "?=") (hw : w.key = operatorKey o) :
    isAssignment w.token = true ∧ w.token.value = o := by
  rcases ho with rfl | rfl | rfl
  · obtain ⟨hkind, hvalue⟩ := Word.value_of_key (show w.key = (.symbol .equals, _) from hw)
    exact ⟨by simp [isAssignment, hkind], hvalue⟩
  · obtain ⟨hkind, hvalue⟩ := Word.value_of_key (show w.key = (.symbol .plusEquals, _) from hw)
    exact ⟨by simp [isAssignment, hkind], hvalue⟩
  · obtain ⟨hkind, hvalue⟩ := Word.value_of_key (show w.key = (.symbol .questionEquals, _) from hw)
    exact ⟨by simp [isAssignment, hkind], hvalue⟩

theorem acts_of_keys {d : Decoration} {n : Text} {f o : Option Text} (hn : Callable .parser n) (hf : Feature f o)
    {ws : List Word} (hws : ws.map Word.key = bodyKeys (.action d n f o)) :
    ∃ t, Acts ws t ∧ outline t = .action .none n f o := by
  cases hf with
  | none =>
    obtain ⟨b, more, rfl, hb, hmore⟩ := words_cons hws
    obtain ⟨us, last, rfl, hus, hlast⟩ := words_append hmore
    obtain ⟨c, rfl, hc⟩ := words_one hlast
    obtain ⟨v, hv, -, hwritten⟩ := named_of_keys hn hus
    have hacts := Acts.intro (Word.is_of_key hb) hv .nothing (Word.is_of_key hc)
    rw [List.append_nil, writtenName_eq, hwritten] at hacts
    exact ⟨_, hacts, rfl⟩
  | @some f o hf ho =>
    obtain ⟨b, more, rfl, hb, hmore⟩ := words_cons hws
    obtain ⟨us, last, rfl, hus, hlast⟩ := words_append hmore
    obtain ⟨x, last, rfl, hx, hlast⟩ := words_cons hlast
    obtain ⟨y, last, rfl, hy, hlast⟩ := words_cons hlast
    obtain ⟨z, last, rfl, hz, hlast⟩ := words_cons hlast
    obtain ⟨k, last, rfl, hk, hlast⟩ := words_cons hlast
    obtain ⟨c, rfl, hc⟩ := words_one hlast
    obtain ⟨v, hv, -, hwritten⟩ := named_of_keys hn hus
    obtain ⟨hykind, rfl⟩ := Word.value_of_key hy
    have hoperator : (z.Is .equals ∨ z.Is .plusEquals) ∧ z.token.value = o := by
      rcases ho with rfl | rfl
      · exact ⟨.inl (congrArg Prod.fst hz), congrArg Prod.snd hz⟩
      · exact ⟨.inr (congrArg Prod.fst hz), congrArg Prod.snd hz⟩
    obtain ⟨hzkind, rfl⟩ := hoperator
    have hacts := Acts.intro (Word.is_of_key hb) hv
      (.feature (Word.is_of_key hx) hykind hzkind (Word.value_of_key hk)) (Word.is_of_key hc)
    rw [List.cons_append, List.append_assoc, writtenName_eq, hwritten] at hacts
    exact ⟨_, hacts, rfl⟩

theorem naked_compound {d : Decoration} {g : Gathering} {es : List Outline} (hlen : 2 ≤ es.length) :
    naked (.compound d g es) = .compound .none g es := by
  match g, es, hlen with
  | .choice, _, _ => rfl
  | .anyOrder, _, _ => rfl
  | .plain, _, _ => rfl
  | .sequence, _ :: _ :: _, _ => rfl

theorem actionBare_of_readable {e : Outline} (hformed : Formed m e) (hreadable : Readable m e) : ActionBare e := by
  cases hformed with
  | action hm _ _ =>
    subst hm
    exact hreadable
  | _ => trivial

/-- words with the keys of a body spell it, when every node is readable -/
theorem bodySpells {e : Outline} (h : Formed m e) (hreadable : ∀ x ∈ e.nodes, Readable m x) : BodySpells m e := by
  induction h with
  | keyword v _ =>
    intro ws hws
    obtain ⟨w, rfl, hw⟩ := words_one hws
    obtain ⟨hkind, rfl⟩ := Word.value_of_key hw
    exact ⟨_, plain_of_atom (.leaf (.keyword hkind)), rfl⟩
  | call _ hn =>
    intro ws hws
    obtain ⟨v, hv, heof, rfl⟩ := named_of_keys hn hws
    exact ⟨_, plain_of_atom (.leaf (.call (.named hv heof))), rfl⟩
  | assignment hm hf ho he =>
    intro ws hws
    obtain ⟨n, more, rfl, hn, hmore⟩ := words_cons hws
    obtain ⟨y, us, rfl, hy, hus⟩ := words_cons hmore
    obtain ⟨hnkind, rfl⟩ := Word.value_of_key hn
    obtain ⟨hykind, rfl⟩ := operator_of_key ho hy
    obtain ⟨t, ht, rfl⟩ := member_of_keys he (by omega) hus
    exact ⟨_, .assignment hm hnkind hykind ht, rfl⟩
  | action hm hn hf =>
    intro ws hws
    obtain ⟨t, ht, houtline⟩ := acts_of_keys hn hf hws
    exact ⟨t, .action hm ht, houtline⟩
  | @compound d g es hallows hg hlen hes ih =>
    intro ws hws
    have hmember : ∀ e ∈ es, ∀ ws : List Word, ws.map Word.key = e.keys g.memberContext →
        ∃ t, Spells m (contextPart g.memberContext) ws [t] ∧ outline t = e := by
      intro e he us hus
      have hbelow := ((forall_nodes_iff _).1 hreadable).2 e he
      exact spells_of_body (hes e he) (ih e he hbelow)
        (actionBare_of_readable (hes e he) (hbelow e (mem_nodes_self e))) _ hus
    have hne : es ≠ [] := by
      rintro rfl
      simp at hlen
    obtain ⟨t, ts, hspells, rfl⟩ := body_of_members hg hne hmember hws
    refine ⟨_, hspells, ?_⟩
    have hmore : ts ≠ [] := by
      rintro rfl
      simp at hlen
    rw [naked_compound hlen, outline_gather, if_neg hmore]
  | @wrapped d e _ _ he ih =>
    intro ws hws
    have hbelow := ((forall_nodes_iff _).1 hreadable).2 e (by simp [children])
    obtain ⟨t, ht, rfl⟩ := spells_of_body he (ih hbelow) (actionBare_of_readable he (hbelow e (mem_nodes_self e))) 4
      (by simpa [bodyKeys, keysList, List.intercalate, keys, Gathering.memberContext] using hws)
    exact ⟨t, sequence_of_element ht, rfl⟩
  | range l r hm _ =>
    intro ws hws
    obtain ⟨x, more, rfl, hx, hmore⟩ := words_cons hws
    obtain ⟨y, more, rfl, hy, hmore⟩ := words_cons hmore
    obtain ⟨z, rfl, hz⟩ := words_one hmore
    obtain ⟨hxkind, rfl⟩ := Word.value_of_key hx
    obtain ⟨hzkind, rfl⟩ := Word.value_of_key hz
    exact ⟨_, .plainOperand hm (.range hxkind (Word.is_of_key hy) hzkind), rfl⟩
  | wildcard hm _ =>
    intro ws hws
    obtain ⟨w, rfl, hw⟩ := words_one hws
    exact ⟨_, .plainOperand hm (.wildcard (Word.is_of_key hw)), rfl⟩
  | endOfFile hm _ =>
    intro ws hws
    obtain ⟨w, rfl, hw⟩ := words_one hws
    exact ⟨_, .plainOperand hm (.endOfFile (Word.value_of_key hw)), rfl⟩
  | @negated d e hm _ he ih =>
    subst hm
    intro ws hws
    obtain ⟨b, us, rfl, hb, hus⟩ := words_cons hws
    obtain ⟨hnode, hbelow⟩ := (forall_nodes_iff _).1 hreadable
    obtain ⟨t, ht, rfl⟩ := operand_of_body he (ih (hbelow e (by simp [children]))) hnode.1 hnode.2 hus
    exact ⟨_, .plainOperand rfl (.negated (Word.is_of_key hb) ht), rfl⟩
  | @upTo d e hm _ he ih =>
    subst hm
    intro ws hws
    obtain ⟨b, us, rfl, hb, hus⟩ := words_cons hws
    obtain ⟨hnode, hbelow⟩ := (forall_nodes_iff _).1 hreadable
    obtain ⟨t, ht, rfl⟩ := operand_of_body he (ih (hbelow e (by simp [children]))) hnode.1 hnode.2 hus
    exact ⟨_, .upTo rfl (Word.is_of_key hb) ht, rfl⟩

/-- words with the keys of a printed definition spell the definition -/
theorem spells_of_keys {e : Outline} (h : Formed m e) (hreadable : ∀ x ∈ e.nodes, Readable m x) (context : Nat)
    {ws : List Word} (hws : ws.map Word.key = e.keys context) :
    ∃ t, Spells m (contextPart context) ws [t] ∧ outline t = e :=
  spells_of_body h (bodySpells h hreadable) (actionBare_of_readable h (hreadable e (mem_nodes_self e))) context hws

end Rulebook
