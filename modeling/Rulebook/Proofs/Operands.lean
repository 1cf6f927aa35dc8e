/-
Which terminal rules survive printing. The printer puts no parentheses around what is negated or skipped to unless it is
a compound, so a cardinality inside such an operand is read as one of the whole, and an operand that skips itself is not
read at all. `printed_terminal_reads_back_iff` says that this is the only loss: a terminal rule is read back exactly when
every operand in it is undecorated and does not skip.

For the hard direction the words that were read are laid beside the printed tokens. Both are nested and have the same
tokens apart from parentheses, so the parts of one are the parts of the other, each with or without parentheses of its
own (`Shows`); then an operand has been read from the very tokens that it is printed as.
-/
import Rulebook.Proofs.Parentheses
import Rulebook.Proofs.RoundTrip

namespace Rulebook

open Source Rulebook.Reading Element

/-! ## Parts of terminal rules -/

def Source.Part.OfTerminal : Part → Prop
  | .member => False
  | .assignable => False
  | .row s p => Inner s.key ∧ p.OfTerminal
  | _ => True

theorem Source.Part.OfTerminal.marks {p : Part} (h : p.OfTerminal) : p.Marks := by
  induction p with
  | row s p ih => exact ⟨h.1, ih h.2⟩
  | _ => trivial

theorem formed_of_part {p : Part} {ws : List Word} {ts : List Tree} (h : Spells .terminal p ws ts) (hp : p.OfTerminal)
    (hlex : LexicalWords ws) : ∀ t ∈ ts, Formed .terminal (outline t) := by
  have hshape : ∀ (p : Part) (t : Tree), p.OfTerminal → Shaped .terminal WrittenCall.written p t →
      Formed .terminal (outline t) := by
    intro p t hp ht
    induction p with
    | row s p ih => exact ih hp.2 ht
    | operand => exact ht rfl
    | member => exact absurd hp id
    | assignable => exact absurd hp id
    | _ => exact ht
  exact fun t ht => hshape p t hp (shaped_of_spells (fun _ hc => hc.callable) h hlex t ht)

/-! ## Printed with or without parentheses -/

/-- the tokens are those of the printed element, perhaps in parentheses -/
def Shows (ks : List Key) (e : Outline) : Prop := ks = e.keys 1 ∨ ks = parenKeys (e.keys 1)

theorem one_le_binding (e : Outline) : 1 ≤ e.binding := by
  cases e with
  | compound d g es => cases g <;> simp [binding, Gathering.binding]
  | _ => simp [binding]

theorem shows_keys (context : Nat) (e : Outline) : Shows (e.keys context) e := by
  cases hnone : e.decoration.isNone with
  | false =>
    -- what is decorated has parentheses everywhere or nowhere
    have hparens : e.parenthesized context = e.parenthesized 1 := by simp [parenthesized, hnone]
    exact .inl (by rw [keys, dressKeys, hparens, keys, dressKeys])
  | true =>
    have hbare : e.keys 1 = e.bodyKeys := keys_eq_bodyKeys hnone fun _ => one_le_binding e
    cases hparens : e.parenthesized context with
    | false =>
      refine .inl ?_
      rw [hbare, keys, dressKeys, hparens, Decoration.eq_none_of_isNone hnone]
      simp [Decoration.none]
    | true =>
      refine .inr ?_
      rw [hbare, keys, dressKeys, hparens, Decoration.eq_none_of_isNone hnone]
      simp [Decoration.none]

/-- the tokens of some printed elements one after the other, with others between them -/
def ShowsAll (sep : List Key) (ks : List Key) (es : List Outline) : Prop :=
  ∃ kss, List.Forall₂ Shows kss es ∧ ks = List.intercalate sep kss

theorem showsAll_one {sep ks : List Key} {e : Outline} : ShowsAll sep ks [e] ↔ Shows ks e := by
  refine ⟨?_, fun h => ⟨[ks], .cons h .nil, by simp⟩⟩
  intro hshows
  rcases hshows with ⟨_, hall, rfl⟩
  cases hall with
  | cons h hall =>
    cases hall
    simpa using h

theorem Shows.nested {m : Mode} {ks : List Key} {e : Outline} (h : Shows ks e) (he : Formed m e) : Nested ks := by
  have hholds := holds_keys he 1
  rcases h with rfl | rfl
  · exact hholds.1
  · exact hholds.1.ofParens hholds.2

theorem Shows.loose_eq {ks : List Key} {e : Outline} (h : Shows ks e) : loose ks = looseKeys e := by
  rcases h with rfl | rfl
  · exact loose_keys 1 e
  · rw [loose_parenKeys, loose_keys]

/-- a nested row that stands in front inside parentheses, with the opening one, takes the closing one too -/
theorem Nested.eq_nil_of_parens {ks us vs : List Key} (hus : Holds us) (hks : Nested ks) (h : us ++ vs = parenKeys ks) :
    vs = [] := by
  obtain ⟨u, us, rfl⟩ := List.exists_cons_of_ne_nil hus.2
  have hcons : u :: (us ++ vs) = Symbol.openParen.key :: (ks ++ [Symbol.closeParen.key]) := h
  obtain ⟨rfl, htail⟩ := List.cons.inj hcons
  obtain ⟨xs, ys, rfl, hxs, -, -⟩ := hus.1.of_open
  obtain ⟨-, hrest⟩ := Nested.close_unique hxs hks (by simpa using htail)
  exact (List.append_eq_nil_iff.1 hrest).2

theorem getLast_parenKeys (ks : List Key) : (parenKeys ks).getLast? = some Symbol.closeParen.key := by
  rw [parenKeys, ← List.cons_append, List.getLast?_append]
  rfl

theorem cardinality_key_ne (c : Cardinality) : c.key ≠ Symbol.closeParen.key := by cases c <;> decide

/-- behind a cardinality no parenthesis closes -/
theorem ne_parens_of_last {ks ls : List Key} (c : Cardinality) : ks ++ [c.key] ≠ parenKeys ls := by
  intro h
  have hlast := congrArg List.getLast? h
  rw [List.getLast?_append, getLast_parenKeys] at hlast
  exact cardinality_key_ne c (Option.some.inj hlast)

/-- a decorated element of a terminal rule ends with its cardinality -/
theorem keys_of_decorated {e : Outline} (h : Formed .terminal e) (hsome : e.decoration.isNone = false) (context : Nat) :
    ∃ ks c, e.decoration = ⟨some c, none⟩ ∧ e.keys context = ks ++ [c.key] := by
  obtain ⟨⟨c, p⟩, hd⟩ : ∃ d, e.decoration = d := ⟨_, rfl⟩
  have hp : p = none := by simpa [hd] using h.allows rfl
  subst hp
  cases c with
  | none => simp [hd, Decoration.isNone] at hsome
  | some c =>
    refine ⟨if e.parenthesized context then parenKeys e.bodyKeys else e.bodyKeys, c, hd, ?_⟩
    rw [keys, dressKeys, hd]
    rfl

/-- a printed element is not one pair of parentheses: these stand only where something is behind them -/
theorem ne_parens_of_formed {e : Outline} (h : Formed .terminal e) {ks : List Key} (hks : Nested ks) :
    e.keys 1 ≠ parenKeys ks := by
  cases hnone : e.decoration.isNone with
  | false =>
    obtain ⟨ls, c, -, hkeys⟩ := keys_of_decorated h hnone 1
    rw [hkeys]
    exact ne_parens_of_last c
  | true =>
    rw [keys_eq_bodyKeys hnone fun _ => one_le_binding e]
    intro heq
    cases h with
    | keyword v _ => cases heq
    | @call _ n _ _ =>
      have hhead : ∀ n : Text, nameKeys n ≠ parenKeys ks := by
        intro n
        unfold nameKeys
        split <;> exact nofun
      exact hhead n heq
    | assignment hm _ _ _ => cases hm
    | action hm _ _ => cases hm
    | @compound d g es _ hg hlen hes =>
      match es, hlen, hes with
      | x :: y :: es, _, hes =>
        rw [bodyKeys_compound, List.map_cons, List.map_cons, List.intercalate_cons_cons,
          List.append_assoc] at heq
        have hrest := hks.eq_nil_of_parens (holds_keys (hes x List.mem_cons_self) _) heq
        have hy := (holds_keys (hes y (by simp)) g.memberContext).2
        cases es <;> simp [hy] at hrest
    | wrapped _ hw _ =>
      cases Decoration.eq_none_of_isNone hnone
      simp [Wraps] at hw
    | range _ _ _ _ => cases heq
    | wildcard _ _ => cases heq
    | endOfFile _ _ => cases heq
    | negated _ _ _ => cases heq
    | upTo _ _ _ => cases heq

/-! ## Operands -/

/-- what is read as an operand, and printed as it was read, needs no parentheses -/
theorem fits_of_operand {ws : List Word} {t : Tree} (h : Spells .terminal .operand ws [t]) (hlex : LexicalWords ws)
    (hkeys : ws.map Word.key = keys 4 (outline t)) : t.decoration.isNone = true ∧ t.isUpTo = false := by
  have hformed := formed_of_part h trivial hlex t List.mem_cons_self
  cases h with
  | wildcard _ => exact ⟨rfl, rfl⟩
  | endOfFile _ => exact ⟨rfl, rfl⟩
  | range _ _ _ => exact ⟨rfl, rfl⟩
  | negated _ _ => exact ⟨rfl, rfl⟩
  | operandAtom h =>
    cases h with
    | leaf h =>
      cases h with
      | keyword _ => exact ⟨rfl, rfl⟩
      | call h =>
        cases h
        exact ⟨rfl, rfl⟩
    | group ho _ hc =>
      rw [keys_of_parens hlex ho hc] at hkeys
      have hdecoration := decoration_map WrittenCall.written t
      cases hnone : t.decoration.isNone with
      | false =>
        obtain ⟨ks, c, -, hlast⟩ := keys_of_decorated hformed (by rw [outline, hdecoration, hnone]) 4
        exact absurd (hlast.symm.trans hkeys.symm) (ne_parens_of_last c)
      | true =>
        refine ⟨rfl, ?_⟩
        cases t with
        | upTo d e =>
          rw [keys_eq_bodyKeys (e := outline (.upTo d e)) hnone (absurd · (Nat.lt_irrefl 4))] at hkeys
          cases hkeys
        | _ => rfl

/-! ## Members -/

/-- the words of the first member are its tokens, and those behind them belong to the other members -/
theorem showsAll_cons {p : Part} {sep : List Key} {us : List Word} {ks : List Key} {t : Tree} {u : Outline}
    {es : List Outline} (hus : Matches p us [t]) (ht : Formed .terminal (outline t))
    (h : ShowsAll sep (us.map Word.key ++ sep ++ ks) (outline t :: u :: es)) :
    Shows (us.map Word.key) (outline t) ∧ ShowsAll sep ks (u :: es) := by
  obtain ⟨_, hall, heq⟩ := h
  cases hall with
  | @cons first _ kss _ hfirst hrest =>
    cases hrest with
    | @cons second _ kss _ hsecond hrest =>
      rw [List.intercalate_cons_cons, List.append_assoc, List.append_assoc] at heq
      obtain ⟨hkeys, hbehind⟩ := hus.holds.1.front_unique (hfirst.nested ht)
        (hus.loose_one.trans hfirst.loose_eq.symm) heq
      exact ⟨hkeys ▸ hfirst, _, .cons hsecond hrest, List.append_cancel_left hbehind⟩

theorem forall₂_shows (context : Nat) (es : List Outline) : List.Forall₂ Shows (es.map (keys context)) es := by
  induction es with
  | nil => exact .nil
  | cons e es ih => exact .cons (shows_keys context e) ih

theorem showsAll_of_gather {g : Gathering} {t : Tree} {ts : List Tree} {ks : List Key}
    (hformed : Formed .terminal (outline (gather g t ts)))
    (hparens : ts ≠ [] → ∀ ls, Nested ls → ks ≠ parenKeys ls) (h : Shows ks (outline (gather g t ts))) :
    ShowsAll g.keys ks ((t :: ts).map outline) := by
  by_cases hone : ts = []
  · subst hone
    exact showsAll_one.2 h
  · rcases h with h | h
    · rw [outline_gather, if_neg hone] at h
      refine ⟨_, forall₂_shows g.memberContext _, h.trans ?_⟩
      rw [keys_eq_bodyKeys rfl fun _ => one_le_binding _, bodyKeys_compound]
    · exact absurd h (hparens hone _ (holds_keys hformed 1).1)

/-! ### Trees that fit -/

/-- no operand of the tree needs parentheses that it does not get -/
def Fits (t : Tree) : Prop := ∀ x ∈ t.nodes, OperandFits x

theorem fits_iff (t : Tree) : Fits t ↔ OperandFits t ∧ ∀ c ∈ t.children, Fits c := forall_nodes_iff t

theorem fits_gather {g : Gathering} {t : Tree} {ts : List Tree} (h : ∀ u ∈ t :: ts, Fits u) : Fits (gather g t ts) := by
  cases ts with
  | nil => exact h t List.mem_cons_self
  | cons u ts => exact (fits_iff _).2 ⟨trivial, h⟩

theorem fits_withCardinality (c : Cardinality) {t : Tree} (h : Fits t) : Fits (withCardinality c t) := by
  unfold withCardinality
  split
  · exact (fits_iff _).2 ⟨trivial, List.forall_mem_singleton.2 h⟩
  · obtain ⟨hroot, hbelow⟩ := (fits_iff t).1 h
    refine (fits_iff _).2 ⟨?_, ?_⟩
    · cases t <;> exact hroot
    · cases t <;> exact hbelow

/-- a sequence of one element, for the sake of a second cardinality -/
theorem keys_wrapped (context : Nat) (c : Cardinality) (e : Outline) :
    keys context (compound ⟨some c, none⟩ .sequence [e]) = parenKeys (keys 4 e) ++ [c.key] := by
  have hparens : parenthesized context (compound ⟨some c, none⟩ .sequence [e] : Outline) = true := by
    simp [parenthesized, binding, Gathering.binding, decoration, Decoration.isNone]
  rw [keys, dressKeys, if_pos hparens, bodyKeys_compound, List.map_singleton, List.intercalate_singleton]
  rfl

/-- a cardinality behind an element is printed behind the tokens of the element, perhaps in parentheses -/
theorem shows_of_withCardinality {c : Cardinality} {t : Tree} {ks : List Key} (ht : Formed .terminal (outline t))
    (h : Shows (ks ++ [c.key]) (outline (withCardinality c t))) : Shows ks (outline t) := by
  have hleft := h.resolve_right (ne_parens_of_last c)
  have hdecoration := decoration_map WrittenCall.written t
  have hpredicate : t.decoration.predicate = none := by
    rw [← hdecoration]
    exact ht.allows rfl
  unfold withCardinality at hleft
  split at hleft
  · next c' hc =>
    have hkeys : keys 1 (outline (.compound ⟨some c, none⟩ .sequence [t])) =
        parenKeys (keys 4 (outline t)) ++ [c.key] := keys_wrapped 1 c (outline t)
    -- the element has a cardinality already, so it stands alone in parentheses
    have hsame : keys 4 (outline t) = keys 1 (outline t) := by
      have hsome : (outline t).decoration.isNone = false := by
        rw [outline, hdecoration]
        simp [Decoration.isNone, hc]
      rcases shows_keys 4 (outline t) with h4 | h4
      · exact h4
      · obtain ⟨ls, c'', -, hlast⟩ := keys_of_decorated ht hsome 4
        exact absurd (hlast.symm.trans h4) (ne_parens_of_last c'')
    rw [hkeys, hsame] at hleft
    exact .inr (List.append_cancel_right hleft)
  · next hnone =>
    have hbare : (outline t).decoration.isNone = true := by
      rw [outline, hdecoration]
      simp [Decoration.isNone, hnone, hpredicate]
    have hkeys : keys 1 (outline (t.decorated ⟨some c, t.decoration.predicate⟩)) =
        (if parenthesized 1 (outline (t.decorated ⟨some c, t.decoration.predicate⟩)) then
          parenKeys (keys 1 (outline t)) else keys 1 (outline t)) ++ [c.key] := by
      rw [keys_eq_bodyKeys hbare fun _ => one_le_binding _, keys, dressKeys, outline, map_decorated, bodyKeys_decorated,
        decoration_decorated, hpredicate]
      rfl
    rw [hkeys] at hleft
    have hks := List.append_cancel_right hleft
    split at hks
    · exact .inr hks
    · exact .inl hks

/-- words that begin with a part and go on behind it are not one pair of parentheses -/
theorem ne_parens_of_front {p : Part} {us : List Word} {t : Tree} {ks : List Key} (hus : Matches p us [t])
    (hne : ks ≠ []) {ls : List Key} (hls : Nested ls) : us.map Word.key ++ ks ≠ parenKeys ls :=
  fun h => hne (hls.eq_nil_of_parens hus.holds h)

/-- a token in front of an operand: what is behind it is the printed operand, and then the operand fits -/
theorem fits_of_prefixed {a : Word} {s : Symbol} {ws : List Word} {t u : Tree} (ha : a.Is s) (hs : s ≠ .openParen)
    (hu : u.decoration.isNone = true) (hbody : bodyKeys (outline u) = s.key :: keys 4 (outline t))
    (hchildren : u.children = [t]) (hlex : LexicalWords (a :: ws)) (h : Spells .terminal .operand ws [t])
    (hshows : Shows ((a :: ws).map Word.key) (outline u))
    (ih : Shows (ws.map Word.key) (outline t) → Fits t)
    (hroot : t.decoration.isNone = true ∧ t.isUpTo = false → OperandFits u) : Fits u := by
  have hlexTail : LexicalWords ws := hlex.subset (by simp)
  have hbare : keys 1 (outline u) = s.key :: keys 4 (outline t) := by
    rw [keys_eq_bodyKeys (by rw [outline, decoration_map, hu]) fun _ => one_le_binding _, hbody]
  have hkeys : ws.map Word.key = keys 4 (outline t) := by
    rcases hshows with hleft | hright
    · rw [hbare] at hleft
      exact (List.cons.inj hleft).2
    · have hhead := (List.cons.inj hright).1
      rw [key_of_is (hlex a List.mem_cons_self) ha] at hhead
      exact absurd (TokenKind.symbol.inj (congrArg Prod.fst hhead)) hs
  refine (fits_iff u).2 ⟨hroot (fits_of_operand h hlexTail hkeys), ?_⟩
  rw [hchildren]
  exact List.forall_mem_singleton.2 (ih (hkeys ▸ shows_keys 4 _))

/-- a row of several members is not one pair of parentheses -/
theorem row_ne_parens {s : Symbol} {p : Part} {ws : List Word} {t : Tree} {ts : List Tree}
    (h : Spells .terminal (.row s p) ws (t :: ts)) (hp : p.OfTerminal) (hlex : LexicalWords ws) (hne : ts ≠ [])
    {ls : List Key} (hls : Nested ls) : ws.map Word.key ≠ parenKeys ls := by
  cases h with
  | rowOne _ => exact absurd rfl hne
  | rowMore hfirst _ _ =>
    rw [List.map_append]
    exact ne_parens_of_front (matches_of_spells hfirst hp.marks (hlex.subset (by simp))) (by simp) hls

/-- several elements are not one pair of parentheses -/
theorem elements_ne_parens {ws : List Word} {t : Tree} {ts : List Tree} (h : Spells .terminal .elements ws (t :: ts))
    (hlex : LexicalWords ws) (hne : ts ≠ []) {ls : List Key} (hls : Nested ls) :
    ws.map Word.key ≠ parenKeys ls := by
  cases h with
  | elementsOne _ => exact absurd rfl hne
  | elementsMore hfirst hmore =>
    rw [List.map_append]
    exact ne_parens_of_front (matches_of_spells hfirst trivial (hlex.subset (by simp)))
      (matches_of_spells hmore trivial (hlex.subset (by simp))).holds.2 hls

/-- gathered trees fit when the members do -/
theorem fits_of_gathered {g : Gathering} {p : Part} {ws : List Word} {t : Tree} {ts : List Tree}
    (h : Spells .terminal p ws [gather g t ts]) (hp : p.OfTerminal) (hlex : LexicalWords ws)
    (hparens : ts ≠ [] → ∀ ls, Nested ls → ws.map Word.key ≠ parenKeys ls)
    (hshows : Shows (ws.map Word.key) (outline (gather g t ts)))
    (ih : ShowsAll g.keys (ws.map Word.key) ((t :: ts).map outline) → ∀ u ∈ t :: ts, Fits u) :
    Fits (gather g t ts) := by
  have hformed := formed_of_part h hp hlex _ List.mem_cons_self
  exact fits_gather (ih (showsAll_of_gather hformed hparens hshows))

/-- the first member fits and the others do -/
theorem fits_of_members {p : Part} {sep : List Key} {ws us : List Word} {t : Tree} {ts : List Tree}
    (h : Spells .terminal p ws [t]) (hp : p.OfTerminal) (hlex : LexicalWords ws) (hts : ts ≠ [])
    (hshows : ShowsAll sep (ws.map Word.key ++ sep ++ us.map Word.key) ((t :: ts).map outline))
    (ih : Shows (ws.map Word.key) (outline t) → Fits t)
    (ihmore : ShowsAll sep (us.map Word.key) (ts.map outline) → ∀ u ∈ ts, Fits u) : ∀ u ∈ t :: ts, Fits u := by
  obtain ⟨u, us', rfl⟩ := List.exists_cons_of_ne_nil hts
  have hmatches := matches_of_spells h hp.marks hlex
  have hformed := formed_of_part h hp hlex t List.mem_cons_self
  obtain ⟨hone, hmore⟩ := showsAll_cons hmatches hformed hshows
  exact List.forall_mem_cons.2 ⟨ih hone, ihmore hmore⟩

/-- a plain element with a cardinality behind it, or none -/
theorem fits_of_counted {ws cs : List Word} {t : Tree} {c : Option Cardinality} (h : Spells .terminal .plain ws [t])
    (hcs : Marked cardinality? cs c) (hlex : LexicalWords (ws ++ cs))
    (hshows : Shows ((ws ++ cs).map Word.key) (outline (dress none c t)))
    (ih : Shows (ws.map Word.key) (outline t) → Fits t) : Fits (dress none c t) := by
  have hformed := formed_of_part h trivial (hlex.subset (by simp)) t List.mem_cons_self
  rw [List.map_append, keys_of_markedCardinality (hlex.subset (by simp)) hcs] at hshows
  cases c with
  | none => exact ih (by simpa [dress] using hshows)
  | some c => exact fits_withCardinality c (ih (shows_of_withCardinality hformed hshows))

/-- what stands in parentheses is printed without them, or in parentheses of its own -/
theorem shows_of_group {o c : Word} {ws : List Word} {t : Tree} (ho : o.Is .openParen)
    (h : Spells .terminal .alternatives ws [t]) (hc : c.Is .closeParen) (hlex : LexicalWords (o :: ws ++ [c]))
    (hshows : Shows ((o :: ws ++ [c]).map Word.key) (outline t)) : Shows (ws.map Word.key) (outline t) := by
  have hlexInner : LexicalWords ws := hlex.subset (by simp)
  have hformed := formed_of_part h trivial hlexInner t List.mem_cons_self
  have hnested := (matches_of_spells h trivial hlexInner).holds.1
  rw [keys_of_parens hlex ho hc] at hshows
  have hright := hshows.resolve_left fun heq => ne_parens_of_formed hformed hnested heq.symm
  have hkeys : ws.map Word.key = keys 1 (outline t) := by simpa [parenKeys] using hright
  exact .inl hkeys

/-- trees that are printed as the words that spell them fit -/
theorem fits_of_spells {p : Part} {ws : List Word} {ts : List Tree} (h : Spells .terminal p ws ts) (hp : p.OfTerminal)
    (hlex : LexicalWords ws) (hshows : ShowsAll p.between (ws.map Word.key) (ts.map outline)) : ∀ t ∈ ts, Fits t := by
  induction h with
  | rowOne _ ih => exact ih hp.2 hlex (showsAll_one.2 (showsAll_one.1 hshows))
  | @rowMore s p ws us b t ts hfirst hb hrow ih ihrow =>
    have hlexFirst : LexicalWords ws := hlex.subset (by simp)
    have hkey := key_of_is (hlex b (by simp)) hb
    have hboth : ShowsAll [s.key] (ws.map Word.key ++ [s.key] ++ us.map Word.key) ((t :: ts).map outline) := by
      simpa [hkey, Part.between] using hshows
    refine fits_of_members hfirst hp.2 hlexFirst hrow.ne_nil hboth ?_ (ihrow hp (hlex.subset (by simp)))
    exact fun hone => List.forall_mem_singleton.1 (ih hp.2 hlexFirst (showsAll_one.2 hone))
  | @alternatives ws t ts hrow ih =>
    exact List.forall_mem_singleton.2 (fits_of_gathered (.alternatives hrow) trivial hlex
      (fun hne _ => row_ne_parens hrow trivial hlex hne) (showsAll_one.1 hshows) (ih ⟨by decide, trivial⟩ hlex))
  | @unordered ws t ts hrow ih =>
    exact List.forall_mem_singleton.2 (fits_of_gathered (.unordered hrow) trivial hlex
      (fun hne _ => row_ne_parens hrow trivial hlex hne) (showsAll_one.1 hshows) (ih ⟨by decide, trivial⟩ hlex))
  | @sequence ws t ts helements ih =>
    exact List.forall_mem_singleton.2 (fits_of_gathered (.sequence helements) trivial hlex
      (fun hne _ => elements_ne_parens helements hlex hne) (showsAll_one.1 hshows) (ih trivial hlex))
  | elementsOne _ ih => exact ih trivial hlex (showsAll_one.2 (showsAll_one.1 hshows))
  | @elementsMore ws us t ts hfirst helements ih ihtail =>
    have hlexFirst : LexicalWords ws := hlex.subset (by simp)
    have hboth : ShowsAll [] (ws.map Word.key ++ [] ++ us.map Word.key) ((t :: ts).map outline) := by
      simpa [Part.between] using hshows
    refine fits_of_members hfirst trivial hlexFirst helements.ne_nil hboth ?_
      (ihtail trivial (hlex.subset (by simp)))
    exact fun hone => List.forall_mem_singleton.1 (ih trivial hlexFirst (showsAll_one.2 hone))
  | action hm _ => cases hm
  | @element ps ws cs p c t hps hmode hplain hcs ih =>
    obtain rfl : p = none := hmode rfl
    cases hps
    refine List.forall_mem_singleton.2 (fits_of_counted hplain hcs hlex (showsAll_one.1 hshows) fun hone => ?_)
    exact List.forall_mem_singleton.1 (ih trivial (hlex.subset (by simp)) (showsAll_one.2 hone))
  | assignment hm _ _ _ => cases hm
  | plainAtom hm _ _ => cases hm
  | @upTo a ws t _ ha h ih =>
    have hone := showsAll_one.1 hshows
    refine List.forall_mem_singleton.2 (fits_of_prefixed ha (by decide) rfl rfl rfl hlex h hone ?_ id)
    exact fun hone => List.forall_mem_singleton.1 (ih trivial (hlex.subset (by simp)) (showsAll_one.2 hone))
  | plainOperand _ _ ih => exact ih trivial hlex hshows
  | wildcard _ => exact List.forall_mem_singleton.2 ((fits_iff _).2 ⟨trivial, List.forall_mem_nil _⟩)
  | endOfFile _ => exact List.forall_mem_singleton.2 ((fits_iff _).2 ⟨trivial, List.forall_mem_nil _⟩)
  | range _ _ _ =>
    have hpart : ∀ k : KeywordPart, Fits (ofPart k) := fun k => (fits_iff _).2 ⟨trivial, List.forall_mem_nil _⟩
    exact List.forall_mem_singleton.2 ((fits_iff _).2 ⟨trivial,
      List.forall_mem_cons.2 ⟨hpart _, List.forall_mem_singleton.2 (hpart _)⟩⟩)
  | @negated b ws t hb h ih =>
    have hone := showsAll_one.1 hshows
    refine List.forall_mem_singleton.2 (fits_of_prefixed hb (by decide) rfl rfl rfl hlex h hone ?_ id)
    exact fun hone => List.forall_mem_singleton.1 (ih trivial (hlex.subset (by simp)) (showsAll_one.2 hone))
  | operandAtom _ ih => exact ih trivial hlex hshows
  | leaf h =>
    refine List.forall_mem_singleton.2 ?_
    cases h with
    | keyword _ => exact (fits_iff _).2 ⟨trivial, List.forall_mem_nil _⟩
    | call h =>
      cases h
      exact (fits_iff _).2 ⟨trivial, List.forall_mem_nil _⟩
  | @group o c ws t ho h hc ih =>
    have hinner := shows_of_group ho h hc hlex (showsAll_one.1 hshows)
    exact ih trivial (hlex.subset (by simp)) (showsAll_one.2 hinner)
  | crossReference _ => exact absurd hp id
  | memberAssignable _ _ => exact absurd hp id
  | assignableLeaf _ => exact absurd hp id
  | assignableGroup _ _ _ _ => exact absurd hp id

/-! ## Terminal rules -/

theorem Element.isUpTo_map {ρ σ : Type} (f : ρ → σ) (e : Element ρ) : (e.map f).isUpTo = e.isUpTo := by
  cases e <;> rfl

theorem Element.operandFits_map {ρ σ : Type} (f : ρ → σ) (e : Element ρ) : OperandFits (e.map f) ↔ OperandFits e := by
  cases e with
  | negated d e => simp only [Element.map, OperandFits, decoration_map, isUpTo_map]
  | upTo d e => simp only [Element.map, OperandFits, decoration_map, isUpTo_map]
  | _ => exact Iff.rfl

theorem forall_fits_map {ρ σ : Type} (f : ρ → σ) (e : Element ρ) :
    (∀ x ∈ (e.map f).nodes, OperandFits x) ↔ ∀ x ∈ e.nodes, OperandFits x := by
  rw [nodes_map, List.forall_mem_map]
  exact forall₂_congr fun x _ => operandFits_map f x

/-- a terminal rule whose calls are unqualified is read back exactly when its operands fit -/
theorem readsBack_linkRule_iff (s : Scope) (i : Nat) {wr : WrittenRule} {fragment : Bool} {t : Tree} {ws : List Word}
    (hkind : wr.kind = .terminal fragment) (hhead : Headed wr.kind wr.name wr.typeName) (ht : wr.definition = some t)
    (hspells : Spells .terminal .alternatives ws [t]) (hlex : LexicalWords ws)
    (hcalls : ∀ c ∈ t.calls, c.qualifier = none) : ReadsBack (s.linkRule i wr) ↔ Fits t := by
  have hdefinition := definition_linkRule s i ht
  rw [map_congr fun c hc => s.shown_of_unqualified (hcalls c hc)] at hdefinition
  have hformed : Formed .terminal (outline t) := formed_of_spells (fun _ hc => hc.callable) hspells hlex
  have hprintable := printable_of_formed (r := s.linkRule i wr) hhead hdefinition hformed
  have hread : ∀ words t rest, ReadsDefinition (s.linkRule i wr).kind words t rest ↔
      (definition .terminal words).Gives t rest := by
    intro words t rest
    rw [show (s.linkRule i wr).kind = _ from hkind]
    exact Iff.rfl
  refine ⟨fun h => ?_, fun h => ?_⟩
  · obtain ⟨c, us, stop, t', hus, hlexUs, hdef, houtline⟩ := h.words hprintable
    obtain ⟨c', vs, stop', hwords, -, hvs, -⟩ := (gives_definition ..).1 ((hread _ _ _).1 hdef)
    obtain rfl : us = vs := (List.append_inj' (List.cons.inj hwords).2 rfl).1
    have hshows : Shows (us.map Word.key) (outline t') := .inl (by rw [houtline]; exact hus)
    have hfits := List.forall_mem_singleton.1 (fits_of_spells hvs trivial hlexUs (showsAll_one.2 hshows))
    have hprinted := (forall_fits_map WrittenCall.written t').2 hfits
    rw [show t'.map WrittenCall.written = outline t from houtline] at hprinted
    exact (forall_fits_map WrittenCall.written t).1 hprinted
  · refine readsBack_of_words hprintable fun c us stop hc hus hstop => ?_
    obtain ⟨t', ht', houtline⟩ := gives_printedDefinition (m := .terminal) hformed
      ((forall_fits_map WrittenCall.written t).2 h) hc hus hstop
    exact ⟨t', (hread _ _ _).2 ht', houtline⟩

/-- **A printed terminal rule is read as the same rule exactly when its operands fit**: for every grammar that is read
and every terminal rule of it whose calls are written without a qualifier, the text gives the rule back if and only if
nothing that is negated or skipped to has a cardinality or skips itself. -/
theorem printed_terminal_reads_back_iff {load : Text → Library → Library.Outcome Grammar} {file : Path} {source : Text}
    {l : Library} {w : WrittenGrammar} {g : Grammar} {i : Nat} {wr : WrittenRule} {r : Rule} {fragment : Bool}
    (hw : WrittenGrammar.ofText file source = .ok w) (hg : (Library.readWith load file source l).1 = .ok g)
    (hwr : w.rules[i]? = some wr) (hr : g.rules[i]? = some r) (hkind : r.kind = .terminal fragment)
    (hcalls : ∀ t ∈ wr.definition, ∀ c ∈ t.calls, c.qualifier = none) :
    ReadsBack r ↔ ∀ d ∈ r.definition, ∀ x ∈ d.nodes, OperandFits x := by
  obtain ⟨w', used, id, hw', rfl⟩ := linked_of_readWith hg
  cases hw.symm.trans hw'
  obtain ⟨wr', hwr', rfl⟩ := rule_of_link hr
  cases hwr.symm.trans hwr'
  obtain ⟨words, hlex, hdefined⟩ := defined_of_ofText hw
  obtain ⟨hhead, hdef⟩ := hdefined wr (List.mem_of_getElem? hwr)
  have hkind' : wr.kind = .terminal fragment := hkind
  cases hdef with
  | parser hparser _ _ _ => cases hparser.symm.trans hkind'
  | enumeration henum _ _ => cases henum.symm.trans hkind'
  | @terminal f ws t _ ht hspells hws =>
    have hiff := readsBack_linkRule_iff (w.scope id used) i hkind' hhead ht hspells
      (fun x hx => hlex x (hws hx)) (hcalls t ht)
    have hdefinition : ((w.scope id used).linkRule i wr).definition =
        some (t.map fun c => some ((w.scope id used).resolve c)) := by rw [Scope.linkRule, ht, Option.map_some]
    rw [hiff, hdefinition]
    simp only [Option.mem_some_iff, forall_eq']
    exact (forall_fits_map _ t).symm

/-! ### Two small grammars -/

/-- a text of one terminal rule is a grammar -/
theorem ofText_terminal {file : Path} {source : Text} {lexed : Lexed} {x n k a c : Word} {more : List Word} {t : Tree}
    (hlexed : Lexed.ofSource file source = .ok lexed) (hwords : wordsOf lexed.tokens = x :: n :: k :: a :: c :: more)
    (hx : x.IsWord "grammar") (hn : n.IsName) (hk : k.IsWord "terminal") (ha : a.IsName) (hc : c.Is .colon)
    (ht : (definition .terminal (c :: more)).Gives t []) :
    WrittenGrammar.ofText file source = .ok ⟨n.token.value, x.comment, [], [], [],
      [⟨.terminal false, a.token.value, none, k.comment, some a.token.line, some t⟩]⟩ := by
  have hterminal : (terminalRule (k :: a :: c :: more)).Gives
      ⟨.terminal false, a.token.value, none, none, some a.token.line, some t⟩ [] :=
    (gives_terminalRule_iff hk FragmentClause.absent ha TypeClause.absent hc more
      (fun _ h => absurd h (by simp [atName, hc.kind])) _ _).2 ⟨t, ht, rfl⟩
  have hrule : (rule (k :: a :: c :: more)).Gives
      ⟨.terminal false, a.token.value, none, none, some a.token.line, some t⟩ [] := by
    rw [rule, if_pos (introduces_of_isWord hk ((atName_cons ..).2 ha))]
    exact hterminal
  have hgrammar := ofWords_of_rule hx hn hk.1 (by rw [hk.2]; decide) hrule
  exact WrittenGrammar.ofText_eq_ok_iff.2 ⟨_, hlexed, hwords ▸ hgrammar⟩

/-- the tokens of the text `grammar a terminal T:!'b'*;` -/
def starredNegationTokens : List Token :=
  [⟨.name, "grammar", 1, 1, 7⟩, ⟨.name, "a", 1, 9, 1⟩, ⟨.name, "terminal", 1, 11, 8⟩, ⟨.name, "T", 1, 20, 1⟩,
    ⟨.symbol .colon, ":", 1, 21, 1⟩, ⟨.symbol .bang, "!", 1, 22, 1⟩, ⟨.literal, "b", 1, 23, 3⟩,
    ⟨.symbol .star, "*", 1, 26, 1⟩, ⟨.symbol .semicolon, ";", 1, 27, 1⟩]

/-- a negation with a cardinality is printed without loss -/
theorem starred_negation_reads_back : ∃ (w : WrittenGrammar) (g : Grammar) (wr : WrittenRule) (r : Rule),
    WrittenGrammar.ofText (Path.ofText "a") "grammar a terminal T:!'b'*;" = .ok w ∧
      (Library.readWith (fun name l => (.ok (Library.stub l.fresh name), l)) (Path.ofText "a")
        "grammar a terminal T:!'b'*;" Library.empty).1 = .ok g ∧
      w.rules[0]? = some wr ∧ g.rules[0]? = some r ∧ r.kind = .terminal false ∧
      (∀ t ∈ wr.definition, ∀ c ∈ t.calls, c.qualifier = none) ∧ ReadsBack r := by
  have hlexed : Lexed.ofSource (Path.ofText "a") "grammar a terminal T:!'b'*;" =
      .ok ⟨starredNegationTokens, ⟨1, 28⟩⟩ := by cbv
  have hdefinition : (definition .terminal ((wordsOf starredNegationTokens).drop 4)).Gives
      (.negated ⟨some .any, none⟩ (.keyword .none "b")) [] := ⟨by decide, by cbv⟩
  have htext := ofText_terminal hlexed rfl ⟨rfl, rfl⟩ rfl ⟨rfl, rfl⟩ rfl rfl hdefinition
  have hread := readWith_of_ofText (fun name l => (.ok (Library.stub l.fresh name), l)) Library.empty htext rfl
  have hcalls : ∀ t ∈ some (.negated ⟨some .any, none⟩ (.keyword .none "b") : Tree),
      ∀ c ∈ t.calls, c.qualifier = none := by
    intro _ h c hc
    cases h
    simp [Element.calls, nodes_eq, children, target?] at hc
  have hfirst : ∀ wr : WrittenRule, [wr][0]? = some wr := fun _ => rfl
  refine ⟨_, _, _, _, htext, hread, rfl, rfl, rfl, hcalls,
    (printed_terminal_reads_back_iff htext hread (hfirst _) rfl rfl hcalls).2 ?_⟩
  intro _ h
  cases h
  exact (forall_nodes_iff _).2 ⟨⟨rfl, rfl⟩, List.forall_mem_singleton.2 ((forall_nodes_iff _).2 ⟨trivial, List.forall_mem_nil _⟩)⟩

/-- the tokens of the text `grammar a terminal T:!('b'*);` -/
def negatedStarTokens : List Token :=
  [⟨.name, "grammar", 1, 1, 7⟩, ⟨.name, "a", 1, 9, 1⟩, ⟨.name, "terminal", 1, 11, 8⟩, ⟨.name, "T", 1, 20, 1⟩,
    ⟨.symbol .colon, ":", 1, 21, 1⟩, ⟨.symbol .bang, "!", 1, 22, 1⟩, ⟨.symbol .openParen, "(", 1, 23, 1⟩,
    ⟨.literal, "b", 1, 24, 3⟩, ⟨.symbol .star, "*", 1, 27, 1⟩, ⟨.symbol .closeParen, ")", 1, 28, 1⟩,
    ⟨.symbol .semicolon, ";", 1, 29, 1⟩]

/-- a cardinality inside a negation is lost: `!('b'*)` is printed as `!'b'*` -/
theorem negated_star_is_lost : ∃ (w : WrittenGrammar) (g : Grammar) (wr : WrittenRule) (r : Rule),
    WrittenGrammar.ofText (Path.ofText "a") "grammar a terminal T:!('b'*);" = .ok w ∧
      (Library.readWith (fun name l => (.ok (Library.stub l.fresh name), l)) (Path.ofText "a")
        "grammar a terminal T:!('b'*);" Library.empty).1 = .ok g ∧
      w.rules[0]? = some wr ∧ g.rules[0]? = some r ∧ r.kind = .terminal false ∧
      (∀ t ∈ wr.definition, ∀ c ∈ t.calls, c.qualifier = none) ∧ ¬ ReadsBack r := by
  have hlexed : Lexed.ofSource (Path.ofText "a") "grammar a terminal T:!('b'*);" =
      .ok ⟨negatedStarTokens, ⟨1, 30⟩⟩ := by cbv
  have hdefinition : (definition .terminal ((wordsOf negatedStarTokens).drop 4)).Gives
      (.negated .none (.keyword ⟨some .any, none⟩ "b")) [] := ⟨by decide, by cbv⟩
  have htext := ofText_terminal hlexed rfl ⟨rfl, rfl⟩ rfl ⟨rfl, rfl⟩ rfl rfl hdefinition
  have hread := readWith_of_ofText (fun name l => (.ok (Library.stub l.fresh name), l)) Library.empty htext rfl
  have hcalls : ∀ t ∈ some (.negated .none (.keyword ⟨some .any, none⟩ "b") : Tree),
      ∀ c ∈ t.calls, c.qualifier = none := by
    intro _ h c hc
    cases h
    simp [Element.calls, nodes_eq, children, target?] at hc
  refine ⟨_, _, _, _, htext, hread, rfl, rfl, rfl, hcalls, fun h => ?_⟩
  obtain ⟨words, hlex, hdefined⟩ := defined_of_ofText htext
  obtain ⟨hhead, hdef⟩ := hdefined _ List.mem_cons_self
  cases hdef with
  | parser hkind _ _ _ => cases hkind
  | enumeration hkind _ _ => cases hkind
  | terminal _ ht hspells hws =>
    cases ht
    have hfits := (readsBack_linkRule_iff _ 0 rfl hhead rfl hspells (fun x hx => hlex x (hws hx)) (hcalls _ rfl)).1 h
    exact absurd ((fits_iff _).1 hfits).1.1 (by decide)

end Rulebook
