/-
A printed definition has the fewest parentheses. How a definition is built says how many pairs any text of it must
have: `Source.Part.fewest` counts the pairs that the printer writes where a part of the language is expected, and no
words that spell a tree there have less of them (`fewest_of_spells`). So a text with one pair less, whichever it is,
spells another tree or none.

- `fewest_of_spells`: the words of a parser rule hold at least the parentheses that its tree is printed with;
- `printed_parentheses_are_needed`: no pair of parentheses in a printed parser rule can be left out.
-/
import Rulebook.Proofs.Bodies
import Rulebook.Proofs.Layout
import Rulebook.Proofs.Openings
import Rulebook.Proofs.Parentheses

namespace Rulebook

open Source Rulebook.Reading Element

/-! ## Counting -/

/-- how many parentheses open among the tokens -/
def parens (ks : List Key) : Nat := ks.countP fun k => k.1 = .symbol .openParen

section Parens

variable {ks ls : List Key}

theorem parens_append : parens (ks ++ ls) = parens ks + parens ls := List.countP_append

theorem parens_of_inner (h : ∀ k ∈ ks, Inner k) : parens ks = 0 :=
  List.countP_eq_zero.2 fun k hk => by simpa using (h k hk).1

theorem parens_cons {k : Key} (h : Inner k) : parens (k :: ks) = parens ks :=
  List.countP_cons_of_neg (by simpa using h.1)

theorem parens_cons_open : parens (Symbol.openParen.key :: ks) = parens ks + 1 := List.countP_cons_of_pos (by decide)

theorem parens_cons_close : parens (Symbol.closeParen.key :: ks) = parens ks := List.countP_cons_of_neg (by decide)

theorem parens_parenKeys : parens (parenKeys ks) = parens ks + 1 := by
  rw [parenKeys, parens_cons_open, parens_append, parens_cons_close]
  rfl

theorem parens_le_of_sublist (h : ks.Sublist ls) : parens ks ≤ parens ls := h.countP_le

theorem parens_intercalate {sep : List Key} (hsep : ∀ k ∈ sep, Inner k) (kss : List (List Key)) :
    parens (List.intercalate sep kss) = (kss.map parens).sum := by
  induction kss with
  | nil => rfl
  | cons ks kss ih =>
    cases kss with
    | nil => simp
    | cons ls kss =>
      rw [List.intercalate_cons_cons, parens_append, parens_append, parens_of_inner hsep, ih]
      simp

end Parens

/-! ## Printed elements -/

namespace Element

variable {e : Outline} {context : Nat}

/-- an element has its own parentheses only where it stands -/
theorem parens_keys (context : Nat) (e : Outline) :
    parens (e.keys context) = parens e.bodyKeys + if e.parenthesized context then 1 else 0 := by
  rw [keys, dressKeys, parens_append, parens_append, parens_of_inner (inner_predicateKeys _),
    parens_of_inner (inner_cardinalityKeys _)]
  split
  · rw [parens_parenKeys]
    omega
  · omega

/-- an undecorated atom has no parentheses of its own -/
theorem parens_atom (hnone : e.decoration.isNone = true) (hbinding : e.binding = 4) (context : Nat) :
    parens (e.keys context) = parens e.bodyKeys := by
  rw [keys_eq_bodyKeys hnone fun h => absurd h (by omega)]

theorem parens_keys_mono {loose tight : Nat} (h : loose ≤ tight) (e : Outline) :
    parens (e.keys loose) ≤ parens (e.keys tight) := by
  have hparens : e.parenthesized loose = true → e.parenthesized tight = true := by
    simp only [parenthesized, Bool.or_eq_true, Bool.and_eq_true, decide_eq_true_eq]
    rintro (⟨hbinding, hdecorated | hloose⟩ | hskip)
    · exact .inl ⟨hbinding, .inl hdecorated⟩
    · exact .inl ⟨hbinding, .inr (by omega)⟩
    · exact .inr hskip
  rw [parens_keys, parens_keys]
  split
  · next hloose => rw [if_pos (hparens hloose)]
  · omega

/-- in parentheses an element needs no more than one pair of its own -/
theorem parens_keys_le (loose tight : Nat) (e : Outline) : parens (e.keys tight) ≤ parens (e.keys loose) + 1 := by
  rw [parens_keys, parens_keys]
  split <;> split <;> omega

/-- what is decorated has parentheses everywhere or nowhere -/
theorem parens_decorated (h : e.decoration.isNone = false) (context : Nat) :
    parens (e.keys context) = parens (e.keys 1) := by
  have hparens : e.parenthesized context = e.parenthesized 1 := by simp [parenthesized, h]
  rw [parens_keys, parens_keys, hparens]

theorem parens_compound (d : Decoration) (g : Gathering) (es : List Outline) :
    parens (bodyKeys (compound d g es)) = (es.map fun e => parens (e.keys g.memberContext)).sum := by
  rw [bodyKeys_compound, parens_intercalate (inner_gatheringKeys g), List.map_map]
  rfl

/-- a compound that no looser one is expected in place of has the parentheses of its members -/
theorem parens_bare (g : Gathering) (es : List Outline) (hcontext : context ≤ g.binding) :
    parens ((compound .none g es).keys context) = (es.map fun e => parens (e.keys g.memberContext)).sum := by
  rw [keys_eq_bodyKeys rfl fun _ => hcontext, parens_compound]

/-- where a tight element is expected, its decoration adds no parentheses, unless it skips -/
theorem parens_redecorated (h : e.isUpTo = false) (d : Decoration) :
    parens ((e.decorated d).keys 4) = parens (e.keys 4) := by
  have hparens : ∀ e : Outline, e.isUpTo = false → e.parenthesized 4 = decide (e.binding < 4) := by
    intro e he
    cases hb : decide (e.binding < 4) <;> simp [parenthesized, he, hb]
  have hskip : (e.decorated d).isUpTo = false := by cases e <;> exact h
  have hbinding : (e.decorated d).binding = e.binding := by cases e <;> rfl
  rw [parens_keys, parens_keys, bodyKeys_decorated, hparens _ hskip, hparens _ h, hbinding]

mutual

/-- the names of calls have no parentheses -/
theorem parens_bodyKeys_map (f : Text → Text) : (e : Outline) → parens (bodyKeys (e.map f)) = parens e.bodyKeys
  | keyword _ _ => rfl
  | call _ n => by
    rw [map, bodyKeys, bodyKeys, parens_of_inner (inner_nameKeys _), parens_of_inner (inner_nameKeys _)]
  | assignment _ x o t => by
    rw [map, bodyKeys, bodyKeys, parens_cons (inner_name x), parens_cons (inner_name x), parens_cons (inner_operator o),
      parens_cons (inner_operator o)]
    exact parens_keys_map f 4 t
  | crossReference _ n t => by
    have hinside := parens_bodyKeysOption_map f t
    rw [map, bodyKeys, bodyKeys, parens_cons (by decide), parens_cons (by decide), parens_append, parens_append,
      parens_append, parens_append, hinside]
  | action _ _ none _ => rfl
  | action _ _ (some _) _ => rfl
  | compound _ g es => by
    rw [map, bodyKeys, bodyKeys, parens_intercalate (inner_gatheringKeys g), parens_intercalate (inner_gatheringKeys g)]
    exact congrArg List.sum (parens_keysList_map f g.memberContext es)
  | range _ _ _ => rfl
  | wildcard _ => rfl
  | endOfFile _ => rfl
  | negated _ e => by
    rw [map, bodyKeys, bodyKeys, parens_cons (by decide), parens_cons (by decide)]
    exact parens_keys_map f 4 e
  | upTo _ e => by
    rw [map, bodyKeys, bodyKeys, parens_cons (by decide), parens_cons (by decide)]
    exact parens_keys_map f 4 e
  | literal _ _ none => rfl
  | literal _ _ (some _) => rfl
  | bare _ => rfl

theorem parens_keys_map (f : Text → Text) (context : Nat) :
    (e : Outline) → parens ((e.map f).keys context) = parens (e.keys context)
  | e => by
    have hparens : (e.map f).parenthesized context = e.parenthesized context := by cases e <;> rfl
    rw [parens_keys, parens_keys, parens_bodyKeys_map f e, hparens]

theorem parens_bodyKeysOption_map (f : Text → Text) :
    (o : Option Outline) → parens (bodyKeysOption (mapOption f o)) = parens (bodyKeysOption o)
  | none => rfl
  | some e => by
    rw [mapOption, bodyKeysOption, bodyKeysOption, parens_cons (by decide), parens_cons (by decide)]
    exact parens_keys_map f 4 e

theorem parens_keysList_map (f : Text → Text) (context : Nat) :
    (es : List Outline) → (keysList context (mapList f es)).map parens = (keysList context es).map parens
  | [] => rfl
  | e :: es => by
    rw [mapList, keysList, keysList, List.map_cons, List.map_cons, parens_keysList_map f context es]
    exact congrArg (· :: _) (parens_keys_map f context e)

end

end Element

/-! ## Words that are read -/

/-- how many pairs of parentheses a tree is printed with where a part of a parser rule is expected. A plain element may
stand between a predicate and a cardinality, and if it has one of its own, it needs a pair more -/
def Source.Part.fewest : Part → Outline → Nat
  | .alternatives, e => parens (e.keys 1)
  | .unordered, e => parens (e.keys 2)
  | .sequence, e => parens (e.keys 3)
  | .plain, e => parens (e.keys 4) + if e.decoration.isNone then 0 else 1
  | .atom, e => parens (e.keys 4) + if e.decoration.isNone then 0 else 1
  | .row _ p, e => p.fewest e
  | _, e => parens (e.keys 4)

/-- the words hold at least the parentheses that their trees are printed with, with any names for the calls -/
structure Encloses (f : WrittenCall → Text) (p : Part) (ws : List Word) (ts : List Tree) : Prop where
  no_skip : ∀ t ∈ ts, t.isUpTo = false
  fewest : (ts.map fun t => p.fewest (t.map f)).sum ≤ parens (ws.map Word.key)

section Reading

variable {f : WrittenCall → Text} {t : Tree} {ts : List Tree}

theorem encloses_one {p : Part} {ws : List Word} : Encloses f p ws [t] ↔
    t.isUpTo = false ∧ p.fewest (t.map f) ≤ parens (ws.map Word.key) := by
  refine ⟨fun h => ⟨h.no_skip t List.mem_cons_self, by simpa using h.fewest⟩, fun h => ?_⟩
  exact ⟨List.forall_mem_singleton.2 h.1, by simpa using h.2⟩

/-- a part that asks for the same parentheses -/
theorem Encloses.lift {p q : Part} {ws : List Word} (h : Encloses f p ws ts) (hsame : ∀ e, q.fewest e = p.fewest e) :
    Encloses f q ws ts :=
  ⟨h.no_skip, by simpa only [hsame] using h.fewest⟩

/-- words around those of the trees -/
theorem Encloses.widen {p : Part} {ws us : List Word} (h : Encloses f p ws ts) (hsub : ws.Sublist us) :
    Encloses f p us ts :=
  ⟨h.no_skip, h.fewest.trans (parens_le_of_sublist (hsub.map Word.key))⟩

theorem Encloses.cons {p q : Part} {ws us : List Word} (h : Encloses f p ws [t]) (hmore : Encloses f q us ts)
    (hsame : ∀ e, p.fewest e = q.fewest e) : Encloses f q (ws ++ us) (t :: ts) := by
  obtain ⟨hskip, hfewest⟩ := encloses_one.1 h
  refine ⟨List.forall_mem_cons.2 ⟨hskip, hmore.no_skip⟩, ?_⟩
  rw [List.map_cons, List.sum_cons, List.map_append, parens_append, ← hsame]
  exact Nat.add_le_add hfewest hmore.fewest

/-- some elements in one compound, or one element alone, have the parentheses of the members -/
theorem parens_gather (g : Gathering) {context : Nat} (hcontext : context ≤ g.binding) (t : Tree) (ts : List Tree) :
    parens (((gather g t ts).map f).keys context) ≤
      ((t :: ts).map fun t => parens ((t.map f).keys g.memberContext)).sum := by
  cases ts with
  | nil =>
    have hmember : context ≤ g.memberContext := hcontext.trans (by cases g <;> decide)
    simpa [gather] using parens_keys_mono hmember (t.map f)
  | cons u us =>
    show parens ((Element.map f (.compound .none g (t :: u :: us))).keys context) ≤ _
    rw [Element.map, parens_bare g _ hcontext, mapList_eq_map, List.map_map]
    rfl

theorem isUpTo_gather (g : Gathering) (h : ∀ u ∈ t :: ts, u.isUpTo = false) : (gather g t ts).isUpTo = false := by
  cases ts with
  | nil => exact h t List.mem_cons_self
  | cons u us => rfl

/-- the members of a compound stand for it where it is expected itself -/
theorem Encloses.gather {p q : Part} {ws : List Word} (g : Gathering) (h : Encloses f q ws (t :: ts))
    (hmember : ∀ e, q.fewest e = parens (e.keys g.memberContext))
    (hwhole : ∀ e, p.fewest e = parens (e.keys g.binding)) :
    Encloses f p ws [gather g t ts] := by
  refine encloses_one.2 ⟨isUpTo_gather g h.no_skip, ?_⟩
  rw [hwhole]
  exact (parens_gather g (Nat.le_refl _) t ts).trans (by simpa only [hmember] using h.fewest)

/-- what is put around a tree is its decoration, or it has one already and becomes the member of a sequence -/
theorem dress_cases (p : Option Predicate) (c : Option Cardinality) (t : Tree) :
    (∃ d, dress p c t = t.decorated d) ∨
      t.decoration.isNone = false ∧ dress p c t = .compound ⟨c, p⟩ .sequence [t] := by
  cases hnone : t.decoration.isNone with
  | true => exact .inl ⟨_, dress_of_isNone hnone p c⟩
  | false =>
    cases p with
    | some p => exact .inr ⟨rfl, dress_of_wraps (d := ⟨c, some p⟩) hnone⟩
    | none =>
      cases c with
      | none => exact .inl ⟨_, (decorated_self t).symm⟩
      | some c =>
        cases hc : t.decoration.cardinality with
        | some c' => exact .inr ⟨rfl, dress_of_wraps (d := ⟨some c, none⟩) ⟨rfl, by rw [hc]; rfl⟩⟩
        | none => exact .inl ⟨⟨some c, t.decoration.predicate⟩, by simp only [dress, Option.elim, withCardinality, hc]⟩

theorem isUpTo_dress (p : Option Predicate) (c : Option Cardinality) (h : t.isUpTo = false) :
    (dress p c t).isUpTo = false := by
  rcases dress_cases p c t with ⟨d, heq⟩ | ⟨-, heq⟩
  · rw [heq]
    cases t <;> exact h
  · rw [heq]
    rfl

theorem parens_dress (p : Option Predicate) (c : Option Cardinality) (h : t.isUpTo = false) :
    parens (((dress p c t).map f).keys 4) ≤ Part.plain.fewest (t.map f) := by
  rcases dress_cases p c t with ⟨d, heq⟩ | ⟨hsome, heq⟩
  · have hskip : (t.map f).isUpTo = false := by cases t <;> exact h
    rw [heq, map_decorated, parens_redecorated hskip]
    exact Nat.le_add_right _ _
  · have hmember : parens (bodyKeys (.compound ⟨c, p⟩ .sequence [t.map f])) = parens ((t.map f).keys 4) := by
      simp [parens_compound, Gathering.memberContext]
    have hplain : Part.plain.fewest (t.map f) = parens ((t.map f).keys 4) + 1 := by
      simp [Part.fewest, decoration_map, hsome]
    rw [heq, Element.map, mapList, mapList, parens_keys, hmember, hplain]
    split <;> omega

/-- a predicate before a plain element and a cardinality behind it -/
theorem Encloses.dress {ws : List Word} (h : Encloses f .plain ws [t]) (p : Option Predicate) (c : Option Cardinality) :
    Encloses f .element ws [dress p c t] := by
  obtain ⟨hskip, hfewest⟩ := encloses_one.1 h
  exact encloses_one.2 ⟨isUpTo_dress p c hskip, (parens_dress p c hskip).trans hfewest⟩

theorem encloses_assignment {x o : Text} {ws : List Word} (h : Encloses f .member ws [t]) :
    Encloses f .plain ws [.assignment .none x o t] := by
  have hvalue : parens ((Element.map f (.assignment .none x o t)).keys 4) = parens ((t.map f).keys 4) := by
    rw [Element.map, parens_atom rfl rfl, bodyKeys, parens_cons (inner_name _), parens_cons (inner_operator _)]
    rfl
  exact encloses_one.2 ⟨rfl, hvalue.le.trans (encloses_one.1 h).2⟩

theorem parens_leaf {m : Mode} {ws : List Word} (h : Leaf m ws t) (context : Nat) :
    t.isUpTo = false ∧ t.decoration.isNone = true ∧ parens ((t.map f).keys context) = 0 := by
  cases h with
  | keyword _ => exact ⟨rfl, rfl, parens_atom rfl rfl context⟩
  | call h =>
    cases h
    exact ⟨rfl, rfl, (parens_atom rfl rfl context).trans (parens_of_inner (inner_nameKeys _))⟩

theorem encloses_leaf {m : Mode} {p : Part} {ws : List Word} (h : Leaf m ws t) (hp : p = .atom ∨ p = .assignable) :
    Encloses f p ws [t] := by
  obtain ⟨hskip, hnone, hparens⟩ := parens_leaf (f := f) h 4
  refine encloses_one.2 ⟨hskip, ?_⟩
  rcases hp with rfl | rfl
  · simp [Part.fewest, hparens, decoration_map, hnone]
  · simp [Part.fewest, hparens]

theorem encloses_referenced {ws : List Word} (h : Referenced ws t) : Encloses f .member ws [t] := by
  obtain @⟨o, c, ws, us, v, u, -, -, hu, -⟩ := h
  refine encloses_one.2 ⟨rfl, ?_⟩
  have hinside : parens (bodyKeysOption (mapOption f u)) = 0 := by
    cases hu with
    | nothing => rfl
    | terminal _ hl =>
      rw [mapOption, bodyKeysOption, parens_cons (by decide)]
      exact (parens_leaf hl 4).2.2
  have hnone : parens ((Element.map f (.crossReference .none (writtenName v) u)).keys 4) = 0 := by
    rw [Element.map, parens_atom rfl rfl, bodyKeys, parens_cons (by decide), parens_append, parens_append,
      parens_of_inner (inner_nameKeys _), hinside]
    rfl
  exact hnone.trans_le (Nat.zero_le _)

theorem encloses_acts {ws : List Word} (h : Acts ws t) : Encloses f .element ws [t] := by
  obtain @⟨o, c, ws, us, v, u, -, -, hu, -⟩ := h
  refine encloses_one.2 ⟨rfl, ?_⟩
  have hbraces : ∀ ks : List Key, (∀ k ∈ ks, Inner k) →
      parens (Symbol.openBrace.key :: (nameKeys (writtenName v) ++ ks)) = 0 := by
    intro ks hks
    rw [parens_cons (by decide), parens_append, parens_of_inner (inner_nameKeys _), parens_of_inner hks]
  have hnone : parens ((Element.map f (.action .none (writtenName v) (u.map Prod.fst) (u.map Prod.snd))).keys 4) =
      0 := by
    rw [Element.map, parens_atom rfl rfl]
    cases hu with
    | nothing => exact hbraces _ (by decide)
    | feature _ _ _ _ =>
      refine hbraces _ (List.forall_mem_cons.2 ⟨by decide, List.forall_mem_cons.2 ⟨inner_name _, ?_⟩⟩)
      exact List.forall_mem_cons.2 ⟨inner_operator _, List.forall_mem_cons.2 ⟨inner_name _, by decide⟩⟩
  exact hnone.trans_le (Nat.zero_le _)

/-- in parentheses words hold one pair more -/
theorem parens_of_group {o c : Word} (ho : o.Is .openParen) (ws : List Word) :
    parens (ws.map Word.key) + 1 ≤ parens ((o :: ws ++ [c]).map Word.key) := by
  have hopen : parens (o.key :: ws.map Word.key) = parens (ws.map Word.key) + 1 :=
    List.countP_cons_of_pos (decide_eq_true ho.kind)
  rw [← hopen, List.map_append, List.map_cons]
  exact parens_le_of_sublist (List.sublist_append_left _ _)

/-- the words of a parser rule hold at least the parentheses that its tree is printed with -/
theorem fewest_of_spells {p : Part} {ws : List Word} (h : Spells .parser p ws ts) (hp : p.Of .parser) :
    Encloses f p ws ts := by
  induction h with
  | rowOne _ ih => exact (ih hp.2).lift fun _ => rfl
  | rowMore _ _ _ ih ihrow => exact (ih hp.2).cons ((ihrow hp).widen (List.sublist_cons_self _ _)) fun _ => rfl
  | alternatives _ ih => exact (ih ⟨.inl rfl, trivial⟩).gather .choice (fun _ => rfl) fun _ => rfl
  | unordered _ ih => exact (ih ⟨.inr rfl, trivial⟩).gather .anyOrder (fun _ => rfl) fun _ => rfl
  | sequence _ ih => exact (ih trivial).gather .sequence (fun _ => rfl) fun _ => rfl
  | elementsOne _ ih => exact (ih trivial).lift fun _ => rfl
  | elementsMore _ _ ih ihmore => exact (ih trivial).cons (ihmore trivial) fun _ => rfl
  | action _ h => exact encloses_acts h
  | element _ _ _ _ ih =>
    have hsub : ∀ ps ws cs : List Word, ws.Sublist (ps ++ ws ++ cs) := fun ps ws cs =>
      (List.sublist_append_right ps ws).trans (List.sublist_append_left _ cs)
    exact ((ih trivial).dress _ _).widen (hsub _ _ _)
  | assignment hm _ _ _ ih =>
    exact (encloses_assignment (ih hm)).widen ((List.sublist_cons_self _ _).trans (List.sublist_cons_self _ _))
  | plainAtom _ _ ih => exact (ih trivial).lift fun _ => rfl
  | upTo hm _ _ _ => cases hm
  | plainOperand hm _ _ => cases hm
  | wildcard _ => cases hp
  | endOfFile _ => cases hp
  | range _ _ _ => cases hp
  | negated _ _ _ => cases hp
  | operandAtom _ _ => cases hp
  | leaf h => exact encloses_leaf h (.inl rfl)
  | @group o c ws t ho _ _ ih =>
    obtain ⟨hskip, hfewest⟩ := encloses_one.1 (ih trivial)
    refine encloses_one.2 ⟨hskip, le_trans ?_ (parens_of_group ho ws)⟩
    refine le_trans ?_ (Nat.succ_le_succ hfewest)
    -- the pair that is read is the one that the tree has here, or the one that lets it be decorated again
    show parens ((t.map f).keys 4) + (if (t.map f).decoration.isNone then 0 else 1) ≤ parens ((t.map f).keys 1) + 1
    cases hnone : (t.map f).decoration.isNone with
    | true => exact parens_keys_le 1 4 _
    | false => exact (congrArg (· + 1) (parens_decorated hnone 4)).le
  | crossReference h => exact encloses_referenced h
  | memberAssignable _ ih => exact (ih hp).lift fun _ => rfl
  | assignableLeaf h => exact encloses_leaf h (.inr rfl)
  | @assignableGroup o c ws t ts ho _ _ ih =>
    obtain ⟨hskips, hfewest⟩ := ih ⟨.inl rfl, hp⟩
    refine encloses_one.2 ⟨isUpTo_gather .choice hskips, le_trans ?_ (parens_of_group ho ws)⟩
    refine (parens_keys_le 1 4 _).trans (Nat.succ_le_succ (le_trans (parens_gather .choice (Nat.le_refl 1) t ts) ?_))
    exact (List.sum_le_sum fun u _ => parens_keys_mono (by decide) _).trans hfewest

end Reading

/-! ## Texts with one pair less -/

/-- the text without two parentheses that stand behind a colon: one that opens and one behind it that closes -/
inductive WithoutPair (text : Text) : Text → Prop where
  | intro {front inner back : List Piece} {o c : Piece} :
    Piece.cut text = .ok (front ++ o :: (inner ++ c :: back)) → (∃ p ∈ front, p.token = some Symbol.colon.key) →
    o.token = some Symbol.openParen.key → c.token = some Symbol.closeParen.key →
    WithoutPair text ((front ++ (inner ++ back)).flatMap Piece.text)

theorem no_colon_nameKeys (n : Text) : ∀ k ∈ nameKeys n, k.1 ≠ .symbol .colon := by
  unfold nameKeys
  split
  · exact List.forall_mem_cons.2 ⟨by simp, List.forall_mem_cons.2 ⟨by decide, List.forall_mem_singleton.2 (by simp)⟩⟩
  · exact List.forall_mem_singleton.2 (by simp)

theorem no_colon_namesKeys (ns : List Text) : ∀ k ∈ namesKeys ns, k.1 ≠ .symbol .colon := by
  induction ns with
  | nil => exact List.forall_mem_nil _
  | cons n ns ih =>
    cases ns with
    | nil => simpa [namesKeys] using no_colon_nameKeys n
    | cons n' ns =>
      have hsplit : namesKeys (n :: n' :: ns) = nameKeys n ++ Symbol.comma.key :: namesKeys (n' :: ns) := by
        simp [namesKeys, List.intercalate_cons_cons]
      rw [hsplit]
      exact List.forall_mem_append.2 ⟨no_colon_nameKeys n, List.forall_mem_cons.2 ⟨by decide, ih⟩⟩

/-- the first colon of a rule is the one behind its header -/
theorem no_colon_headerKeys {ρ : Type} (r : Declaration ρ) : ∀ k ∈ r.headerKeys, k.1 ≠ .symbol .colon := by
  have hparts : ∀ p ∈ r.headerParts, ∀ k ∈ p.2, k.1 ≠ .symbol .colon := by
    refine List.forall_mem_append.2 ⟨List.forall_mem_map.2 fun w _ => List.forall_mem_singleton.2 (by simp), ?_⟩
    refine List.forall_mem_cons.2 ⟨List.forall_mem_singleton.2 (by simp), List.forall_mem_append.2 ⟨?_, ?_⟩⟩
    · unfold typeParts
      split
      · exact List.forall_mem_singleton.2 (List.forall_mem_cons.2 ⟨by simp, no_colon_nameKeys _⟩)
      · exact List.forall_mem_nil _
    · unfold hiddenParts
      split
      · exact List.forall_mem_singleton.2 (List.forall_mem_cons.2 ⟨by simp, List.forall_mem_cons.2 ⟨by decide,
          List.forall_mem_append.2 ⟨no_colon_namesKeys _, List.forall_mem_singleton.2 (by decide)⟩⟩⟩)
      · exact List.forall_mem_nil _
  intro k hk
  obtain ⟨p, hp, hkp⟩ := List.mem_flatMap.1 hk
  exact hparts p hp k hkp

/-- what stands behind a colon stands behind the first one -/
theorem front_of_colon {hs ps front more : List Piece} {colon o : Piece}
    (hnone : ∀ p ∈ hs, p.token ≠ some Symbol.colon.key) (hsplit : hs ++ colon :: ps = front ++ o :: more)
    (hcolon : ∃ p ∈ front, p.token = some Symbol.colon.key) : ∃ x, front = hs ++ colon :: x ∧ ps = x ++ o :: more := by
  obtain ⟨p, hp, htoken⟩ := hcolon
  rcases List.append_eq_append_iff.1 hsplit with ⟨as, rfl, hrest⟩ | ⟨as, rfl, -⟩
  · cases as with
    | nil => exact absurd htoken (hnone p (by simpa using hp))
    | cons y x =>
      obtain ⟨rfl, rfl⟩ := List.cons.inj hrest
      exact ⟨x, rfl, rfl⟩
  · exact absurd htoken (hnone p (List.mem_append_left _ hp))

/-- what is printed behind a header is a row of pieces that meet each other, with the colon first -/
theorem laid_behindHeader {e : Outline} (h : Formed .parser e) :
    ∃ ps, Laid (Text.ofString ":" ++ (Text.ofString "\n    " ++ (Declaration.definitionText id e ++ Text.ofString ";")))
      (Symbol.colon.key :: (e.keys 1 ++ [Symbol.semicolon.key])) (Piece.mark .colon :: ps) := by
  obtain ⟨ps, hps⟩ := laid_definitionText h
  have hsemicolon := hps.before (.symbol (s := .semicolon) nofun) (Piece.trails_mark (ends_cons (by decide) _) nofun)
  have hgaps : ∀ {t : Text} {ks : List Key} {ps : List Piece} (gaps : Text), (∀ c ∈ gaps, Piece.isGap c = true) →
      Laid t ks ps → Laid (gaps ++ t) ks (gaps.map (fun c => ⟨[c], none⟩) ++ ps) := by
    intro t ks ps gaps hgaps h
    induction gaps with
    | nil => exact h
    | cons c gaps ih =>
      obtain ⟨hc, hmore⟩ := List.forall_mem_cons.1 hgaps
      exact (ih hmore).behind (.gap hc) (Piece.leads_gap c)
  have hlines := hgaps "\n    " (by decide) hsemicolon
  exact ⟨_, (Laid.one (.symbol (s := .colon) nofun)).append hlines fun p _ q hq => by
    obtain rfl := Option.some.inj hq
    exact (Piece.trails_gap (by decide)).meets p⟩

/-- a text without one piece that opens and one that closes holds one pair of parentheses less -/
theorem parens_without (x inner back : List Piece) {o c : Piece} (ho : o.token = some Symbol.openParen.key)
    (hc : c.token = some Symbol.closeParen.key) :
    parens ((x ++ o :: (inner ++ c :: back)).filterMap Piece.token) =
      parens ((x ++ (inner ++ back)).filterMap Piece.token) + 1 := by
  simp only [List.filterMap_append, List.filterMap_cons, ho, hc, parens_append, parens_cons_open, parens_cons_close]
  omega

/-- a printed parser rule without a pair is cut into the tokens of its header, a colon and tokens with one pair less -/
theorem Printable.without {r : Rule} {e : Outline} (hr : Printable r e) (he : Formed .parser e) {text short : Text}
    (htext : r.printed = .ok text) (h : WithoutPair text short) :
    ∃ ks, Cuts short (r.headerKeys ++ Symbol.colon.key :: ks) [] ∧ parens ks < parens (e.keys 1) ∧
      ∀ k ∈ ks, k ∈ e.keys 1 ++ [Symbol.semicolon.key] := by
  obtain ⟨d, hd, hde⟩ := Option.map_eq_some_iff.1 hr.definition
  obtain ⟨ps, hps⟩ := laid_behindHeader he
  have hends : Ends [] := ⟨nofun, nofun⟩
  have htail := hps.cut_append hends (by rw [Piece.cut])
  rw [List.append_nil, List.append_nil] at htail
  obtain ⟨hs, hcut, hkeys⟩ := cuts_header (r := r.toDeclaration) hr.headed (nameEnds_cons isNamePart_colon _) _ htail
  have hnone : ∀ p ∈ hs, p.token ≠ some Symbol.colon.key := by
    intro p hp htoken
    have hmem : Symbol.colon.key ∈ r.headerKeys := hkeys ▸ List.mem_filterMap.2 ⟨p, hp, htoken⟩
    exact no_colon_headerKeys _ _ hmem rfl
  have hheader : hs.flatMap Piece.text = r.header := by
    have hwhole := Piece.flatMap_text_of_cut hcut
    rw [List.flatMap_append, Piece.flatMap_text_of_cut htail] at hwhole
    exact List.append_cancel_right hwhole
  cases hr.printed.symm.trans htext
  rw [text_of_definition linkedName hd, hde] at h
  obtain @⟨front, inner, back, o, c, hpieces, hcolon, ho, hc⟩ := h
  obtain ⟨x, rfl, rfl⟩ := front_of_colon hnone (Except.ok.inj (hcut.symm.trans hpieces)) hcolon
  have hbehind : (x ++ o :: (inner ++ c :: back)).filterMap Piece.token = e.keys 1 ++ [Symbol.semicolon.key] :=
    (List.cons.inj hps.keys).2
  have hshort : Cuts ((Piece.mark .colon :: x ++ (inner ++ back)).flatMap Piece.text)
      (Symbol.colon.key :: (x ++ (inner ++ back)).filterMap Piece.token) [] :=
    hps.cuts_without (Piece.mark .colon :: x) ho hc hends
  refine ⟨(x ++ (inner ++ back)).filterMap Piece.token, ?_, ?_, ?_⟩
  · rw [List.append_assoc, List.flatMap_append, hheader]
    exact Cuts.append (cuts_header (r := r.toDeclaration) hr.headed (nameEnds_cons isNamePart_colon _)) hshort
  · have hparens := parens_without x inner back ho hc
    rw [hbehind, parens_append] at hparens
    exact Nat.lt_of_succ_le hparens.ge
  · rw [← hbehind]
    refine fun k hk => List.Sublist.subset (List.Sublist.filterMap Piece.token ?_) hk
    exact (List.Sublist.refl x).append (((List.Sublist.refl inner).append (List.sublist_cons_self c back)).cons o)

/-- the shape of a definition, where every call is like every other -/
def Element.skeleton {ρ : Type} (e : Element ρ) : Element Unit := e.map fun _ => ()

/-- definitions of one shape are printed with the same parentheses, whatever their calls are called -/
theorem parens_of_skeleton {t : Tree} {d : Definition} (h : t.skeleton = d.skeleton) (context : Nat) :
    parens ((d.map linkedName).keys context) = parens ((t.map fun _ => ([] : Text)).keys context) := by
  have hnameless : (t.map fun _ => ([] : Text)) = (d.map linkedName).map fun _ => [] := by
    have hsame := congrArg (Element.map fun _ => ([] : Text)) h
    rw [skeleton, skeleton, map_map, map_map] at hsame
    rw [map_map]
    exact hsame
  rw [hnameless, parens_keys_map]

/-- **Every pair of parentheses in a printed parser rule is needed**: for every grammar that is read and every parser
rule of it, the printed text without a parenthesis that opens in its definition and one that closes behind it, matching
or not, is refused, or it is read as a rule whose definition has another shape, even if every call counts as every
other. -/
theorem printed_parentheses_are_needed {load : Text → Library → Library.Outcome Grammar} {file : Path} {source : Text}
    {l : Library} {g : Grammar} (hg : (Library.readWith load file source l).1 = .ok g) {r : Rule} (hr : r ∈ g.rules)
    {fragment : Bool} {hidden : List Text} (hkind : r.kind = .parser fragment hidden) :
    ∃ text pieces, r.printed = .ok text ∧ Piece.cut text = .ok pieces ∧ ∀ short, WithoutPair text short →
      ∀ (file : Path) (lexed : Lexed) (read : WrittenRule) (rest : List Word), Lexed.ofSource file short = .ok lexed →
        (rule (wordsOf lexed.tokens)).Gives read rest →
          read.definition.map skeleton ≠ r.definition.map skeleton := by
  obtain ⟨e, hprintable, hformed⟩ := printable_parserRule hg hr hkind
  obtain ⟨pieces, hpieces, -⟩ := hprintable.cuts_text [] [] (by rw [Piece.cut])
  rw [List.append_nil] at hpieces
  refine ⟨_, _, hprintable.printed, hpieces, fun short hshort file lexed read rest hlexed hread hsame => ?_⟩
  obtain ⟨ks, hcuts, hless, hkeys⟩ := hprintable.without hformed hprintable.printed hshort
  -- the words of the shorter text: those of the same header, a colon and words with fewer parentheses
  obtain ⟨lexed', hlexed', htokens⟩ := hcuts.ofSource file
  cases hlexed.symm.trans hlexed'
  have hcomments : ∀ t ∈ lexed.tokens, t.kind ≠ .headComment := by
    intro t ht
    have hmem : t.key ∈ declarationKeys r.toDeclaration e := by
      have hmem := htokens ▸ List.mem_map_of_mem (f := Token.key) ht
      rw [declarationKeys]
      simp only [List.mem_append, List.mem_cons] at hmem ⊢
      have hrest := fun h => List.mem_append.1 (hkeys t.key h)
      simp only [List.mem_singleton] at hrest
      tauto
    exact hprintable.nested.no_comment t.key hmem
  obtain ⟨hs, more, hwords, hhs, hmore⟩ := words_append ((keys_wordsOf hcomments).trans htokens)
  obtain ⟨c, ws, rfl, hc, hws⟩ := words_cons hmore
  obtain ⟨line, hgives⟩ := gives_header hprintable.headed hhs (Word.is_of_key hc) ws
  obtain ⟨t, ht, rfl⟩ := (hgives read rest).1 (hwords ▸ hread)
  rw [hkind] at ht
  obtain ⟨c', us, s, hsplit, -, hspells, -⟩ := (gives_definition ..).1 ht
  obtain ⟨rfl, rfl⟩ := List.cons.inj hsplit
  -- they spell a tree of the same shape, which needs all the parentheses that the rule is printed with
  obtain ⟨d, hd, rfl⟩ := Option.map_eq_some_iff.1 hprintable.definition
  rw [hd] at hsame
  have hneeded := (encloses_one.1 (fewest_of_spells (f := fun _ => []) hspells trivial)).2
  have hheld : parens (us.map Word.key) ≤ parens ks := by
    rw [← hws, List.map_append]
    exact parens_le_of_sublist (List.sublist_append_left _ _)
  have hprinted := parens_of_skeleton (Option.some.inj hsame) 1
  exact absurd (hneeded.trans hheld) (not_le.2 (hless.trans_eq hprinted))

/-- without its parentheses the text of a choice that is repeated says something else -/
theorem repeated_choice_keeps_parentheses : ∃ (g : Grammar) (r : Rule),
    (Library.readWith (fun name l => (.ok (Library.stub l.fresh name), l)) (Path.ofText "a") "grammar a A:('b'|c)*;"
      Library.empty).1 = .ok g ∧ r ∈ g.rules ∧ r.kind = .parser false [] ∧ r.printed = .ok "A:\n    ('b' | c)*;" ∧
      WithoutPair "A:\n    ('b' | c)*;" "A:\n    'b' | c*;" ∧
      ∀ (file : Path) (lexed : Lexed) (read : WrittenRule) (rest : List Word),
        Lexed.ofSource file "A:\n    'b' | c*;" = .ok lexed → (rule (wordsOf lexed.tokens)).Gives read rest →
          read.definition.map skeleton ≠ r.definition.map skeleton := by
  have hlexed : Lexed.ofSource (Path.ofText "a") "grammar a A:('b'|c)*;" = .ok ⟨repetitionTokens, ⟨1, 22⟩⟩ := by cbv
  let b : Word := ⟨⟨.literal, "b", 1, 14, 3⟩, none⟩
  let c : Word := ⟨⟨.name, "c", 1, 18, 1⟩, none⟩
  let choice : List Word := b :: ⟨⟨.symbol .bar, "|", 1, 17, 1⟩, none⟩ :: [c]
  let tree : Tree := .compound .none .choice [.keyword .none "b", .call .none ⟨none, "c", 1, 18⟩]
  let group : List Word := ⟨⟨.symbol .openParen, "(", 1, 13, 1⟩, none⟩ :: choice ++
    [⟨⟨.symbol .closeParen, ")", 1, 19, 1⟩, none⟩]
  let star : Word := ⟨⟨.symbol .star, "*", 1, 20, 1⟩, none⟩
  have hmember : ∀ {w : Word} {t : Tree}, Leaf .parser [w] t → Spells .parser .unordered [w] [t] := fun h =>
    unordered_of_sequence (sequence_of_element (element_of_plain (plain_of_atom (.leaf h))))
  have hcall : Called .parser [c] (.call .none ⟨none, "c", 1, 18⟩) :=
    .named (.plain rfl) fun hmode => absurd hmode (by decide)
  have hchoice : Spells .parser .alternatives choice [tree] :=
    .alternatives (.rowMore (hmember (.keyword rfl)) rfl (.rowOne (hmember (.call hcall))))
  have helement : Spells .parser .element (group ++ [star]) [tree.decorated ⟨some .any, none⟩] :=
    .element .absent (fun _ => rfl) (plain_of_atom (.group rfl hchoice rfl)) (.present rfl)
  have hread := readWith_bare (fun name l => (.ok (Library.stub l.fresh name), l))
    (s := ⟨⟨.symbol .semicolon, ";", 1, 21, 1⟩, none⟩) hlexed rfl ⟨rfl, rfl⟩ rfl rfl (by decide) rfl
    (alternatives_of_element helement) rfl
  obtain ⟨e, hprintable, -⟩ := printable_parserRule hread List.mem_cons_self rfl
  have hprinted : Rule.printed _ = .ok "A:\n    ('b' | c)*;" := hprintable.printed
  have hcut : Piece.cut "A:\n    ('b' | c)*;" = .ok ([⟨"A", some (.name, "A")⟩, Piece.mark .colon, ⟨"\n", none⟩,
      ⟨" ", none⟩, ⟨" ", none⟩, ⟨" ", none⟩, ⟨" ", none⟩] ++ Piece.mark .openParen :: ([⟨"'b'", some (.literal, "b")⟩,
        ⟨" ", none⟩, Piece.mark .bar, ⟨" ", none⟩, ⟨"c", some (.name, "c")⟩] ++ Piece.mark .closeParen ::
          [Piece.mark .star, Piece.mark .semicolon])) := by cbv
  have hshort := WithoutPair.intro hcut ⟨Piece.mark .colon, by simp, rfl⟩ rfl rfl
  obtain ⟨text, pieces, htext, -, hneeded⟩ := printed_parentheses_are_needed hread List.mem_cons_self rfl
  cases hprinted.symm.trans htext
  exact ⟨_, _, hread, List.mem_cons_self, rfl, hprinted, hshort, hneeded _ hshort⟩

end Rulebook
