/-
Tokens and words with their head comments taken away. Places are counted in the tokens that are no head comments, and
`commentAt` is the last head comment that stands right before the token at a place. What a declaration says is found in
its tokens alone.

- `commentHere_drop`: a word carries the last head comment that stands right before its token;
- `agree_insert`: a head comment more changes what stands at its own place only;
- `declared_alike`: the same tokens declare the same rule, whatever comments stand between them.
-/
import Rulebook.Proofs.Openings

namespace Rulebook

open Source Rulebook.Reading

/-! ## Head comments before a token -/

def Token.isComment (t : Token) : Bool := t.kind = .headComment

def uncommented (tokens : List Token) : List Token := tokens.filter fun t => !t.isComment

/-- the head comments that stand right before the token at a place -/
def commentsBefore : Nat → List Token → List Token
  | 0, tokens => tokens.takeWhile Token.isComment
  | i + 1, tokens => commentsBefore i (tokens.dropWhile Token.isComment).tail

/-- the last head comment that stands right before the token at a place -/
def commentAt (tokens : List Token) (i : Nat) : Option Text :=
  (commentsBefore i tokens).getLast?.map Token.value

section Tokens

variable {t : Token} {tokens : List Token}

theorem uncommented_comment (ht : t.isComment = true) : uncommented (t :: tokens) = uncommented tokens :=
  List.filter_cons_of_neg (by simp [ht])

theorem uncommented_token (ht : t.isComment = false) : uncommented (t :: tokens) = t :: uncommented tokens :=
  List.filter_cons_of_pos (by simp [ht])

theorem commentsBefore_first_comment (ht : t.isComment = true) (tokens : List Token) :
    commentsBefore 0 (t :: tokens) = t :: commentsBefore 0 tokens :=
  List.takeWhile_cons_of_pos ht

theorem commentsBefore_first_token (ht : t.isComment = false) (tokens : List Token) :
    commentsBefore 0 (t :: tokens) = [] :=
  List.takeWhile_cons_of_neg (by simp [ht])

theorem commentsBefore_comment (ht : t.isComment = true) (i : Nat) :
    commentsBefore (i + 1) (t :: tokens) = commentsBefore (i + 1) tokens := by
  rw [commentsBefore, List.dropWhile_cons_of_pos ht, ← commentsBefore]

theorem commentsBefore_token (ht : t.isComment = false) (i : Nat) :
    commentsBefore (i + 1) (t :: tokens) = commentsBefore i tokens := by
  rw [commentsBefore, List.dropWhile_cons_of_neg (by simp [ht]), List.tail_cons]

theorem commentAt_first_comment (ht : t.isComment = true) :
    commentAt (t :: tokens) 0 = (commentAt tokens 0).or (some t.value) := by
  rw [commentAt, commentAt, commentsBefore_first_comment ht, List.getLast?_cons]
  cases (commentsBefore 0 tokens).getLast? <;> rfl

theorem commentAt_first_token (ht : t.isComment = false) : commentAt (t :: tokens) 0 = none := by
  rw [commentAt, commentsBefore_first_token ht]
  rfl

theorem tokens_wordsBehind (comment : Option Text) (tokens : List Token) :
    (wordsBehind comment tokens).map Word.token = uncommented tokens := by
  induction tokens generalizing comment with
  | nil => rfl
  | cons t ts ih =>
    by_cases ht : t.kind = .headComment
    · rw [wordsBehind, if_pos ht, ih, uncommented_comment (decide_eq_true ht)]
    · rw [wordsBehind, if_neg ht, List.map_cons, ih, uncommented_token (decide_eq_false ht)]

/-- a word carries the last head comment right before its token; before the first, one may stand already -/
theorem commentHere_wordsBehind (comment : Option Text) {i : Nat} (hi : i < (uncommented tokens).length) :
    commentHere ((wordsBehind comment tokens).drop i) = (commentAt tokens i).or (if i = 0 then comment else none) := by
  induction tokens generalizing comment i with
  | nil => cases hi
  | cons t ts ih =>
    by_cases ht : t.kind = .headComment
    · have hcomment : t.isComment = true := decide_eq_true ht
      rw [uncommented_comment hcomment] at hi
      rw [wordsBehind, if_pos ht, ih _ hi]
      cases i with
      | zero => rw [commentAt_first_comment hcomment, Option.or_assoc]; rfl
      | succ i => rw [commentAt, commentAt, commentsBefore_comment hcomment]; rfl
    · have htoken : t.isComment = false := decide_eq_false ht
      rw [uncommented_token htoken, List.length_cons] at hi
      rw [wordsBehind, if_neg ht]
      cases i with
      | zero => rw [commentAt_first_token htoken]; rfl
      | succ i =>
        rw [List.drop_succ_cons, ih _ (Nat.lt_of_succ_lt_succ hi), commentAt, commentAt, commentsBefore_token htoken]
        simp

theorem commentHere_drop {i : Nat} (hi : i < (uncommented tokens).length) :
    commentHere ((wordsOf tokens).drop i) = commentAt tokens i := by
  rw [wordsOf, commentHere_wordsBehind none hi, ite_self, Option.or_none]

end Tokens

/-! ### Tokens that differ in head comments -/

/-- the tokens are the same but for head comments, and at these places the same head comment counts -/
structure Agree (places : List Nat) (tokens tokens' : List Token) : Prop where
  uncommented : uncommented tokens' = uncommented tokens
  comments : ∀ i ∈ places, commentAt tokens' i = commentAt tokens i

theorem Agree.symm {places : List Nat} {tokens tokens' : List Token} (h : Agree places tokens tokens') :
    Agree places tokens' tokens :=
  ⟨h.uncommented.symm, fun i hi => (h.comments i hi).symm⟩

theorem commentsBefore_insert {c : Token} (hc : c.isComment = true) (back : List Token) {front : List Token} {i : Nat}
    (hi : i ≠ (uncommented front).length) :
    commentsBefore i (front ++ c :: back) = commentsBefore i (front ++ back) := by
  induction front generalizing i with
  | nil =>
    cases i with
    | zero => exact absurd rfl hi
    | succ i => exact commentsBefore_comment hc i
  | cons t front ih =>
    cases ht : t.isComment with
    | true =>
      rw [uncommented_comment ht] at hi
      cases i with
      | zero =>
        rw [List.cons_append, List.cons_append, commentsBefore_first_comment ht, commentsBefore_first_comment ht, ih hi]
      | succ i =>
        rw [List.cons_append, List.cons_append, commentsBefore_comment ht, commentsBefore_comment ht, ih hi]
    | false =>
      rw [uncommented_token ht, List.length_cons] at hi
      cases i with
      | zero => rw [List.cons_append, List.cons_append, commentsBefore_first_token ht, commentsBefore_first_token ht]
      | succ i =>
        rw [List.cons_append, List.cons_append, commentsBefore_token ht, commentsBefore_token ht,
          ih fun heq => hi (congrArg (· + 1) heq)]

/-- a head comment more, right before the token at another place, changes none of these -/
theorem agree_insert {c : Token} (hc : c.isComment = true) (front back : List Token) {places : List Nat}
    (h : (uncommented front).length ∉ places) : Agree places (front ++ back) (front ++ c :: back) where
  uncommented := by rw [uncommented, uncommented, List.filter_append, List.filter_append]; simp [hc]
  comments i hi := by
    rw [commentAt, commentAt, commentsBefore_insert hc]
    rintro rfl
    exact h hi

/-! ## Declarations without their comments -/

namespace Source.Word

/-- a token as a word, with no comment before it -/
def ofToken (t : Token) : Word := ⟨t, none⟩

/-- the word without its comment -/
def bare (w : Word) : Word := ofToken w.token

end Source.Word

section Bare

variable {m : Mode} {us ws : List Word}

theorem keys_bare (ws : List Word) : (ws.map Word.bare).map Word.key = ws.map Word.key := by
  rw [List.map_map]
  rfl

theorem map_bare (ws : List Word) : ws.map Word.bare = (ws.map Word.token).map Word.ofToken := by
  rw [List.map_map]
  rfl

theorem named_bare {v : Token × Option Token} (h : Named ws v) : Named (ws.map Word.bare) v := by
  cases h with
  | @plain n hn => exact .plain (n := n.bare) hn
  | @qualified q c n hq hc hn => exact .qualified (q := q.bare) (c := c.bare) (n := n.bare) hq hc hn

theorem leaf_bare {t : Tree} (h : Leaf m ws t) : Leaf m (ws.map Word.bare) t := by
  cases h with
  | @keyword w hw => exact .keyword (w := w.bare) hw
  | call h =>
    obtain ⟨hv, heof⟩ := h
    exact .call (.named (named_bare hv) heof)

theorem referenced_bare {t : Tree} (h : Referenced ws t) : Referenced (ws.map Word.bare) t := by
  obtain ⟨ho, hv, hthrough, hc⟩ := h
  rw [List.map_append, List.map_cons, List.map_append]
  refine .intro ho (named_bare hv) ?_ hc
  cases hthrough with
  | nothing => exact .nothing
  | @terminal b _ _ hb ht => exact .terminal (b := b.bare) hb (leaf_bare ht)

theorem acts_bare {t : Tree} (h : Acts ws t) : Acts (ws.map Word.bare) t := by
  obtain ⟨ho, hv, hfeatured, hc⟩ := h
  rw [List.map_append, List.map_cons, List.map_append]
  refine .intro ho (named_bare hv) ?_ hc
  cases hfeatured with
  | nothing => exact .nothing
  | @feature d f o k hd hf hop hk =>
    exact .feature (d := d.bare) (f := f.bare) (o := o.bare) (k := k.bare) hd hf hop hk

theorem marked_bare {α : Type} {meaning : Token → Option α} {a : Option α} (h : Marked meaning ws a) :
    Marked meaning (ws.map Word.bare) a := by
  cases h with
  | absent => exact .absent
  | @present w _ hw => exact .present (w := w.bare) hw

/-- no part of a definition sees a comment -/
theorem spells_bare {p : Part} {ts : List Tree} (h : Spells m p ws ts) : Spells m p (ws.map Word.bare) ts := by
  induction h with
  | rowOne _ ih => exact .rowOne ih
  | rowMore _ hb _ ih ihrow =>
    rw [List.map_append, List.map_cons]
    exact .rowMore ih hb ihrow
  | alternatives _ ih => exact .alternatives ih
  | unordered _ ih => exact .unordered ih
  | sequence _ ih => exact .sequence ih
  | elementsOne _ ih => exact .elementsOne ih
  | elementsMore _ _ ih ihmore =>
    rw [List.map_append]
    exact .elementsMore ih ihmore
  | action hm h => exact .action hm (acts_bare h)
  | element hps hp _ hcs ih =>
    rw [List.map_append, List.map_append]
    exact .element (marked_bare hps) hp ih (marked_bare hcs)
  | @assignment f o _ _ hm hf ho _ ih => exact .assignment (f := f.bare) (o := o.bare) hm hf ho ih
  | plainAtom hm _ ih => exact .plainAtom hm ih
  | @upTo a _ _ hm ha _ ih => exact .upTo (a := a.bare) hm ha ih
  | plainOperand hm _ ih => exact .plainOperand hm ih
  | @wildcard d hd => exact .wildcard (d := d.bare) hd
  | @endOfFile n hn => exact .endOfFile (n := n.bare) hn
  | @range l d r hl hd hr => exact .range (l := l.bare) (d := d.bare) (r := r.bare) hl hd hr
  | @negated b _ _ hb _ ih => exact .negated (b := b.bare) hb ih
  | operandAtom _ ih => exact .operandAtom ih
  | leaf h => exact .leaf (leaf_bare h)
  | group ho _ hc ih =>
    rw [List.map_append, List.map_cons]
    exact .group ho ih hc
  | crossReference h => exact .crossReference (referenced_bare h)
  | memberAssignable _ ih => exact .memberAssignable ih
  | assignableLeaf h => exact .assignableLeaf (leaf_bare h)
  | assignableGroup ho _ hc ih =>
    rw [List.map_append, List.map_cons]
    exact .assignableGroup ho ih hc

/-- the clauses of a declaration depend on what the words say only; names and definitions keep their places -/
theorem declared_bare {r : WrittenRule} (h : Declared ws r) : Declared (ws.map Word.bare) r := by
  cases h with
  | @parser fs ss ts hs ws _ n c s _ _ _ hf hn hss hts hhs hc ht hsemi hdistinct =>
    simp only [List.map_append, List.map_cons]
    refine .parser (n := n.bare) (c := c.bare) (s := s.bare) (fragmentClause_same hf (keys_bare fs)) hn
      (starred_same hss (keys_bare ss)) (typeClause_same hts (keys_bare ts)) (hiddenClause_same hhs (keys_bare hs)) hc
      (spells_bare ht) hsemi fun hplain hat => hdistinct hplain ?_
    rw [← atName_same (keys_bare (ts ++ (hs ++ [c]))), List.map_append, List.map_append]
    exact hat
  | @terminal x fs ts ws _ n c s _ _ hx hf hn hts hc ht hsemi hdistinct =>
    simp only [List.map_append, List.map_cons]
    refine .terminal (x := x.bare) (n := n.bare) (c := c.bare) (s := s.bare) hx (fragmentClause_same hf (keys_bare fs))
      hn (typeClause_same hts (keys_bare ts)) hc (spells_bare ht) hsemi fun hplain hat => hdistinct hplain ?_
    rw [← atName_same (keys_bare (ts ++ [c])), List.map_append]
    exact hat
  | @enumeration x n c s ts ws _ _ _ hx hn hts hc hrow hsemi =>
    simp only [List.map_append, List.map_cons]
    exact .enumeration (x := x.bare) (n := n.bare) (c := c.bare) (s := s.bare) hx hn
      (typeClause_same hts (keys_bare ts)) hc (literalRow_same hrow (keys_bare ws)) hsemi

theorem Declared.unique {r r' : WrittenRule} (h : Declared ws r) (h' : Declared ws r') : r' = r :=
  (((gives_rule_iff ws [] r').2 ⟨ws, by simp, h'⟩).unique ((gives_rule_iff ws [] r).2 ⟨ws, by simp, h⟩)).1

/-- the same tokens declare the same rule, whatever comments stand before them -/
theorem declared_alike {r : WrittenRule} (h : Declared ws r) (hus : us.map Word.token = ws.map Word.token) :
    Declared us r := by
  have hbare : us.map Word.bare = ws.map Word.bare := by rw [map_bare, map_bare, hus]
  have hkeys : us.map Word.key = ws.map Word.key := by rw [← keys_bare, hbare, keys_bare]
  obtain ⟨r', hr', -⟩ := declared_same h hkeys
  obtain rfl : r' = r := (declared_bare h).unique (hbare ▸ declared_bare hr')
  exact hr'

end Bare

theorem annotated_tokens (ws : List Word) :
    Annotated ((ws.map Word.token).map Word.ofToken) ↔ Annotated ws := by
  rw [← map_bare]
  exact ⟨fun h => h.same (keys_bare ws).symm, fun h => h.same (keys_bare ws)⟩

theorem declared_tokens (ws : List Word) (r : WrittenRule) :
    Declared ((ws.map Word.token).map Word.ofToken) r ↔ Declared ws r := by
  refine ⟨fun h => declared_alike h ?_, fun h => map_bare ws ▸ declared_bare h⟩
  rw [List.map_map, List.map_map]
  rfl

/-- a declaration alone has no comment -/
theorem Declared.comment {ws : List Word} {r : WrittenRule} (h : Declared ws r) : { r with comment := none } = r := by
  cases h <;> rfl

end Rulebook
