/-
Head comments and the declarations they belong to. A grammar takes the last head comment before its first token. A rule
takes its comment from its front: the places before its first annotation and right behind the name of each annotation.
Of these the latest that has a comment counts.

`ofWords_iff_layout` says so of every grammar that is read: it is laid out in the tokens that are no head comments, and
has the comments of these places. So nothing else sees a head comment (`head_comments_attach`), and tokens that differ
in head comments elsewhere are the same grammar.

- `Rows.laidOut`, `LaidOut.rows`: rows are rules at their fronts, each with the comment of its front;
- `LaidOut.unique`, `Layout.unique`: tokens fall into a header, fronts and declarations in one way;
- `header_alike`: a header is read again, whatever comments stand in it.
-/
import Rulebook.Proofs.Replacing
import Rulebook.Proofs.Uncommented

namespace Rulebook

open Source Rulebook.Reading

/-! ## Rules at their fronts -/

/-- where a rule with its annotations begins, and how many annotations it has -/
structure Front where
  start : Nat
  annotations : Nat

namespace Front

/-- the places before the first annotation and right behind the name of each; an annotation is two tokens -/
def places (f : Front) : List Nat := List.range' f.start (f.annotations + 1) 2

/-- the comment at the latest of these places that has one -/
def comment (f : Front) (before : Nat → Option Text) : Option Text := (f.places.filterMap before).getLast?

end Front

/-- from a place on, the tokens are rules one after the other: annotations, and behind them a declaration; annotations
at the end belong to no rule -/
inductive LaidOut : Nat → List Token → List WrittenRule → List Front → Prop where
  | done {start : Nat} {as : List Token} : Annotated (as.map Word.ofToken) → LaidOut start as [] []
  | rule {start n : Nat} {as ds rest : List Token} {r : WrittenRule} {rs : List WrittenRule} {fronts : List Front} :
    Annotated (as.map Word.ofToken) → as.length = 2 * n → Declared (ds.map Word.ofToken) { r with comment := none } →
    LaidOut (start + as.length + ds.length) rest rs fronts →
    LaidOut start (as ++ (ds ++ rest)) (r :: rs) (⟨start, n⟩ :: fronts)

def Attached (before : Nat → Option Text) (rs : List WrittenRule) (fronts : List Front) : Prop :=
  List.Forall₂ (fun r f => r.comment = f.comment before) rs fronts

theorem Attached.congr {before before' : Nat → Option Text} {rs : List WrittenRule} {fronts : List Front}
    (h : Attached before rs fronts) (hsame : ∀ f ∈ fronts, ∀ i ∈ f.places, before' i = before i) :
    Attached before' rs fronts := by
  induction h with
  | nil => exact .nil
  | cons hcomment _ ih =>
    obtain ⟨hfirst, hmore⟩ := List.forall_mem_cons.1 hsame
    refine .cons (hcomment.trans ?_) (ih hmore)
    rw [Front.comment, Front.comment, List.filterMap_congr hfirst]

theorem Annotated.even {as : List Word} (h : Annotated as) : ∃ n, as.length = 2 * n := by
  induction h with
  | none => exact ⟨0, rfl⟩
  | more _ _ _ ih =>
    obtain ⟨n, hn⟩ := ih
    exact ⟨n + 1, by simp [hn, Nat.mul_succ]⟩

theorem getLast?_filterMap_cons (before : Nat → Option Text) (i : Nat) (is : List Nat) :
    ((i :: is).filterMap before).getLast? = (is.filterMap before).getLast?.or (before i) := by
  cases h : before i with
  | none => rw [List.filterMap_cons_none h, Option.or_none]
  | some v =>
    rw [List.filterMap_cons_some h, List.getLast?_cons]
    cases (is.filterMap before).getLast? <;> rfl

section Fronts

variable {all as ds more : List Word}

/-- the comment that counts behind some annotations is the one at the latest place that has one -/
theorem lastComment_eq (hds : ds ≠ []) {start n : Nat} (hlength : as.length = 2 * n)
    (hall : all.drop start = as ++ (ds ++ more)) (comment : Option Text) :
    lastComment comment ds as =
      ((List.range' (start + 2) n 2).filterMap fun i => commentHere (all.drop i)).getLast?.or comment := by
  induction n generalizing as start comment with
  | zero =>
    obtain rfl := List.length_eq_zero_iff.1 hlength
    rfl
  | succ n ih =>
    obtain ⟨a, b, as, rfl⟩ : ∃ a b as', as = a :: b :: as' := by
      match as, hlength with
      | a :: b :: as', _ => exact ⟨a, b, as', rfl⟩
    have hbehind : all.drop (start + 2) = as ++ (ds ++ more) := by rw [← List.drop_drop, hall]; rfl
    have hhere : commentHere (all.drop (start + 2)) = commentHere (as ++ ds) := by
      rw [hbehind, ← List.append_assoc, commentHere_append (by simp [hds])]
    rw [lastComment, ih (by simpa [Nat.mul_succ] using hlength) hbehind, List.range'_succ, getLast?_filterMap_cons,
      hhere, Option.or_assoc]

theorem lastComment_front (hds : ds ≠ []) {start n : Nat} (hlength : as.length = 2 * n)
    (hall : all.drop start = as ++ (ds ++ more)) :
    lastComment (commentHere (as ++ ds)) ds as = Front.comment ⟨start, n⟩ fun i => commentHere (all.drop i) := by
  have hhere : commentHere (all.drop start) = commentHere (as ++ ds) := by
    rw [hall, ← List.append_assoc, commentHere_append (by simp [hds])]
  rw [lastComment_eq hds hlength hall, ← hhere]
  exact (getLast?_filterMap_cons _ start (List.range' (start + 2) n 2)).symm

end Fronts

theorem Declared.ne_nil {ds : List Word} {r : WrittenRule} (h : Declared ds r) : ds ≠ [] := by
  obtain ⟨_, _, rfl, -⟩ := h.begins
  exact List.cons_ne_nil _ _

/-- rows are rules at their fronts, each with the comment of its front -/
theorem Rows.laidOut {all rest : List Word} {rs : List WrittenRule} (h : Rows rest rs) {start : Nat}
    (hall : all.drop start = rest) : ∃ fronts, LaidOut start (rest.map Word.token) rs fronts ∧
      Attached (fun i => commentHere (all.drop i)) rs fronts := by
  induction h generalizing start with
  | done has => exact ⟨[], .done ((annotated_tokens _).2 has), .nil⟩
  | @more ws rest r rs hrow _ ih =>
    obtain ⟨has, hds⟩ := hrow
    rename_i as ds d
    obtain ⟨n, hn⟩ := has.even
    rw [List.append_assoc] at hall ⊢
    have hrest : all.drop (start + as.length + ds.length) = rest := by
      rw [← List.drop_drop, ← List.drop_drop, hall, List.drop_left, List.drop_left]
    obtain ⟨fronts, hfronts, hattached⟩ := ih hrest
    refine ⟨⟨start, n⟩ :: fronts, ?_, .cons (lastComment_front hds.ne_nil hn hall) hattached⟩
    rw [List.map_append, List.map_append]
    refine .rule ((annotated_tokens _).2 has) (by rw [List.length_map, hn]) ((declared_tokens ..).2 ?_) ?_
    · exact hds.comment.symm ▸ hds
    · rwa [List.length_map, List.length_map]

/-- rules at their fronts, each with the comment of its front, are rows -/
theorem LaidOut.rows {all : List Word} {start : Nat} {tokens : List Token} {rs : List WrittenRule} {fronts : List Front}
    (h : LaidOut start tokens rs fronts) (hall : (all.drop start).map Word.token = tokens)
    (hattached : Attached (fun i => commentHere (all.drop i)) rs fronts) :
    Rows (all.drop start) rs := by
  induction h with
  | done has =>
    subst hall
    exact .done ((annotated_tokens _).1 has)
  | @rule start n as ds rest r rs fronts has hn hds _ ih =>
    obtain ⟨bs, more, hsplit, rfl, hmore⟩ := List.map_eq_append_iff.1 hall
    obtain ⟨es, us, rfl, rfl, rfl⟩ := List.map_eq_append_iff.1 hmore
    rw [List.length_map, List.length_map] at ih
    rw [List.length_map] at hn
    obtain ⟨hcomment, hattached⟩ := List.forall₂_cons.1 hattached
    have hus : all.drop (start + bs.length + es.length) = us := by
      rw [← List.drop_drop, ← List.drop_drop, hsplit, List.drop_left, List.drop_left]
    have hes := (declared_tokens ..).1 hds
    have hrow := Row.intro ((annotated_tokens _).1 has) hes
    rw [lastComment_front hes.ne_nil hn hsplit, ← hcomment] at hrow
    rw [hsplit, ← List.append_assoc]
    exact .more hrow (hus ▸ ih (by rw [hus]) hattached)

theorem LaidOut.places_lt {start : Nat} {tokens : List Token} {rs : List WrittenRule} {fronts : List Front}
    (h : LaidOut start tokens rs fronts) : ∀ f ∈ fronts, ∀ i ∈ f.places, i < start + tokens.length := by
  induction h with
  | done _ => exact nofun
  | @rule start n as ds rest r rs fronts has hn hds _ ih =>
    have hne : 0 < ds.length := List.length_pos_iff.2 fun hnil => hds.ne_nil (by rw [hnil]; rfl)
    rw [List.length_append, List.length_append]
    refine List.forall_mem_cons.2 ⟨fun i hi => ?_, fun f hf i hi => ?_⟩
    · obtain ⟨k, hk, rfl⟩ : ∃ k < n + 1, i = start + 2 * k := List.mem_range'.1 hi
      omega
    · have hlater := ih f hf i hi
      omega

theorem ofToken_injective : Function.Injective Word.ofToken := fun _ _ h => congrArg Word.token h

/-- annotations in front of a declaration are read up to it -/
theorem gives_annotations_front {as ds : List Token} {r : WrittenRule} (has : Annotated (as.map Word.ofToken))
    (hds : Declared (ds.map Word.ofToken) r) (rest : List Token) :
    ∃ k, (annotations none ((as ++ (ds ++ rest)).map Word.ofToken)).Gives k ((ds ++ rest).map Word.ofToken) := by
  obtain ⟨a, more, hcons, ha⟩ := hds.begins
  refine ⟨_, (gives_annotations ..).2 ⟨as.map Word.ofToken, List.map_append, has, ?_, rfl⟩⟩
  rw [List.map_append, hcons]
  simp [atSymbol, Token.isSymbol, ha.kind]

/-- the tokens of rules fall into fronts and declarations in one way -/
theorem LaidOut.unique {start : Nat} {tokens : List Token} {rs : List WrittenRule} {fronts fronts' : List Front}
    (h : LaidOut start tokens rs fronts) (h' : LaidOut start tokens rs fronts') : fronts' = fronts := by
  have hcancel : ∀ {xs ys : List Token}, xs.map Word.ofToken = ys.map Word.ofToken → xs = ys := fun hxs =>
    List.map_injective_iff.2 ofToken_injective hxs
  have hrule : ∀ {ds : List Token} {r : WrittenRule}, Declared (ds.map Word.ofToken) r → ∀ rest : List Token,
      (Source.rule ((ds ++ rest).map Word.ofToken)).Gives r (rest.map Word.ofToken) := fun hds _ =>
    (gives_rule_iff ..).2 ⟨_, List.map_append, hds⟩
  induction h generalizing fronts' with
  | done _ =>
    cases h'
    rfl
  | @rule start n as ds rest r rs fronts has hn hds _ ih =>
    generalize htokens : as ++ (ds ++ rest) = tokens at h'
    cases h' with
    | @rule _ n' as' ds' rest' _ _ fronts' has' hn' hds' hlaid =>
      -- a reader stops at one place, so the annotations end together
      obtain ⟨_, hread⟩ := gives_annotations_front has hds rest
      obtain ⟨_, hread'⟩ := gives_annotations_front has' hds' rest'
      rw [htokens] at hread
      have hbehind : ds ++ rest = ds' ++ rest' := hcancel (hread.unique hread').2
      obtain rfl := List.append_cancel_right (hbehind ▸ htokens)
      -- and so do the declarations
      have hdeclaration := hrule hds rest
      rw [hbehind] at hdeclaration
      obtain rfl : rest = rest' := hcancel (hdeclaration.unique (hrule hds' rest')).2
      obtain rfl := List.append_cancel_right hbehind
      obtain rfl : n = n' := by omega
      rw [ih hlaid]

/-! ## The header -/

section Header

variable {words words' mid rest : List Word} {name : Text} {uses hidden : List Text} {models : List Metamodel}

/-- what is left behind a header is the end of the words -/
theorem rest_suffix (hbegun : Begun words name uses mid) (hclauses : Clauses mid hidden models rest) :
    rest <:+ words := by
  obtain ⟨b, bs, rfl, -⟩ := hbegun.again
  obtain ⟨cs, rfl, -⟩ := hclauses.again
  exact ((List.suffix_append cs rest).trans (List.suffix_append bs _)).trans (List.suffix_cons b _)

theorem drop_eq_of_suffix {start : Nat} (h : rest <:+ words) (hlength : (words.drop start).length = rest.length) :
    words.drop start = rest :=
  (List.suffix_of_suffix_length_le (List.drop_suffix start words) h hlength.le).eq_of_length hlength

/-- in front of rules, a header is read again from words that say the same, up to the same place -/
theorem header_alike {start : Nat} (hbegun : Begun words name uses mid)
    (hclauses : Clauses mid hidden models (words.drop start)) (hrules : StartsRules (words.drop start))
    (hwords : words'.map Word.key = words.map Word.key) :
    ∃ mid', Begun words' name uses mid' ∧ Clauses mid' hidden models (words'.drop start) := by
  have hdrop : (words'.drop start).map Word.key = (words.drop start).map Word.key := by
    rw [List.map_drop, hwords, List.map_drop]
  generalize words.drop start = rest at *
  obtain ⟨b, bs, cs, rfl, hagain⟩ := header_again hbegun hclauses hrules
  rw [← List.cons_append] at hwords
  obtain ⟨us₁, behind, rfl, hus₁, hbehind⟩ := same_append hwords
  obtain ⟨us₂, rest', rfl, hus₂, hrest⟩ := same_append hbehind
  have hstart : (us₁ ++ (us₂ ++ rest')).drop start = rest' := by
    refine drop_eq_of_suffix ((List.suffix_append us₂ rest').trans (List.suffix_append us₁ _)) ?_
    rw [← List.length_map, hdrop, ← hrest, List.length_map]
  rw [hstart]
  exact ⟨us₂ ++ rest', hagain us₁ us₂ rest' hus₁ hus₂ (beginsLike_of_keys hrest)⟩

end Header

/-! ## Layouts -/

/-- how a grammar is written in tokens without head comments: a header up to the place `start`, and the rules -/
structure Layout (tokens : List Token) (g : WrittenGrammar) (start : Nat) (fronts : List Front) : Prop where
  inside : start ≤ tokens.length
  header : ∃ mid, Begun (tokens.map Word.ofToken) g.name g.uses mid ∧
    Clauses mid g.hidden g.metamodels ((tokens.map Word.ofToken).drop start)
  rules : LaidOut start (tokens.drop start) g.rules fronts

namespace Layout

variable {tokens : List Token} {g : WrittenGrammar} {start : Nat} {fronts : List Front}

theorem first (h : Layout tokens g start fronts) : ∃ t, tokens.head? = some t ∧ t.isWord "grammar" = true := by
  obtain ⟨_, hbegun, -⟩ := h.header
  obtain ⟨x, more, hwords, hx⟩ := hbegun.first
  obtain ⟨t, ts, rfl, rfl, -⟩ := List.map_eq_cons_iff.1 hwords
  exact ⟨t, rfl, (Token.isWord_iff ..).2 hx⟩

theorem length_pos (h : Layout tokens g start fronts) : 0 < tokens.length := by
  obtain ⟨t, ht, -⟩ := h.first
  cases tokens with
  | nil => cases ht
  | cons t ts => exact Nat.succ_pos _

theorem places_lt (h : Layout tokens g start fronts) : ∀ f ∈ fronts, ∀ i ∈ f.places, i < tokens.length := by
  intro f hf i hi
  have hlt := h.rules.places_lt f hf i hi
  have hinside := h.inside
  rw [List.length_drop] at hlt
  omega

theorem unique {start' : Nat} {fronts' : List Front} (h : Layout tokens g start fronts)
    (h' : Layout tokens g start' fronts') : start' = start ∧ fronts' = fronts := by
  obtain ⟨_, hbegun, hclauses⟩ := h.header
  obtain ⟨_, hbegun', hclauses'⟩ := h'.header
  obtain ⟨-, -, rfl⟩ := hbegun.unique hbegun'
  have hlength := congrArg List.length (hclauses.unique hclauses').2.2
  rw [List.length_drop, List.length_drop, List.length_map] at hlength
  obtain rfl : start' = start := by
    have hinside := h.inside
    have hinside' := h'.inside
    omega
  exact ⟨rfl, h.rules.unique h'.rules⟩

end Layout

/-- the words of a grammar are its layout in the tokens, with the comments of its first token and of the fronts -/
theorem ofWords_iff_layout (tokens : List Token) (g : WrittenGrammar) :
    WrittenGrammar.ofWords (wordsOf tokens) = .ok g ↔ ∃ start fronts, Layout (uncommented tokens) g start fronts ∧
      g.comment = commentAt tokens 0 ∧ Attached (commentAt tokens) g.rules fronts := by
  have htokens : (wordsOf tokens).map Word.token = uncommented tokens := tokens_wordsBehind none tokens
  have hbare : (uncommented tokens).map Word.ofToken = (wordsOf tokens).map Word.bare := by rw [map_bare, htokens]
  have hkeys : ((uncommented tokens).map Word.ofToken).map Word.key = (wordsOf tokens).map Word.key := by
    rw [hbare, keys_bare]
  refine ⟨fun h => ?_, ?_⟩
  · obtain ⟨mid, rest, hbegun, hclauses, hrows, hcomment⟩ := (ofWords_iff ..).1 h
    obtain ⟨start, hle, rfl⟩ : ∃ start, start ≤ (wordsOf tokens).length ∧ rest = (wordsOf tokens).drop start :=
      ⟨_, Nat.sub_le .., List.suffix_iff_eq_drop.1 (rest_suffix hbegun hclauses)⟩
    obtain ⟨fronts, hlaid, hattached⟩ := hrows.laidOut rfl
    rw [List.map_drop, htokens] at hlaid
    rw [← List.length_map, htokens] at hle
    have hlayout : Layout (uncommented tokens) g start fronts :=
      ⟨hle, header_alike hbegun hclauses hrows.startsRules hkeys, hlaid⟩
    refine ⟨start, fronts, hlayout, hcomment.trans (commentHere_drop hlayout.length_pos), ?_⟩
    exact hattached.congr fun f hf i hi => (commentHere_drop (hlayout.places_lt f hf i hi)).symm
  · rintro ⟨start, fronts, hlayout, hcomment, hattached⟩
    have hrows : Rows ((wordsOf tokens).drop start) g.rules := by
      refine hlayout.rules.rows (by rw [List.map_drop, htokens]) ?_
      exact hattached.congr fun f hf i hi => commentHere_drop (hlayout.places_lt f hf i hi)
    obtain ⟨_, hbegun, hclauses⟩ := hlayout.header
    have hstarts : StartsRules (((uncommented tokens).map Word.ofToken).drop start) := by
      refine (beginsLike_of_keys ?_).startsRules hrows.startsRules
      rw [List.map_drop, hkeys, List.map_drop]
    obtain ⟨mid, hbegun', hclauses'⟩ := header_alike hbegun hclauses hstarts hkeys.symm
    exact (ofWords_iff ..).2 ⟨mid, _, hbegun', hclauses', hrows,
      hcomment.trans (commentHere_drop hlayout.length_pos).symm⟩

/-! ## What a head comment changes -/

section Agreeing

variable {tokens tokens' : List Token} {g : WrittenGrammar} {start : Nat} {fronts : List Front}

/-- tokens that agree at the first place and at the fronts of a grammar are this grammar -/
theorem ofWords_agree (hlayout : Layout (uncommented tokens) g start fronts)
    (hagree : Agree (0 :: fronts.flatMap Front.places) tokens tokens')
    (h : WrittenGrammar.ofWords (wordsOf tokens) = .ok g) : WrittenGrammar.ofWords (wordsOf tokens') = .ok g := by
  obtain ⟨start', fronts', hlayout', hcomment, hattached⟩ := (ofWords_iff_layout ..).1 h
  obtain ⟨rfl, rfl⟩ := hlayout.unique hlayout'
  refine (ofWords_iff_layout ..).2 ⟨start', fronts', hagree.uncommented ▸ hlayout', ?_, ?_⟩
  · exact hcomment.trans (hagree.comments 0 List.mem_cons_self).symm
  · exact hattached.congr fun f hf i hi =>
      hagree.comments i (List.mem_cons_of_mem _ (List.mem_flatMap.2 ⟨f, hf, hi⟩))

/-- **Head comments attach to declarations, and nothing else sees them**: for all tokens that are a grammar there is
one layout of it. The grammar has the last head comment before its first token, the word `grammar`; each rule has the
comment at the latest place of its front that has one, and none if none has. Tokens that agree with these at the first
place and the fronts are the same grammar; so a head comment can come and go everywhere else. -/
theorem head_comments_attach (h : WrittenGrammar.ofWords (wordsOf tokens) = .ok g) :
    ∃ start fronts, Layout (uncommented tokens) g start fronts ∧
      (∀ start' fronts', Layout (uncommented tokens) g start' fronts' → start' = start ∧ fronts' = fronts) ∧
      (∃ t, (uncommented tokens).head? = some t ∧ t.isWord "grammar" = true) ∧ g.comment = commentAt tokens 0 ∧
      Attached (commentAt tokens) g.rules fronts ∧
      (∀ tokens', Agree (0 :: fronts.flatMap Front.places) tokens tokens' →
        WrittenGrammar.ofWords (wordsOf tokens') = .ok g) ∧
      ∀ front c back, c.isComment = true → (uncommented front).length ∉ 0 :: fronts.flatMap Front.places →
        (tokens = front ++ back → WrittenGrammar.ofWords (wordsOf (front ++ c :: back)) = .ok g) ∧
          (tokens = front ++ c :: back → WrittenGrammar.ofWords (wordsOf (front ++ back)) = .ok g) := by
  obtain ⟨start, fronts, hlayout, hcomment, hattached⟩ := (ofWords_iff_layout ..).1 h
  refine ⟨start, fronts, hlayout, fun _ _ => hlayout.unique, hlayout.first, hcomment, hattached,
    fun _ hagree => ofWords_agree hlayout hagree h, ?_⟩
  intro front c back hc hplace
  have hagree := agree_insert hc front back hplace
  refine ⟨?_, ?_⟩
  · rintro rfl
    exact ofWords_agree hlayout hagree h
  · rintro rfl
    exact ofWords_agree hlayout hagree.symm h

end Agreeing

/-! ### A file with comments in many places -/

/-- two rules and an annotation at the end; the letters are the comments -/
def letteredTokens : List Token :=
  [⟨.headComment, "/** a */", 1, 1, 8⟩, ⟨.headComment, "/** b */", 2, 1, 8⟩, ⟨.name, "grammar", 3, 1, 7⟩,
    ⟨.headComment, "/** c */", 4, 1, 8⟩, ⟨.name, "G", 5, 1, 1⟩,
    ⟨.headComment, "/** d */", 6, 1, 8⟩, ⟨.symbol .atSign, "@", 7, 1, 1⟩, ⟨.name, "One", 7, 2, 3⟩,
    ⟨.headComment, "/** e */", 8, 1, 8⟩, ⟨.symbol .atSign, "@", 9, 1, 1⟩,
    ⟨.headComment, "/** f */", 10, 1, 8⟩, ⟨.name, "Two", 11, 1, 3⟩,
    ⟨.name, "A", 12, 1, 1⟩, ⟨.symbol .colon, ":", 12, 2, 1⟩, ⟨.headComment, "/** g */", 13, 1, 8⟩,
    ⟨.literal, "x", 14, 1, 3⟩, ⟨.symbol .semicolon, ";", 14, 4, 1⟩,
    ⟨.name, "B", 15, 1, 1⟩, ⟨.symbol .colon, ":", 15, 2, 1⟩, ⟨.literal, "y", 15, 3, 3⟩,
    ⟨.headComment, "/** h */", 16, 1, 8⟩, ⟨.symbol .semicolon, ";", 17, 1, 1⟩,
    ⟨.headComment, "/** i */", 18, 1, 8⟩, ⟨.symbol .atSign, "@", 19, 1, 1⟩, ⟨.name, "Three", 19, 2, 5⟩]

/-- the first rule has the comment of its second annotation -/
def letteredFirst : WrittenRule :=
  ⟨.parser false [], "A", none, some "/** e */", some 12, some (.keyword .none "x")⟩

/-- the second rule has none -/
def letteredSecond : WrittenRule := ⟨.parser false [], "B", none, none, some 15, some (.keyword .none "y")⟩

/-- what the file says -/
def letteredGrammar : WrittenGrammar := ⟨"G", some "/** b */", [], [], [], [letteredFirst, letteredSecond]⟩

/-- a keyword alone makes a rule -/
theorem declared_keyword {n c w s : Token} (hn : n.kind = .name) (hc : c.kind = .symbol .colon) (hw : w.kind = .literal)
    (hs : s.kind = .symbol .semicolon) : Declared ([n, c, w, s].map Word.ofToken)
      ⟨.parser false [], n.value, none, none, some n.line, some (.keyword .none w.value)⟩ := by
  have hleaf : Leaf .parser [Word.ofToken w] (.keyword .none w.value) := .keyword hw
  exact .leaf (n := Word.ofToken n) (c := Word.ofToken c) (s := Word.ofToken s) hn hc hleaf hs

theorem layout_lettered : Layout (uncommented letteredTokens) letteredGrammar 2 [⟨2, 2⟩, ⟨10, 0⟩] := by
  have hfront : Annotated (((uncommented letteredTokens).drop 2 |>.take 4).map Word.ofToken) :=
    .more rfl rfl (.more rfl rfl .none)
  have hfirst : Declared (((uncommented letteredTokens).drop 6 |>.take 4).map Word.ofToken)
      { letteredFirst with comment := none } := declared_keyword rfl rfl rfl rfl
  have hsecond : Declared (((uncommented letteredTokens).drop 10 |>.take 4).map Word.ofToken)
      { letteredSecond with comment := none } := declared_keyword rfl rfl rfl rfl
  have hend : Annotated (((uncommented letteredTokens).drop 14).map Word.ofToken) := .more rfl rfl .none
  have hlater := @LaidOut.rule 10 0 [] _ _ letteredSecond _ _ .none rfl hsecond (.done hend)
  have hrules := @LaidOut.rule 2 2 _ _ _ letteredFirst _ _ hfront rfl hfirst hlater
  exact ⟨by decide, ⟨_, begun_of_name ⟨rfl, rfl⟩ rfl rfl rfl, clauses_of_none rfl rfl⟩, hrules⟩

theorem ofWords_lettered : WrittenGrammar.ofWords (wordsOf letteredTokens) = .ok letteredGrammar :=
  (ofWords_iff_layout ..).2 ⟨2, _, layout_lettered, rfl, .cons rfl (.cons rfl .nil)⟩

/-- the same file without the comments that nothing sees -/
def letteredRest : List Token :=
  letteredTokens.filter fun t =>
    t.value ∉ (["/** a */", "/** c */", "/** f */", "/** g */", "/** h */", "/** i */"] : List Text)

theorem lettered_comments_attach : WrittenGrammar.ofWords (wordsOf letteredTokens) = .ok letteredGrammar ∧
    letteredGrammar.comment = commentAt letteredTokens 0 ∧
    Attached (commentAt letteredTokens) letteredGrammar.rules [⟨2, 2⟩, ⟨10, 0⟩] ∧
    WrittenGrammar.ofWords (wordsOf letteredRest) = .ok letteredGrammar := by
  obtain ⟨start, fronts, -, hunique, -, hcomment, hattached, hsame, -⟩ := head_comments_attach ofWords_lettered
  obtain ⟨rfl, rfl⟩ := hunique _ _ layout_lettered
  exact ⟨ofWords_lettered, hcomment, hattached, hsame letteredRest ⟨by decide, by decide⟩⟩

end Rulebook
