/-
A declaration in the text of a grammar, and another one in its place. `DeclaredAt` says where the declaration of a rule
stands in a text, up to its semicolon; every rule that is read is declared somewhere (`exists_declaredAt`).

`ofText_replaced`: with another declaration in its place that begins like it, the text is still a grammar; the other
rules, and all that stands before them, are read as before, and the rule itself keeps its place and its comment.
-/
import Rulebook.Proofs.Openings

namespace Rulebook

open Source Rulebook.Reading

/-! ## Words that begin alike -/

/-- the first words say the same, and a name or a literal comes second only where one did -/
structure BeginsLike (us ws : List Word) : Prop where
  first : us.head?.map Word.key = ws.head?.map Word.key
  name : atName (us.drop 1) = true → atName (ws.drop 1) = true
  literal : atLiteral (us.drop 1) = true → atLiteral (ws.drop 1) = true

namespace BeginsLike

variable {us ws : List Word}

theorem atWord (h : BeginsLike us ws) (word : Text) : atWord word us = atWord word ws := by
  have hfirst := h.first
  cases us with
  | nil =>
    cases ws with
    | nil => rfl
    | cons w ws => cases hfirst
  | cons u us =>
    cases ws with
    | nil => cases hfirst
    | cons w ws =>
      have hkey : u.key = w.key := Option.some.inj hfirst
      simp only [Source.atWord, Token.isWord, kind_eq hkey, value_eq hkey]

theorem startsRules (h : BeginsLike us ws) (hws : StartsRules ws) : StartsRules us := by
  intro u hu
  have hfirst := h.first
  rw [hu] at hfirst
  obtain ⟨w, hw, hkey⟩ := Option.map_eq_some_iff.1 hfirst.symm
  rcases hws w hw with hname | hat
  · exact .inl ((kind_eq hkey.symm).trans hname)
  · exact .inr ((kind_eq hkey.symm).trans hat)

/-- no metamodel stands where none stood -/
theorem metamodel?_eq_none (h : BeginsLike us ws) (hws : metamodel? ws = none) : metamodel? us = none := by
  have hiff : ∀ words : List Word, metamodel? words = none ↔ introduces "generate" words = false ∧
      (Source.atWord "import" words && atLiteral (words.drop 1)) = false := by
    intro words
    unfold metamodel?
    split
    · simp [*]
    · split <;> simp_all
  obtain ⟨hgenerate, himport⟩ := (hiff ws).1 hws
  simp only [introduces, Bool.and_eq_false_imp] at hgenerate himport
  refine (hiff us).2 ⟨?_, ?_⟩
  · rw [introduces, h.atWord, Bool.and_eq_false_imp]
    exact fun hword => Bool.eq_false_iff.2 fun hname => Bool.eq_false_iff.1 (hgenerate hword) (h.name hname)
  · rw [h.atWord, Bool.and_eq_false_imp]
    exact fun hword => Bool.eq_false_iff.2 fun hliteral => Bool.eq_false_iff.1 (himport hword) (h.literal hliteral)

/-- words that begin alike still do so behind words that say the same -/
theorem append {vs xs : List Word} (h : BeginsLike vs xs) (hus : us.map Word.key = ws.map Word.key) :
    BeginsLike (us ++ vs) (ws ++ xs) := by
  cases ws with
  | nil =>
    obtain rfl := words_nil hus
    exact h
  | cons w ws =>
    obtain ⟨u, us, rfl, hkey, hus⟩ := same_cons hus
    cases ws with
    | nil =>
      obtain rfl := words_nil hus
      have hsecond : atName vs = atName xs ∧ atLiteral vs = atLiteral xs := by
        have hfirst := h.first
        cases vs with
        | nil =>
          cases xs with
          | nil => exact ⟨rfl, rfl⟩
          | cons x xs => cases hfirst
        | cons v vs =>
          cases xs with
          | nil => cases hfirst
          | cons x xs =>
            have hkey : v.key = x.key := Option.some.inj hfirst
            simp only [atName, atLiteral, kind_eq hkey, and_self]
      exact ⟨congrArg some hkey, fun hname => hsecond.1 ▸ hname, fun hliteral => hsecond.2 ▸ hliteral⟩
    | cons w' ws =>
      obtain ⟨u', us, rfl, hkey', -⟩ := same_cons hus
      refine ⟨congrArg some hkey, ?_, ?_⟩
      · simp [atName, kind_eq hkey']
      · simp [atLiteral, kind_eq hkey']

end BeginsLike

theorem Declared.two {ds : List Word} {r : WrittenRule} (h : Declared ds r) : ∃ a b more, ds = a :: b :: more := by
  obtain ⟨a, _, rfl, -, -, b, more, rfl, -⟩ := h.front
  exact ⟨a, b, more, rfl⟩

/-- a declaration begins with a word that introduces its kind, or else with its name -/
theorem Declared.first {ds : List Word} {r : WrittenRule} (h : Declared ds r) :
    ds.head?.map Word.key = (r.introduction ++ [r.name]).head?.map fun v => (.name, v) := by
  have hname : ∀ {n : Word}, n.IsName → n.key = (.name, n.token.value) := fun hn => Prod.ext hn rfl
  have hword : ∀ {x : Word} {v : Text}, x.IsWord v → x.key = (.name, v) := fun hx => Prod.ext hx.1 hx.2
  cases h with
  | parser hf hn _ _ _ _ _ _ _ =>
    cases hf with
    | absent => exact congrArg some (hname hn)
    | present hx => exact congrArg some (hword hx)
  | terminal hx hf _ _ _ _ _ _ =>
    cases hf with
    | absent => exact congrArg some (hword hx)
    | present _ => exact congrArg some (hword hx)
  | enumeration hx _ _ _ _ _ => exact congrArg some (hword hx)

/-- a name comes second, but for a parser rule that has nothing between its name and the colon -/
theorem Declared.second {ds : List Word} {r : WrittenRule} (h : Declared ds r)
    (hclause : r.kind = .parser false [] → r.typeName ≠ none) : atName (ds.drop 1) = true := by
  cases h with
  | @parser _ ss _ _ _ _ _ _ _ _ hidden _ hf hn hss ht hh _ _ _ _ =>
    cases hf with
    | present _ => exact (atName_cons ..).2 hn
    | absent =>
      have hss' : ss = [] := by
        cases hss with
        | absent => rfl
        | star hfragment _ => cases hfragment
      subst hss'
      cases ht with
      | declared hx _ => exact (atName_cons ..).2 hx.1
      | absent =>
        cases hh with
        | absent => exact absurd rfl (hclause rfl)
        | empty hx _ _ => exact (atName_cons ..).2 hx.1
        | names hx _ _ _ => exact (atName_cons ..).2 hx.1
  | terminal _ hf hn _ _ _ _ _ =>
    cases hf with
    | absent => exact (atName_cons ..).2 hn
    | present hx => exact (atName_cons ..).2 hx.1
  | enumeration _ hn _ _ _ _ => exact (atName_cons ..).2 hn

/-- declarations of one kind and one name begin alike, but for what a parser rule has between its name and the colon -/
theorem Declared.beginsLike {ps ds : List Word} {q r : WrittenRule} (hps : Declared ps q) (hds : Declared ds r)
    (hkind : q.kind = r.kind) (hname : q.name = r.name)
    (hsecond : r.kind = .parser false [] → r.typeName = none → atName (ps.drop 1) = false) : BeginsLike ps ds := by
  refine ⟨?_, fun hat => hds.second fun hparser htype => ?_, fun hliteral => ?_⟩
  · rw [hps.first, hds.first, Declaration.introduction, Declaration.introduction, hkind, hname]
  · rw [hsecond hparser htype] at hat
    cases hat
  · obtain ⟨_, _, rfl, -, -, hcontinues⟩ := hps.front
    obtain ⟨b, _, rfl, hb⟩ := hcontinues.not_literal
    exact absurd (by simpa [atLiteral] using hliteral) hb

/-- how declarations begin does not depend on what stands behind them -/
theorem BeginsLike.before {ps ds : List Word} {r r' : WrittenRule} (h : BeginsLike ps ds) (hps : Declared ps r)
    (hds : Declared ds r') (xs ys : List Word) : BeginsLike (ps ++ xs) (ds ++ ys) := by
  obtain ⟨a, b, more, rfl⟩ := hps.two
  obtain ⟨a', b', more', rfl⟩ := hds.two
  exact ⟨h.first, h.name, h.literal⟩

/-! ## One rule among others -/

/-- of some rules, the one at place `i` is declared by the words `ds`, with `front` before them and `more` behind -/
inductive Stands : Nat → List Word → List Word → List Word → List WrittenRule → Prop where
  | here {as ds more : List Word} {r : WrittenRule} {rs : List WrittenRule} : Annotated as → Declared ds r →
    Rows more rs → Stands 0 as ds more ({ r with comment := lastComment (commentHere (as ++ ds)) ds as } :: rs)
  | later {i : Nat} {ws front ds more : List Word} {r : WrittenRule} {rs : List WrittenRule} : Row ws r →
    Stands i front ds more rs → Stands (i + 1) (ws ++ front) ds more (r :: rs)

theorem Stands.rows {i : Nat} {front ds more : List Word} {rs : List WrittenRule} (h : Stands i front ds more rs) :
    Rows (front ++ (ds ++ more)) rs := by
  induction h with
  | here has hds hmore =>
    rw [← List.append_assoc]
    exact .more (.intro has hds) hmore
  | later hrow _ ih =>
    rw [List.append_assoc]
    exact .more hrow ih

/-- every rule stands somewhere -/
theorem Rows.stands {words : List Word} {rs : List WrittenRule} (h : Rows words rs) {i : Nat} (hi : i < rs.length) :
    ∃ front ds more, words = front ++ (ds ++ more) ∧ Stands i front ds more rs := by
  induction h generalizing i with
  | done _ => cases hi
  | more hrow hrest ih =>
    cases i with
    | zero =>
      obtain ⟨has, hds⟩ := hrow
      exact ⟨_, _, _, by rw [List.append_assoc], .here has hds hrest⟩
    | succ i =>
      obtain ⟨front, ds, more, rfl, hstands⟩ := ih (Nat.lt_of_succ_lt_succ hi)
      exact ⟨_, ds, more, by rw [List.append_assoc], .later hrow hstands⟩

theorem Stands.declared {i : Nat} {front ds more : List Word} {rs : List WrittenRule} (h : Stands i front ds more rs) :
    ∃ r comment, Declared ds r ∧ rs[i]? = some { r with comment } := by
  induction h with
  | here _ hds _ => exact ⟨_, _, hds, rfl⟩
  | later _ _ ih => exact ih

/-- rows are the same rules wherever they stand, up to places -/
theorem Rows.same {us ws : List Word} {rs : List WrittenRule} (h : Rows ws rs)
    (hus : us.map Word.said = ws.map Word.said) :
    ∃ rs', Rows us rs' ∧ rs'.map Declaration.placeless = rs.map Declaration.placeless := by
  induction h generalizing us with
  | done has => exact ⟨[], .done (has.same (keys_of_said hus)), rfl⟩
  | more hrow _ ih =>
    obtain ⟨us₁, us₂, rfl, hus₁, hus₂⟩ := List.map_eq_append_iff.1 (hus.trans List.map_append)
    obtain ⟨r', hr', hsame⟩ := hrow.same hus₁
    obtain ⟨rs', hrs', hsames⟩ := ih hus₂
    exact ⟨r' :: rs', .more hr' hrs', by simp [hsame, hsames]⟩

/-- another declaration in the place of a rule leaves the other rules, and takes the comment of the rule -/
theorem Stands.replaced {i : Nat} {front ds more us ps vs : List Word} {rs : List WrittenRule} {q : WrittenRule}
    (h : Stands i front ds more rs) (hus : us.map Word.said = front.map Word.said)
    (hvs : vs.map Word.said = more.map Word.said) (hq : Declared ps q) (hcomment : commentHere ps = commentHere ds) :
    ∃ rs' r, Stands i us ps vs rs' ∧ rs[i]? = some r ∧ rs'.map Declaration.placeless =
      (rs.map Declaration.placeless).set i (Declaration.placeless { q with comment := r.comment }) := by
  induction h generalizing us with
  | @here as ds more r rs has hds hmore =>
    obtain ⟨rs', hrs', hsame⟩ := hmore.same hvs
    have hsaid : lastComment (commentHere (us ++ ps)) ps us = lastComment (commentHere (as ++ ds)) ds as := by
      rw [commentHere_same hcomment hus, lastComment_same hcomment hus]
    refine ⟨_, _, .here (has.same (keys_of_said hus)) hq hrs', rfl, ?_⟩
    rw [List.map_cons, List.map_cons, List.set_cons_zero, hsame, hsaid]
  | later hrow _ ih =>
    obtain ⟨us₁, us₂, rfl, hus₁, hus₂⟩ := List.map_eq_append_iff.1 (hus.trans List.map_append)
    obtain ⟨r', hr', hsame⟩ := hrow.same hus₁
    obtain ⟨rs', r, hrs', hr, hsames⟩ := ih hus₂ hvs hcomment
    exact ⟨r' :: rs', r, .later hr' hrs', hr, by simp [hsame, hsames]⟩

/-! ## The header again -/

/-- words that say the same begin alike -/
theorem beginsLike_of_keys {us ws : List Word} (h : us.map Word.key = ws.map Word.key) : BeginsLike us ws := by
  have hnil : BeginsLike ([] : List Word) [] := ⟨rfl, id, id⟩
  have happend := hnil.append h
  rwa [List.append_nil, List.append_nil] at happend

theorem Rows.startsRules {words : List Word} {rs : List WrittenRule} (h : Rows words rs) : StartsRules words := by
  cases h with
  | done has =>
    cases has with
    | none => exact nofun
    | more ha _ _ =>
      rintro _ ⟨⟩
      exact .inr ha
  | more hrow _ => exact hrow.startsRules

/-- a header is read again, in front of words that begin like the rules behind it -/
theorem header_again {words mid rest : List Word} {name : Text} {uses hidden : List Text} {models : List Metamodel}
    (hbegun : Begun words name uses mid) (hclauses : Clauses mid hidden models rest) (hrules : StartsRules rest) :
    ∃ b bs cs, words = b :: (bs ++ (cs ++ rest)) ∧ ∀ us₁ us₂ rest', us₁.map Word.key = (b :: bs).map Word.key →
      us₂.map Word.key = cs.map Word.key → BeginsLike rest' rest →
      Begun (us₁ ++ (us₂ ++ rest')) name uses (us₂ ++ rest') ∧ Clauses (us₂ ++ rest') hidden models rest' := by
  obtain ⟨b, bs, rfl, hbegunAgain⟩ := hbegun.again
  obtain ⟨cs, rfl, hclause, hclausesAgain⟩ := hclauses.again
  have hstarts : StartsRules (cs ++ rest) := by
    cases cs with
    | nil => exact hrules
    | cons c cs =>
      rintro _ ⟨⟩
      exact .inl (hclause c rfl).1
  have hbare : cs = [] → atWord "hidden" rest = false := by
    rintro rfl
    exact hclauses.not_hidden
  -- no metamodel stands in front of the rules, and so none does then
  obtain ⟨-, more, hmore, hmodels⟩ := (hclausesAgain cs rest rfl id hbare _ _ _).1 hclauses
  obtain rfl : more = [] := List.self_eq_append_right.1 hmore
  refine ⟨b, bs, cs, rfl, fun us₁ us₂ rest' hus₁ hus₂ hlike => ⟨?_, ?_⟩⟩
  · have hlikeMid : BeginsLike (us₂ ++ rest') (cs ++ rest) := hlike.append hus₂
    exact hbegunAgain us₁ _ hus₁ (hlikeMid.startsRules hstarts) fun hwith => by rwa [hlikeMid.atWord]
  · have hnone := hlike.metamodel?_eq_none (metamodel?_of_gives_nil hmodels)
    have hunnamed : Unnamed rest → Unnamed rest' := fun hunnamed => by rwa [Unnamed, hlike.atWord]
    have hbare' : cs = [] → atWord "hidden" rest' = false := fun hnil => by rw [hlike.atWord, hbare hnil]
    exact (hclausesAgain us₂ rest' hus₂ hunnamed hbare' _ _ _).2
      ⟨rfl, [], (List.append_nil _).symm, metamodels_of_none hnone⟩

/-! ## One declaration in the words of a grammar -/

/-- in the words of a grammar, `ds` declare the rule at place `i`, with `front` before them and `more` behind -/
def DeclaresAt (i : Nat) (front ds more : List Word) : Prop :=
  ∃ name uses mid hidden models rows rs, Begun (front ++ (ds ++ more)) name uses mid ∧
    Clauses mid hidden models (rows ++ (ds ++ more)) ∧ Stands i rows ds more rs

theorem DeclaresAt.declared {i : Nat} {front ds more : List Word} (h : DeclaresAt i front ds more) :
    ∃ r, Declared ds r := by
  obtain ⟨_, _, _, _, _, _, _, -, -, hstands⟩ := h
  obtain ⟨r, -, hdeclared, -⟩ := hstands.declared
  exact ⟨r, hdeclared⟩

/-- every rule of a grammar is declared by some of its words -/
theorem exists_declaresAt {words : List Word} {w : WrittenGrammar} (h : WrittenGrammar.ofWords words = .ok w) {i : Nat}
    (hi : i < w.rules.length) : ∃ front ds more, words = front ++ (ds ++ more) ∧ DeclaresAt i front ds more := by
  obtain ⟨mid, rest, hbegun, hclauses, hrows, -⟩ := (ofWords_iff ..).1 h
  obtain ⟨rows, ds, more, rfl, hstands⟩ := hrows.stands hi
  obtain ⟨b, bs, rfl, -⟩ := hbegun.again
  obtain ⟨cs, rfl, -⟩ := hclauses.again
  have hwords : b :: (bs ++ (cs ++ (rows ++ (ds ++ more)))) = b :: bs ++ cs ++ rows ++ (ds ++ more) := by simp
  rw [hwords] at hbegun ⊢
  exact ⟨_, ds, more, rfl, _, _, _, _, _, rows, w.rules, hbegun, hclauses, hstands⟩

/-- with another declaration in place of one that begins like it, the words are still a grammar -/
theorem ofWords_replaced {i : Nat} {front ds more us ps vs : List Word} {w : WrittenGrammar} {q : WrittenRule}
    (h : DeclaresAt i front ds more) (hw : WrittenGrammar.ofWords (front ++ (ds ++ more)) = .ok w)
    (hus : us.map Word.said = front.map Word.said) (hvs : vs.map Word.said = more.map Word.said)
    {r : WrittenRule} (hr : w.rules[i]? = some r) (hq : Declared ps q) (hcomment : commentHere ps = commentHere ds)
    (hkind : q.kind = r.kind) (hname : q.name = r.name)
    (hsecond : r.kind = .parser false [] → r.typeName = none → atName (ps.drop 1) = false) :
    ∃ w', WrittenGrammar.ofWords (us ++ (ps ++ vs)) = .ok w' ∧ { w' with rules := w.rules } = w ∧
      w'.rules.map Declaration.placeless =
        (w.rules.map Declaration.placeless).set i (Declaration.placeless { q with comment := r.comment }) := by
  obtain ⟨name, uses, mid, hidden, models, rows, rs, hbegun, hclauses, hstands⟩ := h
  obtain ⟨_, _, hbegun', hclauses', hrows', hcomment'⟩ := (ofWords_iff ..).1 hw
  obtain ⟨rfl, rfl, rfl⟩ := hbegun.unique hbegun'
  obtain ⟨rfl, rfl, rfl⟩ := hclauses.unique hclauses'
  have hrs : w.rules = rs := hstands.rows.unique hrows'
  obtain ⟨b, bs, cs, hwords, hagain⟩ := header_again hbegun hclauses hrows'.startsRules
  -- the words of the beginning, the clauses and the rows, each said again
  have hfront : front = b :: bs ++ cs ++ rows := by
    refine (List.append_left_inj (ds ++ more)).1 ?_
    rw [hwords]
    simp
  rw [hfront] at hus
  obtain ⟨us', us₃, rfl, hus', hus₃⟩ := List.map_eq_append_iff.1 (hus.trans List.map_append)
  obtain ⟨us₁, us₂, rfl, hus₁, hus₂⟩ := List.map_eq_append_iff.1 (hus'.trans List.map_append)
  obtain ⟨q', _, hdeclared, hq'⟩ := hstands.declared
  obtain ⟨rs', r', hstands', hr', hsame⟩ := hstands.replaced hus₃ hvs hq hcomment
  obtain rfl := Option.some.inj ((hrs ▸ hr).symm.trans hr')
  obtain rfl := Option.some.inj (hq'.symm.trans hr')
  have hlike : BeginsLike (us₃ ++ (ps ++ vs)) (rows ++ (ds ++ more)) :=
    ((hq.beginsLike hdeclared hkind hname hsecond).before hq hdeclared vs more).append (keys_of_said hus₃)
  obtain ⟨hbegun₁, hclauses₁⟩ := hagain us₁ us₂ _ (keys_of_said hus₁) (keys_of_said hus₂) hlike
  have hcommentHere : w.comment = commentHere (us₁ ++ (us₂ ++ (us₃ ++ (ps ++ vs)))) := by
    rw [hcomment', hwords, ← List.cons_append, commentHere_append (by simp)]
    rw [commentHere_append (by rintro rfl; cases hus₁), commentHere_said hus₁]
  refine ⟨{ w with rules := rs' }, ?_, rfl, hrs ▸ hsame⟩
  rw [List.append_assoc, List.append_assoc]
  exact (ofWords_iff ..).2 ⟨_, _, hbegun₁, hclauses₁, hstands'.rows, hcommentHere⟩

/-! ## One declaration in the text of a grammar -/

namespace Piece

/-- what stands behind a text that is cut by itself -/
theorem cut_behind {s t : Text} {ps ts : List Piece} (h : cut (s ++ t) = .ok (ps ++ ts))
    (htext : ps.flatMap text = s) : cut t = .ok ts := by
  induction ps generalizing s with
  | nil =>
    obtain rfl : [] = s := htext
    exact h
  | cons p ps ih =>
    refine ih (s := ps.flatMap text) ?_ rfl
    have hwhole := flatMap_text_of_cut h
    cases hsource : s ++ t with
    | nil =>
      rw [hsource, cut] at h
      cases h
    | cons c rest =>
      rw [hsource, cut] at h
      split at h
      · cases h
      · next token n hfirst =>
        split at h
        · cases h
        · next more hmore =>
          obtain ⟨rfl, rfl⟩ : (⟨c :: rest.take n, token⟩ : Piece) = p ∧ more = ps ++ ts := by simpa using h
          have hrest : rest = rest.take n ++ (ps.flatMap text ++ t) := by
            rw [← htext, List.flatMap_cons, List.cons_append, List.cons_append, List.append_assoc] at hsource
            exact (List.cons.inj hsource).2.symm
          have hdrop : rest.drop n = ps.flatMap text ++ t :=
            List.append_cancel_left ((List.take_append_drop n rest).trans hrest)
          rw [← hdrop, hmore]

/-- a piece of a text: it is not empty, and a name begins and ends as names do -/
def Sound (p : Piece) : Prop :=
  ∃ c body, p.text = c :: body ∧ ∀ v, p.token = some (.name, v) →
    (isNameStart c = true ∨ c = CodePoint.ofChar '^') ∧ ∀ d ∈ p.text.getLast?, isNamePart d = true

theorem name_of_name? {c : CodePoint} {rest v : Text} {n : Nat} (h : name? c rest = some (v, n)) :
    (isNameStart c = true ∨ c = CodePoint.ofChar '^') ∧ ∀ d ∈ (c :: rest.take n).getLast?, isNamePart d = true := by
  have htake : ∀ more : Text, more.take (more.takeWhile isNamePart).length = more.takeWhile isNamePart := fun more =>
    List.prefix_iff_eq_take.1 (List.takeWhile_prefix _) |>.symm
  have hparts : ∀ more : Text, ∀ d ∈ more.takeWhile isNamePart, isNamePart d = true :=
    fun _ d hd => List.all_eq_true.1 List.all_takeWhile d hd
  unfold name? at h
  split at h
  · next hcaret =>
    refine ⟨.inr hcaret, ?_⟩
    split at h
    · cases h
    · next d more =>
      split at h
      · next hstart =>
        cases h
        intro e he
        rw [List.take_succ_cons, htake, List.getLast?_cons_cons] at he
        rcases List.mem_cons.1 (List.mem_of_getLast? he) with rfl | he
        · exact isNamePart_of_isNameStart hstart
        · exact hparts more e he
      · cases h
  · split at h
    · next hstart =>
      cases h
      refine ⟨.inl hstart, fun e he => ?_⟩
      rw [htake] at he
      rcases List.mem_cons.1 (List.mem_of_getLast? he) with rfl | he
      · exact isNamePart_of_isNameStart hstart
      · exact hparts rest e he
    · cases h

theorem sound_of_first {c : CodePoint} {rest : Text} {token : Option Key} {n : Nat}
    (h : first c rest = .ok (token, n)) : Sound ⟨c :: rest.take n, token⟩ := by
  refine ⟨c, rest.take n, rfl, fun v htoken => ?_⟩
  obtain rfl : token = some (.name, v) := htoken
  unfold first at h
  split at h
  · cases h
  split at h
  · cases h
  split at h
  · split at h
    · cases h
    · have hcomment := (Prod.mk.inj (Except.ok.inj h)).1
      unfold headComment? at hcomment
      split at hcomment <;> cases hcomment
  split at h
  · split at h <;> cases h
  split at h
  · cases h
  split at h
  · next hname =>
    cases h
    exact name_of_name? hname
  · split at h <;> cases h

theorem sound_of_cut {source : Text} {pieces : List Piece} (h : cut source = .ok pieces) : ∀ p ∈ pieces, Sound p := by
  fun_induction cut source generalizing pieces with
  | case1 => cases h; exact List.forall_mem_nil _
  | case2 => cases h
  | case3 => cases h
  | case4 c rest token n hfirst more hmore ih =>
    cases h
    exact List.forall_mem_cons.2 ⟨sound_of_first hfirst, ih hmore⟩

end Piece

/-- a text has as many code points as words, or more -/
theorem length_words_le {pieces : List Piece} (h : ∀ p ∈ pieces, p.Sound) (comment : Option Text) (m : Mark) :
    (wordsBehind comment (Lexed.ofPieces m pieces).tokens).length ≤ (pieces.flatMap Piece.text).length := by
  induction pieces generalizing comment m with
  | nil => exact Nat.le_refl 0
  | cons p pieces ih =>
    obtain ⟨⟨c, body, htext, -⟩, hmore⟩ := List.forall_mem_cons.1 h
    rw [List.flatMap_cons, List.length_append, htext, List.length_cons, Lexed.ofPieces]
    split
    · exact Nat.le_trans (ih hmore _ _) (by omega)
    · rw [wordsBehind]
      split
      · exact Nat.le_trans (ih hmore _ _) (by omega)
      · exact Nat.le_trans (Nat.succ_le_succ (ih hmore _ _)) (by omega)

theorem Declared.ends {ds : List Word} {r : WrittenRule} (h : Declared ds r) :
    ∃ init s, ds = init ++ [s] ∧ s.Is .semicolon := by
  cases h with
  | @parser fs ss ts hs ws _ n c s _ _ _ _ _ _ _ _ _ _ hsemicolon _ =>
    exact ⟨fs ++ n :: (ss ++ (ts ++ (hs ++ c :: ws))), s, by simp, hsemicolon⟩
  | @terminal x fs ts ws _ n c s _ _ _ _ _ _ _ _ hsemicolon _ =>
    exact ⟨x :: (fs ++ n :: (ts ++ c :: ws)), s, by simp, hsemicolon⟩
  | @enumeration x n c s ts ws _ _ _ _ _ _ _ _ hsemicolon =>
    exact ⟨x :: n :: (ts ++ c :: ws), s, by simp, hsemicolon⟩

theorem Declared.four {ds : List Word} {r : WrittenRule} (h : Declared ds r) : 4 ≤ ds.length := by
  have hrow : ∀ {ws : List Word} {ts : List Tree}, LiteralRow ws ts → 0 < ws.length := by
    intro ws ts hws
    cases hws with
    | one ht => cases ht <;> simp
    | more _ _ _ => simp
  cases h with
  | parser _ _ _ _ _ _ ht _ _ =>
    obtain ⟨w, more, rfl, -⟩ := ht.begins
    simp only [List.length_append, List.length_cons]
    omega
  | terminal _ _ _ _ _ ht _ _ =>
    obtain ⟨w, more, rfl, -⟩ := ht.begins
    simp only [List.length_append, List.length_cons]
    omega
  | enumeration _ _ _ _ hws _ =>
    have hpos := hrow hws
    simp only [List.length_append, List.length_cons]
    omega

/-- words that begin before a given one are those of the pieces before it -/
theorem exists_pieces_of_words {pieces : List Piece} {comment : Option Text} {m : Mark} {ws us : List Word} {u : Word}
    (h : wordsBehind comment (Lexed.ofPieces m pieces).tokens = ws ++ u :: us) :
    ∃ bs q qs, pieces = bs ++ q :: qs ∧ q.token = some u.key ∧ u.token.kind ≠ .headComment ∧
      wordsBehind comment (Lexed.ofPieces m bs).tokens = ws ∧
      wordsBehind (pending comment (Lexed.ofPieces m bs).tokens)
        (Lexed.ofPieces (Lexed.ofPieces m bs).stop (q :: qs)).tokens = u :: us := by
  induction pieces generalizing comment m ws with
  | nil => simp [Lexed.ofPieces, wordsBehind] at h
  | cons p pieces ih =>
    cases htoken : p.token with
    | none =>
      simp only [Lexed.ofPieces, htoken] at h
      obtain ⟨bs, q, qs, rfl, hq, hk, hws, hus⟩ := ih h
      exact ⟨p :: bs, q, qs, rfl, hq, hk, by simpa [Lexed.ofPieces, htoken] using hws,
        by simpa [Lexed.ofPieces, htoken] using hus⟩
    | some k =>
      obtain ⟨kind, value⟩ := k
      by_cases hcomment : kind = .headComment
      · simp only [Lexed.ofPieces, htoken, wordsBehind, hcomment, if_true] at h
        obtain ⟨bs, q, qs, rfl, hq, hk, hws, hus⟩ := ih h
        exact ⟨p :: bs, q, qs, rfl, hq, hk, by simpa [Lexed.ofPieces, htoken, wordsBehind, hcomment] using hws,
          by simpa [Lexed.ofPieces, htoken, pending, hcomment] using hus⟩
      · simp only [Lexed.ofPieces, htoken, wordsBehind, hcomment, if_false] at h
        cases ws with
        | nil =>
          obtain ⟨rfl, -⟩ := List.cons.inj h
          exact ⟨[], p, pieces, rfl, htoken, hcomment, rfl,
            by simpa [Lexed.ofPieces, htoken, wordsBehind, hcomment, pending] using h⟩
        | cons w ws =>
          obtain ⟨rfl, hmore⟩ := List.cons.inj h
          obtain ⟨bs, q, qs, rfl, hq, hk, hws, hus⟩ := ih hmore
          exact ⟨p :: bs, q, qs, rfl, hq, hk, by simpa [Lexed.ofPieces, htoken, wordsBehind, hcomment] using hws,
            by simpa [Lexed.ofPieces, htoken, pending, hcomment] using hus⟩

/-- among the pieces of a text, `ds` declare the rule at place `i`, from its first word up to its semicolon -/
structure PiecesDeclare (i : Nat) (bs ds as : List Piece) : Prop where
  first : ∀ p ∈ ds.head?, ∃ v, p.token = some (.name, v)
  last : ∀ q ∈ ds.getLast?, q.token = some Symbol.semicolon.key
  declares : DeclaresAt i (wordsOf (Lexed.ofPieces Mark.start bs).tokens)
    (wordsBehind (pending none (Lexed.ofPieces Mark.start bs).tokens)
      (Lexed.ofPieces (Lexed.ofPieces Mark.start bs).stop ds).tokens)
    (wordsOf (Lexed.ofPieces (Lexed.ofPieces (Lexed.ofPieces Mark.start bs).stop ds).stop as).tokens)

/-- in a text of three parts, the second one is the declaration of the rule at place `i` -/
def DeclaredAt (i : Nat) (before declaration after : Text) : Prop :=
  ∃ bs ds as, Piece.cut (before ++ (declaration ++ after)) = .ok (bs ++ (ds ++ as)) ∧
    bs.flatMap Piece.text = before ∧ ds.flatMap Piece.text = declaration ∧ PiecesDeclare i bs ds as

section

variable {i : Nat} {bs ds as : List Piece}

theorem PiecesDeclare.split (h : PiecesDeclare i bs ds as) :
    ∃ init q, ds = init ++ [q] ∧ q.token = some Symbol.semicolon.key := by
  rcases List.eq_nil_or_concat' ds with rfl | ⟨init, q, rfl⟩
  · obtain ⟨r, hdeclared⟩ := h.declares.declared
    have hfour := hdeclared.four
    simp [Lexed.ofPieces, wordsBehind] at hfour
  · exact ⟨init, q, rfl, h.last q (by simp)⟩

/-- the comment before the declaration -/
theorem PiecesDeclare.commentHere (h : PiecesDeclare i bs ds as) :
    commentHere (wordsBehind (pending none (Lexed.ofPieces Mark.start bs).tokens)
      (Lexed.ofPieces (Lexed.ofPieces Mark.start bs).stop ds).tokens) =
        pending none (Lexed.ofPieces Mark.start bs).tokens := by
  cases ds with
  | nil =>
    obtain ⟨_, _, hnil, -⟩ := h.split
    exact absurd hnil (by simp)
  | cons p ds =>
    obtain ⟨v, hv⟩ := h.first p rfl
    simp [Lexed.ofPieces, hv, wordsBehind, Source.commentHere]

/-- the words of the whole text -/
theorem PiecesDeclare.words (h : PiecesDeclare i bs ds as) (cs : List Piece) :
    wordsOf (Lexed.ofPieces Mark.start (bs ++ (ds ++ cs))).tokens = wordsOf (Lexed.ofPieces Mark.start bs).tokens ++
      (wordsBehind (pending none (Lexed.ofPieces Mark.start bs).tokens)
        (Lexed.ofPieces (Lexed.ofPieces Mark.start bs).stop ds).tokens ++
      wordsOf (Lexed.ofPieces (Lexed.ofPieces (Lexed.ofPieces Mark.start bs).stop ds).stop cs).tokens) := by
  obtain ⟨init, q, rfl, hq⟩ := h.split
  rw [wordsOf, wordsBehind_ofPieces_append, wordsBehind_ofPieces_append, pending_ofPieces_append hq nofun]
  rfl

/-- the pieces that declare a rule are those of the words that declare it -/
theorem DeclaresAt.pieces {source : Text} {pieces : List Piece} (hcut : Piece.cut source = .ok pieces)
    {front ds more : List Word} (hwords : wordsOf (Lexed.ofPieces Mark.start pieces).tokens = front ++ (ds ++ more))
    (h : DeclaresAt i front ds more) : ∃ bs ds' as, pieces = bs ++ (ds' ++ as) ∧ PiecesDeclare i bs ds' as := by
  obtain ⟨r, hdeclared⟩ := h.declared
  obtain ⟨u, us, rfl, hu⟩ := hdeclared.begins
  obtain ⟨init, s, hends, hs⟩ := hdeclared.ends
  -- the pieces before the first word, and then those before the semicolon
  obtain ⟨bs, p, ps, rfl, hp, -, hbefore, hbehind⟩ := exists_pieces_of_words hwords
  rw [show u :: us.append more = (u :: us) ++ more from rfl, hends, List.append_assoc, List.singleton_append] at hbehind
  obtain ⟨inner, q, as, hps, hq, -, hinit, hafter⟩ := exists_pieces_of_words hbehind
  rw [hps] at hcut
  have hsemicolon : q.token = some Symbol.semicolon.key := by
    have hlexical : Lexical s.key := lexical_of_cut hcut s.key (by simp [hq])
    have hvalue : s.token.value = Symbol.semicolon.spelling := hlexical.symbol _ hs
    rw [hq]
    exact congrArg some (Prod.ext hs hvalue)
  have hlast : wordsBehind (pending (pending none (Lexed.ofPieces Mark.start bs).tokens)
      (Lexed.ofPieces (Lexed.ofPieces Mark.start bs).stop inner).tokens)
        (Lexed.ofPieces (Lexed.ofPieces (Lexed.ofPieces Mark.start bs).stop inner).stop [q]).tokens = [s] ∧
      wordsOf (Lexed.ofPieces (Lexed.ofPieces (Lexed.ofPieces (Lexed.ofPieces Mark.start bs).stop inner).stop
        [q]).stop as).tokens = more := by
    simpa [Lexed.ofPieces, hsemicolon, Symbol.key, wordsBehind, wordsOf] using hafter
  refine ⟨bs, inner ++ [q], as, by rw [hps]; simp, ?_, by simpa using hsemicolon, ?_⟩
  · have hfirst : (inner ++ [q]).head? = some p := by
      cases inner with
      | nil => exact congrArg List.head? hps.symm
      | cons x inner => exact congrArg List.head? hps.symm
    intro p' hp'
    obtain rfl := Option.some.inj (hfirst.symm.trans hp')
    exact ⟨u.token.value, by rw [hp, ← hu.kind]; rfl⟩
  · rw [wordsBehind_ofPieces_append, Lexed.stop_ofPieces_append, hinit, hlast.1, hlast.2, ← hends, wordsOf, hbefore]
    exact h

end

/-- the rules of a text stand in it, each in its place -/
theorem exists_declaredAt {file : Path} {source : Text} {w : WrittenGrammar}
    (h : WrittenGrammar.ofText file source = .ok w) {i : Nat} (hi : i < w.rules.length) :
    ∃ before declaration after, source = before ++ (declaration ++ after) ∧ DeclaredAt i before declaration after := by
  obtain ⟨pieces, hcut, hwords⟩ := ofWords_of_ofText h
  obtain ⟨front, ds, more, hsplit, hdeclares⟩ := exists_declaresAt hwords hi
  obtain ⟨bs, ds', as, rfl, hpieces⟩ := hdeclares.pieces hcut hsplit
  have hsource := Piece.flatMap_text_of_cut hcut
  rw [List.flatMap_append, List.flatMap_append] at hsource
  exact ⟨_, _, _, hsource.symm, bs, ds', as, hsource ▸ hcut, rfl, rfl, hpieces⟩

/-! ## Another declaration in its place -/

/-- tokens among which no comment stands: the first one takes the comment before them -/
theorem wordsBehind_uncommented {ts : List Token} (h : ∀ t ∈ ts, t.kind ≠ .headComment) (hne : ts ≠ [])
    (comment : Option Text) : (wordsBehind comment ts).map Word.key = ts.map Token.key ∧
      commentHere (wordsBehind comment ts) = comment ∧ pending comment ts = none := by
  have hpending : ∀ us : List Token, (∀ t ∈ us, t.kind ≠ .headComment) → pending none us = none := by
    intro us hus
    induction us with
    | nil => rfl
    | cons u us ih =>
      rw [pending, if_neg (hus u List.mem_cons_self)]
      exact ih fun t ht => hus t (List.mem_cons_of_mem _ ht)
  obtain ⟨t, ts, rfl⟩ := List.exists_cons_of_ne_nil hne
  obtain ⟨ht, hts⟩ := List.forall_mem_cons.1 h
  rw [wordsBehind, if_neg ht, pending, if_neg ht]
  refine ⟨?_, rfl, hpending ts hts⟩
  rw [List.map_cons, List.map_cons, ← keys_wordsOf hts]
  rfl

theorem Piece.plain_of_name {c : CodePoint} (h : isNameStart c = true ∨ c = CodePoint.ofChar '^') (rest : Text) :
    Plain (c :: rest) := by
  rcases h with h | rfl
  · have hother : ∀ d : CodePoint, isNameStart d = false → c ≠ d := by
      rintro d hd rfl
      simp [hd] at h
    refine ⟨?_, ?_⟩
    · rintro _ ⟨⟩
      exact ⟨hother _ (by decide), hother _ (by decide), hother _ (by decide), hother _ (by decide)⟩
    · rintro _ ⟨⟩
      exact ⟨hother _ (by decide), hother _ (by decide), not_isDigit_of_isNameStart h⟩
  · refine ⟨?_, ?_⟩
    · rintro _ ⟨⟩
      decide
    · rintro _ ⟨⟩
      decide

section

variable {i : Nat} {before declaration after : Text} {bs ds as : List Piece}

/-- in place of a declaration another text can stand, if it begins like a name or stands apart from one -/
theorem PiecesDeclare.cut (h : PiecesDeclare i bs ds as)
    (hcut : Piece.cut (bs.flatMap Piece.text ++ (ds.flatMap Piece.text ++ after)) = .ok (bs ++ (ds ++ as)))
    {t : Text} {keys : List Key} (ht : Cuts t keys after) (hplain : Piece.Plain (t ++ after))
    (hname : NameEnds (t ++ after) ∨ ∀ c ∈ (bs.flatMap Piece.text).getLast?, Piece.isNamePart c = false) :
    ∃ ts, Piece.cut (bs.flatMap Piece.text ++ (t ++ after)) = .ok (bs ++ (ts ++ as)) ∧
      ts.filterMap Piece.token = keys := by
  have hsound := Piece.sound_of_cut hcut
  have hds : ∀ p ∈ ds, p.Sound := fun p hp => hsound p (by simp [hp])
  obtain ⟨ts, hts, hkeys⟩ := ht as (Piece.cut_behind (Piece.cut_behind hcut rfl) rfl)
  obtain ⟨r, hdeclared⟩ := h.declares.declared
  have hlong : 4 ≤ (ds.flatMap Piece.text ++ after).length := by
    have hwords := length_words_le hds (pending none (Lexed.ofPieces Mark.start bs).tokens)
      (Lexed.ofPieces Mark.start bs).stop
    have hfour := hdeclared.four
    rw [List.length_append]
    omega
  obtain ⟨c, rest, hfirst, hc⟩ : ∃ c rest, ds.flatMap Piece.text ++ after = c :: rest ∧
      (Piece.isNameStart c = true ∨ c = CodePoint.ofChar '^') := by
    cases ds with
    | nil => simp [Lexed.ofPieces, wordsBehind] at hdeclared; exact absurd hdeclared.four (by simp)
    | cons p ds =>
      obtain ⟨v, hv⟩ := h.first p rfl
      obtain ⟨c, body, htext, hsoundName⟩ := hds p List.mem_cons_self
      exact ⟨c, _, by rw [List.flatMap_cons, htext, List.cons_append, List.cons_append], (hsoundName v hv).1⟩
  refine ⟨ts, Piece.cut_replace hcut rfl hlong (fun p hp => ?_) hts, hkeys⟩
  refine ⟨hfirst ▸ Piece.plain_of_name hc rest, hplain, fun hline => ?_, fun v hv => ?_⟩
  · obtain rfl : c = CodePoint.ofChar '\n' := hline c (by rw [hfirst]; rfl)
    exact absurd hc (by decide)
  · refine hname.resolve_right fun hends => ?_
    obtain ⟨init, rfl⟩ : ∃ init, bs = init ++ [p] := List.getLast?_eq_some_iff.1 hp
    obtain ⟨d, body, htext, hsoundName⟩ := hsound p (by simp)
    obtain ⟨last, hlast⟩ : ∃ last, p.text.getLast? = some last := by
      rw [htext]
      exact ⟨_, List.getLast?_cons⟩
    have hpart := (hsoundName v hv).2 last hlast
    rw [hends last (by simp [hlast])] at hpart
    cases hpart

/-- **A declaration can be replaced**: where another declaration begins like the one of a rule, the text with it in the
place of that one is a grammar again. All that is not this rule is read as before; the rule is read from the other
declaration, with the comment it had. -/
theorem ofText_replaced {file : Path} {w : WrittenGrammar} {r q : WrittenRule} {t : Text} {keys : List Key}
    {ps : List Word} (h : DeclaredAt i before declaration after)
    (hw : WrittenGrammar.ofText file (before ++ (declaration ++ after)) = .ok w) (hr : w.rules[i]? = some r)
    (ht : Cuts t keys after) (hplain : Piece.Plain (t ++ after))
    (hname : NameEnds (t ++ after) ∨ ∀ c ∈ before.getLast?, Piece.isNamePart c = false)
    (hcomments : ∀ k ∈ keys, k.1 ≠ .headComment) (hps : ps.map Word.key = keys) (hq : Declared ps q)
    (hkind : q.kind = r.kind) (hsameName : q.name = r.name)
    (hsecond : r.kind = .parser false [] → r.typeName = none → atName (ps.drop 1) = false) :
    ∃ w', WrittenGrammar.ofText file (before ++ (t ++ after)) = .ok w' ∧ { w' with rules := w.rules } = w ∧
      w'.rules.map Declaration.placeless =
        (w.rules.map Declaration.placeless).set i (Declaration.placeless { q with comment := r.comment }) := by
  obtain ⟨bs, ds, as, hcut, rfl, rfl, hpieces⟩ := h
  obtain ⟨ts, hcut', hkeys⟩ := hpieces.cut hcut ht hplain hname
  obtain ⟨pieces, hwhole, hwords⟩ := ofWords_of_ofText hw
  obtain rfl := Except.ok.inj (hcut.symm.trans hwhole)
  rw [hpieces.words as] at hwords
  have hdeclares := hpieces.declares
  have hcommentHere := hpieces.commentHere
  generalize hmark : (Lexed.ofPieces Mark.start bs).stop = m at *
  -- the words of the new declaration, with the comment that stood before the old one
  have hts : ((Lexed.ofPieces m ts).tokens).map Token.key = keys := (Lexed.keys_ofPieces ..).trans hkeys
  have huncommented : ∀ t ∈ (Lexed.ofPieces m ts).tokens, t.kind ≠ .headComment := fun t ht =>
    hcomments t.key (hts ▸ List.mem_map_of_mem ht)
  have hne : (Lexed.ofPieces m ts).tokens ≠ [] := by
    intro hnil
    rw [hnil] at hts
    have hfour := hq.four
    rw [← List.length_map, hps, ← hts] at hfour
    exact absurd hfour (by simp)
  obtain ⟨hsaid, hcomment, hpending⟩ := wordsBehind_uncommented huncommented hne
    (pending none (Lexed.ofPieces Mark.start bs).tokens)
  have hsame : (wordsBehind (pending none (Lexed.ofPieces Mark.start bs).tokens) (Lexed.ofPieces m ts).tokens).map
      Word.key = ps.map Word.key := hsaid.trans (hts.trans hps.symm)
  obtain ⟨q', hq', hplaceless⟩ := declared_same hq hsame
  have hbehind : (wordsOf (Lexed.ofPieces (Lexed.ofPieces m ts).stop as).tokens).map Word.said =
      (wordsOf (Lexed.ofPieces (Lexed.ofPieces m ds).stop as).tokens).map Word.said := (said_ofPieces ..).1
  obtain ⟨hkind', hname', -, -⟩ := written_of_placeless hplaceless
  obtain ⟨w', hw', hrest, hrules⟩ := ofWords_replaced hdeclares hwords rfl hbehind hr hq'
    (hcomment.trans hcommentHere.symm) (hkind'.trans hkind) (hname'.trans hsameName) fun hparser htype =>
      (atName_same (by rw [List.map_drop, List.map_drop, hsame])).trans (hsecond hparser htype)
  refine ⟨w', ofText_of_ofWords hcut' ?_ file, hrest, ?_⟩
  · rw [wordsOf, wordsBehind_ofPieces_append, wordsBehind_ofPieces_append, hmark, hpending]
    exact hw'
  · calc w'.rules.map Declaration.placeless
        = (w.rules.map Declaration.placeless).set i { q'.placeless with comment := r.comment } := hrules
      _ = (w.rules.map Declaration.placeless).set i { q.placeless with comment := r.comment } := by rw [hplaceless]

end

end Rulebook
