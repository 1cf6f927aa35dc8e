/-
The layout of a printed definition: which pieces it is made of and which of them stand side by side. A piece is carried
on by what begins with certain code points only (`Piece.GoesOn`), so pieces that are `Apart` are cut as they were put
together. In a printed definition a parenthesis opens behind nothing that could be carried on and closes in front of
nothing that carries on (`Piece.Meets`), whatever is inside. That is why the text can lose parentheses and all its other
pieces stay what they are.

- `laid_definitionText`: a printed definition is a row of pieces that meet each other;
- `Piece.cut_apart`: pieces that are apart are what their text is cut into;
- `Piece.apart_without`: pieces that meet are apart without two parentheses.
-/
import Rulebook.Proofs.Definitions

namespace Rulebook

open Source Element

/-! ## What carries a piece on -/

def Symbol.extension? : Symbol → Option CodePoint
  | .colon => some (CodePoint.ofChar ':')
  | .dot => some (CodePoint.ofChar '.')
  | .equals => some (CodePoint.ofChar '>')
  | .plus => some (CodePoint.ofChar '=')
  | .question => some (CodePoint.ofChar '=')
  | _ => none

namespace Piece

/-- the printer writes the piece: it is a blank or a line break, a name, a quoted keyword or a symbol -/
inductive Written : Piece → Prop where
  | gap {c : CodePoint} : isGap c = true → Written ⟨[c], none⟩
  | name {n : Text} : IsIdentifier n → Written ⟨n, some (.name, n)⟩
  | keyword (v : Text) : Written ⟨quoteKeyword v, some (.literal, v)⟩
  | symbol {s : Symbol} : s ≠ .greater → Written ⟨s.spelling, some s.key⟩

/-- right behind the piece the code point would belong to it -/
def GoesOn (p : Piece) (c : CodePoint) : Prop :=
  match p.token with
  | some (.name, _) => isNamePart c = true
  | some (.symbol s, _) => s.extension? = some c
  | _ => False

/-- the second piece does not carry the first one on -/
def Apart (p q : Piece) : Prop := ∀ c ∈ q.text.head?, ¬ p.GoesOn c

/-- a symbol ends where nothing makes a longer one of it -/
theorem first_symbol (s : Symbol) {t : Text} (h : ∀ c ∈ t.head?, s.extension? ≠ some c) :
    ∃ c body, s.spelling = c :: body ∧ first c (body ++ t) = .ok (some s.key, body.length) := by
  cases t with
  | nil => cases s <;> exact ⟨_, _, rfl, rfl⟩
  | cons d more =>
    have hone : ∀ (c e : CodePoint) (x : Symbol), s.extension? = some e → s.spelling = [c] → x.spelling = [c, e] →
        symbol? c (d :: more) = (bif Text.startsWith (c :: d :: more) x.spelling then some x else some s) →
        (symbol? c (d :: more) = some s → first c (d :: more) = .ok (some s.key, s.spelling.length - 1)) →
        ∃ c body, s.spelling = c :: body ∧ first c (body ++ d :: more) = .ok (some s.key, body.length) := by
      intro c e x he hs hx hsymbol hfirst
      have hopen : Text.startsWith (c :: d :: more) x.spelling = false := by
        have hne : e ≠ d := fun heq => h d rfl (he.trans (congrArg some heq))
        simp [Text.startsWith, List.isPrefixOf, hx, hne]
      rw [hopen, cond_false] at hsymbol
      refine ⟨c, [], hs, ?_⟩
      rw [List.nil_append, hfirst hsymbol]
      simp only [hs, List.length_singleton, List.length_nil, Nat.sub_self]
    cases s with
    | colon =>
      exact hone _ _ .doubleColon rfl rfl rfl rfl (first_of_symbol? rfl (by decide) (by decide) rfl rfl)
    | dot =>
      exact hone _ _ .doubleDot rfl rfl rfl rfl (first_of_symbol? rfl (by decide) (by decide) rfl rfl)
    | equals =>
      exact hone _ _ .fatArrow rfl rfl rfl rfl (first_of_symbol? rfl (by decide) (by decide) rfl rfl)
    | plus =>
      exact hone _ _ .plusEquals rfl rfl rfl rfl (first_of_symbol? rfl (by decide) (by decide) rfl rfl)
    | question =>
      exact hone _ _ .questionEquals rfl rfl rfl rfl (first_of_symbol? rfl (by decide) (by decide) rfl rfl)
    | _ => exact ⟨_, _, rfl, rfl⟩

/-- a written piece ends where nothing carries it on -/
theorem Written.ends {p : Piece} (h : p.Written) {t : Text} (ht : ∀ c ∈ t.head?, ¬ p.GoesOn c) :
    ∃ c body, p.text = c :: body ∧ first c (body ++ t) = .ok (p.token, body.length) := by
  cases h with
  | @gap c hc => exact ⟨c, [], rfl, by simp [first, hc]⟩
  | name hn =>
    obtain ⟨hc, htail⟩ := hn
    exact ⟨_, _, rfl, first_name hc htail fun c hc => Bool.eq_false_iff.2 (ht c hc)⟩
  | keyword v => exact ⟨CodePoint.ofChar '\'', _, rfl, first_quoted v t⟩
  | @symbol s hs => exact first_symbol s ht

/-- pieces that are apart are what their text is cut into, in front of what does not carry the last one on -/
theorem cut_apart {ps more : List Piece} {rest : Text} (hwritten : ∀ p ∈ ps, p.Written) (hapart : ps.IsChain Apart)
    (hend : ∀ p ∈ ps.getLast?, ∀ c ∈ rest.head?, ¬ p.GoesOn c) (hrest : cut rest = .ok more) :
    cut (ps.flatMap text ++ rest) = .ok (ps ++ more) := by
  induction ps with
  | nil => exact hrest
  | cons p ps ih =>
    obtain ⟨hp, hps⟩ := List.forall_mem_cons.1 hwritten
    have hnext : ∀ c ∈ (ps.flatMap text ++ rest).head?, ¬ p.GoesOn c := by
      cases ps with
      | nil => exact hend p rfl
      | cons q qs =>
        obtain ⟨d, body, htext, -⟩ := (hps q List.mem_cons_self).ends (t := []) nofun
        have hpq := hapart.rel
        simpa [Apart, htext] using hpq
    have hlast : ∀ q ∈ ps.getLast?, ∀ c ∈ rest.head?, ¬ q.GoesOn c := by
      cases ps with
      | nil => exact nofun
      | cons q qs => simpa using hend
    have hmore := ih hps hapart.tail hlast
    obtain ⟨c, body, htext, hfirst⟩ := hp.ends hnext
    rw [List.flatMap_cons, htext, List.cons_append, List.cons_append, List.append_assoc, cut]
    simp only [hfirst, List.drop_left, List.take_left, hmore, ← htext]
    rfl

/-! ## Pieces beside each other -/

/-- nothing that is written carries the piece on, and it closes no parenthesis -/
structure Leads (p : Piece) : Prop where
  stays : ∀ c, p.GoesOn c → c = CodePoint.ofChar '>'
  no_close : p.token ≠ some Symbol.closeParen.key

/-- the piece carries nothing on, and it opens no parenthesis -/
structure Trails (q : Piece) : Prop where
  ends : Ends q.text
  no_open : q.token ≠ some Symbol.openParen.key

/-- the pieces stand side by side in a printed definition -/
structure Meets (p q : Piece) : Prop where
  apart : p.Apart q
  opens : q.token = some Symbol.openParen.key → p.Leads
  closes : p.token = some Symbol.closeParen.key → q.Trails

abbrev mark (s : Symbol) : Piece := ⟨s.spelling, some s.key⟩

def IsName (p : Piece) : Prop := ∃ v, p.token = some (.name, v)

variable {p q : Piece} {s : Symbol}

theorem mark_token_ne {s' : Symbol} (h : s ≠ s') : (mark s).token ≠ some s'.key := by
  intro heq
  exact h (TokenKind.symbol.inj (congrArg Prod.fst (Option.some.inj heq)))

theorem not_goesOn_of_ends {t : Text} (h : Ends t) (p : Piece) : ∀ c ∈ t.head?, ¬ p.GoesOn c := by
  intro c hc hon
  obtain ⟨hcolon, hdot, hequals, hgreater⟩ := h.2 c hc
  unfold GoesOn at hon
  split at hon
  · exact Bool.eq_false_iff.1 (h.1 c hc) hon
  · next s _ _ =>
    cases s <;> simp [Symbol.extension?, Ne.symm hcolon, Ne.symm hdot, Ne.symm hequals, Ne.symm hgreater] at hon
  · exact hon

/-- the printer writes no piece that begins with `>` -/
theorem Written.not_greater (h : q.Written) : ∀ c ∈ q.text.head?, c ≠ CodePoint.ofChar '>' := by
  rintro c hc rfl
  cases h with
  | gap hgap =>
    cases hc
    exact absurd hgap (by decide)
  | name hn =>
    obtain ⟨hstart, -⟩ := hn
    cases hc
    exact absurd hstart (by decide)
  | keyword v => cases hc
  | @symbol s hs => cases s <;> first | exact hs rfl | cases hc

theorem Leads.meets (h : p.Leads) (hq : q.Written) : p.Meets q :=
  ⟨fun c hc hon => hq.not_greater c hc (h.stays c hon), fun _ => h, fun hclose => absurd hclose h.no_close⟩

theorem Trails.meets (h : q.Trails) (p : Piece) : p.Meets q :=
  ⟨not_goesOn_of_ends h.ends p, fun hopen => absurd hopen h.no_open, fun _ => h⟩

theorem leads_gap (c : CodePoint) : Leads ⟨[c], none⟩ := ⟨fun _ h => h.elim, nofun⟩

theorem leads_mark (h : s.extension? = none ∨ s = .equals) (hclose : s ≠ .closeParen) : Leads (mark s) := by
  refine ⟨fun c hc => ?_, mark_token_ne hclose⟩
  rcases h with h | rfl
  · exact absurd (h.symm.trans hc) nofun
  · exact (Option.some.inj hc).symm

theorem trails_gap {c : CodePoint} (h : isGap c = true) : Trails ⟨[c], none⟩ := by
  refine ⟨?_, nofun⟩
  simp only [isGap, Bool.or_eq_true, decide_eq_true_eq] at h
  rcases h with ((rfl | rfl) | rfl) | rfl <;> exact ends_cons (by decide) _

theorem trails_mark (h : Ends s.spelling) (hopen : s ≠ .openParen) : Trails (mark s) := ⟨h, mark_token_ne hopen⟩

/-- any symbol but an opening parenthesis may stand right behind a name -/
theorem IsName.meets (h : p.IsName) (hs : s ≠ .openParen) : p.Meets (mark s) := by
  obtain ⟨v, hv⟩ := h
  refine ⟨fun c hc hon => ?_, fun hopen => absurd hopen (mark_token_ne hs), fun hclose => ?_⟩
  · have hpart : isNamePart c = false := by cases s <;> cases hc <;> decide
    rw [GoesOn, hv] at hon
    exact Bool.eq_false_iff.1 hpart hon
  · rw [hv] at hclose
    cases hclose

/-- a name may stand right behind a dot -/
theorem meets_dot {n : Text} (hn : IsIdentifier n) : (mark .dot).Meets ⟨n, some (.name, n)⟩ := by
  refine ⟨fun c hc hon => ?_, nofun, nofun⟩
  obtain ⟨hstart, -⟩ := hn
  cases hc
  rw [← Option.some.inj hon] at hstart
  exact absurd hstart (by decide)

/-- pieces that meet each other are apart, also when an opening and a closing parenthesis are gone -/
theorem apart_without {front inner back : List Piece} {o c : Piece}
    (hmeets : (front ++ o :: (inner ++ c :: back)).IsChain Meets)
    (hwritten : ∀ p ∈ front ++ o :: (inner ++ c :: back), p.Written) (ho : o.token = some Symbol.openParen.key)
    (hc : c.token = some Symbol.closeParen.key) : (front ++ (inner ++ back)).IsChain Apart := by
  have happarts : ∀ {ps : List Piece}, ps.IsChain Meets → ps.IsChain Apart := fun h => h.imp fun _ _ => Meets.apart
  obtain ⟨hfront, hbehind, hopens⟩ := List.isChain_append.1 hmeets
  obtain ⟨hinner, hback, -⟩ := List.isChain_append.1 hbehind.tail
  have htrails : ∀ q ∈ back.head?, q.Trails := fun q hq => by
    obtain ⟨more, rfl⟩ := List.head?_eq_some_iff.1 hq
    exact hback.rel.closes hc
  have hleads : ∀ p ∈ front.getLast?, p.Leads := fun p hp => (hopens p hp o rfl).opens ho
  have hrest : (inner ++ back).IsChain Apart := (happarts hinner).append (happarts hback.tail) fun p _ q hq =>
    ((htrails q hq).meets p).apart
  refine (happarts hfront).append hrest fun p hp q hq => ?_
  refine ((hleads p hp).meets (hwritten q ?_)).apart
  have hmem := List.mem_of_mem_head? hq
  simp only [List.mem_append, List.mem_cons] at hmem ⊢
  tauto

end Piece

/-! ## Texts in pieces -/

/-- the text is these pieces one after the other; they hold tokens of these keys and meet each other -/
structure Laid (t : Text) (ks : List Key) (ps : List Piece) : Prop where
  text : ps.flatMap Piece.text = t
  keys : ps.filterMap Piece.token = ks
  written : ∀ p ∈ ps, p.Written
  meets : ps.IsChain Piece.Meets

namespace Laid

variable {t u : Text} {ks ls : List Key} {ps qs : List Piece} {s : Symbol} {n : Text}

theorem nil : Laid [] [] [] := ⟨rfl, rfl, nofun, .nil⟩

theorem one {p : Piece} (hp : p.Written) : Laid p.text p.token.toList [p] := by
  refine ⟨by simp, ?_, List.forall_mem_singleton.2 hp, .singleton p⟩
  rw [List.filterMap_cons]
  cases p.token <;> rfl

theorem append (h : Laid t ks ps) (h' : Laid u ls qs) (hmeet : ∀ p ∈ ps.getLast?, ∀ q ∈ qs.head?, p.Meets q) :
    Laid (t ++ u) (ks ++ ls) (ps ++ qs) :=
  ⟨by rw [List.flatMap_append, h.text, h'.text], by rw [List.filterMap_append, h.keys, h'.keys],
    List.forall_mem_append.2 ⟨h.written, h'.written⟩, h.meets.append h'.meets hmeet⟩

/-- a piece that leads stands in front -/
theorem behind (h : Laid t ks ps) {p : Piece} (hp : p.Written) (hleads : p.Leads) :
    Laid (p.text ++ t) (p.token.toList ++ ks) (p :: ps) := by
  refine (one hp).append h fun a ha q hq => ?_
  obtain rfl := Option.some.inj ha
  exact hleads.meets (h.written q (List.mem_of_mem_head? hq))

/-- a piece that trails stands behind -/
theorem before (h : Laid t ks ps) {q : Piece} (hq : q.Written) (htrails : q.Trails) :
    Laid (t ++ q.text) (ks ++ q.token.toList) (ps ++ [q]) := by
  refine h.append (one hq) fun p _ a ha => ?_
  obtain rfl := Option.some.inj ha
  exact htrails.meets p

/-- in front of what ends every token, the text is cut into its pieces -/
theorem cut_append (h : Laid t ks ps) {rest : Text} {more : List Piece} (hrest : Ends rest)
    (hmore : Piece.cut rest = .ok more) : Piece.cut (t ++ rest) = .ok (ps ++ more) := by
  have hapart : ps.IsChain Piece.Apart := h.meets.imp fun _ _ => Piece.Meets.apart
  rw [← h.text]
  exact Piece.cut_apart h.written hapart (fun p _ => Piece.not_goesOn_of_ends hrest p) hmore

/-- without an opening and a closing parenthesis the text is cut into its other pieces -/
theorem cuts_without (front : List Piece) {inner back : List Piece} {o c : Piece}
    (h : Laid t ks (front ++ o :: (inner ++ c :: back)))
    (ho : o.token = some Symbol.openParen.key) (hc : c.token = some Symbol.closeParen.key) {rest : Text}
    (hrest : Ends rest) : Cuts ((front ++ (inner ++ back)).flatMap Piece.text)
      ((front ++ (inner ++ back)).filterMap Piece.token) rest := by
  have hsub : ∀ p ∈ front ++ (inner ++ back), p ∈ front ++ o :: (inner ++ c :: back) := by
    intro p hp
    simp only [List.mem_append, List.mem_cons] at hp ⊢
    tauto
  refine fun more hmore => ⟨_, ?_, rfl⟩
  exact Piece.cut_apart (fun p hp => h.written p (hsub p hp)) (Piece.apart_without h.meets h.written ho hc)
    (fun p _ => Piece.not_goesOn_of_ends hrest p) hmore

theorem behindMark (h : Laid t ks ps) (hs : s ∈ [.openParen, .openBracket, .openBrace, .bar, .doubleColon, .arrow,
    .fatArrow, .equals, .plusEquals, .questionEquals]) : Laid (s.spelling ++ t) (s.key :: ks) (Piece.mark s :: ps) := by
  refine h.behind (.symbol ?_) (Piece.leads_mark ?_ ?_)
  all_goals
    revert s
    decide

theorem beforeMark (h : Laid t ks ps) (hs : s ∈ [.closeParen, .closeBracket, .closeBrace, .question, .star, .plus]) :
    Laid (t ++ s.spelling) (ks ++ [s.key]) (ps ++ [Piece.mark s]) := by
  have hends : Ends s.spelling := by
    simp only [List.mem_cons, List.not_mem_nil, or_false] at hs
    rcases hs with rfl | rfl | rfl | rfl | rfl | rfl <;> exact ends_cons (by decide) _
  refine h.before (.symbol ?_) (Piece.trails_mark hends ?_)
  all_goals
    clear hends
    revert s
    decide

theorem behindName (h : Laid t ks ps) (hn : IsIdentifier n)
    (hps : ∀ q ∈ ps.head?, ∃ s, q = Piece.mark s ∧ s ≠ .openParen) :
    Laid (n ++ t) ((.name, n) :: ks) (⟨n, some (.name, n)⟩ :: ps) := by
  refine (one (.name hn)).append h fun a ha q hq => ?_
  obtain rfl := Option.some.inj ha
  obtain ⟨s, rfl, hs⟩ := hps q hq
  exact Piece.IsName.meets ⟨n, rfl⟩ hs

end Laid

namespace Element

variable {m : Mode} {e : Outline} {t : Text} {ks : List Key}

theorem laid_callable {n : Text} (h : Callable m n) :
    ∃ ps, Laid n (nameKeys n) ps ∧ ∀ p ∈ ps.getLast?, p.IsName := by
  have hone : ∀ {n : Text}, IsIdentifier n → Laid n [(.name, n)] [⟨n, some (.name, n)⟩] := fun hn => .one (.name hn)
  cases h with
  | plain hn _ =>
    rw [nameKeys_plain hn]
    exact ⟨_, hone hn, by rintro p ⟨⟩; exact ⟨n, rfl⟩⟩
  | @qualified q n hq hn _ =>
    rw [nameKeys_qualified n hq, List.append_assoc]
    have hcolons := (hone hn).behindMark (s := .doubleColon) (by decide)
    exact ⟨_, hcolons.behindName hq (by rintro p ⟨⟩; exact ⟨_, rfl, by decide⟩), by rintro p ⟨⟩; exact ⟨n, rfl⟩⟩

/-- parentheses, a predicate and a cardinality around a text in pieces -/
theorem laid_dressed (context : Nat) (e : Outline) (h : ∃ ps, Laid t ks ps) :
    ∃ ps, Laid (dressed context e t) (dressKeys context e ks) ps := by
  obtain ⟨ps, hps⟩ := h
  have hparens : ∃ qs, Laid (if e.parenthesized context then "(" ++ t ++ ")" else t)
      (if e.parenthesized context then parenKeys ks else ks) qs := by
    split
    · have hclosed := (hps.beforeMark (s := .closeParen) (by decide)).behindMark (s := .openParen) (by decide)
      exact ⟨_, hclosed⟩
    · exact ⟨ps, hps⟩
  obtain ⟨qs, hqs⟩ := hparens
  rw [dressed, dressKeys, List.append_assoc]
  generalize (if e.parenthesized context then "(" ++ t ++ ")" else t) = u at hqs ⊢
  generalize (if e.parenthesized context then parenKeys ks else ks) = ls at hqs ⊢
  have hcounted : ∃ rs, Laid (u ++ (e.decoration.cardinality.map Cardinality.text).getD [])
      (ls ++ (e.decoration.cardinality.map Cardinality.key).toList) rs := by
    cases e.decoration.cardinality with
    | none => exact ⟨qs, by simpa using hqs⟩
    | some c =>
      cases c with
      | optional => exact ⟨_, hqs.beforeMark (s := .question) (by decide)⟩
      | any => exact ⟨_, hqs.beforeMark (s := .star) (by decide)⟩
      | atLeastOne => exact ⟨_, hqs.beforeMark (s := .plus) (by decide)⟩
  obtain ⟨rs, hrs⟩ := hcounted
  cases e.decoration.predicate with
  | none => exact ⟨rs, hrs⟩
  | some p =>
    cases p with
    | syntactic => exact ⟨_, hrs.behindMark (s := .fatArrow) (by decide)⟩
    | firstToken => exact ⟨_, hrs.behindMark (s := .arrow) (by decide)⟩

/-- pieces that may stand between any others: nothing is carried on to the first one or from the last one -/
def Separates (sep : Text) (sepKeys : List Key) : Prop :=
  ∃ ss, Laid sep sepKeys ss ∧ ss ≠ [] ∧ (∀ q ∈ ss.head?, q.Trails) ∧ ∀ p ∈ ss.getLast?, p.Leads

theorem separates_gap {c : CodePoint} (h : Piece.isGap c = true) : Separates [c] [] :=
  ⟨[⟨[c], none⟩], .one (.gap h), by simp, by rintro q ⟨⟩; exact Piece.trails_gap h,
    by rintro p ⟨⟩; exact Piece.leads_gap c⟩

/-- a symbol with a gap on each side of it -/
theorem separates_mark {s : Symbol} (hs : s ≠ .greater) {c d : CodePoint} (hc : Piece.isGap c = true)
    (hd : Piece.isGap d = true) : Separates (c :: (s.spelling ++ [d])) [s.key] := by
  have hlaid := ((Laid.one (.symbol hs)).before (.gap hd) (Piece.trails_gap hd)).behind (.gap hc) (Piece.leads_gap c)
  exact ⟨_, hlaid, by simp, by rintro q ⟨⟩; exact Piece.trails_gap hc, by rintro p ⟨⟩; exact Piece.leads_gap d⟩

/-- further gaps in front of a separator -/
theorem Separates.behindGaps {sep gaps : Text} {sepKeys : List Key} (h : Separates sep sepKeys)
    (hgaps : ∀ c ∈ gaps, Piece.isGap c = true) : Separates (gaps ++ sep) sepKeys := by
  induction gaps with
  | nil => exact h
  | cons c gaps ih =>
    obtain ⟨hc, hmore⟩ := List.forall_mem_cons.1 hgaps
    obtain ⟨ss, hss, hne, -, hleads⟩ := ih hmore
    refine ⟨_, hss.behind (.gap hc) (Piece.leads_gap c), by simp, by rintro q ⟨⟩; exact Piece.trails_gap hc, ?_⟩
    rwa [← List.singleton_append, List.getLast?_append_of_ne_nil _ hne]

/-- texts in pieces with a separator between them -/
theorem laid_intercalate {α : Type} {sep : Text} {sepKeys : List Key} (hsep : Separates sep sepKeys) {text : α → Text}
    {keys : α → List Key} {es : List α} (h : ∀ e ∈ es, ∃ ps, Laid (text e) (keys e) ps) :
    ∃ ps, Laid (List.intercalate sep (es.map text)) (List.intercalate sepKeys (es.map keys)) ps := by
  obtain ⟨ss, hss, hne, htrails, hleads⟩ := hsep
  induction es with
  | nil => exact ⟨[], .nil⟩
  | cons e es ih =>
    obtain ⟨⟨ps, hps⟩, hes⟩ := List.forall_mem_cons.1 h
    cases es with
    | nil => exact ⟨ps, by simpa using hps⟩
    | cons u es =>
      obtain ⟨qs, hqs⟩ := ih hes
      have hmore := hss.append hqs fun p hp q hq => (hleads p hp).meets (hqs.written q (List.mem_of_mem_head? hq))
      have hwhole := hps.append hmore fun p _ q hq =>
        (htrails q (by rwa [List.head?_append_of_ne_nil _ hne] at hq)).meets p
      refine ⟨ps ++ (ss ++ qs), ?_⟩
      simpa [List.intercalate_cons_cons] using hwhole

theorem separates_separator {g : Gathering} (hg : g ≠ .plain) : Separates g.separator g.keys := by
  cases g with
  | choice => exact separates_mark (s := .bar) (by decide) (by decide) (by decide)
  | anyOrder => exact separates_mark (s := .ampersand) (by decide) (by decide) (by decide)
  | sequence => exact separates_gap (by decide)
  | plain => exact absurd rfl hg

/-! ## Definitions in pieces -/

theorem laid_compound {d : Decoration} {g : Gathering} (hg : g ≠ .plain) {es : List Outline}
    (h : ∀ e ∈ es, ∃ ps, Laid (e.body id) e.bodyKeys ps) :
    ∃ ps, Laid (body id (compound d g es)) (bodyKeys (compound d g es)) ps := by
  rw [body_compound, bodyKeys_compound]
  exact laid_intercalate (separates_separator hg) fun e he => laid_dressed _ e (h e he)

theorem laid_reference (h : Referable e) : ∃ ps, Laid (e.body id) e.bodyKeys ps := by
  cases h with
  | keyword v => exact ⟨_, .one (.keyword v)⟩
  | call hn =>
    obtain ⟨ps, hps, -⟩ := laid_callable hn
    exact ⟨ps, hps⟩

theorem laid_crossReference {d : Decoration} {n : Text} {t : Option Outline} (hn : Callable .parser n)
    (ht : ∀ e ∈ t, Referable e) : ∃ ps, Laid (body id (crossReference d n t)) (bodyKeys (crossReference d n t)) ps := by
  obtain ⟨ps, hps, -⟩ := laid_callable hn
  have hinside : ∃ qs, Laid (n ++ bodyOption id t) (nameKeys n ++ bodyKeysOption t) qs := by
    cases t with
    | none => exact ⟨ps, by simpa [bodyOption, bodyKeysOption] using hps⟩
    | some e =>
      obtain ⟨qs, hqs⟩ := laid_dressed 4 e (laid_reference (ht e rfl))
      have hbar : (Piece.mark .bar).Trails := Piece.trails_mark (ends_cons (by decide) _) (by decide)
      exact ⟨_, hps.append (hqs.behindMark (s := .bar) (by decide)) fun p _ q hq => by
        obtain rfl := Option.some.inj hq
        exact hbar.meets p⟩
  obtain ⟨qs, hqs⟩ := hinside
  have hclosed := (hqs.beforeMark (s := .closeBracket) (by decide)).behindMark (s := .openBracket) (by decide)
  refine ⟨Piece.mark .openBracket :: (qs ++ [Piece.mark .closeBracket]), ?_⟩
  rw [body, bodyKeys]
  simpa [Symbol.spelling] using hclosed

theorem laid_assignable (h : Assignable e) : ∃ ps, Laid (e.body id) e.bodyKeys ps := by
  induction h with
  | reference h => exact laid_reference h
  | crossReference hn ht => exact laid_crossReference hn ht
  | choice _ _ ih => exact laid_compound (by decide) ih

theorem laid_assignment {d : Decoration} {f o : Text} (hf : IsIdentifier f) (ho : o = "=" ∨ o = "+=" ∨ o = "?=")
    (he : Assignable e) : ∃ ps, Laid (body id (assignment d f o e)) (bodyKeys (assignment d f o e)) ps := by
  obtain ⟨ps, hps⟩ := laid_dressed 4 e (laid_assignable he)
  have hone : ∀ s : Symbol, s ∈ [Symbol.equals, .plusEquals, .questionEquals] → ∃ qs,
      Laid (f ++ (s.spelling ++ dressed 4 e (e.body id))) ((.name, f) :: s.key :: dressKeys 4 e e.bodyKeys) qs := by
    intro s hs
    have hopen : s ≠ .openParen := by
      rintro rfl
      simp at hs
    have hmark := hps.behindMark (s := s) (by revert s; decide)
    exact ⟨_, hmark.behindName hf (by rintro q ⟨⟩; exact ⟨s, rfl, hopen⟩)⟩
  rw [body, bodyKeys, List.append_assoc]
  rcases ho with rfl | rfl | rfl
  · exact hone .equals (by decide)
  · exact hone .plusEquals (by decide)
  · exact hone .questionEquals (by decide)

theorem laid_action {d : Decoration} {n : Text} {f o : Option Text} (hn : Callable .parser n) (hf : Feature f o) :
    ∃ ps, Laid (body id (action d n f o)) (bodyKeys (action d n f o)) ps := by
  obtain ⟨ps, hps, hlast⟩ := laid_callable hn
  cases hf with
  | none => exact ⟨_, (hps.beforeMark (s := .closeBrace) (by decide)).behindMark (s := .openBrace) (by decide)⟩
  | @some f o hf ho =>
    have hmark : ∀ (s : Symbol) (q : Piece), s ≠ .openParen → q ∈ some (Piece.mark s) →
        ∃ s, q = Piece.mark s ∧ s ≠ .openParen := by
      rintro s q hs ⟨⟩
      exact ⟨s, rfl, hs⟩
    -- from the closing brace to the dot, which stands between two names
    have hbrace : Laid (Symbol.spelling .closeBrace) [Symbol.closeBrace.key] [Piece.mark .closeBrace] :=
      .one (.symbol (s := .closeBrace) nofun)
    have hcurrent := hbrace.behindName isIdentifier_current fun q => hmark .closeBrace q nofun
    have hoperator : ∃ s, s ∈ [Symbol.equals, .plusEquals] ∧ o = s.spelling ∧ operatorKey o = s.key := by
      rcases ho with rfl | rfl
      · exact ⟨.equals, by decide, rfl, rfl⟩
      · exact ⟨.plusEquals, by decide, rfl, rfl⟩
    obtain ⟨s, hs, rfl, hkey⟩ := hoperator
    have hopen : s ≠ .openParen := by
      rintro rfl
      simp at hs
    have hfeature := (hcurrent.behindMark (s := s) (by revert s; decide)).behindName hf fun q => hmark s q hopen
    have hdot := (Laid.one (.symbol (s := .dot) nofun)).append hfeature fun p hp q hq => by
      obtain rfl := Option.some.inj hp
      obtain rfl := Option.some.inj hq
      exact Piece.meets_dot hf
    have hwhole := (hps.append hdot fun p hp q hq => by
      obtain rfl := Option.some.inj hq
      exact (hlast p hp).meets nofun).behindMark (s := .openBrace) (by decide)
    have htext : body id (action d n (some f) (some s.spelling)) = Symbol.spelling .openBrace ++ (n ++
        (Symbol.spelling .dot ++ (f ++ (s.spelling ++ (Text.ofString "current" ++ Symbol.spelling .closeBrace))))) := by
      simp [body, Symbol.spelling]
    rw [htext, bodyKeys, Option.getD_some, hkey]
    exact ⟨_, hwhole⟩

/-- the text of a definition is a row of pieces that meet each other -/
theorem laid_body (h : Formed .parser e) : ∃ ps, Laid (e.body id) e.bodyKeys ps := by
  induction h with
  | keyword v _ => exact ⟨_, .one (.keyword v)⟩
  | call _ hn =>
    obtain ⟨ps, hps, -⟩ := laid_callable hn
    exact ⟨ps, hps⟩
  | assignment _ hf ho he => exact laid_assignment hf ho he
  | action _ hn hf => exact laid_action hn hf
  | compound _ hg _ _ ih => exact laid_compound hg ih
  | wrapped _ _ _ ih => exact laid_compound (by decide) (List.forall_mem_singleton.2 ih)
  | range _ _ hm _ => cases hm
  | wildcard hm _ => cases hm
  | endOfFile hm _ => cases hm
  | negated hm _ _ _ => cases hm
  | upTo hm _ _ _ => cases hm

/-- the text of a definition on lines of its own is such a row too -/
theorem laid_definitionText (h : Formed .parser e) : ∃ ps, Laid (Declaration.definitionText id e) (e.keys 1) ps := by
  unfold Declaration.definitionText
  split
  · next es =>
    have hgaps : ∀ c ∈ Text.ofString "\n   ", Piece.isGap c = true := by decide
    have hsep : Separates "\n    | " [Symbol.bar.key] :=
      (separates_mark (s := .bar) nofun (by decide) (by decide)).behindGaps hgaps
    have hmembers : ∀ x ∈ es, ∃ ps, Laid (x.body id) x.bodyKeys ps := by
      cases h with
      | compound _ _ _ hes => exact fun x hx => laid_body (hes x hx)
    rw [keys_eq_bodyKeys rfl fun _ => Nat.le_refl 1, bodyKeys_compound, texts_eq_map]
    exact laid_intercalate hsep fun x hx => laid_dressed 2 x (hmembers x hx)
  · exact laid_dressed 1 e (laid_body h)

end Element

end Rulebook
