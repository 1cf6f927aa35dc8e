/-
The calls of a printed rule. A definition may be read back as another tree, where parentheses are missing around an
operand, but it is never read back with other calls: the words of a printed element call what the element calls, in the
same order (`prints_keys`, one case for each shape), and the trees of a text have the calls of its words.

`Printable.accepted`: where the text of a rule is read as a rule, that rule has the kind, the name and the type of the
printed one. `printable_linkRule`: a linked rule is printed so that its calls are written as the names of the rules that
they are linked to (`Recalls`).
-/
import Rulebook.Proofs.Bodies
import Rulebook.Proofs.Parentheses
import Rulebook.Proofs.RoundTrip

namespace Rulebook

open Source Rulebook.Reading Element

/-! ## Calls among the words of a printed element -/

/-- what the scan finds in the words is written as these names -/
def Calling (m : Mode) (ws : List Word) (ns : List Text) : Prop :=
  ∃ ts, Scanned m ws ts ∧ (ts.flatMap Element.calls).map WrittenCall.written = ns

section

variable {m : Mode} {ws us : List Word} {ns ns' : List Text}

theorem Calling.append (h : Calling m ws ns) (h' : Calling m us ns') (hapart : ∀ rest, Apart rest → Apart (us ++ rest)) :
    Calling m (ws ++ us) (ns ++ ns') := by
  obtain ⟨ts, hts, rfl⟩ := h
  obtain ⟨ts', hts', rfl⟩ := h'
  exact ⟨ts ++ ts', hts.append hts' hapart, by simp⟩

/-- words that say nothing about calls stand in front -/
theorem Calling.behind (h : Calling m ws ns) {front : List Word} (hordinary : ∀ w ∈ front, w.Ordinary)
    (hfront : ∀ us, callsAmong m .free (front ++ us) = callsAmong m .free us) : Calling m (front ++ ws) ns := by
  obtain ⟨ts, hts, rfl⟩ := h
  exact ⟨ts, hts.behind front hordinary hfront, rfl⟩

theorem Calling.behindSymbol (h : Calling m ws ns) {o : Word} {s : Symbol} (ho : o.Is s) (hs : Silent s) :
    Calling m (o :: ws) ns := by
  obtain ⟨ts, hts, rfl⟩ := h
  exact ⟨ts, hts.behindSymbol ho hs, rfl⟩

theorem Calling.inParens (h : Calling m ws ns) {o c : Word} (ho : o.Is .openParen) (hc : c.Is .closeParen) :
    Calling m (o :: ws ++ [c]) ns := by
  obtain ⟨ts, hts, rfl⟩ := h
  exact ⟨ts, (hts.behindSymbol ho (by decide)).beforeSymbol hc (by decide) (by decide), rfl⟩

/-- the scan finds the calls of the tree that is scanned -/
theorem calling_outline {t : Tree} (h : Scanned m ws [t]) : Calling m ws (outline t).calls :=
  ⟨[t], h, by rw [List.flatMap_singleton, ← calls_map]; rfl⟩

/-- what stands around an element does not matter to what it calls -/
theorem Source.Scanned.calling {t : Tree} (h : Scanned m ws [t]) {e : Outline} (ht : outline t = e.decorated .none) :
    Calling m ws e.calls := by
  rw [← calls_decorated .none e, ← ht]
  exact calling_outline h

/-- words call one row of names -/
theorem Calling.unique (h : Calling m ws ns) (h' : Calling m ws ns') : ns' = ns := by
  obtain ⟨ts, hts, rfl⟩ := h
  obtain ⟨ts', hts', rfl⟩ := h'
  have hcalls := (hts.calls [] fun _ _ => rfl).symm.trans (hts'.calls [] fun _ _ => rfl)
  simp only [callsAmong, List.append_nil] at hcalls
  rw [hcalls]

end

/-- words with these keys begin as an element does and call what the element calls -/
structure Prints (m : Mode) (ks : List Key) (e : Outline) : Prop where
  begins : ∃ k more, ks = k :: more ∧ k.1 ∈ openers m .element
  calling : ∀ ws : List Word, ws.map Word.key = ks → Calling m ws e.calls

section

variable {m : Mode} {ks : List Key} {e : Outline}

/-- a printed element does not carry on what stands before it -/
theorem Prints.apart (h : Prints m ks e) {ws : List Word} (hws : ws.map Word.key = ks) (rest : List Word) :
    Apart (ws ++ rest) := by
  obtain ⟨k, more, rfl, hk⟩ := h.begins
  obtain ⟨w, us, rfl, hw, -⟩ := words_cons hws
  obtain rfl := hw
  exact (front_of_opener (m := m) hk (us ++ rest)).2.1

theorem prints_dressKeys (context : Nat) (h : Prints m ks e) : Prints m (dressKeys context e ks) e := by
  refine ⟨?_, fun ws hws => ?_⟩
  · obtain ⟨k, more, rfl, hk⟩ := h.begins
    unfold dressKeys
    cases e.decoration.predicate with
    | some p => exact ⟨p.key, _, rfl, by cases p <;> simp [openers, Predicate.key, Symbol.key]⟩
    | none =>
      split
      · exact ⟨Symbol.openParen.key, _, rfl, by simp [openers, Symbol.key]⟩
      · exact ⟨k, _, rfl, hk⟩
  · obtain ⟨ps, more, rfl, hps, hmore⟩ := words_append hws
    obtain ⟨us, cs, rfl, hus, hcs⟩ := words_append hmore
    have hcardinality := marked_of_cardinality hcs
    obtain ⟨hp, hscan⟩ := callsAmong_marked (m := m) (marked_of_predicate hps) silent_of_predicate
    obtain ⟨hc, hscan'⟩ := callsAmong_marked (m := m) hcardinality silent_of_cardinality
    have hnothing : Calling m cs [] := ⟨[], ⟨hc, fun rest _ => hscan' rest⟩, rfl⟩
    have hinner : Calling m us e.calls := by
      split at hus
      · obtain ⟨o, vs, c, rfl, ho, hvs, hc⟩ := words_parens hus
        exact (h.calling vs hvs).inParens ho hc
      · exact h.calling us hus
    have hbehind := hinner.append hnothing fun rest hrest => apart_of_marked hcardinality hrest
    rw [List.append_nil] at hbehind
    exact hbehind.behind hp hscan

/-- what stands between members says nothing about calls and carries nothing on -/
theorem calling_separator {g : Gathering} {ws : List Word} (hws : ws.map Word.key = g.keys) :
    Calling m ws [] ∧ ∀ rest, Apart rest → Apart (ws ++ rest) := by
  have hsymbol : ∀ {s : Symbol}, Silent s → s ∉ carriers → ws.map Word.key = [s.key] →
      Calling m ws [] ∧ ∀ rest, Apart rest → Apart (ws ++ rest) := by
    intro s hs hcarrier hws
    obtain ⟨b, rfl, hb⟩ := words_one hws
    have hbar := Word.is_of_key hb
    exact ⟨⟨[], ⟨List.forall_mem_singleton.2 (hs.ordinary hbar), fun rest _ => callsAmong_silent hbar hs rest⟩, rfl⟩,
      fun rest _ => apart_of_is hbar hcarrier rest⟩
  have hnothing : ws = [] → Calling m ws [] ∧ ∀ rest, Apart rest → Apart (ws ++ rest) := by
    rintro rfl
    exact ⟨⟨[], ⟨List.forall_mem_nil _, fun _ _ => rfl⟩, rfl⟩, fun _ hrest => hrest⟩
  cases g with
  | choice => exact hsymbol (s := .bar) (by decide) (by decide) hws
  | anyOrder => exact hsymbol (s := .ampersand) (by decide) (by decide) hws
  | sequence => exact hnothing (words_nil hws)
  | plain => exact hnothing (words_nil hws)

/-- the members of a compound call what the compound calls -/
theorem prints_members {d : Decoration} {g : Gathering} {es : List Outline} (hne : es ≠ [])
    (h : ∀ e ∈ es, Prints m e.bodyKeys e) : Prints m (bodyKeys (.compound d g es)) (.compound d g es) := by
  have hkeys : ∀ e ∈ es, Prints m (e.keys g.memberContext) e := fun e he => prints_dressKeys _ (h e he)
  have hmore : ∀ {es : List Outline} {ws : List Word}, (∀ e ∈ es, Prints m (e.keys g.memberContext) e) →
      ws.map Word.key = (es.flatMap fun e => g.keys ++ e.keys g.memberContext) →
        Calling m ws (es.flatMap Element.calls) ∧ ∀ rest, Apart rest → Apart (ws ++ rest) := by
    intro es ws h hws
    induction es generalizing ws with
    | nil =>
      rw [words_nil hws]
      exact ⟨⟨[], ⟨List.forall_mem_nil _, fun _ _ => rfl⟩, rfl⟩, fun _ hrest => hrest⟩
    | cons e es ih =>
      obtain ⟨he, hes⟩ := List.forall_mem_cons.1 h
      obtain ⟨front, vs, rfl, hfront, hvs⟩ := words_append hws
      obtain ⟨bs, us, rfl, hbs, hus⟩ := words_append hfront
      obtain ⟨hseparator, hapart⟩ := calling_separator (m := m) hbs
      obtain ⟨hrest, hapartRest⟩ := ih hes hvs
      refine ⟨(hseparator.append (he.calling us hus) fun rest _ => he.apart hus rest).append hrest hapartRest, ?_⟩
      intro rest _
      rw [List.append_assoc, List.append_assoc]
      exact hapart _ (he.apart hus _)
  obtain ⟨e, es, rfl⟩ := List.exists_cons_of_ne_nil hne
  obtain ⟨he, hes⟩ := List.forall_mem_cons.1 hkeys
  have hbody : bodyKeys (.compound d g (e :: es)) =
      e.keys g.memberContext ++ es.flatMap fun e => g.keys ++ e.keys g.memberContext := by
    rw [bodyKeys_compound, List.map_cons, intercalate_cons, List.flatMap_map]
  rw [hbody]
  refine ⟨?_, fun ws hws => ?_⟩
  · obtain ⟨k, more, hk, hopener⟩ := he.begins
    exact ⟨k, _, by rw [hk, List.cons_append], hopener⟩
  · obtain ⟨us, vs, rfl, hus, hvs⟩ := words_append hws
    obtain ⟨hrest, hapart⟩ := hmore hes hvs
    rw [calls_eq]
    exact (he.calling us hus).append hrest hapart

/-- an assignment calls what is assigned -/
theorem prints_assignment {d : Decoration} {f o : Text} (hm : m = .parser) (ho : o = "=" ∨ o = "+=" ∨ o = "?=")
    (he : Assignable e) : Prints m (bodyKeys (.assignment d f o e)) (.assignment d f o e) := by
  refine ⟨⟨_, _, rfl, List.mem_cons_self⟩, fun ws hws => ?_⟩
  obtain ⟨n, more, rfl, hn, hmore⟩ := words_cons hws
  obtain ⟨y, us, rfl, hy, hus⟩ := words_cons hmore
  obtain ⟨hykind, -⟩ := operator_of_key ho hy
  obtain ⟨t, ht, rfl⟩ := member_of_keys (m := m) he (by omega) hus
  obtain ⟨s, hs, hsilent⟩ := silent_of_assignment hykind
  have hname : n.IsName := (Word.value_of_key hn).1
  have hvalue : Calling m us (Element.calls (.assignment d f o (outline t))) := by
    have hcalls : Element.calls (.assignment d f o (outline t)) = (outline t).calls := by
      simp [calls_eq (.assignment ..), target?, children]
    rw [hcalls]
    exact calling_outline (scanned_of_spells ht hm)
  have hordinary : ∀ w ∈ [n, y], w.Ordinary :=
    List.forall_mem_cons.2 ⟨hname.ordinary, List.forall_mem_singleton.2 (hsilent.ordinary hs)⟩
  exact hvalue.behind hordinary fun us => callsAmong_feature hname hykind us

/-- a symbol in front of an operand -/
theorem prints_operand {u : Outline} {s : Symbol} (hs : Silent s) (hopener : (TokenKind.symbol s) ∈ openers m .element)
    (hcalls : u.calls = e.calls) (h : Prints m e.bodyKeys e) : Prints m (s.key :: dressKeys 4 e e.bodyKeys) u := by
  refine ⟨⟨_, _, rfl, hopener⟩, fun ws hws => ?_⟩
  obtain ⟨b, us, rfl, hb, hus⟩ := words_cons hws
  rw [hcalls]
  exact ((prints_dressKeys 4 h).calling us hus).behindSymbol (Word.is_of_key hb) hs

/-- the words of a printed definition call what the definition calls -/
theorem prints_bodyKeys (h : Formed m e) : Prints m e.bodyKeys e := by
  induction h with
  | keyword v _ =>
    refine ⟨⟨_, _, rfl, by simp [openers]⟩, fun ws hws => ?_⟩
    obtain ⟨w, rfl, hw⟩ := words_one hws
    obtain ⟨hkind, rfl⟩ := Word.value_of_key hw
    exact (scanned_of_leaf (.keyword hkind)).calling rfl
  | @call d n _ hn =>
    refine ⟨?_, fun ws hws => ?_⟩
    · rw [bodyKeys]
      unfold nameKeys
      split
      · exact ⟨_, _, rfl, by simp [openers]⟩
      · exact ⟨_, _, rfl, by simp [openers]⟩
    · obtain ⟨v, hv, heof, rfl⟩ := named_of_keys hn hws
      exact (scanned_of_leaf (.call (.named hv heof))).calling rfl
  | assignment hm _ ho he => exact prints_assignment hm ho he
  | @action d n f o _ hn hf =>
    refine ⟨?_, fun ws hws => ?_⟩
    · cases hf with
      | none => exact ⟨Symbol.openBrace.key, _, rfl, by simp [openers, Symbol.key]⟩
      | some _ _ => exact ⟨Symbol.openBrace.key, _, rfl, by simp [openers, Symbol.key]⟩
    · obtain ⟨t, ht, houtline⟩ := acts_of_keys hn hf hws
      exact (scanned_of_acts ht).calling houtline
  | compound _ _ hlen _ ih => exact prints_members (List.ne_nil_of_length_pos (by omega)) ih
  | wrapped _ _ _ ih => exact prints_members (by simp) (List.forall_mem_singleton.2 ih)
  | range l r hm _ =>
    subst hm
    refine ⟨⟨_, _, rfl, by simp [openers]⟩, fun ws hws => ?_⟩
    obtain ⟨x, more, rfl, hx, hmore⟩ := words_cons hws
    obtain ⟨y, more, rfl, hy, hmore⟩ := words_cons hmore
    obtain ⟨z, rfl, hz⟩ := words_one hmore
    obtain ⟨hxkind, rfl⟩ := Word.value_of_key hx
    obtain ⟨hzkind, rfl⟩ := Word.value_of_key hz
    exact (scanned_of_spells (.range hxkind (Word.is_of_key hy) hzkind) rfl).calling rfl
  | wildcard hm _ =>
    subst hm
    refine ⟨⟨_, _, rfl, by simp [openers, Symbol.key]⟩, fun ws hws => ?_⟩
    obtain ⟨w, rfl, hw⟩ := words_one hws
    exact (scanned_of_spells (.wildcard (Word.is_of_key hw)) rfl).calling rfl
  | endOfFile hm _ =>
    subst hm
    refine ⟨⟨_, _, rfl, by simp [openers]⟩, fun ws hws => ?_⟩
    obtain ⟨w, rfl, hw⟩ := words_one hws
    exact (scanned_of_spells (.endOfFile (Word.value_of_key hw)) rfl).calling rfl
  | negated _ _ _ ih =>
    exact prints_operand (by decide) (by simp [openers]) (by simp [calls_eq (.negated ..), target?, children]) ih
  | upTo _ _ _ ih =>
    exact prints_operand (by decide) (by simp [openers]) (by simp [calls_eq (.upTo ..), target?, children]) ih

theorem prints_keys (h : Formed m e) (context : Nat) : Prints m (e.keys context) e :=
  prints_dressKeys context (prints_bodyKeys h)

end

/-! ## Rules that are printed and read again -/

open Classical in
/-- a definition with the names in it that its calls are printed as -/
theorem formed_of_shown {s : Scope} {m : Mode} {ws : List Word} {t : Tree} (h : Spells m .alternatives ws [t])
    (hlex : LexicalWords ws) (hend : m = .terminal → ∀ c ∈ t.calls, s.shown c ≠ "EOF") : Formed m (t.map s.shown) := by
  let f : WrittenCall → Text := fun c => if Callable m (s.shown c) then s.shown c else c.written
  have hsame : t.map s.shown = t.map f := by
    refine map_congr fun c hc => (if_pos ?_).symm
    exact s.callable_shown_of_ne (valid_of_spells h hlex c hc) fun hm => hend hm c hc
  rw [hsame]
  refine formed_of_spells (fun c hc => ?_) h hlex
  by_cases hcallable : Callable m (s.shown c)
  · simp [f, hcallable]
  · simpa [f, hcallable] using hc.callable

/-- the text is read, up to its end, as the rule -/
def ReadsAs (text : Text) (r : WrittenRule) : Prop :=
  ∃ file lexed, Lexed.ofSource file text = .ok lexed ∧ (rule (wordsOf lexed.tokens)).Gives r []

/-- the words of a rule that is printed and read again -/
theorem Printable.accepted {r : Rule} {e : Outline} (h : Printable r e) {p : Text} {q : WrittenRule}
    (hp : r.printed = .ok p) (hq : ReadsAs p q) :
    ∃ hs c ws s t, (hs ++ c :: (ws ++ [s])).map Word.key = declarationKeys r.toDeclaration e ∧
      hs.map Word.key = r.headerKeys ∧ c.Is .colon ∧ ws.map Word.key = e.keys 1 ∧ LexicalWords ws ∧
      (rule (hs ++ c :: (ws ++ [s]))).Gives q [] ∧ ReadsDefinition r.kind (c :: (ws ++ [s])) t [] ∧
      q.kind = r.kind ∧ q.name = r.name ∧ q.typeName = r.typeName ∧ q.definition = some t := by
  obtain ⟨file, lexed, hlexed, hread⟩ := hq
  obtain ⟨text, lexed', hs, c, ws, s, hprinted, hlexed', hwords, hhs, hc, hws, hs', hlex⟩ := h.words file
  cases hp.symm.trans hprinted
  cases hlexed.symm.trans hlexed'
  have hlexical : LexicalWords (hs ++ c :: (ws ++ [s])) := hwords ▸ lexicalWords_of_ofSource hlexed
  rw [hwords] at hread
  obtain ⟨line, hgives⟩ := gives_header h.headed hhs hc (ws ++ [s])
  obtain ⟨t, ht, rfl⟩ := (hgives q []).1 hread
  refine ⟨hs, c, ws, s, t, ?_, hhs, hc, hws, hlex, hread, ht, rfl, rfl, rfl, rfl⟩
  have hcolon := key_of_is (hlexical c (by simp)) hc
  have hsemicolon := key_of_is (hlexical s (by simp)) hs'
  simp [declarationKeys, hhs, hws, hcolon, hsemicolon]

/-- however the tokens of the definition are read, its calls are read -/
def Recalls (kind : RuleKind) (e : Outline) : Prop :=
  ∀ (c : Word) (ws : List Word) (s : Word) (t : Tree), ReadsDefinition kind (c :: (ws ++ [s])) t [] →
    ws.map Word.key = e.keys 1 → LexicalWords ws →
      t.calls.map WrittenCall.written = e.calls ∧ ∀ c ∈ t.calls, c.Valid .parser

theorem recalls_of_formed {m : Mode} {kind : RuleKind} {e : Outline} (h : Formed m e)
    (hkind : ∀ words t rest, ReadsDefinition kind words t rest → (definition m words).Gives t rest) :
    Recalls kind e := by
  intro c ws s t ht hws hlex
  obtain ⟨_, vs, _, hwords, -, hvs, -⟩ := (gives_definition ..).1 (hkind _ _ _ ht)
  obtain rfl : ws = vs := (List.append_inj' (List.cons.inj hwords).2 rfl).1
  have hread := (calling_outline (scanned_of_spells hvs trivial)).unique ((prints_keys h 1).calling ws hws)
  refine ⟨?_, fun c hc => ?_⟩
  · rw [hread, outline, calls_map]
  · have hvalid := valid_of_spells hvs hlex c hc
    exact ⟨hvalid.name, hvalid.qualifier, by rintro ⟨⟩⟩

theorem recalls_of_enumerated {e : Outline} (h : Enumerated e) : Recalls .enumeration e := by
  rintro c ws s t ⟨_, body, _, -, -, hbody, -⟩ _ _
  rw [calls_of_enumerated h, calls_enumLiterals hbody]
  exact ⟨rfl, List.forall_mem_nil _⟩

/-- a rule that was read can be printed as a definition with the names in it that its calls are linked to. In a terminal
rule the word for the end of the text names no rule -/
theorem printable_linkRule (s : Scope) (i : Nat) {r : WrittenRule} {words : List Word} (hlex : LexicalWords words)
    (hhead : Headed r.kind r.name r.typeName) (h : Defined words r)
    (hend : ∀ fragment, r.kind = .terminal fragment → ∀ c ∈ r.calls, s.shown c ≠ "EOF") :
    ∃ e, Printable (s.linkRule i r) e ∧ Recalls r.kind e ∧ e.calls = r.calls.map s.shown := by
  have hcalls : ∀ {t : Tree}, r.definition = some t → (t.map s.shown).calls = r.calls.map s.shown := by
    intro t ht
    rw [calls_map, Declaration.calls, ht]
    rfl
  cases h with
  | @parser _ _ ws t hkind ht hspells hws =>
    have hformed := formed_of_shown (s := s) hspells (fun w hw => hlex w (hws hw)) (by rintro ⟨⟩)
    refine ⟨_, printable_of_formed hhead (definition_linkRule s i ht) hformed, ?_, hcalls ht⟩
    rw [hkind]
    exact recalls_of_formed hformed fun _ _ _ h => h
  | @terminal _ ws t hkind ht hspells hws =>
    have hlinked : ∀ c ∈ t.calls, s.shown c ≠ "EOF" := by
      have hcalled := hend _ hkind
      rwa [Declaration.calls, ht] at hcalled
    have hformed := formed_of_shown hspells (fun w hw => hlex w (hws hw)) fun _ => hlinked
    refine ⟨_, printable_of_formed hhead (definition_linkRule s i ht) hformed, ?_, hcalls ht⟩
    rw [hkind]
    exact recalls_of_formed hformed fun _ _ _ h => h
  | enumeration hkind ht he =>
    have henumerated := he.map s.shown
    refine ⟨_, printable_of_enumerated hhead (definition_linkRule s i ht) henumerated, ?_, hcalls ht⟩
    rw [hkind]
    exact recalls_of_enumerated henumerated

end Rulebook
