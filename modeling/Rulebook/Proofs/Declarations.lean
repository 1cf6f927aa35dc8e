/-
Printed declarations are read back. A header is a row of parts with blanks between them, and `Declaration.headerParts`
lists each part with its tokens; in front of a colon these are read as the same kind, name, type and hidden tokens. So
reading a printed rule comes down to reading what stands behind its header (`gives_header`), and a printed rule as a
whole is cut into the tokens of its header, a colon, those of its definition and a semicolon (`cuts_declaration`).
-/
import Rulebook.Proofs.Headers

namespace Rulebook

open Source Rulebook.Reading

/-! ## The parts of a header -/

/-- names with commas between them -/
def namesKeys (ns : List Text) : List Key :=
  List.intercalate [Symbol.comma.key] (ns.map nameKeys)

/-- the declared type, with its tokens -/
def typeParts : Option Text → List (Text × List Key)
  | some (c :: name) => [("returns " ++ (c :: name), (.name, "returns") :: nameKeys (c :: name))]
  | _ => []

/-- the hidden tokens of a rule, with the tokens of the clause that names them -/
def hiddenParts : RuleKind → List (Text × List Key)
  | .parser _ (h :: hs) =>
    [("hidden(" ++ Text.join ", " (h :: hs) ++ ")", (.name, "hidden") :: parenKeys (namesKeys (h :: hs)))]
  | _ => []

namespace Declaration

variable {ρ : Type}

def headerParts (r : Declaration ρ) : List (Text × List Key) :=
  r.introduction.map (fun w => (w, [(.name, w)])) ++
    ((r.name, [(.name, r.name)]) :: (typeParts r.typeName ++ hiddenParts r.kind))

def headerKeys (r : Declaration ρ) : List Key :=
  r.headerParts.flatMap Prod.snd

theorem header_eq (r : Declaration ρ) : r.header = Text.join " " (r.headerParts.map Prod.fst) := by
  have htype : r.returnsClause = (typeParts r.typeName).map Prod.fst := by
    unfold returnsClause
    match r.typeName with
    | none => rfl
    | some [] => rfl
    | some (_ :: _) => rfl
  have hhidden : r.hiddenClause = (hiddenParts r.kind).map Prod.fst := by
    unfold hiddenClause
    match r.kind with
    | .parser _ [] => rfl
    | .parser _ (_ :: _) => rfl
    | .terminal _ => rfl
    | .enumeration => rfl
    | .unresolved => rfl
  rw [header, headerParts, htype, hhidden]
  simp [List.map_map, Function.comp_def]

end Declaration

/-! ## Cutting a header -/

theorem isIdentifier_fragment : IsIdentifier (Text.ofString "fragment") := .intro (by decide) (by decide)

theorem isIdentifier_terminal : IsIdentifier (Text.ofString "terminal") := .intro (by decide) (by decide)

theorem isIdentifier_enum : IsIdentifier (Text.ofString "enum") := .intro (by decide) (by decide)

theorem isIdentifier_returns : IsIdentifier (Text.ofString "returns") := .intro (by decide) (by decide)

theorem isIdentifier_hidden : IsIdentifier (Text.ofString "hidden") := .intro (by decide) (by decide)

theorem isIdentifier_introduction {ρ : Type} (r : Declaration ρ) : ∀ w ∈ r.introduction, IsIdentifier w := by
  unfold Declaration.introduction
  split
  · split
    · exact List.forall_mem_singleton.2 isIdentifier_fragment
    · exact List.forall_mem_nil _
  · split
    · exact List.forall_mem_cons.2 ⟨isIdentifier_terminal, List.forall_mem_singleton.2 isIdentifier_fragment⟩
    · exact List.forall_mem_singleton.2 isIdentifier_terminal
  · exact List.forall_mem_singleton.2 isIdentifier_enum
  · exact List.forall_mem_nil _

/-- the part is cut into its tokens wherever a name would end -/
def CutsPart (p : Text × List Key) : Prop := ∀ rest, NameEnds rest → Cuts p.1 p.2 rest

/-- parts with a blank between them -/
theorem cuts_blanks {parts : List (Text × List Key)} (h : ∀ p ∈ parts, CutsPart p) {rest : Text}
    (hrest : NameEnds rest) : Cuts (Text.join " " (parts.map Prod.fst)) (parts.flatMap Prod.snd) rest := by
  have hflat : ∀ ls : List (List Key), ls.flatten = List.intercalate [] ls := by
    intro ls
    induction ls with
    | nil => rfl
    | cons l ls ih => cases ls <;> simp [List.intercalate_cons_cons, ih]
  have hgap := fun more => cuts_gap (c := CodePoint.ofChar ' ') (by decide) more
  rw [List.flatMap_def, hflat]
  exact Element.cuts_intercalate hgap (fun _ => nameEnds_cons (by decide) _) h rest hrest

theorem cuts_names {ns : List Text} (h : ∀ n ∈ ns, Callable .parser n) {rest : Text} (hrest : NameEnds rest) :
    Cuts (Text.join ", " ns) (namesKeys ns) rest := by
  have hsep : ∀ more, Cuts (Text.ofString ", ") [Symbol.comma.key] more := fun more =>
    (cuts_firm .comma (by decide) _).append (cuts_gap (c := CodePoint.ofChar ' ') (by decide) more)
  have hone : ∀ n ∈ ns, ∀ more, NameEnds more → Cuts (id n) (nameKeys n) more := fun n hn _ hmore =>
    cuts_callable (h n hn) hmore
  have hnames := Element.cuts_intercalate hsep (fun _ => nameEnds_cons (by decide) _) hone rest hrest
  rwa [List.map_id] at hnames

theorem cutsPart_typeParts {type : Option Text} (h : ∀ t ∈ type, Callable .parser t) :
    ∀ p ∈ typeParts type, CutsPart p := by
  unfold typeParts
  split
  · next c name =>
    refine List.forall_mem_singleton.2 fun rest hrest => ?_
    have hword : Cuts (Text.ofString "returns") [(.name, "returns")] (Text.ofString " " ++ (c :: name) ++ rest) :=
      cuts_name isIdentifier_returns (nameEnds_cons (by decide) _)
    have hgap : Cuts (Text.ofString " ") [] (c :: name ++ rest) := cuts_gap (by decide) _
    have htext : (Text.ofString "returns " ++ (c :: name) : Text) =
        Text.ofString "returns" ++ (Text.ofString " " ++ (c :: name)) := rfl
    show Cuts (Text.ofString "returns " ++ (c :: name)) _ rest
    rw [htext]
    exact Cuts.append hword (hgap.append (cuts_callable (h _ rfl) hrest))
  · exact List.forall_mem_nil _

theorem cutsPart_hiddenParts {kind : RuleKind} (h : ∀ f hs, kind = .parser f hs → ∀ n ∈ hs, Callable .parser n) :
    ∀ p ∈ hiddenParts kind, CutsPart p := by
  unfold hiddenParts
  split
  · next f n ns =>
    refine List.forall_mem_singleton.2 fun rest _ => ?_
    have hnames : CutsAlone (Text.join ", " (n :: ns)) (namesKeys (n :: ns)) := fun more hmore =>
      cuts_names (h f _ rfl) hmore.1
    have hparens := cuts_parens hnames rest
    have hword : Cuts (Text.ofString "hidden") [(.name, "hidden")]
        (Text.ofString "(" ++ Text.join ", " (n :: ns) ++ Text.ofString ")" ++ rest) :=
      cuts_name isIdentifier_hidden (nameEnds_cons (by decide) _)
    have htext : (Text.ofString "hidden(" ++ Text.join ", " (n :: ns) ++ Text.ofString ")" : Text) =
        Text.ofString "hidden" ++ (Text.ofString "(" ++ Text.join ", " (n :: ns) ++ Text.ofString ")") := rfl
    show Cuts (Text.ofString "hidden(" ++ Text.join ", " (n :: ns) ++ Text.ofString ")") _ rest
    rw [htext]
    exact Cuts.append hword hparens
  · exact List.forall_mem_nil _

/-- the header of a rule is cut into its tokens -/
theorem cuts_header {ρ : Type} {r : Declaration ρ} (h : Headed r.kind r.name r.typeName) {rest : Text}
    (hrest : NameEnds rest) : Cuts r.header r.headerKeys rest := by
  have hhidden : ∀ f hs, r.kind = .parser f hs → ∀ n ∈ hs, Callable .parser n := by
    intro f hs hkind
    have hdistinct := h.distinct
    rw [hkind] at hdistinct
    exact hdistinct.1
  rw [r.header_eq]
  refine cuts_blanks ?_ hrest
  refine List.forall_mem_append.2 ⟨?_, List.forall_mem_cons.2 ⟨?_, List.forall_mem_append.2 ⟨?_, ?_⟩⟩⟩
  · refine List.forall_mem_map.2 fun w hw rest hrest => ?_
    exact cuts_name (isIdentifier_introduction r w hw) hrest
  · exact fun rest hrest => cuts_name h.identifier hrest
  · exact cutsPart_typeParts h.callable
  · exact cutsPart_hiddenParts hhidden

/-! ## Reading a header -/

def RuleKind.hidden : RuleKind → List Text
  | .parser _ hs => hs
  | _ => []

/-- words that declare a type, perhaps none -/
inductive TypeClause : List Word → Option Text → Prop where
  | absent : TypeClause [] none
  | declared {x : Word} {ws : List Word} {v : Token × Option Token} : x.IsWord "returns" → Named ws v →
    TypeClause (x :: ws) (some (writtenName v))

theorem Callable.ne_nil {m : Mode} {t : Text} (h : Callable m t) : t ≠ [] := by
  cases h with
  | plain hn _ =>
    cases hn
    simp
  | qualified hq _ _ =>
    cases hq
    simp

theorem typeClause_of_keys {type : Option Text} (h : ∀ t ∈ type, Callable .parser t) {ws : List Word}
    (hws : ws.map Word.key = (typeParts type).flatMap Prod.snd) : TypeClause ws type := by
  cases type with
  | none =>
    rw [words_nil hws]
    exact .absent
  | some t =>
    obtain ⟨c, name, rfl⟩ := List.exists_cons_of_ne_nil (h t rfl).ne_nil
    rw [typeParts, List.flatMap_singleton] at hws
    obtain ⟨x, us, rfl, hx, hus⟩ := words_cons hws
    obtain ⟨v, hv, -, hwritten⟩ := named_of_keys (h _ rfl) hus
    rw [← hwritten, ← writtenName_eq]
    exact .declared (Word.value_of_key hx) hv

theorem gives_of_typeClause {ws rest : List Word} {type : Option Text} (h : TypeClause ws type)
    (hcolons : atSymbol .doubleColon rest = false) (hreturns : atWord "returns" rest = false) :
    (returnsHere (ws ++ rest)).Gives type rest := by
  rw [gives_returnsHere]
  cases h with
  | absent => exact .inl ⟨rfl, rfl, hreturns⟩
  | @declared x us v hx hv => exact .inr ⟨x, us, v, rfl, hx, hv, fun _ => hcolons, rfl⟩

theorem ruleNames_of_keys {ns : List Text} (hne : ns ≠ []) (h : ∀ n ∈ ns, Callable .parser n) {ws : List Word}
    (hws : ws.map Word.key = namesKeys ns) : RuleNames ws ns := by
  induction ns generalizing ws with
  | nil => exact absurd rfl hne
  | cons n ns ih =>
    cases ns with
    | nil =>
      obtain ⟨v, hv, -, hwritten⟩ := named_of_keys (h n List.mem_cons_self) (by simpa [namesKeys] using hws)
      rw [← hwritten, ← writtenName_eq]
      exact .one hv
    | cons n' ns =>
      have hkeys : ws.map Word.key = nameKeys n ++ Symbol.comma.key :: namesKeys (n' :: ns) := by
        rw [hws]
        simp [namesKeys, List.intercalate_cons_cons]
      obtain ⟨us, more, rfl, hus, hmore⟩ := words_append hkeys
      obtain ⟨c, vs, rfl, hc, hvs⟩ := words_cons hmore
      obtain ⟨v, hv, -, hwritten⟩ := named_of_keys (h n List.mem_cons_self) hus
      rw [← hwritten, ← writtenName_eq]
      exact .more hv (Word.is_of_key hc) (ih (by simp) (fun x hx => h x (List.mem_cons_of_mem _ hx)) hvs)

theorem hiddenClause_of_keys {kind : RuleKind} (h : ∀ n ∈ kind.hidden, Callable .parser n) {ws : List Word}
    (hws : ws.map Word.key = (hiddenParts kind).flatMap Prod.snd) :
    HiddenClause ws kind.hidden ∧ (kind.hidden = [] → ws = []) := by
  have hnothing : kind.hidden = [] → hiddenParts kind = [] →
      HiddenClause ws kind.hidden ∧ (kind.hidden = [] → ws = []) := by
    intro hhidden hparts
    rw [hparts] at hws
    rw [words_nil hws, hhidden]
    exact ⟨.absent, fun _ => rfl⟩
  match kind with
  | .parser _ [] => exact hnothing rfl rfl
  | .terminal _ => exact hnothing rfl rfl
  | .enumeration => exact hnothing rfl rfl
  | .unresolved => exact hnothing rfl rfl
  | .parser f (n :: ns) =>
    rw [hiddenParts, List.flatMap_singleton] at hws
    obtain ⟨x, more, rfl, hx, hmore⟩ := words_cons hws
    obtain ⟨o, us, c, rfl, ho, hus, hc⟩ := words_parens hmore
    exact ⟨.names (Word.value_of_key hx) ho (ruleNames_of_keys (by simp [RuleKind.hidden]) h hus) hc, nofun⟩

/-- what stands behind the header of a rule: a colon, a definition and a semicolon -/
def ReadsDefinition (kind : RuleKind) (words : List Word) (t : Tree) (rest : List Word) : Prop :=
  match kind with
  | .parser _ _ => (definition .parser words).Gives t rest
  | .terminal _ => (definition .terminal words).Gives t rest
  | .enumeration =>
    ∃ c body s, words = c :: body ∧ c.Is .colon ∧ (enumLiterals body).Gives t (s :: rest) ∧ s.Is .semicolon
  | .unresolved => False

/-! ### What follows the name of a rule -/

section Clauses

variable {ts hs : List Word} {type : Option Text} {hidden : List Text} {c : Word}

theorem atSymbol_hidden (hh : HiddenClause hs hidden) (hc : c.Is .colon) {s : Symbol} (hs' : Symbol.colon ≠ s)
    (more : List Word) : atSymbol s (hs ++ c :: more) = false := by
  cases hh with
  | absent => exact atSymbol_of_is hc hs' more
  | empty hx _ _ => simp [atSymbol, Token.isSymbol, hx.1.kind]
  | names hx _ _ _ => simp [atSymbol, Token.isSymbol, hx.1.kind]

theorem atSymbol_clauses (ht : TypeClause ts type) (hh : HiddenClause hs hidden) (hc : c.Is .colon) {s : Symbol}
    (hs' : Symbol.colon ≠ s) (more : List Word) : atSymbol s (ts ++ (hs ++ c :: more)) = false := by
  cases ht with
  | absent => exact atSymbol_hidden hh hc hs' more
  | declared hx _ => simp [atSymbol, Token.isSymbol, hx.1.kind]

theorem atWord_hidden (hh : HiddenClause hs hidden) (hc : c.Is .colon) {word : Text}
    (hword : Text.ofString "hidden" ≠ word)
    (more : List Word) : atWord word (hs ++ c :: more) = false := by
  cases hh with
  | absent => simp [atWord, Token.isWord, hc.kind]
  | empty hx _ _ => simp [atWord, Token.isWord, hx.2, hword]
  | names hx _ _ _ => simp [atWord, Token.isWord, hx.2, hword]

/-- a name follows only where a clause does -/
theorem clause_of_atName (ht : TypeClause ts type) (hempty : hidden = [] → hs = []) (hc : c.Is .colon)
    {more : List Word} (h : atName (ts ++ (hs ++ c :: more)) = true) : type ≠ none ∨ hidden ≠ [] := by
  cases ht with
  | declared _ _ => exact .inl nofun
  | absent =>
    refine .inr fun hhidden => ?_
    rw [hempty hhidden] at h
    cases (show c.token.kind = _ from hc).symm.trans ((atName_cons ..).1 h)

theorem introduces_eq_false {word : Text} {n : Word} {tail : List Word}
    (h : atName tail = true → n.token.value ≠ word) : introduces word (n :: tail) = false := by
  rw [Bool.eq_false_iff]
  intro hintroduces
  obtain ⟨hword, hname⟩ := Bool.and_eq_true_iff.1 hintroduces
  exact h hname ((atWord_cons ..).1 hword).2

theorem introduces_of_isWord {word : Text} {x : Word} (hx : x.IsWord word) {tail : List Word}
    (h : atName tail = true) : introduces word (x :: tail) = true :=
  Bool.and_eq_true_iff.2 ⟨(atWord_cons ..).2 hx, h⟩

/-- the word `fragment`, or nothing -/
inductive FragmentClause : List Word → Bool → Prop where
  | absent : FragmentClause [] false
  | present {x : Word} : x.IsWord "fragment" → FragmentClause [x] true

theorem gives_of_fragmentClause {fs tail : List Word} {fragment : Bool} {n : Word} (h : FragmentClause fs fragment)
    (hn : n.IsName) (hdistinct : fragment = false → atName tail = true → n.token.value ≠ "fragment") :
    (fragmentHere (fs ++ n :: tail)).Gives fragment (n :: tail) := by
  rw [gives_fragmentHere]
  cases h with
  | absent => exact .inl ⟨rfl, rfl, introduces_eq_false (hdistinct rfl)⟩
  | @present x hx => exact .inr ⟨rfl, x, rfl, hx, (atName_cons ..).2 hn⟩

theorem gives_takeName {n : Word} (hn : n.IsName) (what : Text) (tail : List Word) :
    (take .name what (n :: tail)).Gives n.token tail :=
  (gives_take ..).2 ⟨n, rfl, hn, rfl⟩

/-- the reading of a parser rule, up to its definition -/
theorem gives_parserRule_iff {fs : List Word} {fragment : Bool} {n : Word} (hf : FragmentClause fs fragment)
    (hn : n.IsName) (ht : TypeClause ts type) (hh : HiddenClause hs hidden) (hc : c.Is .colon) (more : List Word)
    (hdistinct : fragment = false → atName (ts ++ (hs ++ c :: more)) = true → n.token.value ≠ "fragment")
    (r' : WrittenRule) (rest : List Word) :
    (parserRule (fs ++ n :: (ts ++ (hs ++ c :: more)))).Gives r' rest ↔ ∃ t,
      (definition .parser (c :: more)).Gives t rest ∧
        r' = ⟨.parser fragment hidden, n.token.value, type, none, some n.token.line, some t⟩ := by
  have hless : ¬ atSymbol .less (ts ++ (hs ++ c :: more)) = true :=
    Bool.eq_false_iff.1 (atSymbol_clauses ht hh hc (by decide) more)
  have hstar : (starHere fragment (ts ++ (hs ++ c :: more))).Gives false (ts ++ (hs ++ c :: more)) := by
    simp [starHere, atSymbol_clauses ht hh hc (by decide : Symbol.colon ≠ .star) more]
  have htype : (returnsHere (ts ++ (hs ++ c :: more))).Gives type (hs ++ c :: more) :=
    gives_of_typeClause ht (atSymbol_hidden hh hc (by decide) more) (atWord_hidden hh hc (by decide) more)
  have hhidden : (hiddenHere (hs ++ c :: more)).Gives hidden (c :: more) :=
    gives_of_hiddenClause hh fun _ => by simp [atWord, Token.isWord, hc.kind]
  rw [parserRule, (gives_of_fragmentClause hf hn hdistinct).next_iff, (gives_takeName hn _ _).next_iff, if_neg hless,
    hstar.next_iff, htype.next_iff, hhidden.next_iff, gives_map]
  exact exists_congr fun t => and_congr_right fun _ => eq_comm

/-- the reading of a terminal rule, up to its definition -/
theorem gives_terminalRule_iff {x : Word} {fs : List Word} {fragment : Bool} {n : Word} (hx : x.IsWord "terminal")
    (hf : FragmentClause fs fragment) (hn : n.IsName) (ht : TypeClause ts type) (hc : c.Is .colon) (more : List Word)
    (hdistinct : fragment = false → atName (ts ++ c :: more) = true → n.token.value ≠ "fragment")
    (r' : WrittenRule) (rest : List Word) :
    (terminalRule (x :: (fs ++ n :: (ts ++ c :: more)))).Gives r' rest ↔ ∃ t,
      (definition .terminal (c :: more)).Gives t rest ∧
        r' = ⟨.terminal fragment, n.token.value, type, none, some n.token.line, some t⟩ := by
  have hword : (takeWord "terminal" (x :: (fs ++ n :: (ts ++ c :: more)))).Gives x.token
      (fs ++ n :: (ts ++ c :: more)) := (gives_takeWord ..).2 ⟨x, rfl, hx, rfl⟩
  have htype : (returnsHere (ts ++ c :: more)).Gives type (c :: more) :=
    gives_of_typeClause ht (atSymbol_of_is hc (by decide) more) (by simp [atWord, Token.isWord, hc.kind])
  rw [terminalRule, hword.next_iff, (gives_of_fragmentClause hf hn hdistinct).next_iff,
    (gives_takeName hn _ _).next_iff, htype.next_iff, gives_map]
  exact exists_congr fun t => and_congr_right fun _ => eq_comm

/-- the reading of an enumeration, up to its literals -/
theorem gives_enumRule_iff {x n : Word} (hx : x.IsWord "enum") (hn : n.IsName) (ht : TypeClause ts type)
    (hc : c.Is .colon) (more : List Word) (r' : WrittenRule) (rest : List Word) :
    (enumRule (x :: n :: (ts ++ c :: more))).Gives r' rest ↔ ∃ t,
      ReadsDefinition .enumeration (c :: more) t rest ∧
        r' = ⟨.enumeration, n.token.value, type, none, some n.token.line, some t⟩ := by
  have hword : (takeWord "enum" (x :: n :: (ts ++ c :: more))).Gives x.token (n :: (ts ++ c :: more)) :=
    (gives_takeWord ..).2 ⟨x, rfl, hx, rfl⟩
  have htype : (returnsHere (ts ++ c :: more)).Gives type (c :: more) :=
    gives_of_typeClause ht (atSymbol_of_is hc (by decide) more) (by simp [atWord, Token.isWord, hc.kind])
  have hcolon : (takeSymbol .colon (c :: more)).Gives c.token more := (gives_takeSymbol ..).2 ⟨c, rfl, hc, rfl⟩
  rw [enumRule, hword.next_iff, (gives_takeName hn _ _).next_iff, htype.next_iff, hcolon.next_iff]
  simp only [gives_next', gives_map, gives_takeSymbol, ReadsDefinition]
  refine ⟨?_, ?_⟩
  · intro h
    rcases h with ⟨t, _, hread, _, ⟨s, rfl, hs, -⟩, rfl⟩
    exact ⟨t, ⟨c, more, s, rfl, hc, hread, hs⟩, rfl⟩
  · intro h
    rcases h with ⟨t, ⟨_, _, s, hcons, -, hread, hs⟩, rfl⟩
    cases hcons
    exact ⟨t, _, hread, _, ⟨s, rfl, hs, rfl⟩, rfl⟩

end Clauses

/-! ### The kinds of rules -/

section Kinds

variable {fs tail : List Word} {fragment : Bool} {x n : Word}

/-- the words of a parser rule do not introduce a rule of another kind -/
theorem introduces_of_fragmentClause {word : Text} (h : FragmentClause fs fragment) (hword : Text.ofString "fragment" ≠ word)
    (hn : fragment = false → atName tail = true → n.token.value ≠ word) :
    introduces word (fs ++ n :: tail) = false := by
  cases h with
  | absent => exact introduces_eq_false (hn rfl)
  | present hx => exact introduces_eq_false fun _ => hx.2 ▸ hword

/-- a rule that nothing introduces is a parser rule; a name behind its own belongs to a clause, and then it is not called
like an introduction -/
theorem rule_eq_parserRule (h : FragmentClause fs fragment)
    (hn : fragment = false → atName tail = true → n.token.value ∉ introducers) :
    rule (fs ++ n :: tail) = parserRule (fs ++ n :: tail) := by
  have hnot : ∀ word ∈ introducers, Text.ofString "fragment" ≠ word → introduces word (fs ++ n :: tail) = false :=
    fun word hword hne => introduces_of_fragmentClause h hne fun hplain hat heq => hn hplain hat (heq ▸ hword)
  rw [rule, if_neg (Bool.eq_false_iff.1 (hnot "terminal" (by decide) (by decide))),
    if_neg (Bool.eq_false_iff.1 (hnot "enum" (by decide) (by decide)))]

theorem rule_eq_terminalRule (hx : x.IsWord "terminal") (h : FragmentClause fs fragment) (hn : n.IsName) :
    rule (x :: (fs ++ n :: tail)) = terminalRule (x :: (fs ++ n :: tail)) := by
  have hnext : atName (fs ++ n :: tail) = true := by
    cases h with
    | absent => exact (atName_cons ..).2 hn
    | present hf => exact (atName_cons ..).2 hf.1
  rw [rule, if_pos (introduces_of_isWord hx hnext)]

theorem rule_eq_enumRule (hx : x.IsWord "enum") (hn : n.IsName) : rule (x :: n :: tail) = enumRule (x :: n :: tail) := by
  have hterminal : introduces "terminal" (x :: n :: tail) = false :=
    introduces_eq_false fun _ => by rw [hx.2]; decide
  rw [rule, if_neg (Bool.eq_false_iff.1 hterminal), if_pos (introduces_of_isWord hx ((atName_cons ..).2 hn))]

end Kinds

/-! ### Headers -/

theorem fragmentClause_of_keys {fragment : Bool} {ws : List Word}
    (h : ws.map Word.key = if fragment then [((.name, "fragment") : Key)] else []) : FragmentClause ws fragment := by
  cases fragment with
  | false =>
    rw [words_nil h]
    exact .absent
  | true =>
    obtain ⟨x, rfl, hx⟩ := words_one h
    exact .present (Word.value_of_key hx)

/-- words with the keys of a header, in front of a colon, are read as that header; then the definition is read -/
theorem gives_header {ρ : Type} {r : Declaration ρ} (h : Headed r.kind r.name r.typeName) {ws : List Word}
    (hws : ws.map Word.key = r.headerKeys) {c : Word} (hc : c.Is .colon) (more : List Word) :
    ∃ line, ∀ r' rest, (rule (ws ++ c :: more)).Gives r' rest ↔ ∃ t,
      ReadsDefinition r.kind (c :: more) t rest ∧ r' = ⟨r.kind, r.name, r.typeName, none, some line, some t⟩ := by
  obtain ⟨-, htype, hdistinct⟩ := h
  obtain ⟨kind, name, type, comment, lineHere, defined⟩ := r
  simp only [Declaration.headerKeys, Declaration.headerParts, List.flatMap_append, List.flatMap_cons,
    List.flatMap_map, List.singleton_append] at hws
  obtain ⟨is, more', rfl, his, hmore⟩ := words_append hws
  obtain ⟨n, cs, rfl, hn, hcs⟩ := words_cons hmore
  obtain ⟨ts, hs, rfl, hts, hhs⟩ := words_append hcs
  have ht := typeClause_of_keys htype hts
  obtain ⟨hname, rfl⟩ := Word.value_of_key hn
  have hhidden : ∀ m ∈ kind.hidden, Callable .parser m := by
    cases kind with
    | parser f hidden => exact hdistinct.1
    | _ => exact nofun
  obtain ⟨hh, hempty⟩ := hiddenClause_of_keys hhidden hhs
  refine ⟨n.token.line, fun r' rest => ?_⟩
  cases kind with
  | parser fragment hidden =>
    have hf : FragmentClause is fragment := fragmentClause_of_keys (by cases fragment <;> exact his)
    have hplain : fragment = false → atName (ts ++ (hs ++ c :: more)) = true → n.token.value ∉ introducers :=
      fun hfragment hat => hdistinct.2 hfragment (clause_of_atName ht hempty hc hat)
    have hread := gives_parserRule_iff hf hname ht hh hc more
      (fun hfragment hat heq => hplain hfragment hat (by rw [heq]; decide)) r' rest
    rw [show is ++ n :: (ts ++ hs) ++ c :: more = is ++ n :: (ts ++ (hs ++ c :: more)) by simp,
      rule_eq_parserRule hf hplain]
    exact hread
  | terminal fragment =>
    have hkeys : is.map Word.key =
        ((.name, "terminal") : Key) :: if fragment then [((.name, "fragment") : Key)] else [] := by
      rw [his]
      cases fragment <;> rfl
    obtain ⟨x, fs, rfl, hx, hfs⟩ := words_cons hkeys
    have hf := fragmentClause_of_keys hfs
    have hword : x.IsWord "terminal" := Word.value_of_key hx
    have hclause : atName (ts ++ ([] ++ c :: more)) = true → type ≠ none ∨ ([] : List Text) ≠ [] :=
      clause_of_atName ht (fun _ => rfl) hc
    have hread := gives_terminalRule_iff hword hf hname ht hc more
      (fun hfragment hat => hdistinct hfragment ((hclause hat).resolve_right (absurd rfl))) r' rest
    rw [show x :: fs ++ n :: (ts ++ hs) ++ c :: more = x :: (fs ++ n :: (ts ++ c :: more)) by simp [hempty rfl],
      rule_eq_terminalRule hword hf hname]
    exact hread
  | enumeration =>
    obtain ⟨x, rfl, hx⟩ := words_one (show is.map Word.key = [((.name, "enum") : Key)] from his)
    have hword : x.IsWord "enum" := Word.value_of_key hx
    have hread := gives_enumRule_iff hword hname ht hc more r' rest
    rw [show [x] ++ n :: (ts ++ hs) ++ c :: more = x :: n :: (ts ++ c :: more) by simp [hempty rfl],
      rule_eq_enumRule hword hname]
    exact hread
  | unresolved => exact absurd hdistinct id

end Rulebook
