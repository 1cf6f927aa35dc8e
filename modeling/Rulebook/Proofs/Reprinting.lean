/-
A printed rule in the place of its declaration. A rule is printed with the names of the rules that it calls, and a name
that was written with a qualifier is printed without it. So where the grammar has a rule of that name itself, the call is
lost: the printed name means the own rule (`Grammar.Shadows`).

`reprinted_rule_calls_alike_iff`: with the text of a rule in the place of its declaration the grammar is read again, all
other rules as before, and the rule calls what it called exactly when no rule of the grammar shadows a called one. A name
that is not found anywhere stays the same name.

`Borrowing.shadowed_call_is_lost`: a call of another grammar's rule that becomes a call of an own rule.
-/
import Mathlib
import Rulebook.Proofs.PrintedCalls
import Rulebook.Proofs.Replacing
import Rulebook.Proofs.Targets

namespace Rulebook

open Source Rulebook.Reading

/-! ## What a printed call means -/

theorem nameKeys_written {c : WrittenCall} {m : Mode} (h : c.Valid m) : nameKeys c.written = match c.qualifier with
    | none => [(.name, c.name)]
    | some q => [(.name, q), Symbol.doubleColon.key, (.name, c.name)] := by
  obtain ⟨qualifier, name, line, column⟩ := c
  cases qualifier with
  | none => exact nameKeys_plain h.name
  | some q => exact nameKeys_qualified name (h.qualifier q rfl)

/-- calls that are written the same differ in places only -/
theorem placeless_of_written {c c' : WrittenCall} {m m' : Mode} (h : c.Valid m) (h' : c'.Valid m')
    (hwritten : c'.written = c.written) : c'.placeless = c.placeless := by
  have hkeys := congrArg nameKeys hwritten
  rw [nameKeys_written h, nameKeys_written h'] at hkeys
  obtain ⟨q, name, line, column⟩ := c
  obtain ⟨q', name', line', column'⟩ := c'
  cases q <;> cases q' <;> simp_all [WrittenCall.placeless]

/-- a rule of another grammar is called, but the grammar has a rule of that name itself -/
def Grammar.Shadows (g : Grammar) (ref : RuleRef) : Prop :=
  (∃ j k, ref.id = .declared j k ∧ j ≠ g.id) ∧ ∃ own ∈ g.rules, own.name = ref.name

namespace Scope

variable {s : Scope} {name : Text}

/-- the same of what calls are looked up in -/
def Shadows (s : Scope) (ref : RuleRef) : Prop := (∃ j k, ref.id = .declared j k ∧ j ≠ s.id) ∧ ref.name ∈ s.own

/-- an own name means an own rule -/
theorem ownRule?_of_mem (h : name ∈ s.own) : ∃ i, s.ownRule? name = some ⟨.declared s.id i, name⟩ := by
  have hsome : (s.own.findIdx? fun own => own = name).isSome := by
    rw [List.findIdx?_isSome, List.any_eq_true]
    exact ⟨name, h, by simp⟩
  obtain ⟨i, hi⟩ := Option.isSome_iff_exists.1 hsome
  exact ⟨i, by rw [ownRule?, hi, Option.map_some]⟩

theorem ownRule?_of_not_mem (h : name ∉ s.own) : s.ownRule? name = none := by
  have hnone : s.own.findIdx? (fun own => own = name) = none := by
    refine List.findIdx?_eq_none_iff.2 fun own hown => decide_eq_false ?_
    rintro rfl
    exact h hown
  rw [ownRule?, hnone, Option.map_none]

/-- a call that is found means an own rule, or a used one; with the name of an own rule only behind a qualifier -/
theorem find?_cases {c : WrittenCall} {ref : RuleRef} (h : s.find? c = some ref) :
    (∃ i, s.ownRule? c.name = some ref ∧ ref = ⟨.declared s.id i, c.name⟩) ∨
      ∃ r, Grammar.findInUsed s.used c.name = some r ∧ ref = r.ref := by
  have hforeign : (Grammar.findInUsed s.used c.name).map Rule.ref = some ref →
      ∃ r, Grammar.findInUsed s.used c.name = some r ∧ ref = r.ref := by
    intro h
    obtain ⟨r, hr, rfl⟩ := Option.map_eq_some_iff.1 h
    exact ⟨r, hr, rfl⟩
  unfold find? at h
  split at h
  · exact .inr (hforeign h)
  · by_cases hown : c.name ∈ s.own
    · obtain ⟨i, hi⟩ := ownRule?_of_mem hown
      rw [hi, Option.some_or] at h
      cases h
      exact .inl ⟨i, hi, rfl⟩
    · rw [ownRule?_of_not_mem hown, Option.none_or] at h
      exact .inr (hforeign h)

/-- what a call means that is written without a qualifier -/
theorem resolve_of_written {c : WrittenCall} {m : Mode} (hc : c.Valid m) (hname : IsIdentifier name)
    (hwritten : c.written = name) : s.resolve c =
      ((s.ownRule? name).or ((Grammar.findInUsed s.used name).map Rule.ref)).getD (s.standIn name) := by
  have hplain : WrittenCall.Valid .parser ⟨none, name, 0, 0⟩ := ⟨hname, by simp, by rintro ⟨⟩⟩
  rw [← s.resolve_placeless c, placeless_of_written hplain hc hwritten]
  rfl

/-- a call that is written as another one is printed means the same rule, unless an own rule shadows it -/
theorem resolve_shown_iff (hused : ∀ name r, Grammar.findInUsed s.used name = some r →
      ∃ j k, r.id = .declared j k ∧ j ≠ s.id) {c c' : WrittenCall} (hc : c.Valid .parser) (hc' : c'.Valid .parser)
    (hshown : c'.written = s.shown c) : s.resolve c' = s.resolve c ↔ ¬ s.Shadows (s.resolve c) := by
  cases hfind : s.find? c with
  | none =>
    -- a name that is not found is printed as it is written
    have hresolve : s.resolve c = s.standIn c.written := by rw [resolve, hfind, Option.getD_none]
    have hwritten : c'.written = c.written := hshown.trans (by rw [shown, hresolve]; rfl)
    have hsame : s.resolve c' = s.resolve c := by
      rw [← s.resolve_placeless c', placeless_of_written hc hc' hwritten, s.resolve_placeless]
    refine iff_of_true hsame ?_
    rw [hresolve]
    rintro ⟨⟨j, k, hid, -⟩, -⟩
    cases hid
  | some ref =>
    have hresolve : s.resolve c = ref := by rw [resolve, hfind, Option.getD_some]
    rw [shown, hresolve] at hshown
    rw [hresolve]
    rcases find?_cases hfind with ⟨i, hi, rfl⟩ | ⟨r, hr, rfl⟩
    · refine iff_of_true (by rw [resolve_of_written hc' hc.name hshown, hi]; rfl) ?_
      rintro ⟨⟨j, k, hid, hne⟩, -⟩
      cases hid
      exact hne rfl
    · -- the name of a used rule, which is looked up among the own rules first
      have hname : r.ref.name = c.name := Grammar.name_of_findInUsed s.used hr
      obtain ⟨j, k, hid, hne⟩ := hused _ _ hr
      rw [resolve_of_written hc' hc.name (hshown.trans hname)]
      by_cases hown : c.name ∈ s.own
      · obtain ⟨i, hi⟩ := ownRule?_of_mem hown
        refine iff_of_false ?_ (not_not.2 ⟨⟨j, k, hid, hne⟩, hname ▸ hown⟩)
        rw [hi, Option.some_or, Option.getD_some]
        intro heq
        cases hid.symm.trans (congrArg RuleRef.id heq).symm
        exact hne rfl
      · refine iff_of_true (by rw [ownRule?_of_not_mem hown, hr]; rfl) ?_
        rintro ⟨-, hmem⟩
        exact hown (hname ▸ hmem)

/-- calls that are written as others are printed mean the same rules exactly when no own rule shadows one -/
theorem map_resolve_shown_iff (hused : ∀ name r, Grammar.findInUsed s.used name = some r →
      ∃ j k, r.id = .declared j k ∧ j ≠ s.id) {cs cs' : List WrittenCall} (hcs : ∀ c ∈ cs, c.Valid .parser)
    (hcs' : ∀ c ∈ cs', c.Valid .parser) (hshown : cs'.map WrittenCall.written = cs.map s.shown) :
    cs'.map s.resolve = cs.map s.resolve ↔ ∀ ref ∈ cs.map s.resolve, ¬ s.Shadows ref := by
  induction cs generalizing cs' with
  | nil => simp [List.map_eq_nil_iff.1 hshown]
  | cons c cs ih =>
    obtain ⟨c', cs', rfl, hfirst, hmore⟩ := List.map_eq_cons_iff.1 hshown
    obtain ⟨hc, hcs⟩ := List.forall_mem_cons.1 hcs
    obtain ⟨hc', hcs'⟩ := List.forall_mem_cons.1 hcs'
    rw [List.map_cons, List.map_cons, List.cons.injEq, List.forall_mem_cons, resolve_shown_iff hused hc hc' hfirst,
      ih hcs hcs' hmore]

end Scope

/-! ## What is printed in the place of a declaration -/

/-- a header begins as a name does -/
theorem begins_header {ρ : Type} {r : Declaration ρ} (h : Headed r.kind r.name r.typeName) :
    ∃ c more, r.header = c :: more ∧ Piece.isNameStart c = true := by
  have hfirst : ∀ n : Text, IsIdentifier n → ∀ us : List Text, ∃ c more, Text.join " " (n :: us) = c :: more ∧
      Piece.isNameStart c = true := by
    rintro _ ⟨hc, -⟩ us
    cases us with
    | nil => exact ⟨_, _, rfl, hc⟩
    | cons u us => exact ⟨_, _, rfl, hc⟩
  have hintroduction := isIdentifier_introduction r
  unfold Declaration.header
  cases hwords : r.introduction with
  | nil => exact hfirst _ h.identifier _
  | cons w ws => exact hfirst w (hintroduction w (hwords ▸ List.mem_cons_self)) _

theorem Printable.begins {r : Rule} {e : Outline} (h : Printable r e) :
    ∃ c more, r.toDeclaration.text linkedName = c :: more ∧ Piece.isNameStart c = true := by
  obtain ⟨d, hd, -⟩ := Option.map_eq_some_iff.1 h.definition
  obtain ⟨c, more, hheader, hc⟩ := begins_header h.headed
  have htext : r.toDeclaration.text linkedName =
      c :: (more ++ ":\n    " ++ Declaration.definitionText linkedName d ++ ";") := by
    rw [Declaration.text, hd, hheader]
    rfl
  exact ⟨c, _, htext, hc⟩

theorem Piece.plain_of_gap {c : CodePoint} (h : Piece.isGap c = true) (rest : Text) :
    Plain (c :: rest) ∧ NameEnds (c :: rest) := by
  simp only [Piece.isGap, Bool.or_eq_true, decide_eq_true_eq] at h
  rcases h with ((rfl | rfl) | rfl) | rfl <;>
    exact ⟨⟨fun _ hd => by cases hd; decide, fun _ hd => by cases hd; decide⟩, fun _ hd => by cases hd; decide⟩

/-- behind a gap, or behind what is no part of a name, a printed rule can stand -/
theorem Printable.stands {r : Rule} {e : Outline} (h : Printable r e) {gap before : Text}
    (hgap : ∀ c ∈ gap, Piece.isGap c = true) (happ : gap ≠ [] ∨ ∀ c ∈ before.getLast?, Piece.isNamePart c = false)
    (after : Text) :
    Cuts (gap ++ r.toDeclaration.text linkedName) (declarationKeys r.toDeclaration e) after ∧
      Piece.Plain (gap ++ r.toDeclaration.text linkedName ++ after) ∧
        (NameEnds (gap ++ r.toDeclaration.text linkedName ++ after) ∨
          ∀ c ∈ before.getLast?, Piece.isNamePart c = false) := by
  refine ⟨(cuts_gaps hgap _).append (h.cuts_text after), ?_⟩
  cases gap with
  | nil =>
    obtain ⟨c, more, htext, hc⟩ := h.begins
    rw [htext]
    exact ⟨Piece.plain_of_name (.inl hc) _, .inr (happ.resolve_left (absurd rfl))⟩
  | cons c gap =>
    obtain ⟨hplain, hname⟩ := Piece.plain_of_gap (hgap c List.mem_cons_self)
      (gap ++ r.toDeclaration.text linkedName ++ after)
    exact ⟨hplain, .inl hname⟩

/-- a parser rule without clauses has its name for a header -/
theorem headerKeys_bare {ρ : Type} {r : Declaration ρ} (hkind : r.kind = .parser false []) (htype : r.typeName = none) :
    r.headerKeys = [(.name, r.name)] := by
  simp [Declaration.headerKeys, Declaration.headerParts, Declaration.introduction, hkind, htype, typeParts, hiddenParts]

/-! ## Linking again -/

/-- one rule is written anew, with the name it had -/
theorem names_of_set {rs rs' : List WrittenRule} {i : Nat} {r q : WrittenRule} (hr : rs[i]? = some r)
    (hname : q.name = r.name) (h : rs'.map Declaration.placeless = (rs.map Declaration.placeless).set i q.placeless) :
    rs'.map Declaration.name = rs.map Declaration.name := by
  have hnames := congrArg (List.map Declaration.name) h
  rw [List.map_set, List.map_map, List.map_map] at hnames
  refine hnames.trans (List.ext_getElem? fun j => ?_)
  by_cases hj : i = j
  · subst hj
    have hi : i < rs.length := (List.getElem?_eq_some_iff.1 hr).1
    rw [List.getElem?_set_self (by simpa using hi), List.getElem?_map, hr]
    exact congrArg some hname
  · rw [List.getElem?_set_ne hj]
    rfl

/-- rules that differ in places only call the same rules -/
theorem Scope.resolve_calls (s : Scope) {r r' : WrittenRule} (h : r'.placeless = r.placeless) :
    r'.calls.map s.resolve = r.calls.map s.resolve := by
  have hcalls : ∀ r : WrittenRule, r.placeless.calls.map s.resolve = r.calls.map s.resolve := by
    intro r
    unfold Declaration.calls Declaration.placeless
    cases r.definition with
    | none => rfl
    | some t =>
      simp only [Option.map_some, Option.getD_some, Element.calls_map, List.map_map]
      rfl
  rw [← hcalls r', h, hcalls r]

/-- the rules of a linked grammar are known by their names -/
theorem refs_link (w : WrittenGrammar) (id : Nat) (used : List Grammar) :
    (w.link id used).rules.map Rule.ref =
      (w.rules.map Declaration.name).zipIdx.map fun (name, i) => ⟨.declared id i, name⟩ := by
  rw [show (w.link id used).rules = _ from Scope.linkFrom_eq _ 0 w.rules, List.map_map, List.zipIdx_map, List.map_map]
  rfl

theorem shadows_link (w : WrittenGrammar) (id : Nat) (used : List Grammar) (ref : RuleRef) :
    (w.link id used).Shadows ref ↔ (w.scope id used).Shadows ref := by
  have hnames : (w.link id used).rules.map (fun r => r.name) = w.rules.map Declaration.name :=
    map_link w id used fun _ _ _ => rfl
  have hmem : (∃ own ∈ (w.link id used).rules, own.name = ref.name) ↔ ref.name ∈ w.rules.map Declaration.name := by
    rw [← hnames, List.mem_map]
  exact and_congr_right fun _ => hmem

/-- linking where one rule is written anew -/
theorem relinked {w w' : WrittenGrammar} {id i : Nat} {used : List Grammar} {r q : WrittenRule}
    (hused : ∀ name u, Grammar.findInUsed used name = some u → ∃ j k, u.id = .declared j k ∧ j ≠ id)
    (hr : w.rules[i]? = some r) (hheader : { w' with rules := w.rules } = w) (hname : q.name = r.name)
    (hrules : w'.rules.map Declaration.placeless = (w.rules.map Declaration.placeless).set i q.placeless)
    (hvalid : ∀ c ∈ r.calls, c.Valid .parser) (hvalid' : ∀ c ∈ q.calls, c.Valid .parser)
    (hshown : q.calls.map WrittenCall.written = r.calls.map (w.scope id used).shown) :
    { w'.link id used with rules := (w.link id used).rules } = w.link id used ∧
      (w'.link id used).rules.map Rule.ref = (w.link id used).rules.map Rule.ref ∧
      ∃ r', (w'.link id used).rules[i]? = some r' ∧ (r'.calls = ((w.scope id used).linkRule i r).calls ↔
        ∀ ref, some ref ∈ ((w.scope id used).linkRule i r).calls → ¬ (w.link id used).Shadows ref) := by
  have hsame : w' = { w with rules := w'.rules } := by rw [← hheader]
  have hnames := names_of_set hr hname hrules
  have hscope : w'.scope id used = w.scope id used := by
    rw [WrittenGrammar.scope, WrittenGrammar.scope, hnames, hsame]
  obtain ⟨q', hq', hplaceless⟩ : ∃ q', w'.rules[i]? = some q' ∧ q'.placeless = q.placeless := by
    have hi : i < w.rules.length := (List.getElem?_eq_some_iff.1 hr).1
    have hset := congrArg (fun rs => rs[i]?) hrules
    rw [List.getElem?_map, List.getElem?_set_self (by simpa using hi)] at hset
    exact Option.map_eq_some_iff.1 hset
  have hcalls : ∀ r : WrittenRule, ((w.scope id used).linkRule i r).calls =
      (r.calls.map (w.scope id used).resolve).map some := by
    intro r
    rw [calls_linkRule, List.map_map]
    exact List.map_congr_left fun c _ => congrArg some (Scope.resolve_eq w id used c).symm
  refine ⟨?_, by rw [refs_link, refs_link, hnames], _, by rw [getElem?_rules_link, hq', Option.map_some], ?_⟩
  · rw [hsame]
    rfl
  · rw [hscope, hcalls, hcalls, Scope.resolve_calls _ hplaceless]
    have hiff := Scope.map_resolve_shown_iff (s := w.scope id used) hused hvalid hvalid' hshown
    rw [(List.map_injective_iff.2 (Option.some_injective _)).eq_iff, hiff]
    simp [shadows_link]

/-- **A printed rule calls what it called, unless a rule of the grammar shadows a called one**: for every text that a
reader reads, whatever it has read before and whatever the files hold, and every rule of it whose printed text is a rule
for the reader. With the printed text in the place of the declaration, the text is a grammar again, all rules keep their
places and their names, and the rule is linked as before exactly when no call of it means a rule of another grammar with
the name of an own one. In a terminal rule, the word for the end of the text must not name a called rule. -/
theorem reprinted_rule_calls_alike_iff {files : FileTree} {searchPaths : List Path} {file : Path} {base : Option Path}
    {l l₁ : Library} {g : Grammar} {before declaration after gap p : Text} {i : Nat} {r : Rule} {q : WrittenRule}
    (hl : l.Idle)
    (hg : Library.readText files searchPaths file base (before ++ (declaration ++ after)) l = (.ok g, l₁))
    (hplace : DeclaredAt i before declaration after) (hr : g.rules[i]? = some r) (hp : r.printed = .ok p)
    (hq : ReadsAs p q) (hgap : ∀ c ∈ gap, Piece.isGap c = true)
    (happ : gap ≠ [] ∨ ∀ c ∈ before.getLast?, Piece.isNamePart c = false)
    (hend : ∀ fragment, r.kind = .terminal fragment → ∀ ref, some ref ∈ r.calls → ref.name ≠ "EOF") :
    ∃ g' l₂ r', Library.readText files searchPaths file base (before ++ (gap ++ p ++ after)) l = (.ok g', l₂) ∧
      { g' with rules := g.rules } = g ∧ g'.rules.map Rule.ref = g.rules.map Rule.ref ∧ g'.rules[i]? = some r' ∧
      (r'.calls = r.calls ↔ ∀ ref, some ref ∈ r.calls → ¬ g.Shadows ref) := by
  obtain ⟨w, used, l₃, later, hw, heach, rfl, rfl, hlater, hglater⟩ := hl.linked hg
  obtain ⟨wr, hwr, rfl⟩ := rule_of_link hr
  have hused : ∀ name u, Grammar.findInUsed used name = some u → ∃ j k, u.id = .declared j k ∧ j ≠ l₃.fresh := by
    intro name u hu
    obtain ⟨j, k, hid, hbefore⟩ := hlater.id_of_findInUsed hglater hu
    exact ⟨j, k, hid, Nat.ne_of_lt hbefore⟩
  -- the rule as it is printed, and as its text is read
  obtain ⟨words, hlex, hdefined⟩ := defined_of_ofText hw
  obtain ⟨hhead, hdef⟩ := hdefined wr (List.mem_of_getElem? hwr)
  obtain ⟨e, hprintable, hrecalls, hcalls⟩ := printable_linkRule (w.scope l₃.fresh used) i hlex hhead hdef (by
    intro fragment hkind c hc
    refine hend fragment hkind ((w.scope l₃.fresh used).resolve c) ?_
    rw [calls_linkRule, Scope.resolve_eq]
    exact List.mem_map_of_mem hc)
  obtain rfl := Except.ok.inj (hprintable.printed.symm.trans hp)
  obtain ⟨hs, c, ws, s, t, hkeys, hheaderKeys, hc, hws, hlexWs, hread, ht, hkind, hname, -, hqt⟩ :=
    hprintable.accepted hp hq
  obtain ⟨_, hsplit, hdeclared⟩ := (gives_rule_iff ..).1 hread
  rw [List.append_nil] at hsplit
  subst hsplit
  -- the text with the printed rule in it
  obtain ⟨hcut, hplain, hends⟩ := hprintable.stands hgap happ after
  have hsecond : wr.kind = .parser false [] → wr.typeName = none → atName ((hs ++ c :: (ws ++ [s])).drop 1) = false := by
    intro hparser htype
    rw [headerKeys_bare (r := Rule.toDeclaration _) hparser htype] at hheaderKeys
    obtain ⟨n, rfl, -⟩ := words_one hheaderKeys
    exact Bool.eq_false_iff.2 fun hat => by cases hc.symm.trans ((atName_cons ..).1 hat)
  obtain ⟨w', hw', hheader, hrules⟩ := ofText_replaced hplace hw hwr hcut hplain hends hprintable.nested.no_comment
    hkeys hdeclared hkind hname hsecond
  -- and what is linked to its calls
  obtain ⟨hwritten, hvalid'⟩ := hrecalls c ws s t ht hws hlexWs
  have hqcalls : Declaration.calls { q with comment := wr.comment } = t.calls := by
    rw [Declaration.calls, hqt]
    rfl
  obtain ⟨hgrammar, hrefs, r', hr', hiff⟩ := relinked (q := { q with comment := wr.comment }) hused hwr hheader hname
    hrules (hdef.valid hlex) (by rwa [hqcalls]) (by rw [hqcalls, hwritten, hcalls])
  have huses : w'.uses = w.uses ∧ w'.name = w.name := by
    rw [← hheader]
    exact ⟨rfl, rfl⟩
  have heach' := heach
  rw [← huses.1, ← huses.2] at heach'
  exact ⟨_, _, r', Library.readWith_of_eachUsed hw' heach', hgrammar, hrefs, hr', hiff⟩

/-! ## A call that is lost -/

namespace Borrowing

/-- the pieces of a name, of a symbol and of a quoted text -/
def namePiece (n : Text) : Piece := ⟨n, some (.name, n)⟩

@[inherit_doc namePiece]
def symbolPiece (s : Symbol) : Piece := ⟨s.spelling, some s.key⟩

@[inherit_doc namePiece]
def quotedPiece (v : Text) : Piece := ⟨Text.ofString "'" ++ (v ++ Text.ofString "'"), some (.literal, v)⟩

def blankPiece : Piece := ⟨Text.ofString " ", none⟩

/-- a rule such as `X:'y';` that begins in a line -/
def keywordRule (name value : Text) (line : Nat) : WrittenRule :=
  ⟨.parser false [], name, none, none, some line, some (.keyword .none value)⟩

@[inherit_doc keywordRule]
def keywordPieces (name value : Text) : List Piece :=
  [namePiece name, symbolPiece .colon, quotedPiece value, symbolPiece .semicolon]

theorem rows_keywordPieces (name value : Text) (m : Mark) :
    Rows (wordsOf (Lexed.ofPieces m (keywordPieces name value)).tokens) [keywordRule name value m.line] := by
  have hkeyword : ∀ w : Word, w.IsLiteral → Leaf .parser [w] (keywordOf w) := fun _ => .keyword
  rw [← List.append_nil (wordsOf _)]
  exact .more (.leaf rfl rfl (hkeyword _ rfl) rfl) (.done .none)

/-- the grammar `b`, with a rule `X` -/
def lenderText : Text := Text.ofString "grammar b X:'y';"

@[inherit_doc lenderText]
def lender : WrittenGrammar := ⟨"b", none, [], [], [], [keywordRule "X" "y" 1]⟩

theorem ofText_lender (file : Path) : WrittenGrammar.ofText file lenderText = .ok lender := by
  have hcut : Piece.cut lenderText = .ok (namePiece "grammar" :: blankPiece :: namePiece "b" :: blankPiece ::
    keywordPieces "X" "y") := by cbv
  refine ofText_of_ofWords hcut ?_ file
  exact (ofWords_iff ..).2 ⟨_, _, begun_of_name (x := ⟨⟨.name, "grammar", 1, 1, 7⟩, none⟩)
    (n := ⟨⟨.name, "b", 1, 9, 1⟩, none⟩) ⟨rfl, rfl⟩ rfl rfl rfl, clauses_of_none rfl rfl,
    rows_keywordPieces "X" "y" ⟨1, 11⟩, rfl⟩

/-- a reader that has read it -/
def library : Library := (Library.readText ⟨[], []⟩ [] (Path.ofText "b") none lenderText .empty).2

theorem library_eq : library = (Library.empty.enter "b").finish lender [] := by
  rw [library, Library.readText, Library.readWith_of_eachUsed (ofText_lender _) rfl]
  rfl

theorem idle_library : library.Idle := .readText _ _ _ _ _ .start

/-- the head of a grammar that uses `b` -/
def head : Text := Text.ofString "grammar a with b "

@[inherit_doc head]
def headPieces : List Piece :=
  [namePiece "grammar", blankPiece, namePiece "a", blankPiece, namePiece "with", blankPiece, namePiece "b", blankPiece]

theorem begun_head (pieces : List Piece) {words : List Word}
    (hwords : wordsOf (Lexed.ofPieces ⟨1, 18⟩ pieces).tokens = words) (hdot : Undotted words)
    (hcomma : atSymbol .comma words = false) :
    Begun (wordsOf (Lexed.ofPieces Mark.start (headPieces ++ pieces)).tokens) "a" ["b"] words := by
  subst hwords
  exact begun_of_use (x := ⟨⟨.name, "grammar", 1, 1, 7⟩, none⟩) (n := ⟨⟨.name, "a", 1, 9, 1⟩, none⟩)
    (y := ⟨⟨.name, "with", 1, 11, 4⟩, none⟩) (u := ⟨⟨.name, "b", 1, 16, 1⟩, none⟩) ⟨rfl, rfl⟩ rfl ⟨rfl, rfl⟩ rfl hdot
    hcomma

/-- the rule `A`, which calls the rule `X` of `b`, as it is declared -/
def declaredPieces : List Piece :=
  [namePiece "A", symbolPiece .colon, namePiece "b", symbolPiece .doubleColon, namePiece "X", symbolPiece .semicolon]

def declaredRule : WrittenRule :=
  ⟨.parser false [], "A", none, none, some 1, some (.call .none ⟨some "b", "X", 1, 20⟩)⟩

/-- the rule `A` as it is printed -/
def printedPieces : List Piece :=
  [namePiece "A", symbolPiece .colon, ⟨Text.ofString "\n", none⟩, blankPiece, blankPiece, blankPiece, blankPiece,
    namePiece "X", symbolPiece .semicolon]

def printedRule : WrittenRule :=
  ⟨.parser false [], "A", none, none, some 1, some (.call .none ⟨none, "X", 2, 5⟩)⟩

theorem declared_declaredPieces :
    Declared (wordsOf (Lexed.ofPieces ⟨1, 18⟩ declaredPieces).tokens) declaredRule := by
  have hcall : ∀ u c n : Word, u.IsName → c.Is .doubleColon → n.IsName →
      Leaf .parser [u, c, n] (.call .none (callOf (u.token, some n.token))) :=
    fun _ _ _ hu hc hn => .call (.named (.qualified hu hc hn) nofun)
  exact .leaf rfl rfl (hcall _ _ _ rfl rfl rfl) rfl

theorem declared_printedPieces (m : Mark) (hm : m.line = 1) :
    Declared (wordsOf (Lexed.ofPieces m printedPieces).tokens) printedRule := by
  obtain ⟨_, column⟩ := m
  obtain rfl := hm
  have hcall : ∀ n : Word, n.IsName → Leaf .parser [n] (.call .none (callOf (n.token, none))) :=
    fun _ hn => .call (.named (.plain hn) nofun)
  exact .leaf rfl rfl (hcall _ rfl) rfl

/-- what is read: the rules behind the head, linked in the sight of `b` -/
def borrower (rs : List WrittenRule) : Grammar :=
  WrittenGrammar.link ⟨"a", none, ["b"], [], [], rs⟩ 1 [lender.link 0 []]

theorem readText_head {declarations : Text} {pieces : List Piece} {words : List Word} {rs : List WrittenRule}
    (hcut : Piece.cut (head ++ declarations) = .ok (headPieces ++ pieces))
    (hwords : wordsOf (Lexed.ofPieces ⟨1, 18⟩ pieces).tokens = words) (hrows : Rows words rs) (hdot : Undotted words)
    (hcomma : atSymbol .comma words = false) (hhidden : atWord "hidden" words = false)
    (hmodels : metamodel? words = none) :
    ∃ l', Library.readText ⟨[], []⟩ [] (Path.ofText "a") none (head ++ declarations) library =
      (.ok (borrower rs), l') := by
  have htext : WrittenGrammar.ofText (Path.ofText "a") (head ++ declarations) = .ok ⟨"a", none, ["b"], [], [], rs⟩ :=
    ofText_of_ofWords hcut ((ofWords_iff ..).2
      ⟨_, _, begun_head _ hwords hdot hcomma, clauses_of_none hhidden hmodels, hrows, rfl⟩) _
  have heach : ∀ load, Library.eachUsed (Library.use ⟨[], []⟩ [] load) ["b"] (library.enter "a") =
      (.ok [lender.link 0 []], library.enter "a") := by
    intro load
    rw [library_eq]
    rfl
  have hfresh : (library.enter "a").fresh = 1 := by
    rw [library_eq]
    rfl
  have hread : Library.readText ⟨[], []⟩ [] (Path.ofText "a") none (head ++ declarations) library = _ :=
    Library.readWith_of_eachUsed htext (heach _)
  rw [hread, hfresh]
  exact ⟨_, rfl⟩

/-- behind the rule `A`, a rule of some name -/
theorem declaredAt_declaredPieces {n after : Text}
    (hcut : Piece.cut (head ++ (Text.ofString "A:b::X;" ++ after)) =
      .ok (headPieces ++ (declaredPieces ++ keywordPieces n "x"))) :
    DeclaredAt 0 head (Text.ofString "A:b::X;") after := by
  refine ⟨headPieces, declaredPieces, keywordPieces n "x", hcut, rfl, rfl, ?_, ?_, ?_⟩
  · rintro _ ⟨⟩
    exact ⟨_, rfl⟩
  · rintro _ ⟨⟩
    rfl
  · exact ⟨_, _, _, _, _, [], _, begun_head (declaredPieces ++ keywordPieces n "x") rfl rfl rfl,
      clauses_of_none rfl rfl, .here .none declared_declaredPieces (rows_keywordPieces n "x" ⟨1, 25⟩)⟩

theorem readText_declared {n after : Text} (hcut : Piece.cut (head ++ (Text.ofString "A:b::X;" ++ after)) =
      .ok (headPieces ++ (declaredPieces ++ keywordPieces n "x"))) :
    ∃ l', Library.readText ⟨[], []⟩ [] (Path.ofText "a") none (head ++ (Text.ofString "A:b::X;" ++ after)) library =
      (.ok (borrower [declaredRule, keywordRule n "x" 1]), l') :=
  readText_head hcut rfl (.more (.intro .none declared_declaredPieces) (rows_keywordPieces n "x" ⟨1, 25⟩)) rfl rfl rfl rfl

theorem readsAs_printed : ReadsAs (Text.ofString "A:\n    X;") printedRule := by
  have hcut : Piece.cut (Text.ofString "A:\n    X;") = .ok printedPieces := by cbv
  refine ⟨Path.ofText "a", _, Lexed.ofSource_eq_ok_iff.2 ⟨_, hcut, rfl⟩,
    (gives_rule_iff ..).2 ⟨_, (List.append_nil _).symm, ?_⟩⟩
  exact declared_printedPieces Mark.start rfl

/-- a rule of the grammar has the name of the rule of `b`: the printed rule calls the own one -/
theorem shadowed_call_is_lost : ∃ (g g' : Grammar) (l₁ l₂ : Library) (r r' : Rule) (q : WrittenRule),
    library.Idle ∧ Library.readText ⟨[], []⟩ [] (Path.ofText "a") none
        (head ++ (Text.ofString "A:b::X;" ++ Text.ofString "X:'x';")) library = (.ok g, l₁) ∧
      DeclaredAt 0 head (Text.ofString "A:b::X;") (Text.ofString "X:'x';") ∧ g.rules[0]? = some r ∧
      r.printed = .ok (Text.ofString "A:\n    X;") ∧ ReadsAs (Text.ofString "A:\n    X;") q ∧
      Library.readText ⟨[], []⟩ [] (Path.ofText "a") none
        (head ++ (Text.ofString "A:\n    X;" ++ Text.ofString "X:'x';")) library = (.ok g', l₂) ∧
      g'.used = g.used ∧ g'.rules[0]? = some r' ∧ r.calls = [some ⟨.declared 0 0, "X"⟩] ∧
      r'.calls = [some ⟨.declared 1 1, "X"⟩] := by
  have hdeclared : Piece.cut (head ++ (Text.ofString "A:b::X;" ++ Text.ofString "X:'x';")) =
      .ok (headPieces ++ (declaredPieces ++ keywordPieces "X" "x")) := by cbv
  have hprinted : Piece.cut (head ++ (Text.ofString "A:\n    X;" ++ Text.ofString "X:'x';")) =
      .ok (headPieces ++ (printedPieces ++ keywordPieces "X" "x")) := by cbv
  have hrows : Rows (wordsOf (Lexed.ofPieces ⟨1, 18⟩ (printedPieces ++ keywordPieces "X" "x")).tokens)
      [printedRule, keywordRule "X" "x" 2] :=
    .more (.intro .none (declared_printedPieces ⟨1, 18⟩ rfl)) (rows_keywordPieces "X" "x" ⟨2, 7⟩)
  obtain ⟨l₁, hg⟩ := readText_declared hdeclared
  obtain ⟨l₂, hg'⟩ := readText_head hprinted rfl hrows rfl rfl rfl rfl
  exact ⟨_, _, l₁, l₂, _, _, printedRule, idle_library, hg, declaredAt_declaredPieces hdeclared, rfl, by cbv,
    readsAs_printed, hg', rfl, rfl, by cbv, by cbv⟩

/-- no rule of the grammar has that name: the printed rule calls the rule of `b` -/
theorem unshadowed_call_is_kept : ∃ (g g' : Grammar) (l₁ l₂ : Library) (r r' : Rule) (q : WrittenRule),
    library.Idle ∧ Library.readText ⟨[], []⟩ [] (Path.ofText "a") none
        (head ++ (Text.ofString "A:b::X;" ++ Text.ofString "B:'x';")) library = (.ok g, l₁) ∧
      DeclaredAt 0 head (Text.ofString "A:b::X;") (Text.ofString "B:'x';") ∧ g.rules[0]? = some r ∧
      r.printed = .ok (Text.ofString "A:\n    X;") ∧ ReadsAs (Text.ofString "A:\n    X;") q ∧
      (∀ fragment, r.kind = .terminal fragment → ∀ ref, some ref ∈ r.calls → ref.name ≠ "EOF") ∧
      Library.readText ⟨[], []⟩ [] (Path.ofText "a") none
        (head ++ (Text.ofString "A:\n    X;" ++ Text.ofString "B:'x';")) library = (.ok g', l₂) ∧
      { g' with rules := g.rules } = g ∧ g'.rules.map Rule.ref = g.rules.map Rule.ref ∧ g'.rules[0]? = some r' ∧
      r.calls = [some ⟨.declared 0 0, "X"⟩] ∧ r'.calls = r.calls := by
  have hdeclared : Piece.cut (head ++ (Text.ofString "A:b::X;" ++ Text.ofString "B:'x';")) =
      .ok (headPieces ++ (declaredPieces ++ keywordPieces "B" "x")) := by cbv
  obtain ⟨l₁, hg⟩ := readText_declared hdeclared
  set r := (WrittenGrammar.scope ⟨"a", none, ["b"], [], [], [declaredRule, keywordRule "B" "x" 1]⟩ 1
    [lender.link 0 []]).linkRule 0 declaredRule
  have hprinted : r.printed = .ok (Text.ofString "A:\n    X;") := by cbv
  have hcalls : r.calls = [some ⟨.declared 0 0, "X"⟩] := by cbv
  have hend : ∀ fragment, r.kind = .terminal fragment → ∀ ref, some ref ∈ r.calls → ref.name ≠ "EOF" := by rintro _ ⟨⟩
  have hnogap : ∀ c ∈ Text.ofString "", Piece.isGap c = true := by decide
  obtain ⟨g', l₂, r', hread, hheader, hrefs, hr', hiff⟩ := reprinted_rule_calls_alike_iff idle_library hg
    (declaredAt_declaredPieces hdeclared) rfl hprinted readsAs_printed hnogap (.inr (by decide)) hend
  refine ⟨_, g', l₁, l₂, r, r', printedRule, idle_library, hg, declaredAt_declaredPieces hdeclared, rfl, hprinted,
    readsAs_printed, hend, hread, hheader, hrefs, hr', hcalls, hiff.2 ?_⟩
  rintro ref hmem ⟨-, own, hown, hname⟩
  rw [hcalls, List.mem_singleton] at hmem
  obtain rfl := Option.some.inj hmem
  have hnames : own.name ∈ (["A", "B"] : List Text) := List.mem_map_of_mem (f := fun own : Rule => own.name) hown
  rw [hname] at hnames
  exact absurd hnames (by decide)

end Borrowing

end Rulebook
