/-
The order of declarations. A grammar file is a header and declarations of rules, each up to its semicolon and with a
line feed behind it. Where the declarations stand in another order, the same rules are read in that order, each with its
own comment, kind, type and definition, and every call means the same rule as before (`reordered_rules_link_alike`).

A declaration is cut and read the same wherever it stands (`rows_of_inLines`), and the header is read the same in front
of any of them (`header_of_ofWords`); names that are declared once are found wherever they are declared.
-/
import Rulebook.Proofs.Openings
import Rulebook.Proofs.Targets

namespace Rulebook

open Source Rulebook.Reading

/-! ## Headers and declarations -/

/-- the text is a header that says what `h` says: a name, used grammars, hidden tokens and metamodels, and nothing
behind them that a rule could take for its own -/
def IsHeader (text : Text) (h : WrittenGrammar) : Prop :=
  ∃ pieces mid, Piece.cut text = .ok pieces ∧
    Begun (wordsOf (Lexed.ofPieces Mark.start pieces).tokens) h.name h.uses mid ∧
    Clauses mid h.hidden h.metamodels [] ∧ h.rules = [] ∧
    h.comment = commentHere (wordsOf (Lexed.ofPieces Mark.start pieces).tokens) ∧
    pending none (Lexed.ofPieces Mark.start pieces).tokens = none

def semicolonPiece : Piece := ⟨Text.ofString ";", some Symbol.semicolon.key⟩

/-- the text is the declaration of a rule, up to its semicolon -/
def Declares (text : Text) (r : WrittenRule) : Prop :=
  ∃ front, Piece.cut text = .ok (front ++ [semicolonPiece]) ∧
    (rules (wordsOf (Lexed.ofPieces Mark.start (front ++ [semicolonPiece])).tokens)).Gives [r] []

/-- the texts are cut apart where one stands right behind the other -/
def CutApart (t u : Text) : Prop :=
  ∃ ps us, Piece.cut t = .ok ps ∧ Piece.cut u = .ok us ∧ Piece.cut (t ++ u) = .ok (ps ++ us)

/-- declarations one after the other, each with a line feed behind it -/
def inLines (declarations : List Text) : Text := declarations.flatMap fun d => d ++ Text.ofString "\n"

/-! ### Cutting declarations -/

/-- one code point that is a piece of its own -/
theorem cut_of_one (c : CodePoint) (token : Option Key) {t : Text} {qs : List Piece}
    (hfirst : Piece.first c t = .ok (token, 0)) (h : Piece.cut (c :: t) = .ok qs) :
    ∃ rs, Piece.cut t = .ok rs ∧ qs = ⟨[c], token⟩ :: rs := by
  rw [Piece.cut] at h
  simp only [hfirst, List.drop_zero, List.take_zero] at h
  split at h
  · cases h
  · next rs hrs =>
    cases h
    exact ⟨rs, hrs, rfl⟩

/-- a declaration is cut by itself, and so is the line feed behind it -/
theorem cut_of_declaration {d t : Text} {front qs : List Piece} (hd : Piece.cut d = .ok (front ++ [semicolonPiece]))
    (h : Piece.cut (d ++ (Text.ofString "\n" ++ t)) = .ok qs) :
    ∃ rs, Piece.cut t = .ok rs ∧ qs = front ++ semicolonPiece :: ⟨Text.ofString "\n", none⟩ :: rs := by
  have htext := Piece.flatMap_text_of_cut hd
  rw [List.flatMap_append, List.flatMap_singleton] at htext
  rw [← htext] at hd h
  rw [List.append_assoc] at h
  obtain ⟨rs, hrs, rfl⟩ := Piece.cut_split hd rfl (by decide) h
  obtain ⟨rs, hfeed, rfl⟩ := cut_of_one (CodePoint.ofChar ';') (some Symbol.semicolon.key) rfl hrs
  obtain ⟨rs, hmore, rfl⟩ := cut_of_one (CodePoint.ofChar '\n') none rfl hfeed
  exact ⟨rs, hmore, rfl⟩

/-! ### Reading declarations -/

/-- annotations end with a name -/
theorem Annotated.ends {as : List Word} (h : Annotated as) : ∀ w ∈ as.getLast?, w.IsName := by
  induction h with
  | none => exact nofun
  | @more a n ws _ hn _ ih =>
    cases ws with
    | nil =>
      rintro _ ⟨⟩
      exact hn
    | cons w ws => simpa using ih

/-- rules that are one rule, up to its semicolon, are a row -/
theorem Rows.row {words : List Word} {s : Word} {r : WrittenRule} (h : Rows (words ++ [s]) [r]) (hs : s.Is .semicolon) :
    Row (words ++ [s]) r := by
  generalize hwords : words ++ [s] = whole at h
  cases h with
  | @more ws rest _ _ hrow hrest =>
    cases hrest with
    | done has =>
      have hlast : (ws ++ rest).getLast? = some s := by simp [← hwords]
      cases rest with
      | nil => rwa [List.append_nil]
      | cons a rest =>
        rw [List.getLast?_append_of_ne_nil _ (by simp)] at hlast
        cases hs.symm.trans (has.ends s hlast)

/-- up to its semicolon, a declaration leaves no comment to the words behind it -/
theorem wordsBehind_declaration (comment : Option Text) (m : Mark) (front : List Piece) :
    (∃ words s, wordsBehind comment (Lexed.ofPieces m (front ++ [semicolonPiece])).tokens = words ++ [s] ∧
      s.Is .semicolon) ∧ pending comment (Lexed.ofPieces m (front ++ [semicolonPiece])).tokens = none :=
  ⟨⟨_, _, wordsBehind_ofPieces_append comment m front [semicolonPiece], rfl⟩,
    pending_ofPieces_append (q := semicolonPiece) rfl nofun comment m front⟩

/-- declarations in lines are read as their rules, wherever they stand -/
theorem rows_of_inLines {ds : List Text} {rs : List WrittenRule} (h : List.Forall₂ Declares ds rs) {qs : List Piece}
    (hcut : Piece.cut (inLines ds) = .ok qs) (m : Mark) :
    ∃ rs', Rows (wordsBehind none (Lexed.ofPieces m qs).tokens) rs' ∧
      rs'.map Declaration.placeless = rs.map Declaration.placeless ∧
      (rs' = [] → wordsBehind none (Lexed.ofPieces m qs).tokens = []) := by
  induction h generalizing qs m with
  | nil =>
    obtain rfl : [] = qs := by simpa [inLines, Piece.cut] using hcut
    exact ⟨[], .done .none, rfl, fun _ => rfl⟩
  | @cons d r ds rs hd _ ih =>
    obtain ⟨front, hfront, hrules⟩ := hd
    have hcut' : Piece.cut (d ++ (Text.ofString "\n" ++ inLines ds)) = .ok qs := by
      rw [← hcut]
      simp [inLines]
    obtain ⟨more, hmore, rfl⟩ := cut_of_declaration hfront hcut'
    obtain ⟨⟨words, s, hwords, hs⟩, -⟩ := wordsBehind_declaration none Mark.start front
    have hrow : Row (wordsOf (Lexed.ofPieces Mark.start (front ++ [semicolonPiece])).tokens) r := by
      have hrows := ((gives_rules_iff ..).1 hrules).2
      rw [wordsOf, hwords] at hrows ⊢
      exact hrows.row hs
    obtain ⟨r', hr', hsame⟩ := hrow.same (said_ofPieces none m Mark.start (front ++ [semicolonPiece])).1
    -- the line feed makes no token
    have hsplit : wordsBehind none
        (Lexed.ofPieces m (front ++ semicolonPiece :: ⟨Text.ofString "\n", none⟩ :: more)).tokens =
        wordsBehind none (Lexed.ofPieces m (front ++ [semicolonPiece])).tokens ++
          wordsBehind none (Lexed.ofPieces ((Lexed.ofPieces m (front ++ [semicolonPiece])).stop.afterPiece
            ⟨Text.ofString "\n", none⟩) more).tokens := by
      have hpieces : front ++ semicolonPiece :: ⟨Text.ofString "\n", none⟩ :: more =
          (front ++ [semicolonPiece]) ++ ⟨Text.ofString "\n", none⟩ :: more := by simp
      rw [hpieces, wordsBehind_ofPieces_append, (wordsBehind_declaration none m front).2]
      rfl
    obtain ⟨rs', hrs', hsame', -⟩ := ih hmore ((Lexed.ofPieces m (front ++ [semicolonPiece])).stop.afterPiece
      ⟨Text.ofString "\n", none⟩)
    rw [hsplit]
    exact ⟨r' :: rs', .more hr' hrs', by simp [hsame, hsame'], by rintro ⟨⟩⟩

/-! ### Reading a header in front of rules -/

/-- rows that are no metamodel and no clause of hidden tokens, and do not carry on the name of a grammar -/
theorem Rows.front {words : List Word} {rs : List WrittenRule} (h : Rows words rs) (hempty : rs = [] → words = [])
    (hnames : ∀ r ∈ rs, r.name ≠ "with" ∧ r.name ≠ "as") :
    StartsRules words ∧ atWord "with" words = false ∧ Unnamed words ∧
      (∀ hidden rest, (hiddenHere words).Gives hidden rest → atWord "hidden" words = false) ∧
      ∀ models rest, (metamodels words).Gives models rest → models = [] ∧ rest = words := by
  cases h with
  | done =>
    rw [hempty rfl]
    refine ⟨nofun, rfl, rfl, fun _ _ _ => rfl, fun models rest hread => ?_⟩
    exact hread.unique (metamodels_of_none rfl)
  | @more ws rest r rs hrow _ =>
    obtain ⟨hwith, has⟩ := hnames r List.mem_cons_self
    refine ⟨hrow.startsRules, hrow.not_word ?_, hrow.not_word ?_, fun _ _ hread => hrow.not_hidden hread,
      fun _ _ hread => hrow.not_metamodel hread⟩
    · simp [hwith.symm, introducers]
      decide
    · simp [has.symm, introducers]
      decide

/-- a header says the same in front of any rules -/
theorem header_of_ofWords {hws mid rows : List Word} {h g : WrittenGrammar} {rs : List WrittenRule}
    (hbegun : Begun hws h.name h.uses mid) (hclauses : Clauses mid h.hidden h.metamodels [])
    (hcomment : h.comment = commentHere hws) (hrows : Rows rows rs) (hempty : rs = [] → rows = [])
    (hnames : ∀ r ∈ rs, r.name ≠ "with" ∧ r.name ≠ "as") (hg : WrittenGrammar.ofWords (hws ++ rows) = .ok g) :
    g = { h with rules := rs } := by
  obtain ⟨hstarts, hwith, hunnamed, hhidden, hmodels⟩ := hrows.front hempty hnames
  obtain ⟨w, ws, rfl, hagain⟩ := hbegun.again
  obtain ⟨cs, hmid, hclause, hclausesAgain⟩ := hclauses.again
  rw [List.append_nil] at hmid
  subst hmid
  -- where no clause stands, the rows come right behind the beginning
  have hbehind : StartsRules (mid ++ rows) ∧ atWord "with" (mid ++ rows) = false := by
    cases mid with
    | nil => exact ⟨hstarts, hwith⟩
    | cons m mid =>
      obtain ⟨hname, hvalue⟩ := hclause m rfl
      refine ⟨?_, ?_⟩
      · rintro _ ⟨⟩
        exact .inl hname
      · rw [Bool.eq_false_iff]
        intro hat
        rw [((atWord_cons ..).1 hat).2] at hvalue
        exact absurd hvalue (by decide)
  obtain ⟨mid', rest, hbegun', hclauses', hrows', hcomment'⟩ := (ofWords_iff ..).1 hg
  have hbegan := hagain (w :: ws) (mid ++ rows) rfl hbehind.1 fun _ => hbehind.2
  rw [List.cons_append, List.append_assoc] at hbegun'
  obtain ⟨hname, huses, rfl⟩ := hbegan.unique hbegun'
  have hnotHidden : mid = [] → atWord "hidden" rows = false := by
    rintro rfl
    obtain ⟨_, hread, -⟩ := hclauses'
    exact hhidden _ _ hread
  obtain ⟨hhiddenEq, more, hmodelsEq, hmore⟩ := (hclausesAgain mid rows rfl (fun _ => hunnamed) hnotHidden _ _ _).1
    hclauses'
  obtain ⟨rfl, rfl⟩ := hmodels _ _ hmore
  have hrules : g.rules = rs := hrows.unique hrows'
  have hsaid : g.comment = h.comment := by
    rw [hcomment', hcomment]
    rfl
  obtain ⟨_, _, _, _, _, _⟩ := g
  simp_all

/-- in front of declarations in lines a header is cut as it is cut alone -/
theorem cut_inLines_apart {H : Text} {hp qs : List Piece} {ds : List Text} {rs : List WrittenRule}
    (hcut : Piece.cut H = .ok hp) (hds : List.Forall₂ Declares ds rs) (happ : ∀ d ∈ ds.head?, CutApart H d)
    (hwhole : Piece.cut (H ++ inLines ds) = .ok qs) : ∃ rest, Piece.cut (inLines ds) = .ok rest ∧ qs = hp ++ rest := by
  cases hds with
  | nil =>
    obtain rfl : hp = qs := by simpa [inLines, hcut] using hwhole
    exact ⟨[], by simp [inLines, Piece.cut], by simp⟩
  | @cons d _ ds _ hd _ =>
    obtain ⟨ps, us, hps, hus, hboth⟩ := happ d rfl
    obtain rfl := Except.ok.inj (hcut.symm.trans hps)
    obtain ⟨front, hfront, -⟩ := hd
    have hne : d ≠ [] := by
      rintro rfl
      simp [Piece.cut] at hfront
    rw [show inLines (d :: ds) = d ++ (Text.ofString "\n" ++ inLines ds) by simp [inLines]] at hwhole ⊢
    exact Piece.cut_split hboth (Piece.flatMap_text_of_cut hcut) hne hwhole

/-- declarations in lines behind a header are read as what the header says and their rules -/
theorem ofText_inLines {H : Text} {h w : WrittenGrammar} {ds : List Text} {rs : List WrittenRule} {file : Path}
    (hH : IsHeader H h) (hds : List.Forall₂ Declares ds rs) (happ : ∀ d ∈ ds.head?, CutApart H d)
    (hnames : ∀ r ∈ rs, r.name ≠ "with" ∧ r.name ≠ "as") (hw : WrittenGrammar.ofText file (H ++ inLines ds) = .ok w) :
    w = { h with rules := w.rules } ∧ w.rules.map Declaration.placeless = rs.map Declaration.placeless := by
  obtain ⟨hp, mid, hcut, hbegun, hclauses, -, hcomment, hpending⟩ := hH
  obtain ⟨qs, hwhole, hwords⟩ := ofWords_of_ofText hw
  obtain ⟨rest, hrest, rfl⟩ := cut_inLines_apart hcut hds happ hwhole
  obtain ⟨rs', hrows, hsame, hempty⟩ := rows_of_inLines hds hrest (Lexed.ofPieces Mark.start hp).stop
  have hnames' : ∀ r ∈ rs', r.name ≠ "with" ∧ r.name ≠ "as" := by
    intro r hr
    obtain ⟨q, hq, hname⟩ := List.mem_map.1 (names_of_placeless hsame ▸ List.mem_map_of_mem hr)
    rw [← hname]
    exact hnames q hq
  rw [wordsOf, wordsBehind_ofPieces_append, hpending] at hwords
  obtain rfl := header_of_ofWords hbegun hclauses hcomment hrows hempty hnames' hwords
  exact ⟨rfl, hsame⟩

/-! ## Linking in another order -/

/-- the reference, where the first `n` rules of a grammar have gone to other places -/
def RuleRef.moved {n : Nat} (grammar : Nat) (σ : Fin n → Fin n) (ref : RuleRef) : RuleRef :=
  match ref.id with
  | .declared g i => if h : g = grammar ∧ i < n then { ref with id := .declared g (σ ⟨i, h.2⟩) } else ref
  | .standIn _ _ => ref

section Moving

variable {n id : Nat} {σ : Fin n → Fin n}

theorem RuleRef.moved_own (i : Fin n) (name : Text) :
    RuleRef.moved id σ ⟨.declared id i.val, name⟩ = ⟨.declared id (σ i).val, name⟩ := by
  simp [moved]

theorem RuleRef.moved_standIn (scope : Nat) (written name : Text) :
    RuleRef.moved id σ ⟨.standIn scope written, name⟩ = ⟨.standIn scope written, name⟩ := rfl

/-- a rule of another grammar does not move -/
theorem RuleRef.moved_foreign {grammar i : Nat} {name : Text} (h : grammar ≠ id) :
    RuleRef.moved id σ ⟨.declared grammar i, name⟩ = ⟨.declared grammar i, name⟩ := by
  simp [moved, h]

/-- a name that is declared once is found where it is declared -/
theorem findIdx?_ofFn {names : Fin n → Text} (h : Function.Injective names) (i : Fin n) :
    (List.ofFn names).findIdx? (fun own => own = names i) = some i.val := by
  rw [List.findIdx?_eq_some_iff_getElem]
  refine ⟨by simp, by simp, fun j hj => ?_⟩
  have hne : (⟨j, hj.trans i.isLt⟩ : Fin n) ≠ i := fun heq => absurd (congrArg Fin.val heq) (Nat.ne_of_lt hj)
  simpa using h.ne hne

end Moving

/-- a call means the same rule where rules of different names stand in another order -/
theorem Scope.resolve_reordered {n id : Nat} {σ : Equiv.Perm (Fin n)} {names : Fin n → Text}
    (hnames : Function.Injective names) (name : Text) {used : List Grammar}
    (hused : ∀ name r, Grammar.findInUsed used name = some r → r.ref.moved id σ = r.ref) (c : WrittenCall) :
    (Scope.resolve ⟨id, name, List.ofFn (names ∘ σ), used⟩ c).moved id σ =
      Scope.resolve ⟨id, name, List.ofFn names, used⟩ c := by
  have hforeign : ∀ own own', (((Grammar.findInUsed used c.name).map Rule.ref).getD
      (Scope.standIn ⟨id, name, own, used⟩ c.written)).moved id σ =
        ((Grammar.findInUsed used c.name).map Rule.ref).getD (Scope.standIn ⟨id, name, own', used⟩ c.written) := by
    intro own own'
    cases hfound : Grammar.findInUsed used c.name with
    | none => exact RuleRef.moved_standIn ..
    | some r => exact hused c.name r hfound
  unfold Scope.resolve Scope.find?
  cases c.qualifier with
  | some q => exact hforeign _ _
  | none =>
    by_cases hown : ∃ i, names (σ i) = c.name
    · obtain ⟨i, hi⟩ := hown
      have hthere := findIdx?_ofFn hnames (σ i)
      have hhere := findIdx?_ofFn (hnames.comp σ.injective) i
      rw [Function.comp_apply] at hhere
      rw [hi] at hthere hhere
      simp [Scope.ownRule?, hthere, hhere, RuleRef.moved_own]
    · push Not at hown
      have hhere : (List.ofFn (names ∘ σ)).findIdx? (fun own => own = c.name) = none := by
        simpa [List.findIdx?_eq_none_iff] using hown
      have hthere : (List.ofFn names).findIdx? (fun own => own = c.name) = none := by
        simpa [List.findIdx?_eq_none_iff] using fun i => by simpa using hown (σ.symm i)
      simpa [Scope.ownRule?, hhere, hthere] using hforeign _ _

/-- rules that are written alike and whose calls mean the same have the same tree -/
theorem Scope.definition_linkRule {s s' : Scope} {f : RuleRef → RuleRef} (h : ∀ c, f (s'.resolve c) = s.resolve c)
    {r r' : WrittenRule} (hsame : r'.placeless = r.placeless) (i j : Nat) :
    (s'.linkRule i r').definition.map (Element.map (Option.map f)) = (s.linkRule j r).definition := by
  have htrees : r'.definition.map Rulebook.placeless = r.definition.map Rulebook.placeless :=
    congrArg Declaration.definition hsame
  have hlinked : ∀ d : Option Tree, d.map (Element.map fun c => some (s.resolve c)) =
      (d.map Rulebook.placeless).map (Element.map fun c => some (s.resolve c)) := by
    intro d
    rw [Option.map_map]
    congr 1
    funext t
    rw [Function.comp_apply, Element.map_map]
    rfl
  calc (s'.linkRule i r').definition.map (Element.map (Option.map f))
      = r'.definition.map (Element.map fun c => some (s.resolve c)) := by
        rw [Scope.linkRule, Option.map_map]
        congr 1
        funext t
        rw [Function.comp_apply, Element.map_map]
        congr 1
        funext c
        rw [Function.comp_apply, Option.map_some, h]
    _ = r.definition.map (Element.map fun c => some (s.resolve c)) := by rw [hlinked, htrees, ← hlinked]

/-- `g'` has the `n` rules of `g` in another order: at place `i` the rule that stands at place `σ i` in `g`, written the
same, and calling the same rules -/
structure Reordered {n : Nat} (σ : Equiv.Perm (Fin n)) (g g' : Grammar) : Prop where
  /-- all but the rules is the same, the used grammars included -/
  header : { g' with rules := g.rules } = g
  length : g.rules.length = n ∧ g'.rules.length = n
  /-- the rules correspond, and a call is linked to the rule that corresponds -/
  rules : ∀ i : Fin n, ∃ r r' : Rule, g.rules[(σ i).val]? = some r ∧ g'.rules[i.val]? = some r' ∧ r'.kind = r.kind ∧
    r'.name = r.name ∧ r'.typeName = r.typeName ∧ r'.comment = r.comment ∧ r'.ref.moved g.id σ = r.ref ∧
    r'.definition.map (Element.map (Option.map (RuleRef.moved g.id σ))) = r.definition
  /-- a rule of a used grammar corresponds to itself -/
  foreign : ∀ u ∈ g.used, ∀ k, u.Reaches k → ∀ r ∈ k.rules, r.ref.moved g.id σ = r.ref

/-- texts whose rules are the same in another order are linked alike -/
theorem reordered_link {n id : Nat} {σ : Equiv.Perm (Fin n)} {h : WrittenGrammar} {r : Fin n → WrittenRule}
    (hnames : Function.Injective fun i => (r i).name) {rs rs' : List WrittenRule}
    (hrs : rs.map Declaration.placeless = (List.ofFn r).map Declaration.placeless)
    (hrs' : rs'.map Declaration.placeless = (List.ofFn (r ∘ σ)).map Declaration.placeless) {used : List Grammar}
    (hforeign : ∀ u ∈ used, ∀ k, u.Reaches k → ∀ q ∈ k.rules, q.ref.moved id σ = q.ref) :
    Reordered σ (WrittenGrammar.link { h with rules := rs } id used)
      (WrittenGrammar.link { h with rules := rs' } id used) := by
  have hlength : rs.length = n := by simpa using congrArg List.length hrs
  have hlength' : rs'.length = n := by simpa using congrArg List.length hrs'
  have hown : rs.map Declaration.name = List.ofFn fun i => (r i).name := by
    rw [names_of_placeless hrs, List.map_ofFn]
    rfl
  have hown' : rs'.map Declaration.name = List.ofFn ((fun i => (r i).name) ∘ σ) := by
    rw [names_of_placeless hrs', List.map_ofFn]
    rfl
  have hused : ∀ name q, Grammar.findInUsed used name = some q → q.ref.moved id σ = q.ref := by
    intro name q hq
    rw [Grammar.findInUsed_eq] at hq
    obtain ⟨u, hu, k, hk, hmem⟩ := Grammar.reached_of_mem_allRulesUsed used (List.mem_of_find?_eq_some hq)
    exact hforeign u hu k hk q hmem
  have hresolve := Scope.resolve_reordered (σ := σ) hnames h.name hused
  refine ⟨rfl, ⟨by simpa [WrittenGrammar.link, Scope.linkFrom_eq] using hlength,
    by simpa [WrittenGrammar.link, Scope.linkFrom_eq] using hlength'⟩, fun i => ?_, hforeign⟩
  have hthere : (σ i).val < rs.length := hlength ▸ (σ i).isLt
  have hhere : i.val < rs'.length := hlength' ▸ i.isLt
  have hsame : rs'[i.val].placeless = rs[(σ i).val].placeless := by
    have hleft := List.getElem_of_eq hrs' (i := i.val) (by simpa using hhere)
    have hright := List.getElem_of_eq hrs (i := (σ i).val) (by simpa using hthere)
    simp only [List.getElem_map, List.getElem_ofFn, Fin.eta, Function.comp_apply] at hleft hright
    rw [hleft, hright]
  obtain ⟨hkind, hname, htype, hcomment⟩ := written_of_placeless hsame
  refine ⟨Scope.linkRule _ (σ i).val rs[(σ i).val], Scope.linkRule _ i.val rs'[i.val],
    by rw [getElem?_rules_link, List.getElem?_eq_getElem hthere, Option.map_some],
    by rw [getElem?_rules_link, List.getElem?_eq_getElem hhere, Option.map_some],
    hkind, hname, htype, hcomment, ?_, ?_⟩
  · simp only [Rule.ref, Scope.linkRule, WrittenGrammar.scope, hname]
    exact RuleRef.moved_own i _
  · refine Scope.definition_linkRule (fun c => ?_) hsame _ _
    simp only [WrittenGrammar.scope, hown, hown']
    exact hresolve c

/-- **The order of declarations does not change what they mean**: for every header and all declarations of rules with
different names, in any two orders in which a reader accepts them, the same rules are read in the other order, and each
call is linked to the rule that corresponds. A name that the header could take for its own is left out. -/
theorem reordered_rules_link_alike {n : Nat} {D : Fin n → Text} {r : Fin n → WrittenRule} (σ : Equiv.Perm (Fin n))
    {H : Text} {h : WrittenGrammar} {files : FileTree} {searchPaths : List Path} {file : Path} {base : Option Path}
    {l l₁ l₂ : Library} {g g' : Grammar} (hl : l.Idle) (hH : IsHeader H h) (hD : ∀ i, Declares (D i) (r i))
    (hnames : Function.Injective fun i => (r i).name) (hwords : ∀ i, (r i).name ≠ "with" ∧ (r i).name ≠ "as")
    (happ : ∀ d ∈ (List.ofFn D).head?, CutApart H d) (happ' : ∀ d ∈ (List.ofFn (D ∘ σ)).head?, CutApart H d)
    (hg : Library.readText files searchPaths file base (H ++ inLines (List.ofFn D)) l = (.ok g, l₁))
    (hg' : Library.readText files searchPaths file base (H ++ inLines (List.ofFn (D ∘ σ))) l = (.ok g', l₂)) :
    Reordered σ g g' := by
  have hrows : List.Forall₂ Declares (List.ofFn D) (List.ofFn r) :=
    List.forall₂_iff_get.2 ⟨by simp, fun i _ _ => by simpa using hD _⟩
  have hrows' : List.Forall₂ Declares (List.ofFn (D ∘ σ)) (List.ofFn (r ∘ σ)) :=
    List.forall₂_iff_get.2 ⟨by simp, fun i _ _ => by simpa using hD _⟩
  obtain ⟨w, used, l₃, later, hw, heach, rfl, rfl, hlater, hglater⟩ := hl.linked hg
  obtain ⟨w', used', l₄, hw', heach', rfl, rfl⟩ := Library.readWith_ok hg'
  obtain ⟨hheader, hsame⟩ := ofText_inLines hH hrows happ (by simpa using hwords) hw
  obtain ⟨hheader', hsame'⟩ := ofText_inLines hH hrows' happ' (by simpa using fun i => hwords (σ i)) hw'
  -- the headers are the same, so the same grammars are used and the same number is next
  rw [hheader'] at heach'
  rw [hheader] at heach
  obtain ⟨heq, rfl⟩ := Prod.ext_iff.1 (heach.symm.trans heach')
  obtain rfl := Except.ok.inj heq
  have hforeign : ∀ u ∈ used, ∀ k, u.Reaches k → ∀ q ∈ k.rules, q.ref.moved l₃.fresh σ = q.ref := by
    intro u hu k hk q hq
    obtain ⟨n, i, hid, hbefore⟩ := hlater.id_of_used hglater hu hk hq
    rw [Rule.ref, hid]
    exact RuleRef.moved_foreign (Nat.ne_of_lt hbefore)
  rw [hheader, hheader']
  exact reordered_link hnames hsame hsame' hforeign

/-- the pieces of the declaration `A:B;`, up to its semicolon -/
def callPieces : List Piece :=
  [⟨Text.ofString "A", some (.name, "A")⟩, ⟨Text.ofString ":", some (.symbol .colon, ":")⟩,
    ⟨Text.ofString "B", some (.name, "B")⟩]

/-- the pieces of the declaration `B:'x';`, up to its semicolon -/
def keywordPieces : List Piece :=
  [⟨Text.ofString "B", some (.name, "B")⟩, ⟨Text.ofString ":", some (.symbol .colon, ":")⟩,
    ⟨Text.ofString "'x'", some (.literal, "x")⟩]

/-- what the declarations `A:B;` and `B:'x';` say when they begin at a line and a column -/
def callRule (line column : Nat) : WrittenRule :=
  ⟨.parser false [], "A", none, none, some line, some (.call .none ⟨none, "B", line, column + 2⟩)⟩

@[inherit_doc callRule]
def keywordRule (line : Nat) : WrittenRule :=
  ⟨.parser false [], "B", none, none, some line, some (.keyword .none "x")⟩

/-- the tokens of the two declarations -/
def callTokens (line column : Nat) : List Token :=
  [⟨.name, "A", line, column, 1⟩, ⟨.symbol .colon, ":", line, column + 1, 1⟩, ⟨.name, "B", line, column + 2, 1⟩,
    ⟨.symbol .semicolon, ";", line, column + 3, 1⟩]

@[inherit_doc callTokens]
def keywordTokens (line column : Nat) : List Token :=
  [⟨.name, "B", line, column, 1⟩, ⟨.symbol .colon, ":", line, column + 1, 1⟩, ⟨.literal, "x", line, column + 2, 3⟩,
    ⟨.symbol .semicolon, ";", line, column + 5, 1⟩]

theorem row_callTokens (line column : Nat) : Row (wordsOf (callTokens line column)) (callRule line column) := by
  have hcall : Leaf .parser [⟨⟨.name, "B", line, column + 2, 1⟩, none⟩] (.call .none ⟨none, "B", line, column + 2⟩) :=
    .call (.named (.plain rfl) nofun)
  exact .leaf rfl rfl hcall rfl

theorem row_keywordTokens (line column : Nat) : Row (wordsOf (keywordTokens line column)) (keywordRule line) := by
  have hkeyword : Leaf .parser [⟨⟨.literal, "x", line, column + 2, 3⟩, none⟩] (.keyword .none "x") := .keyword rfl
  exact .leaf rfl rfl hkeyword rfl

theorem declares_of_row {text : Text} {front : List Piece} {r : WrittenRule}
    (hcut : Piece.cut text = .ok (front ++ [semicolonPiece]))
    (hrow : Row (wordsOf (Lexed.ofPieces Mark.start (front ++ [semicolonPiece])).tokens) r) : Declares text r := by
  refine ⟨front, hcut, (gives_rules_iff ..).2 ⟨rfl, ?_⟩⟩
  rw [← List.append_nil (wordsOf _)]
  exact .more hrow (.done .none)

/-- the declarations and their rules -/
def twoDeclarations : Fin 2 → Text := ![Text.ofString "A:B;", Text.ofString "B:'x';"]

@[inherit_doc twoDeclarations]
def twoRules : Fin 2 → WrittenRule := ![callRule 1 1, keywordRule 1]

/-- the pieces and the tokens of the header `grammar a ` -/
def briefPieces : List Piece :=
  [⟨Text.ofString "grammar", some (.name, "grammar")⟩, ⟨Text.ofString " ", none⟩,
    ⟨Text.ofString "a", some (.name, "a")⟩, ⟨Text.ofString " ", none⟩]

@[inherit_doc briefPieces]
def briefTokens : List Token := [⟨.name, "grammar", 1, 1, 7⟩, ⟨.name, "a", 1, 9, 1⟩]

/-- a new reader reads the header and two rows behind it -/
theorem readText_brief (declarations : Text) (tokens : List Token) (stop : Mark) {r r' : WrittenRule}
    {ws us : List Word}
    (hlexed : Lexed.ofSource (Path.ofText "a") (Text.ofString "grammar a " ++ declarations) =
      .ok ⟨briefTokens ++ tokens, stop⟩)
    (hwords : wordsOf tokens = ws ++ us) (hws : Row ws r) (hus : Row us r') (hdot : Undotted (ws ++ us))
    (hclause : ∀ word ∈ (["with", "hidden"] : List Text), atWord word (ws ++ us) = false)
    (hmodels : metamodel? (ws ++ us) = none) :
    ∃ l', Library.readText ⟨[], []⟩ [] (Path.ofText "a") none (Text.ofString "grammar a " ++ declarations) .empty =
      (.ok (WrittenGrammar.link ⟨"a", none, [], [], [], [r, r']⟩ 0 []), l') := by
  have hrows : Rows (ws ++ us) [r, r'] := by
    rw [← List.append_nil us]
    exact .more hws (.more hus (.done .none))
  have hbegins : wordsOf (briefTokens ++ tokens) =
      ⟨⟨.name, "grammar", 1, 1, 7⟩, none⟩ :: ⟨⟨.name, "a", 1, 9, 1⟩, none⟩ :: (ws ++ us) := by
    rw [← hwords]
    rfl
  have htext := ofText_of_rows hlexed hbegins ⟨rfl, rfl⟩ rfl hdot hclause hmodels hrows
  rw [Library.readText, Library.readWith, htext]
  exact ⟨_, rfl⟩

/-- two rules that change places, one of which calls the other -/
theorem swapped_rules_link_alike : ∃ (g g' : Grammar) (l₁ l₂ : Library),
    Library.Idle .empty ∧ IsHeader (Text.ofString "grammar a ") ⟨"a", none, [], [], [], []⟩ ∧
      (∀ i, Declares (twoDeclarations i) (twoRules i)) ∧ (Function.Injective fun i => (twoRules i).name) ∧
      (∀ i, (twoRules i).name ≠ "with" ∧ (twoRules i).name ≠ "as") ∧
      (∀ d ∈ (List.ofFn twoDeclarations).head?, CutApart (Text.ofString "grammar a ") d) ∧
      (∀ d ∈ (List.ofFn (twoDeclarations ∘ Equiv.swap 0 1)).head?, CutApart (Text.ofString "grammar a ") d) ∧
      Library.readText ⟨[], []⟩ [] (Path.ofText "a") none
        (Text.ofString "grammar a " ++ inLines (List.ofFn twoDeclarations)) .empty = (.ok g, l₁) ∧
      Library.readText ⟨[], []⟩ [] (Path.ofText "a") none
        (Text.ofString "grammar a " ++ inLines (List.ofFn (twoDeclarations ∘ Equiv.swap 0 1))) .empty = (.ok g', l₂) ∧
      Reordered (Equiv.swap (0 : Fin 2) 1) g g' := by
  have hcall : Piece.cut "A:B;" = .ok (callPieces ++ [semicolonPiece]) := by cbv
  have hkeyword : Piece.cut "B:'x';" = .ok (keywordPieces ++ [semicolonPiece]) := by cbv
  have hbrief : Piece.cut "grammar a " = .ok briefPieces := by cbv
  have hheader : IsHeader (Text.ofString "grammar a ") ⟨"a", none, [], [], [], []⟩ :=
    ⟨briefPieces, [], hbrief, begun_of_name (x := ⟨⟨.name, "grammar", 1, 1, 7⟩, none⟩)
      (n := ⟨⟨.name, "a", 1, 9, 1⟩, none⟩) ⟨rfl, rfl⟩ rfl rfl rfl, clauses_of_none rfl rfl, rfl, rfl, rfl⟩
  have hdeclares : ∀ i, Declares (twoDeclarations i) (twoRules i) :=
    Fin.forall_fin_two.2 ⟨declares_of_row hcall (row_callTokens 1 1), declares_of_row hkeyword (row_keywordTokens 1 1)⟩
  have hnames : Function.Injective fun i => (twoRules i).name := by decide
  have hwords : ∀ i, (twoRules i).name ≠ "with" ∧ (twoRules i).name ≠ "as" := by decide
  have happ : ∀ d ∈ (List.ofFn twoDeclarations).head?, CutApart (Text.ofString "grammar a ") d := by
    rintro _ ⟨⟩
    exact ⟨_, _, hbrief, hcall, by cbv⟩
  have happ' : ∀ d ∈ (List.ofFn (twoDeclarations ∘ Equiv.swap 0 1)).head?,
      CutApart (Text.ofString "grammar a ") d := by
    rintro _ ⟨⟩
    exact ⟨_, _, hbrief, hkeyword, by cbv⟩
  obtain ⟨l₁, hg⟩ := readText_brief (inLines (List.ofFn twoDeclarations))
    (callTokens 1 11 ++ keywordTokens 2 1) ⟨3, 1⟩ (by cbv) rfl (row_callTokens 1 11)
    (row_keywordTokens 2 1) rfl (by decide) rfl
  obtain ⟨l₂, hg'⟩ := readText_brief (inLines (List.ofFn (twoDeclarations ∘ Equiv.swap 0 1)))
    (keywordTokens 1 11 ++ callTokens 2 1) ⟨3, 1⟩ (by cbv) rfl (row_keywordTokens 1 11)
    (row_callTokens 2 1) rfl (by decide) rfl
  exact ⟨_, _, l₁, l₂, .start, hheader, hdeclares, hnames, hwords, happ, happ', hg, hg',
    reordered_rules_link_alike (Equiv.swap 0 1) .start hheader hdeclares hnames hwords happ happ' hg hg'⟩

end Rulebook
