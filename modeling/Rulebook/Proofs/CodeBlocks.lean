/-
Definitions in blocks of code. A printed rule breaks lines in two places only: behind the colon, and before the bar of an
alternative that stands on a row of its own. Everything else that is printed stands on one line: names are identifiers,
and keywords are quoted with their breaks escaped (`oneLine_quoteKeyword`), so by induction over the definition no node
breaks a line (`oneLine_body`), whatever its keywords hold.

The header is made of the code points of names and a few marks (`headerPoints_header`), and every other row begins with
four blanks. So no row can end the block of code in which the rule is shown.

- `definition_stays_in_its_block`: the rows of a printed rule, and that they stand between the fences of the page.
-/
import Rulebook.Proofs.ShownComments

namespace Rulebook

open Source Element

/-! ## Texts on one line -/

namespace Text

/-- neither a line feed nor a return stands in the text -/
def OneLine (t : Text) : Prop := ∀ c ∈ t, c ≠ CodePoint.ofChar '\n' ∧ c ≠ CodePoint.ofChar '\r'

instance (t : Text) : Decidable t.OneLine :=
  inferInstanceAs (Decidable (∀ c ∈ t, c ≠ CodePoint.ofChar '\n' ∧ c ≠ CodePoint.ofChar '\r'))

theorem OneLine.append {t u : Text} (ht : t.OneLine) (hu : u.OneLine) : OneLine (t ++ u) :=
  List.forall_mem_append.2 ⟨ht, hu⟩

theorem OneLine.lineFeed_notMem {t : Text} (h : t.OneLine) : CodePoint.ofChar '\n' ∉ t := fun hmem => (h _ hmem).1 rfl

theorem OneLine.return_notMem {t : Text} (h : t.OneLine) : CodePoint.ofChar '\r' ∉ t := fun hmem => (h _ hmem).2 rfl

end Text

/-- a code point of a name, or one of the marks that stand around the names of a header -/
def CodePoint.isHeaderPoint (c : CodePoint) : Bool := Piece.isNamePart c || (Text.ofString " ,():").contains c

theorem oneLine_of_headerPoints {t : Text} (h : ∀ c ∈ t, c.isHeaderPoint = true) : t.OneLine := by
  have hbreaks : (CodePoint.ofChar '\n').isHeaderPoint = false ∧ (CodePoint.ofChar '\r').isHeaderPoint = false := by decide
  refine fun c hc => ⟨?_, ?_⟩
  · rintro rfl
    exact Bool.noConfusion ((h _ hc).symm.trans hbreaks.1)
  · rintro rfl
    exact Bool.noConfusion ((h _ hc).symm.trans hbreaks.2)

theorem headerPoints_of_isIdentifier {n : Text} (h : IsIdentifier n) : ∀ c ∈ n, c.isHeaderPoint = true := by
  intro c hc
  cases hpart : Piece.isNamePart c with
  | true => rw [CodePoint.isHeaderPoint, hpart, Bool.true_or]
  | false => exact absurd hc (not_mem_of_isIdentifier h hpart)

theorem headerPoints_of_callable {m : Mode} {n : Text} (h : Callable m n) : ∀ c ∈ n, c.isHeaderPoint = true := by
  cases h with
  | plain hn _ => exact headerPoints_of_isIdentifier hn
  | qualified hq hn _ =>
    have hcolons : ∀ c ∈ Text.ofString "::", c.isHeaderPoint = true := by decide
    exact List.forall_mem_append.2 ⟨List.forall_mem_append.2 ⟨headerPoints_of_isIdentifier hq, hcolons⟩,
      headerPoints_of_isIdentifier hn⟩

theorem oneLine_of_isIdentifier {n : Text} (h : IsIdentifier n) : n.OneLine :=
  oneLine_of_headerPoints (headerPoints_of_isIdentifier h)

theorem oneLine_of_callable {m : Mode} {n : Text} (h : Callable m n) : n.OneLine :=
  oneLine_of_headerPoints (headerPoints_of_callable h)

theorem headerPoints_header {ρ : Type} {r : Declaration ρ} (h : Headed r.kind r.name r.typeName) :
    ∀ c ∈ r.header, c.isHeaderPoint = true := by
  have hblank : ∀ c ∈ Text.ofString " ", c.isHeaderPoint = true := by decide
  refine Text.forall_mem_join hblank ?_
  have hintroduction : ∀ t ∈ r.introduction, ∀ c ∈ t, c.isHeaderPoint = true := by
    unfold Declaration.introduction
    split
    · split <;> decide
    · split <;> decide
    · decide
    · decide
  have hreturns : ∀ t ∈ r.returnsClause, ∀ c ∈ t, c.isHeaderPoint = true := by
    unfold Declaration.returnsClause
    split
    · next d name htype =>
      have hmark : ∀ c ∈ Text.ofString "returns ", c.isHeaderPoint = true := by decide
      exact List.forall_mem_singleton.2
        (List.forall_mem_append.2 ⟨hmark, headerPoints_of_callable (h.callable _ htype)⟩)
    · exact List.forall_mem_nil _
  have hhidden : ∀ t ∈ r.hiddenClause, ∀ c ∈ t, c.isHeaderPoint = true := by
    unfold Declaration.hiddenClause
    split
    · next fragment n ns hkind =>
      have hdistinct := h.distinct
      rw [hkind] at hdistinct
      have hopen : ∀ c ∈ Text.ofString "hidden(", c.isHeaderPoint = true := by decide
      have hcomma : ∀ c ∈ Text.ofString ", ", c.isHeaderPoint = true := by decide
      have hclose : ∀ c ∈ Text.ofString ")", c.isHeaderPoint = true := by decide
      refine List.forall_mem_singleton.2 (List.forall_mem_append.2 ⟨List.forall_mem_append.2 ⟨hopen, ?_⟩, hclose⟩)
      exact Text.forall_mem_join hcomma fun name hname => headerPoints_of_callable (hdistinct.1 name hname)
    · exact List.forall_mem_nil _
  refine List.forall_mem_append.2 ⟨List.forall_mem_append.2 ⟨List.forall_mem_append.2 ⟨hintroduction, ?_⟩, hreturns⟩, hhidden⟩
  exact List.forall_mem_singleton.2 (headerPoints_of_isIdentifier h.identifier)

/-- the breaks of a keyword are escaped when it is quoted -/
theorem oneLine_quoteKeyword (value : Text) : (quoteKeyword value).OneLine := by
  have hpoint : ∀ c : CodePoint, (keywordPoint c).OneLine := by
    intro c
    unfold keywordPoint
    split_ifs with _ _ hfeed hreturn
    · decide
    · decide
    · decide
    · decide
    · decide
    · exact List.forall_mem_singleton.2 ⟨hfeed, hreturn⟩
  have hquote : (Text.ofString "'").OneLine := by decide
  refine (hquote.append fun c hc => ?_).append hquote
  obtain ⟨d, -, hd⟩ := List.mem_flatMap.1 hc
  exact hpoint d c hd

/-! ## Nodes on one line -/

namespace Element

variable {ρ : Type}

/-- the names that a node shows, and its operator -/
def shownNames (name : ρ → Text) : Element ρ → List Text
  | call _ t => [name t]
  | assignment _ f o _ => [f, o]
  | crossReference _ n _ => [n]
  | action _ n f o => n :: (f.toList ++ o.toList)
  | literal _ n _ => [n]
  | _ => []

/-- every name in the definition stands on one line -/
def NamedOnLines (name : ρ → Text) (e : Element ρ) : Prop := ∀ x ∈ e.nodes, ∀ n ∈ x.shownNames name, n.OneLine

theorem namedOnLines_iff {name : ρ → Text} {e : Element ρ} : e.NamedOnLines name ↔
    (∀ n ∈ e.shownNames name, n.OneLine) ∧ ∀ c ∈ e.children, c.NamedOnLines name :=
  forall_nodes_iff e

/-- a node without names and without nodes below it -/
theorem namedOnLines_leaf {name : ρ → Text} {e : Element ρ} (hnames : e.shownNames name = []) (hleaf : e.children = []) :
    e.NamedOnLines name := by
  rw [namedOnLines_iff, hnames, hleaf]
  exact ⟨List.forall_mem_nil _, List.forall_mem_nil _⟩

theorem namedOnLines_map {σ : Type} {name : σ → Text} {f : ρ → σ} {e : Element ρ} (h : e.NamedOnLines (name ∘ f)) :
    (e.map f).NamedOnLines name := by
  rw [NamedOnLines, nodes_map, List.forall_mem_map]
  intro x hx
  have hshown : (x.map f).shownNames name = x.shownNames (name ∘ f) := by cases x <;> rfl
  rw [hshown]
  exact h x hx

theorem oneLine_dressed (context : Nat) (e : Element ρ) {body : Text} (h : body.OneLine) :
    (dressed context e body).OneLine := by
  have hpredicate : Text.OneLine ((e.decoration.predicate.map Predicate.text).getD []) := by
    cases e.decoration.predicate with
    | none => exact List.forall_mem_nil _
    | some p => cases p <;> decide
  have hcardinality : Text.OneLine ((e.decoration.cardinality.map Cardinality.text).getD []) := by
    cases e.decoration.cardinality with
    | none => exact List.forall_mem_nil _
    | some c => cases c <;> decide
  have hinner : Text.OneLine (if e.parenthesized context then "(" ++ body ++ ")" else body) := by
    have hopen : (Text.ofString "(").OneLine := by decide
    have hclose : (Text.ofString ")").OneLine := by decide
    split
    · exact (hopen.append h).append hclose
    · exact h
  exact (hpredicate.append hinner).append hcardinality

/-- a definition is printed on one line when all names in it are -/
theorem oneLine_body {name : ρ → Text} {e : Element ρ} (h : e.NamedOnLines name) : (e.body name).OneLine := by
  induction hn : e.size using Nat.strong_induction_on generalizing e with
  | _ n ih =>
    obtain ⟨hown, hbelow⟩ := namedOnLines_iff.1 h
    have hchild : ∀ c ∈ e.children, ∀ context, (dressed context c (c.body name)).OneLine := fun c hc context =>
      oneLine_dressed context c (ih c.size (hn ▸ size_lt_of_child hc) (hbelow c hc) rfl)
    cases e with
    | keyword d v => exact oneLine_quoteKeyword v
    | call d t => exact hown _ List.mem_cons_self
    | assignment d f o t =>
      exact ((hown f (by simp [shownNames])).append (hown o (by simp [shownNames]))).append (hchild t List.mem_cons_self 4)
    | crossReference d n t =>
      have hopen : (Text.ofString "[").OneLine := by decide
      have hclose : (Text.ofString "]").OneLine := by decide
      have hbar : (Text.ofString "|").OneLine := by decide
      have hterminal : (bodyOption name t).OneLine := by
        cases t with
        | none => exact List.forall_mem_nil _
        | some t => exact hbar.append (hchild t List.mem_cons_self 4)
      exact ((hopen.append (hown n List.mem_cons_self)).append hterminal).append hclose
    | action d n f o =>
      have hleft : (Text.ofString "\x7b").OneLine := by decide
      have hright : (Text.ofString "\x7d").OneLine := by decide
      have hname := hown n List.mem_cons_self
      cases f with
      | none => exact (hleft.append hname).append hright
      | some f =>
        have hdot : (Text.ofString ".").OneLine := by decide
        have hcurrent : (Text.ofString "current").OneLine := by decide
        have hoperator : Text.OneLine (o.getD "None") := by
          cases o with
          | none => decide
          | some o => exact hown o (by simp [shownNames])
        exact (((((hleft.append hname).append hdot).append (hown f (by simp [shownNames]))).append hoperator).append
          hcurrent).append hright
    | compound d g es =>
      have hseparator : g.separator.OneLine := by cases g <;> decide
      rw [body_compound]
      exact Text.forall_mem_join hseparator (List.forall_mem_map.2 fun c hc => hchild c hc g.memberContext)
    | range d l r =>
      have hdots : (Text.ofString "..").OneLine := by decide
      exact ((oneLine_quoteKeyword _).append hdots).append (oneLine_quoteKeyword _)
    | wildcard d => exact show (Text.ofString ".").OneLine by decide
    | endOfFile d => exact show (Text.ofString "EOF").OneLine by decide
    | negated d e =>
      have hbang : (Text.ofString "!").OneLine := by decide
      exact hbang.append (hchild e List.mem_cons_self 4)
    | upTo d e =>
      have harrow : (Text.ofString "-> ").OneLine := by decide
      exact harrow.append (hchild e List.mem_cons_self 4)
    | literal d n k =>
      have hname := hown n List.mem_cons_self
      cases k with
      | none => exact hname
      | some k =>
        have hequals : (Text.ofString "=").OneLine := by decide
        exact (hname.append hequals).append (oneLine_quoteKeyword _)
    | bare d => exact List.forall_mem_nil _

/-- how many rows a definition takes: one for each member of a choice with nothing around it, one for anything else -/
def rowCount : Element ρ → Nat
  | compound ⟨none, none⟩ .choice es => es.length
  | _ => 1

theorem rowCount_map {σ : Type} (f : ρ → σ) (e : Element ρ) : (e.map f).rowCount = e.rowCount := by
  cases e with
  | compound d g es =>
    obtain ⟨c, p⟩ := d
    cases c with
    | some c => rfl
    | none =>
      cases p with
      | some p => rfl
      | none =>
        cases g with
        | choice => simp [map, rowCount, mapList_eq_map]
        | _ => rfl
  | _ => rfl

/-- a definition takes a row, unless it is a choice without members -/
theorem rowCount_ne_zero {e : Element ρ} (h : ∀ d es, e = compound d .choice es → es ≠ []) : e.rowCount ≠ 0 := by
  unfold rowCount
  split
  · next es => exact fun hlength => h _ es rfl (List.length_eq_zero_iff.1 hlength)
  · exact Nat.one_ne_zero

end Element

/-! ## Names that were read -/

theorem namedOnLines_of_referable {e : Outline} (h : Referable e) : e.NamedOnLines id := by
  cases h with
  | keyword v => exact namedOnLines_leaf rfl rfl
  | call hn =>
    exact namedOnLines_iff.2 ⟨List.forall_mem_singleton.2 (oneLine_of_callable hn),
      List.forall_mem_nil _⟩

theorem namedOnLines_of_assignable {e : Outline} (h : Assignable e) : e.NamedOnLines id := by
  induction h with
  | reference h => exact namedOnLines_of_referable h
  | crossReference hn ht =>
    refine namedOnLines_iff.2 ⟨List.forall_mem_singleton.2 (oneLine_of_callable hn), ?_⟩
    exact fun c hc => namedOnLines_of_referable (ht c (by simpa [children] using hc))
  | choice _ _ ih => exact namedOnLines_iff.2 ⟨List.forall_mem_nil _, ih⟩

/-- the names and operators of a definition that was read stand on one line each -/
theorem namedOnLines_of_formed {m : Mode} {e : Outline} (h : Formed m e) : e.NamedOnLines id := by
  induction h with
  | keyword v _ => exact namedOnLines_leaf rfl rfl
  | call _ hn => exact namedOnLines_iff.2 ⟨List.forall_mem_singleton.2 (oneLine_of_callable hn), List.forall_mem_nil _⟩
  | @assignment d f o e _ hf ho he =>
    have hoperator : o.OneLine := by rcases ho with rfl | rfl | rfl <;> decide
    refine namedOnLines_iff.2 ⟨?_, List.forall_mem_singleton.2 (namedOnLines_of_assignable he)⟩
    exact List.forall_mem_cons.2 ⟨oneLine_of_isIdentifier hf, List.forall_mem_singleton.2 hoperator⟩
  | @action d n f o _ hn hfeature =>
    refine namedOnLines_iff.2 ⟨List.forall_mem_cons.2 ⟨oneLine_of_callable hn, ?_⟩, List.forall_mem_nil _⟩
    cases hfeature with
    | none => exact List.forall_mem_nil _
    | @some f o hf ho =>
      have hoperator : o.OneLine := by rcases ho with rfl | rfl <;> decide
      exact List.forall_mem_cons.2 ⟨oneLine_of_isIdentifier hf, List.forall_mem_singleton.2 hoperator⟩
  | compound _ _ _ _ ih => exact namedOnLines_iff.2 ⟨List.forall_mem_nil _, ih⟩
  | wrapped _ _ _ ih => exact namedOnLines_iff.2 ⟨List.forall_mem_nil _, List.forall_mem_singleton.2 ih⟩
  | range l r _ _ =>
    have hpart : ∀ p : KeywordPart, (ofPart p : Outline).NamedOnLines id := fun p => namedOnLines_leaf rfl rfl
    exact namedOnLines_iff.2 ⟨List.forall_mem_nil _,
      List.forall_mem_cons.2 ⟨hpart _, List.forall_mem_singleton.2 (hpart _)⟩⟩
  | wildcard _ _ => exact namedOnLines_leaf rfl rfl
  | endOfFile _ _ => exact namedOnLines_leaf rfl rfl
  | negated _ _ _ ih => exact namedOnLines_iff.2 ⟨List.forall_mem_nil _, List.forall_mem_singleton.2 ih⟩
  | upTo _ _ _ ih => exact namedOnLines_iff.2 ⟨List.forall_mem_nil _, List.forall_mem_singleton.2 ih⟩

theorem namedOnLines_of_enumerated {ρ : Type} (name : ρ → Text) {e : Element ρ} (h : Enumerated e) : e.NamedOnLines name := by
  have hliteral : ∀ {e : Element ρ}, IsEnumLiteral e → e.NamedOnLines name := by
    rintro _ ⟨n, k, hn, rfl⟩
    refine namedOnLines_iff.2
      ⟨List.forall_mem_singleton.2 (oneLine_of_isIdentifier hn), fun c hc => ?_⟩
    cases k with
    | none => cases hc
    | some v =>
      obtain rfl := List.mem_singleton.1 hc
      exact namedOnLines_leaf rfl rfl
  cases h with
  | one h => exact hliteral h
  | choice _ hes => exact namedOnLines_iff.2 ⟨List.forall_mem_nil _, fun x hx => hliteral (hes x hx)⟩

/-- a rule that was read has a definition, of calls by the names in its words or of literals -/
theorem formed_or_enumerated_of_defined {words : List Word} {r : WrittenRule} (hlex : LexicalWords words)
    (h : Defined words r) : ∃ t, r.definition = some t ∧ ((∃ m, Formed m (t.map WrittenCall.written)) ∨ Enumerated t) := by
  have hspelled : ∀ {m : Mode} {ws : List Word} {t : Tree}, Spells m .alternatives ws [t] → ws ⊆ words →
      Formed m (t.map WrittenCall.written) := fun hspells hws =>
    formed_of_spells (fun c hc => hc.callable) hspells fun w hw => hlex w (hws hw)
  cases h with
  | parser _ ht hspells hws => exact ⟨_, ht, .inl ⟨_, hspelled hspells hws⟩⟩
  | terminal _ ht hspells hws => exact ⟨_, ht, .inl ⟨_, hspelled hspells hws⟩⟩
  | enumeration _ ht he => exact ⟨_, ht, .inr he⟩

/-- linking changes the names of calls only, and these are names again -/
theorem namedOnLines_of_defined {words : List Word} {r : WrittenRule} (hlex : LexicalWords words) (h : Defined words r)
    (s : Scope) {t : Tree} (ht : r.definition = some t) : t.NamedOnLines s.shown := by
  obtain ⟨u, hu, hshape⟩ := formed_or_enumerated_of_defined hlex h
  obtain rfl := Option.some.inj (hu.symm.trans ht)
  rcases hshape with ⟨m, hformed⟩ | he
  · intro x hx n hn
    have hwritten := namedOnLines_of_formed hformed
    rw [NamedOnLines, nodes_map, List.forall_mem_map] at hwritten
    cases x with
    | call d c =>
      obtain rfl := List.mem_singleton.1 hn
      have hcall : c ∈ u.calls := List.mem_filterMap.2 ⟨_, hx, rfl⟩
      have hvalid := h.valid hlex c (by rw [Declaration.calls, hu]; exact hcall)
      exact oneLine_of_callable (s.callable_shown hvalid)
    | _ => exact hwritten _ hx n hn
  · exact namedOnLines_of_enumerated s.shown he

/-! ## Rows -/

/-- a choice that was read has members, so that a definition takes a row -/
theorem exists_definition_of_defined {words : List Word} {r : WrittenRule} (hlex : LexicalWords words)
    (h : Defined words r) : ∃ t, r.definition = some t ∧ t.rowCount ≠ 0 := by
  obtain ⟨t, ht, hshape⟩ := formed_or_enumerated_of_defined hlex h
  refine ⟨t, ht, ?_⟩
  rcases hshape with ⟨m, hformed⟩ | he
  · rw [← rowCount_map WrittenCall.written]
    refine rowCount_ne_zero fun d es hchoice => ?_
    rw [hchoice] at hformed
    cases hformed with
    | compound _ _ hlength _ =>
      rintro rfl
      cases hlength
  · cases he with
    | one he =>
      obtain ⟨n, k, -, rfl⟩ := he
      exact Nat.one_ne_zero
    | choice hlength _ => exact fun hzero => absurd (hzero ▸ hlength : 2 ≤ 0) (by decide)

/-- a definition is printed in as many rows as it takes, each on one line -/
theorem exists_rows {ρ : Type} {name : ρ → Text} {e : Element ρ} (h : e.NamedOnLines name) (hrows : e.rowCount ≠ 0) :
    ∃ first more, Declaration.definitionText name e = Text.join "\n    | " (first :: more) ∧
      more.length + 1 = e.rowCount ∧ ∀ row ∈ first :: more, row.OneLine := by
  unfold Declaration.definitionText
  split
  · next es =>
    cases es with
    | nil => exact absurd rfl hrows
    | cons e es =>
      refine ⟨e.text name 2, es.map (Element.text name 2), by rw [texts_eq_map, List.map_cons], ?_, ?_⟩
      · rw [List.length_map]
        rfl
      · rw [← List.map_cons]
        exact List.forall_mem_map.2 fun x hx =>
          oneLine_dressed 2 x (oneLine_body ((namedOnLines_iff.1 h).2 x hx))
  · next hone =>
    refine ⟨e.text name 1, [], by simp [Text.join], ?_, List.forall_mem_singleton.2 (oneLine_dressed 1 e (oneLine_body h))⟩
    unfold rowCount
    split
    · next es => exact absurd rfl (hone es)
    · rfl

/-- rows with bars between them, each behind its margin -/
theorem feedLines_rows {front first : Text} {more : List Text} (hfront : front.OneLine)
    (hmargin : Text.ofString "    " <+: front) (h : ∀ row ∈ first :: more, row.OneLine) :
    ∃ rows, Text.feedLines (front ++ Text.join "\n    | " (first :: more) ++ ";") = rows ∧
      rows.length = more.length + 1 ∧ ∀ row ∈ rows, Text.ofString "    " <+: row := by
  have hsemicolon : (Text.ofString ";").OneLine := by decide
  have hbar : (Text.ofString "    | ").OneLine := by decide
  obtain ⟨hfirst, hmore⟩ := List.forall_mem_cons.1 h
  induction more generalizing front first with
  | nil =>
    refine ⟨_, Text.feedLines_of_notMem ?_, rfl, List.forall_mem_singleton.2 ?_⟩
    · rw [Text.join, List.intercalate_singleton]
      exact ((hfront.append hfirst).append hsemicolon).lineFeed_notMem
    · exact (hmargin.trans (List.prefix_append _ _)).trans (List.prefix_append _ _)
  | cons second more ih =>
    obtain ⟨hsecond, hrest⟩ := List.forall_mem_cons.1 hmore
    obtain ⟨rows, hrows, hlength, hrowMargin⟩ := ih hbar ⟨Text.ofString "| ", rfl⟩ hmore hsecond hrest
    have hlines : Text.feedLines (front ++ Text.join "\n    | " (first :: second :: more) ++ ";") =
        [front ++ first] ++ rows := by
      rw [← hrows, ← Text.feedLines_of_notMem (hfront.append hfirst).lineFeed_notMem, ← Text.feedLines_append_lineFeed,
        Text.join_cons_cons]
      simp [Text.ofString]
    exact ⟨_, hlines, by simp [hlength], List.forall_mem_cons.2 ⟨hmargin.trans (List.prefix_append _ _), hrowMargin⟩⟩

/-- the text of a rule: its header and a colon on the first line, and its definition in rows behind a margin -/
theorem exists_lines {ρ : Type} {name : ρ → Text} {r : Declaration ρ} {e : Element ρ}
    (hhead : Headed r.kind r.name r.typeName) (he : r.definition = some e) (h : e.NamedOnLines name)
    (hrows : e.rowCount ≠ 0) : CodePoint.ofChar '\r' ∉ r.text name ∧
      ∃ rows, (r.text name).feedLines = (r.header ++ ":") :: rows ∧ rows.length = e.rowCount ∧
        ∀ row ∈ rows, Text.ofString "    " <+: row := by
  obtain ⟨first, more, htext, hlength, hone⟩ := exists_rows h hrows
  have hheader : Text.OneLine (r.header ++ ":") := by
    have hcolon : (Text.ofString ":").OneLine := by decide
    exact (oneLine_of_headerPoints (headerPoints_header hhead)).append hcolon
  have hmargin : (Text.ofString "    ").OneLine := by decide
  obtain ⟨rows, hrows, hcount, hmargins⟩ := feedLines_rows hmargin (List.prefix_refl _) hone
  have hwhole : r.text name = (r.header ++ ":") ++
      CodePoint.ofChar '\n' :: (Text.ofString "    " ++ Text.join "\n    | " (first :: more) ++ ";") := by
    rw [Declaration.text, he, ← htext]
    simp [Text.ofString]
  refine ⟨?_, rows, ?_, hcount.trans hlength, hmargins⟩
  · have hplain : ∀ c ∈ Text.join "\n    | " (first :: more), c ≠ CodePoint.ofChar '\r' :=
      Text.forall_mem_join (by decide) fun row hrow c hc => (hone row hrow c hc).2
    rw [hwhole]
    intro hmem
    rcases List.mem_append.1 hmem with hmem | hmem
    · exact hheader.return_notMem hmem
    · simp only [List.mem_cons, List.mem_append] at hmem
      rcases hmem with hmem | (hmem | hmem) | hmem
      · exact absurd hmem (by decide)
      · exact hmargin.return_notMem hmem
      · exact hplain _ hmem rfl
      · exact absurd hmem (by decide)
  · rw [hwhole, Text.feedLines_append_lineFeed, Text.feedLines_of_notMem hheader.lineFeed_notMem, hrows]
    rfl

/-! ## Fences -/

namespace Markdown

/-- the line begins as a fence does: with three backticks behind at most three blanks -/
def BeginsFence (line : Text) : Prop :=
  ∃ n ≤ 3, List.replicate n (CodePoint.ofChar ' ') ++ Text.ofString "```" <+: line

/-- behind four blanks no fence begins -/
theorem not_beginsFence_of_margin {row : Text} (h : Text.ofString "    " <+: row) : ¬ BeginsFence row := by
  rintro ⟨n, hn, hfence⟩
  obtain ⟨rest, rfl⟩ := h
  obtain ⟨behind, hbehind⟩ := hfence
  interval_cases n <;> simp [Text.ofString] at hbehind

theorem not_beginsFence_of_notMem {line : Text} (h : CodePoint.ofChar '`' ∉ line) : ¬ BeginsFence line := by
  rintro ⟨n, -, hfence⟩
  exact h (hfence.subset (List.mem_append_right _ List.mem_cons_self))

/-- the section of a rule shows its declaration between fences -/
theorem block_infix_ruleSection (d : RuleDoc) (m : Mapping) (kind text : Text) (references : List Reference) :
    Text.ofString "```xtext" :: text.feedLines ++ [Text.ofString "```"] <:+:
      (ruleSection d m kind (some text) references).feedLines := by
  have hopen : Text.feedLines "```xtext" = [Text.ofString "```xtext"] := by decide
  have hclose : Text.feedLines "```\n" = [Text.ofString "```", []] := by decide
  have hblock : [Text.ofString "```xtext", text, Text.ofString "```\n"].flatMap Text.feedLines =
      (Text.ofString "```xtext" :: text.feedLines ++ [Text.ofString "```"]) ++ [[]] := by
    simp [hopen, hclose]
  simp only [ruleSection, declarationParts, List.append_assoc]
  have hwhole := Text.infix_feedLines_lines (List.cons_ne_nil (Text.ofString "```xtext") [text, Text.ofString "```\n"])
  simp only [hblock] at hwhole
  exact (List.prefix_append _ _).isInfix.trans (hwhole _ _)

theorem block_infix_formatRule {o : Options} {d : RuleDoc} {m : Mapping} {t text : Text}
    (hshown : d.shownDeclaration o = .ok (some text)) (h : formatRule o (.doc d) m = .ok t) :
    Text.ofString "```xtext" :: text.feedLines ++ [Text.ofString "```"] <:+: t.feedLines := by
  obtain ⟨_, kind, declaration, references, ⟨⟩, hdeclaration, rfl⟩ := Entry.formatted_ok h
  obtain rfl := Except.ok.inj (hdeclaration.symm.trans hshown)
  exact block_infix_ruleSection d m kind text references

end Markdown

/-- the lines of a printed rule that was read -/
theorem exists_lines_of_readWith {load : Text → Library → Library.Outcome Grammar} {file : Path} {source : Text}
    {l : Library} {g : Grammar} (hg : (Library.readWith load file source l).1 = .ok g) {r : Rule} (hr : r ∈ g.rules) :
    ∃ e text rows, r.definition = some e ∧ r.printed = .ok text ∧ CodePoint.ofChar '\r' ∉ text ∧
      text.feedLines = (r.header ++ ":") :: rows ∧ rows.length = e.rowCount ∧
      (∀ row ∈ rows, Text.ofString "    " <+: row) ∧ CodePoint.ofChar '`' ∉ r.header := by
  obtain ⟨w, used, id, hw, rfl⟩ := linked_of_readWith hg
  obtain ⟨i, hi⟩ := List.mem_iff_getElem?.1 hr
  obtain ⟨wr, hwr, rfl⟩ := rule_of_link hi
  obtain ⟨words, hlex, hdefined⟩ := defined_of_ofText hw
  obtain ⟨hhead, hdef⟩ := hdefined wr (List.mem_of_getElem? hwr)
  obtain ⟨t, ht, hrows⟩ := exists_definition_of_defined hlex hdef
  let s := w.scope id used
  have hnamed : (t.map fun c => some (s.resolve c)).NamedOnLines linkedName :=
    namedOnLines_map (namedOnLines_of_defined hlex hdef s ht)
  have hdefinition : (s.linkRule i wr).definition = some (t.map fun c => some (s.resolve c)) := by
    rw [Scope.linkRule, ht, Option.map_some]
  rw [← rowCount_map fun c => some (s.resolve c)] at hrows
  have hprinted : (s.linkRule i wr).printed = .ok ((s.linkRule i wr).toDeclaration.text linkedName) := by
    rw [Rule.printed, unprintable?_of_defined hlex hdef s i]
  obtain ⟨hreturn, rows, hlines, hlength, hmargins⟩ :=
    exists_lines (r := (s.linkRule i wr).toDeclaration) hhead hdefinition hnamed hrows
  refine ⟨_, _, rows, hdefinition, hprinted, hreturn, hlines, hlength, hmargins, fun hmem => ?_⟩
  have hbacktick : (CodePoint.ofChar '`').isHeaderPoint = false := by decide
  exact Bool.noConfusion ((headerPoints_header (r := (s.linkRule i wr).toDeclaration) hhead _ hmem).symm.trans hbacktick)

/-- **A definition stays in its block of code**, for every rule of a grammar that is read and whatever its keywords hold.
The rule is printed without returns: its header with a colon, and then one row for each member of a choice with nothing
around it, or one row for any other definition, each behind four blanks. So no line of it begins as a fence does, and on
every Markdown page that shows definitions these lines stand between a fence that opens and one that closes. -/
theorem definition_stays_in_its_block {load : Text → Library → Library.Outcome Grammar} {file : Path} {source : Text}
    {l : Library} {g : Grammar} (hg : (Library.readWith load file source l).1 = .ok g) {r : Rule} (hr : r ∈ g.rules) :
    ∃ e text rows, r.definition = some e ∧ r.printed = .ok text ∧ CodePoint.ofChar '\r' ∉ text ∧
      text.feedLines = (r.header ++ ":") :: rows ∧ rows.length = e.rowCount ∧
      (∀ row ∈ rows, Text.ofString "    " <+: row) ∧ (∀ line ∈ text.feedLines, ¬ Markdown.BeginsFence line) ∧
      ∀ o : Options, o.includeSyntax = true → ∃ doc page log, (GrammarDoc.ofGrammar g).1 = .ok doc ∧
        FormatterClass.markdown.formatGrammar o doc = (.ok page, log) ∧
        Text.ofString "```xtext" :: text.feedLines ++ [Text.ofString "```"] <:+: page.feedLines := by
  obtain ⟨e, text, rows, hdefinition, hprinted, hreturn, hlines, hlength, hmargins, hbacktick⟩ :=
    exists_lines_of_readWith hg hr
  refine ⟨e, text, rows, hdefinition, hprinted, hreturn, hlines, hlength, hmargins, ?_, fun o ho => ?_⟩
  · rw [hlines]
    have hcolon : CodePoint.ofChar '`' ∉ Text.ofString ":" := by decide
    exact List.forall_mem_cons.2 ⟨Markdown.not_beginsFence_of_notMem (List.mem_append.not.2 (not_or.2 ⟨hbacktick, hcolon⟩)),
      fun row hrow => Markdown.not_beginsFence_of_margin (hmargins row hrow)⟩
  · obtain ⟨doc, hdoc, -, hentries, hrules⟩ := exists_doc_of_readWith hg
    obtain ⟨d, hd, rfl, -⟩ := hrules r hr
    obtain ⟨sections, hsections, hpage⟩ := Markdown.exists_page (fun e he => (hentries e he).2) o
    obtain ⟨t, ht, hrendered⟩ := hsections.exists_section hd (hentries _ hd).1
    have hshown : d.shownDeclaration o = .ok (some text) := by
      rw [RuleDoc.shownDeclaration, ho, hdefinition, hprinted]
      rfl
    have hblock := Markdown.block_infix_formatRule hshown hrendered
    exact ⟨doc, _, _, hdoc, hpage, GrammarDoc.infix_page (by decide) (by decide) ht hblock _⟩

/-- a keyword that would begin a fence on a line of its own stays in the block, on one row -/
theorem fenced_keyword_stays_in_its_block : ∃ (g : Grammar) (r : Rule) (text row : Text),
    (Library.readWith (fun name l => (.ok (Library.stub l.fresh name), l)) (Path.ofText "a") "grammar a A:'\\n```';"
      .empty).1 = .ok g ∧ r ∈ g.rules ∧ r.definition = some (.keyword .none "\n```") ∧ r.printed = .ok text ∧
      text.feedLines = [Text.ofString "A:", row] ∧ Text.ofString "    " <+: row ∧ ¬ Markdown.BeginsFence row := by
  have hlexed : Lexed.ofSource (Path.ofText "a") "grammar a A:'\\n```';" = .ok ⟨[⟨.name, "grammar", 1, 1, 7⟩,
      ⟨.name, "a", 1, 9, 1⟩, ⟨.name, "A", 1, 11, 1⟩, ⟨.symbol .colon, ":", 1, 12, 1⟩, ⟨.literal, "\n```", 1, 13, 7⟩,
      ⟨.symbol .semicolon, ";", 1, 20, 1⟩], ⟨1, 21⟩⟩ := by cbv
  have hkeyword : Leaf .parser [⟨⟨.literal, "\n```", 1, 13, 7⟩, none⟩] (.keyword .none "\n```") := .keyword rfl
  have hread := readWith_bare (fun name l => (.ok (Library.stub l.fresh name), l))
    (s := ⟨⟨.symbol .semicolon, ";", 1, 20, 1⟩, none⟩) hlexed rfl ⟨rfl, rfl⟩ rfl rfl (by decide) rfl
    (alternatives_of_element (element_of_plain (plain_of_atom (.leaf hkeyword)))) rfl
  obtain ⟨e, text, rows, hdefinition, hprinted, -, hlines, hlength, hmargins, hfences, -⟩ :=
    definition_stays_in_its_block hread List.mem_cons_self
  obtain rfl : Element.keyword .none "\n```" = e := Option.some.inj hdefinition
  obtain ⟨row, rfl⟩ := List.length_eq_one_iff.1 hlength
  refine ⟨_, _, text, row, hread, List.mem_cons_self, hdefinition, hprinted, hlines, hmargins row List.mem_cons_self, ?_⟩
  exact hfences row (hlines ▸ List.mem_cons_of_mem _ List.mem_cons_self)

end Rulebook
