/-
The texts that are made of a grammar that is read, and the files they go into. Every rule that is read has a text, so a
document is always made (`exists_formatGrammar`); a graph shows names only, and these are made of letters, so it can always
be put into bytes (`encodable_graph`). Document and graph are named after the grammar and stand directly in the output
directory (`target_eq`).
-/
import Rulebook.Document.Registry
import Rulebook.Generation
import Rulebook.Proofs.Directory
import Rulebook.Proofs.Drawing

namespace Rulebook

open Source Element

/-! ## Texts that have bytes -/

namespace Text

/-- no surrogate stands in the text -/
def Encodable (t : Text) : Prop := ∀ c ∈ t, c.isSurrogate = false

instance (t : Text) : Decidable t.Encodable := inferInstanceAs (Decidable (∀ c ∈ t, c.isSurrogate = false))

theorem Encodable.append {t u : Text} (ht : Encodable t) (hu : Encodable u) : Encodable (t ++ u) :=
  List.forall_mem_append.2 ⟨ht, hu⟩

theorem encodable_join {separator : Text} (hseparator : Encodable separator) {parts : List Text}
    (h : ∀ p ∈ parts, Encodable p) : Encodable (join separator parts) :=
  forall_mem_join hseparator h

end Text

/-- a text has bytes exactly when no surrogate stands in it -/
theorem Utf8.encode_iff (t : Text) : (∃ content, Utf8.encode t = .ok content) ↔ t.Encodable := by
  have hnone : Utf8.surrogates? t = none ↔ t.Encodable := by
    unfold Utf8.surrogates? Text.Encodable
    cases hdrop : t.dropWhile (fun c => !c.isSurrogate) with
    | nil => simpa using List.dropWhile_eq_nil_iff.1 hdrop
    | cons c rest =>
      have hne : t.dropWhile (fun c => !c.isSurrogate) ≠ [] := by simp [hdrop]
      have hfirst : c.isSurrogate = true := by simpa [hdrop] using List.head_dropWhile_not _ hne
      have hmem : c ∈ t := (List.dropWhile_suffix _).subset (hdrop ▸ List.mem_cons_self)
      refine iff_of_false (by simp) fun h => ?_
      rw [h c hmem] at hfirst
      cases hfirst
  rw [← hnone, Utf8.encode]
  cases Utf8.surrogates? t <;> simp

theorem encodable_of_isIdentifier {t : Text} (h : IsIdentifier t) : t.Encodable := by
  intro c hc
  by_contra hsurrogate
  refine not_mem_of_isIdentifier h (c := c) ?_ hc
  simp only [CodePoint.isSurrogate, Bool.and_eq_true, decide_eq_true_eq, Bool.not_eq_false] at hsurrogate
  simp only [Piece.isNamePart, Piece.isNameStart, CodePoint.inRanges, List.any_cons, List.any_nil, Bool.or_false,
    Bool.or_eq_false_iff, Bool.and_eq_false_iff, decide_eq_false_iff_not]
  omega

theorem encodable_of_callable {m : Mode} {t : Text} (h : Callable m t) : t.Encodable := by
  cases h with
  | plain hn _ => exact encodable_of_isIdentifier hn
  | qualified hq hn _ =>
    have hcolons : Text.Encodable (Text.ofString "::") := by decide
    exact ((encodable_of_isIdentifier hq).append hcolons).append (encodable_of_isIdentifier hn)

/-! ## Rules that are read -/

/-- the calls of a rule that was declared are names -/
theorem encodable_of_defined {words : List Word} {r : WrittenRule} (hlex : LexicalWords words) (h : Defined words r) :
    ∀ c ∈ r.calls, c.written.Encodable :=
  fun c hc => encodable_of_callable (h.valid hlex c hc).callable

theorem encodable_name {c : WrittenCall} (h : c.written.Encodable) : c.name.Encodable := by
  obtain ⟨qualifier, name, line, column⟩ := c
  cases qualifier with
  | none => exact h
  | some q => exact fun d hd => h d (List.mem_append_right _ hd)

/-- what a call is linked to has a name that can be put into bytes -/
theorem encodable_target {c : WrittenCall} (h : c.written.Encodable) (w : WrittenGrammar) (n : Nat)
    (used : List Grammar) : ((w.link n used).target c).name.Encodable := by
  rw [← Scope.resolve_eq]
  rcases (w.scope n used).name_resolve c with hname | hname
  · rw [hname]
    exact encodable_name h
  · rw [hname]
    exact h

/-- every rule that was declared has a text when its calls are linked -/
theorem unprintable?_of_defined {words : List Word} {r : WrittenRule} (hlex : LexicalWords words) (h : Defined words r)
    (s : Scope) (i : Nat) : (s.linkRule i r).unprintable? = none := by
  have hlinked : ∀ t, r.definition = some t → (t.map WrittenCall.written).unprintable? = none →
      (s.linkRule i r).unprintable? = none := by
    intro t ht hprintable
    rw [Rule.unprintable?, Scope.linkRule, ht, Option.map_some, Option.bind_some, unprintable?_map]
    rwa [unprintable?_map] at hprintable
  have hspelled : ∀ {m : Mode} {ws : List Word} {t : Tree}, Spells m .alternatives ws [t] → ws ⊆ words →
      (t.map WrittenCall.written).unprintable? = none := fun hspells hws =>
    printable_formed (formed_of_spells (fun c hc => hc.callable) hspells fun x hx => hlex x (hws hx))
  cases h with
  | parser _ ht hspells hws => exact hlinked _ ht (hspelled hspells hws)
  | terminal _ ht hspells hws => exact hlinked _ ht (hspelled hspells hws)
  | enumeration _ ht he => exact hlinked _ ht (printable_enumerated (he.map _))

/-! ## Documents -/

/-- the built-in classes -/
theorem builtin_of_lookup {name : Text} {c : FormatterClass} (hc : Registry.builtin.lookup name = some c) :
    c = .markdown ∨ c = .plainText ∨ c = .dot := by
  obtain ⟨before, after, hsplit, -⟩ := List.lookup_eq_some_iff.1 hc
  have hmem : (name, c) ∈ Registry.builtin := by simp [hsplit]
  simp only [Registry.builtin, List.mem_cons, List.not_mem_nil, or_false, Prod.mk.injEq] at hmem
  tauto

namespace GrammarDoc

theorem mem_docsFrom {label : Nat} {rs : List Rule} {d : RuleDoc} (h : d ∈ docsFrom label rs) :
    ∃ label, ∃ r ∈ rs, d = .ofRule label r := by
  induction rs generalizing label with
  | nil => cases h
  | cons r rs ih =>
    rcases List.mem_cons.1 h with rfl | h
    · exact ⟨label, r, List.mem_cons_self, rfl⟩
    · obtain ⟨label', r', hr', heq⟩ := ih h
      exact ⟨label', r', List.mem_cons_of_mem _ hr', heq⟩

/-- the sections stop only at a rule without a text -/
theorem exists_sectionsOf (name : Text) {render : Entry → Except FormatError Text} (failed : Entry → Unsupported → Text)
    {es : List Entry} (h : ∀ e ∈ es, ∀ u, render e ≠ .error (.unprintable u)) :
    ∃ sections log, sectionsOf name render failed es = (.ok sections, log) := by
  induction es with
  | nil => exact ⟨[], [], rfl⟩
  | cons e es ih =>
    obtain ⟨he, hes⟩ := List.forall_mem_cons.1 h
    obtain ⟨rest, log, hrest⟩ := ih hes
    rw [sectionsOf]
    cases hrender : render e with
    | ok t => exact ⟨_, _, by rw [hrest]⟩
    | error fault =>
      cases fault with
      | unprintable u => exact absurd hrender (he u)
      | unsupported u => exact ⟨_, _, by rw [hrest]⟩

/-- every rule of the documents has a text -/
def Printable (g : GrammarDoc) : Prop := ∀ d, Entry.doc d ∈ g.entries → d.rule.unprintable? = none

theorem exists_shownDeclaration {d : RuleDoc} (h : d.rule.unprintable? = none) (o : Options) :
    ∃ t, d.shownDeclaration o = .ok t := by
  unfold RuleDoc.shownDeclaration
  split
  · rw [Rule.printed, h]
    exact ⟨_, rfl⟩
  · exact ⟨_, rfl⟩

/-- a document of rules that have a text is made by every built-in formatter -/
theorem exists_formatGrammar {g : GrammarDoc} (h : g.Printable) {name : Text} {c : FormatterClass}
    (hc : Registry.builtin.lookup name = some c) (o : Options) : ∃ t log, c.formatGrammar o g = (.ok t, log) := by
  have hprintable : ∀ layOut, ∀ e ∈ g.entries, ∀ u, e.formatted layOut o g.mapping ≠ .error (.unprintable u) := by
    intro layOut e he u hformat
    obtain ⟨d, rfl, hdeclaration⟩ := Entry.formatted_unprintable hformat
    obtain ⟨t, ht⟩ := exists_shownDeclaration (h d he) o
    rw [ht] at hdeclaration
    cases hdeclaration
  rcases builtin_of_lookup hc with rfl | rfl | rfl
  · obtain ⟨sections, log, hsections⟩ := exists_sectionsOf g.name Markdown.failedSection (hprintable Markdown.ruleSection)
    simp [FormatterClass.markdown, Markdown.formatGrammar, Markdown.formatRule, hsections]
  · obtain ⟨sections, log, hsections⟩ := exists_sectionsOf g.name PlainText.failedSection (hprintable PlainText.ruleSection)
    simp [FormatterClass.plainText, PlainText.formatGrammar, PlainText.formatRule, hsections]
  · exact ⟨_, _, rfl⟩

end GrammarDoc

/-! ## Graphs -/

theorem encodable_quoteName {name : Text} (h : name.Encodable) : (quoteName name).Encodable := by
  have hpoint : ∀ c ∈ name, (namePoint c).Encodable := by
    intro c hc
    unfold namePoint
    split
    · decide
    · split
      · decide
      · exact List.forall_mem_singleton.2 (h c hc)
  have hquote : Text.Encodable (Text.ofString "\"") := by decide
  refine Text.Encodable.append (hquote.append fun d hd => ?_) hquote
  obtain ⟨c, hc, hd⟩ := List.mem_flatMap.1 hd
  exact hpoint c hc d hd

theorem encodable_nodeStatement {r : WrittenRule} (h : r.name.Encodable) : r.nodeStatement.Encodable := by
  have hname := encodable_quoteName h
  have hlabel : Text.Encodable (Text.ofString " [label=") := by decide
  have hshapeLabel : Text.Encodable (Text.ofString ", shape=") := by decide
  have hshape : r.kind.shape.Encodable := by
    cases r.kind with
    | parser _ _ => exact show Text.Encodable (Text.ofString "box") by decide
    | terminal _ => exact show Text.Encodable (Text.ofString "ellipse") by decide
    | enumeration => exact show Text.Encodable (Text.ofString "hexagon") by decide
    | unresolved => exact nofun
  have hend : Text.Encodable (Text.ofString "];") := by decide
  exact ((((hname.append hlabel).append hname).append hshapeLabel).append hshape).append hend

theorem encodable_edgeStatement {e : Edge} (hsource : e.source.Encodable) (htarget : e.target.Encodable) :
    e.statement.Encodable := by
  have harrow : Text.Encodable (Text.ofString " -> ") := by decide
  have hend : Text.Encodable (Text.ofString (if e.external then " [style=dashed];" else ";")) := by
    split <;> decide
  exact (((encodable_quoteName hsource).append harrow).append (encodable_quoteName htarget)).append hend

theorem mem_of_mem_distinctFrom {seen : List (Text × Text)} {es : List Edge} {e : Edge}
    (h : e ∈ Edge.distinctFrom seen es) : e ∈ es := by
  fun_induction Edge.distinctFrom seen es with
  | case1 => exact h
  | case2 seen e' es _ ih => exact List.mem_cons_of_mem _ (ih h)
  | case3 seen e' es _ ih =>
    rcases List.mem_cons.1 h with rfl | h
    · exact List.mem_cons_self
    · exact List.mem_cons_of_mem _ (ih h)

theorem mem_of_mem_chosen {o : Options} {es : List Edge} {e : Edge} (h : e ∈ Edge.chosen o es) : e ∈ es := by
  unfold Edge.chosen at h
  split at h
  · exact mem_of_mem_distinctFrom h
  · exact h

/-- a graph is put together of its statements -/
theorem encodable_graph_of_statements {g : GrammarDoc} {o : Options} (hname : (Grammar.simpleName g.name).Encodable)
    (hnodes : ∀ t ∈ g.nodes, t.Encodable) (hedges : ∀ e ∈ g.edges, e.statement.Encodable) : (g.graph o).Encodable := by
  have hstatements : ∀ t ∈ g.nodes ++ (Edge.chosen o g.edges).map Edge.statement, t.Encodable := by
    refine List.forall_mem_append.2 ⟨hnodes, List.forall_mem_map.2 fun e he => hedges e (mem_of_mem_chosen he)⟩
  have hopening : ∀ t ∈ ["digraph " ++ quoteName (Grammar.simpleName g.name) ++ " \x7b",
      "    rankdir=" ++ o.direction.text ++ ";"], Text.Encodable t := by
    have hdigraph : Text.Encodable (Text.ofString "digraph ") := by decide
    have hbrace : Text.Encodable (Text.ofString " \x7b") := by decide
    have hrank : Text.Encodable (Text.ofString "    rankdir=") := by decide
    have hdirection : o.direction.text.Encodable := by cases o.direction <;> decide
    have hend : Text.Encodable (Text.ofString ";") := by decide
    exact List.forall_mem_cons.2 ⟨(hdigraph.append (encodable_quoteName hname)).append hbrace,
      List.forall_mem_singleton.2 ((hrank.append hdirection).append hend)⟩
  have hmargin : Text.Encodable (Text.ofString "    ") := by decide
  have hlineFeed : Text.Encodable (Text.ofString "\n") := by decide
  have hclosing : Text.Encodable (Text.ofString "\x7d") := by decide
  refine Text.Encodable.append (Text.encodable_join hlineFeed ?_) hlineFeed
  refine List.forall_mem_append.2 ⟨List.forall_mem_append.2 ⟨hopening, ?_⟩, List.forall_mem_singleton.2 hclosing⟩
  exact List.forall_mem_map.2 fun t ht => hmargin.append (hstatements t ht)

/-- a name with dots ends in an identifier -/
theorem Qualified.simpleName {name : Text} (h : Qualified name) : IsIdentifier (Grammar.simpleName name) := by
  obtain ⟨parts, hparts, hidentifiers, rfl⟩ := h
  obtain ⟨front, last, rfl⟩ : ∃ front last, parts = front ++ [last] := by
    rcases List.eq_nil_or_concat parts with rfl | ⟨front, last, rfl⟩
    · exact absurd rfl hparts
    · exact ⟨front, last, by simp⟩
  have hlast : IsIdentifier last := hidentifiers last (by simp)
  have hdot : CodePoint.ofChar '.' ∉ last := not_mem_of_isIdentifier hlast (by decide)
  have hsimple : Grammar.simpleName (Text.join "." (front ++ [last])) = last := by
    rw [Grammar.simpleName, Text.join_concat]
    exact Text.afterLast_concat front hdot
  rwa [hsimple]

/-- the documents of a grammar that is read: all its rules have a text, and its graph can be put into bytes -/
theorem documents_of_ofText {file : Path} {source : Text} {w : WrittenGrammar}
    (h : WrittenGrammar.ofText file source = .ok w) (n : Nat) (used : List Grammar) :
    ∃ doc, (GrammarDoc.ofGrammar (w.link n used)).1 = .ok doc ∧ Qualified doc.name ∧ doc.Printable ∧
      ∀ o, (doc.graph o).Encodable := by
  obtain ⟨words, hlex, hdefined⟩ := defined_of_ofText h
  have hname := (qualified_of_ofText h).1
  have hentry : ∀ e ∈ (GrammarDoc.docsFrom 0 (w.link n used).rules).map Entry.doc, ∃ label i, ∃ r ∈ w.rules,
      e = .doc (.ofRule label ((w.scope n used).linkRule i r)) := by
    intro e he
    obtain ⟨d, hd, rfl⟩ := List.mem_map.1 he
    obtain ⟨label, linked, hlinked, rfl⟩ := GrammarDoc.mem_docsFrom hd
    obtain ⟨i, hi⟩ := List.mem_iff_getElem?.1 hlinked
    obtain ⟨r, hr, rfl⟩ := rule_of_link hi
    exact ⟨label, i, r, List.mem_of_getElem? hr, rfl⟩
  refine ⟨_, ofGrammar_link w n used hname.ne_nil, hname, ?_, fun o => ?_⟩
  · intro d hd
    obtain ⟨label, i, r, hr, heq⟩ := hentry _ hd
    cases heq
    exact unprintable?_of_defined hlex (hdefined r hr).2 (w.scope n used) i
  · have hdrawing : ∀ e ∈ (GrammarDoc.docsFrom 0 (w.link n used).rules).map Entry.doc, ∀ m : Mapping,
        ∃ node edges, e.drawing m = .ok (node, edges) ∧ node.Encodable ∧ ∀ edge ∈ edges, edge.statement.Encodable := by
      intro e he m
      obtain ⟨label, i, r, hr, rfl⟩ := hentry e he
      obtain ⟨hheaded, hdef⟩ := hdefined r hr
      have hrule := encodable_of_isIdentifier hheaded.identifier
      refine ⟨_, _, drawing_linkRule w n i used (ne_unresolved_of_ofText h r hr) label m, encodable_nodeStatement hrule, ?_⟩
      refine List.forall_mem_map.2 fun c hc => encodable_edgeStatement hrule ?_
      exact encodable_target (encodable_of_defined hlex hdef c hc) w n used
    refine encodable_graph_of_statements (encodable_of_isIdentifier hname.simpleName) ?_ ?_
    · refine List.forall_mem_map.2 fun e he => ?_
      obtain ⟨node, edges, hdrawn, hnode, -⟩ := hdrawing e he _
      rw [hdrawn]
      exact hnode
    · intro edge hedge
      obtain ⟨e, he, hedge⟩ := List.mem_flatMap.1 hedge
      obtain ⟨node, edges, hdrawn, -, hedges⟩ := hdrawing e he _
      rw [hdrawn] at hedge
      exact hedges edge hedge

/-! ## Files -/

/-- a name that goes on behind an identifier can stand in a path -/
theorem Path.part_of_append {p suffix : Text} (h : IsIdentifier p) (hslash : CodePoint.ofChar '/' ∉ suffix)
    (hzero : ∀ c ∈ suffix, c.val ≠ 0) : Part (p ++ suffix) := by
  have hpart := part_of_isIdentifier h
  have hdot : ∀ rest : Text, p ++ suffix ≠ CodePoint.ofChar '.' :: rest := by
    intro rest heq
    obtain ⟨c, tail, rfl⟩ := List.exists_cons_of_ne_nil hpart.ne_nil
    have hc : c = CodePoint.ofChar '.' := (List.cons.inj heq).1
    exact not_mem_of_isIdentifier h (c := c) (by rw [hc]; decide) List.mem_cons_self
  exact ⟨List.append_ne_nil_of_left_ne_nil hpart.ne_nil _, hdot _, hdot _,
    fun hmem => (List.mem_append.1 hmem).elim hpart.no_slash hslash, List.forall_mem_append.2 ⟨hpart.no_zero, hzero⟩⟩

namespace Generation

def artifactName (grammar extension : Text) : Text := Grammar.simpleName grammar ++ "." ++ extension

/-- an extension that changes nothing about where a path leads -/
structure IsExtension (extension : Text) : Prop where
  no_slash : CodePoint.ofChar '/' ∉ extension
  no_zero : ∀ c ∈ extension, c.val ≠ 0

theorem part_artifactName {grammar extension : Text} (h : Qualified grammar) (hextension : IsExtension extension) :
    Path.Part (artifactName grammar extension) := by
  have hslash : CodePoint.ofChar '/' ∉ Text.ofString "." ++ extension := by
    intro hmem
    rcases List.mem_append.1 hmem with hmem | hmem
    · revert hmem
      decide
    · exact hextension.no_slash hmem
  have hzero : ∀ c ∈ Text.ofString "." ++ extension, c.val ≠ 0 :=
    List.forall_mem_append.2 ⟨by decide, hextension.no_zero⟩
  rw [artifactName, List.append_assoc]
  exact Path.part_of_append h.simpleName hslash hzero

/-- what is made of a grammar stands directly in the output directory -/
theorem target_eq (s : Settings) {grammar extension : Text} (h : Qualified grammar)
    (hextension : IsExtension extension) :
    target s grammar extension = s.output.join ⟨.working, [artifactName grammar extension]⟩ := by
  have hpath := Path.ofText_join (List.cons_ne_nil (artifactName grammar extension) [])
    (List.forall_mem_singleton.2 (part_artifactName h hextension))
  rw [Text.join, List.intercalate_singleton] at hpath
  rw [target, Path.child, ← artifactName, hpath]

theorem isNameable_target (s : Settings) {grammar extension : Text} (h : Qualified grammar)
    (hextension : IsExtension extension) (houtput : s.output.isNameable = true) :
    (target s grammar extension).isNameable = true := by
  rw [target_eq s h hextension, Path.join_working]
  simp only [Path.isNameable, List.all_append, Bool.and_eq_true]
  refine ⟨houtput, ?_⟩
  have hzero := (part_artifactName h hextension).no_zero
  simpa using hzero

theorem isExtension_builtin {name : Text} {c : FormatterClass} (hc : Registry.builtin.lookup name = some c) :
    IsExtension c.extension := by
  rcases builtin_of_lookup hc with rfl | rfl | rfl
  · exact ⟨by decide, by decide⟩
  · exact ⟨by decide, by decide⟩
  · exact ⟨by decide, by decide⟩

theorem isExtension_graph : IsExtension graphExtension := ⟨by decide, by decide⟩

end Generation

end Rulebook
