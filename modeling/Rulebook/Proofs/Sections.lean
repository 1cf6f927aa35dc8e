/-
A document with entries that cannot be documented. Such an entry is an object that documents no rule, or the plain
document of a rule of a kind without a variant. `unsupported_entries_apart` says that it gets its mark in the place where
it stands, a section or a node without edges, and one line in the log each time, and that every other entry is shown as
if it were formatted by itself.

All that is asked of an unsupported entry is refused with one complaint (`kindLabel_unsupported`,
`references_unsupported`), so what is made of a single entry is known for each formatter (`Makes`); the sections and the
drawings of a grammar follow entry by entry (`exists_sections`, `exists_drawings`). No section is blank, so what ends the
page takes nothing from the last one (`joinParts_concat`). Links lead to documents of the grammar only, which have an
anchor (`mem_docs_of_linked`, `isSome_anchor?`).
-/
import Rulebook.Proofs.Anchors
import Rulebook.Proofs.Artifacts
import Rulebook.Proofs.Ink
import Rulebook.Proofs.References

namespace Rulebook

/-! ## Entries that are supported -/

namespace Entry

/-- the entry documents a rule of a kind that has a variant of its own -/
def Supported : Entry → Prop
  | doc d => d.variant ≠ .reference
  | foreign _ => False

instance : DecidablePred Supported
  | doc d => inferInstanceAs (Decidable (d.variant ≠ .reference))
  | foreign _ => inferInstanceAs (Decidable False)

/-- what an entry that is not supported is refused with -/
def complaint (e : Entry) : Unsupported := .document e.describe e.className

variable {e : Entry}

theorem Supported.exists_doc (h : e.Supported) : ∃ d, e = .doc d ∧ d.variant ≠ .reference := by
  cases e with
  | doc d => exact ⟨d, rfl, h⟩
  | foreign c => exact h.elim

theorem kindLabel_unsupported (h : ¬ e.Supported) : e.kindLabel = .error e.complaint := by
  cases e with
  | foreign c => rfl
  | doc d =>
    obtain ⟨label, variant, rule, comment⟩ := d
    obtain rfl : variant = .reference := not_not.1 h
    rfl

theorem references_unsupported (h : ¬ e.Supported) : e.references = .error e.complaint := by
  cases e with
  | foreign c => rfl
  | doc d =>
    obtain ⟨label, variant, rule, comment⟩ := d
    obtain rfl : variant = .reference := not_not.1 h
    rfl

theorem variant_cases {d : RuleDoc} (h : d.variant ≠ .reference) :
    d.variant = .parser ∨ d.variant = .terminal ∨ d.variant = .enumeration := by
  cases hvariant : d.variant <;> simp_all

theorem exists_kindLabel {d : RuleDoc} (h : d.variant ≠ .reference) : ∃ kind, (Entry.doc d).kindLabel = .ok kind := by
  rcases variant_cases h with h | h | h <;> simp [kindLabel, h]

theorem exists_node {d : RuleDoc} (h : d.variant ≠ .reference) : ∃ node, d.node = .ok node := by
  rcases variant_cases h with h | h | h <;> simp [RuleDoc.node, RuleDoc.shape, h]

end Entry

/-! ## What is made of a single entry -/

/-- every node of the definition is of a kind that has a text: none is bare, and no compound is one whose members do not
belong together -/
def Element.Kinded {ρ : Type} (e : Element ρ) : Prop :=
  ∀ x ∈ e.nodes, (∀ d, x ≠ .bare d) ∧ ∀ d es, x ≠ .compound d .plain es

theorem Element.kinded_iff {ρ : Type} {e : Element ρ} : e.Kinded ↔ e.unprintable? = none := by
  rw [Element.unprintable?_eq_none]
  refine forall₂_congr fun x _ => ?_
  cases x with
  | compound d g es => cases g <;> simp [Element.unprintableNode?]
  | _ => simp [Element.unprintableNode?]

/-- the definition of every supported entry has a text -/
def Entry.Kinded (e : Entry) : Prop :=
  ∀ d, e = .doc d → d.variant ≠ .reference → ∀ t, d.rule.definition = some t → t.Kinded

theorem Entry.Kinded.printable {d : RuleDoc} (h : (Entry.doc d).Kinded) (hvariant : d.variant ≠ .reference) :
    d.rule.unprintable? = none := by
  rw [Rule.unprintable?]
  cases hdefinition : d.rule.definition with
  | none => rfl
  | some t => exact Element.kinded_iff.1 (h d rfl hvariant t hdefinition)

/-- something is made of an entry that is supported, and any other is refused with its complaint -/
structure Makes (render : Entry → Except FormatError Text) (e : Entry) : Prop where
  supported : e.Supported → ∃ t, render e = .ok t
  unsupported : ¬ e.Supported → render e = .error (.unsupported e.complaint)

theorem makes_formatted (layOut : RuleDoc → Mapping → Text → Option Text → List Reference → Text) {e : Entry}
    (h : e.Kinded) (o : Options) (m : Mapping) : Makes (fun e => e.formatted layOut o m) e where
  supported hsupported := by
    obtain ⟨d, rfl, hvariant⟩ := hsupported.exists_doc
    obtain ⟨kind, hkind⟩ := Entry.exists_kindLabel hvariant
    obtain ⟨declaration, hdeclaration⟩ := GrammarDoc.exists_shownDeclaration (h.printable hvariant) o
    simp [Entry.formatted, hkind, Entry.resolve, references_doc hvariant, hdeclaration]
  unsupported hunsupported := by simp only [Entry.formatted, Entry.kindLabel_unsupported hunsupported]

section

variable {e : Entry} (h : e.Kinded) (o : Options) (m : Mapping)

include h

theorem makes_markdown : Makes (fun e => Markdown.formatRule o e m) e := makes_formatted Markdown.ruleSection h o m

theorem makes_plainText : Makes (fun e => PlainText.formatRule o e m) e := makes_formatted PlainText.ruleSection h o m

end

theorem drawing_unsupported {e : Entry} (h : ¬ e.Supported) (m : Mapping) : e.drawing m = .error e.complaint := by
  rw [Entry.drawing, Entry.edges, Entry.references_unsupported h]

theorem exists_drawing {e : Entry} (h : e.Supported) (m : Mapping) : ∃ node edges, e.drawing m = .ok (node, edges) := by
  obtain ⟨d, rfl, hvariant⟩ := h.exists_doc
  obtain ⟨node, hnode⟩ := Entry.exists_node hvariant
  exact ⟨node, d.refs.map fun r => ⟨d.name, r.name, (m.get? r.id).isNone⟩,
    by rw [Entry.drawing, Entry.edges, references_doc hvariant, Entry.node, hnode]; rfl⟩

/-- the lines in the log about the entries that are not supported, one for each -/
def complaintsOf (grammar : Text) (es : List Entry) : Log :=
  (es.filter fun e => ¬ e.Supported).map fun e => .unsupported grammar e.complaint

/-- a section for each entry, in order: what is made of it by itself, or the mark of one that is not supported -/
def Sections (render : Entry → Except FormatError Text) (failed : Entry → Unsupported → Text) (es : List Entry)
    (sections : List Text) : Prop :=
  List.Forall₂ (fun e t => (e.Supported → render e = .ok t) ∧ (¬ e.Supported → t = failed e e.complaint)) es sections

theorem exists_sections (grammar : Text) {render : Entry → Except FormatError Text} (failed : Entry → Unsupported → Text)
    {es : List Entry} (h : ∀ e ∈ es, Makes render e) : ∃ sections, Sections render failed es sections ∧
      GrammarDoc.sectionsOf grammar render failed es = (.ok sections, complaintsOf grammar es) := by
  induction es with
  | nil => exact ⟨[], .nil, rfl⟩
  | cons e es ih =>
    obtain ⟨he, hes⟩ := List.forall_mem_cons.1 h
    obtain ⟨sections, hsections, hrest⟩ := ih hes
    by_cases hsupported : e.Supported
    · obtain ⟨t, ht⟩ := he.supported hsupported
      refine ⟨t :: sections, .cons ⟨fun _ => ht, absurd hsupported⟩ hsections, ?_⟩
      simp only [GrammarDoc.sectionsOf, ht, hrest, complaintsOf, List.filter_cons, hsupported, not_true_eq_false,
        decide_false, Bool.false_eq_true, if_false]
    · refine ⟨failed e e.complaint :: sections, .cons ⟨(absurd · hsupported), fun _ => rfl⟩ hsections, ?_⟩
      simp only [GrammarDoc.sectionsOf, he.unsupported hsupported, hrest, complaintsOf, List.filter_cons, hsupported,
        not_false_eq_true, decide_true, if_true, List.map_cons]

/-! ## Pages -/

namespace Text

variable {t : Text}

end Text

namespace Markdown

/-- what stands on a page ahead of the sections -/
def opening (g : GrammarDoc) : List Text := headParts g ++ contentsParts g ++ [Text.ofString "## Rules\n"]

end Markdown

namespace PlainText

/-- what stands on a page ahead of the sections -/
def opening (g : GrammarDoc) : List Text :=
  headParts g ++ if g.entries.isEmpty then [Text.ofString "(no rules)"] else []

end PlainText

/-- no section is blank when nothing that is made of an entry is, and no mark -/
theorem Sections.isBlank {render : Entry → Except FormatError Text} {failed : Entry → Unsupported → Text} {es : List Entry}
    {sections : List Text} (h : Sections render failed es sections) (hrender : ∀ e t, render e = .ok t → t.isBlank = false)
    (hfailed : ∀ e u, (failed e u).isBlank = false) : ∀ t ∈ sections, t.isBlank = false := by
  induction h with
  | nil => exact nofun
  | @cons e t es sections hfirst _ ih =>
    refine List.forall_mem_cons.2 ⟨?_, ih⟩
    by_cases hsupported : e.Supported
    · exact hrender e t (hfirst.1 hsupported)
    · rw [hfirst.2 hsupported]
      exact hfailed e _

namespace Mapping

end Mapping

/-- the documents that are linked to on behalf of an entry: its own, those it refers to, and those that refer to it -/
def Entry.linked (e : Entry) (m : Mapping) : List RuleDoc :=
  match e, e.resolve m with
  | .doc d, .ok references => d :: references.filterMap Reference.doc ++ d.referrers m
  | _, _ => []

section

variable {g : GrammarDoc} (hnodup : (g.docs.map fun d => d.rule.id).Nodup)

include hnodup

end

/-! ## Drawings -/

/-- the node and the edges that are drawn for an entry: its own, or a marked node without edges -/
def Entry.drawn (e : Entry) (m : Mapping) : Text × List Edge :=
  match e.drawing m with
  | .error _ => (e.failedNode, [])
  | .ok p => p

/-- a drawing of an entry: what it is drawn as by itself, or a marked node without edges -/
structure Draws (o : Options) (m : Mapping) (e : Entry) (p : Text × List Edge) : Prop where
  supported : e.Supported → e.drawing m = .ok p
  statements : e.Supported → o.deduplicateEdges = false → e.statements o m = .ok (p.1 :: p.2.map Edge.statement)
  unsupported : ¬ e.Supported → p = (e.failedNode, [])

theorem draws_drawn (o : Options) (m : Mapping) (e : Entry) : Draws o m e (e.drawn m) where
  supported h := by
    obtain ⟨node, edges, hdrawing⟩ := exists_drawing h m
    rw [Entry.drawn, hdrawing]
  statements h ho := by
    obtain ⟨node, edges, hdrawing⟩ := exists_drawing h m
    simp only [Entry.statements, Entry.drawn, hdrawing, Edge.chosen, ho, Bool.false_eq_true, if_false]
  unsupported h := by rw [Entry.drawn, drawing_unsupported h]

/-- the nodes of a grammar, entry by entry -/
theorem GrammarDoc.nodes_eq_drawn (g : GrammarDoc) : g.nodes = g.entries.map fun e => (e.drawn g.mapping).1 := by
  refine List.map_congr_left fun e _ => ?_
  rw [Entry.drawn]
  cases e.drawing g.mapping <;> rfl

/-- the edges of a grammar, entry by entry -/
theorem GrammarDoc.edges_eq_drawn (g : GrammarDoc) : g.edges = g.entries.flatMap fun e => (e.drawn g.mapping).2 := by
  refine List.flatMap_congr fun e _ => ?_
  rw [Entry.drawn]
  cases e.drawing g.mapping <;> rfl

end Rulebook
