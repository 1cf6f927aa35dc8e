/-
Documents by identity. Every rule of a grammar gets one document, whatever other rules are called or hold: that of the
variant for its kind, or a plain one when its kind is refused (`documents_ofRule`). Only two things keep a grammar from being
documented: it has no name, or a rule stands in it twice. The check of the documents stops at the first rule that was seen
before (`checked_repeated`).

- `documents_one_to_one`: when a grammar is documented, which documents it gets, and what the mapping lists.
-/
import Rulebook.Proofs.References

namespace Rulebook

/-! ## The document of a rule -/

/-- the document of a rule with its own comment. It is of the variant for the kind of the rule; when that is refused for
want of a variant, it is a plain one -/
structure RuleDoc.Documents (d : RuleDoc) (r : Rule) : Prop where
  rule : d.rule = r
  comment : d.comment = Comment.ofRaw? r.comment
  variant : RuleDoc.create d.label (some r) (.value d.comment) = .ok d ∨
    RuleDoc.create d.label (some r) (.value d.comment) = .error (.unsupported (.rule r.name r.kind.className)) ∧
      RuleDoc.make d.label .reference (some r) (.value d.comment) = .ok d

theorem documents_ofRule (label : Nat) (r : Rule) : (RuleDoc.ofRule label r).Documents r where
  rule := rfl
  comment := rfl
  variant := by
    obtain ⟨⟨kind, name, typeName, comment, line, definition⟩, id⟩ := r
    cases kind with
    | parser fragment hidden => exact .inl rfl
    | terminal fragment => exact .inl rfl
    | enumeration => exact .inl rfl
    | unresolved => exact .inr ⟨rfl, rfl⟩

namespace GrammarDoc

theorem forall₂_docsFrom (label : Nat) (rs : List Rule) : List.Forall₂ RuleDoc.Documents (docsFrom label rs) rs := by
  induction rs generalizing label with
  | nil => exact .nil
  | cons r rs ih => exact .cons (documents_ofRule label r) (ih (label + 1))

/-- the documents are told apart by numbers, so rules of one name have different ones -/
theorem labels_docsFrom (label : Nat) (rs : List Rule) :
    (docsFrom label rs).map RuleDoc.label = List.range' label rs.length := by
  induction rs generalizing label with
  | nil => rfl
  | cons r rs ih => rw [docsFrom, List.map_cons, ih, List.length_cons, List.range'_succ, RuleDoc.ofRule]

/-- the log hears of each plain document, in order -/
theorem unsupportedLog_eq (grammar : Text) (label : Nat) (rs : List Rule) :
    unsupportedLog grammar rs = ((docsFrom label rs).filter fun d => d.variant = .reference).map fun d =>
      .unsupported grammar (.rule d.rule.name d.rule.kind.className) := by
  induction rs generalizing label with
  | nil => rfl
  | cons r rs ih =>
    have hplain : decide ((RuleDoc.ofRule label r).variant = .reference) = (DocVariant.ofKind? r.kind).isNone := by
      rw [RuleDoc.ofRule]
      cases r.kind with
      | parser fragment hidden => rfl
      | terminal fragment => rfl
      | enumeration => rfl
      | unresolved => rfl
    rw [unsupportedLog] at ih ⊢
    rw [docsFrom, List.filter_cons, List.filter_cons, hplain]
    split
    · rw [List.map_cons, List.map_cons, ih (label + 1)]
      rfl
    · exact ih (label + 1)

/-! ## Rules that are documented twice -/

/-- the documents are of different rules, and of none that was seen before -/
def Fresh (seen : List RuleId) (ds : List RuleDoc) : Prop :=
  (ds.map fun d => d.rule.id).Nodup ∧ ∀ d ∈ ds, d.rule.id ∉ seen

theorem fresh_cons {seen : List RuleId} {d : RuleDoc} {ds : List RuleDoc} :
    Fresh seen (d :: ds) ↔ d.rule.id ∉ seen ∧ Fresh (d.rule.id :: seen) ds := by
  rw [Fresh, Fresh, List.map_cons, List.nodup_cons, List.forall_mem_cons]
  simp only [List.mem_cons, List.mem_map, not_or, not_exists, not_and, forall_and]
  tauto

/-- the check stops at the first document of a rule that was seen before -/
theorem checked_repeated (name : Text) {seen : List RuleId} {ds : List RuleDoc} (h : ¬ Fresh seen ds) :
    ∃ front d back, ds = front ++ d :: back ∧ Fresh seen front ∧ ¬ Fresh seen (front ++ [d]) ∧
      checked name seen (ds.map fun d => some (.doc d)) = .error (.repeatedRule d.rule.name name) := by
  induction ds generalizing seen with
  | nil => exact absurd ⟨List.nodup_nil, List.forall_mem_nil _⟩ h
  | cons d ds ih =>
    rw [List.map_cons, checked]
    by_cases hseen : d.rule.id ∈ seen
    · refine ⟨[], d, ds, rfl, ⟨List.nodup_nil, List.forall_mem_nil _⟩, ?_, by rw [if_pos hseen]⟩
      exact fun hfresh => (fresh_cons.1 hfresh).1 hseen
    · rw [fresh_cons, not_and] at h
      obtain ⟨front, again, back, rfl, hfront, hagain, hchecked⟩ := ih (h hseen)
      refine ⟨d :: front, again, back, rfl, fresh_cons.2 ⟨hseen, hfront⟩, ?_, ?_⟩
      · exact fun hfresh => hagain (fresh_cons.1 hfresh).2
      · rw [if_neg hseen, hchecked]

/-- a rule that is not new behind different ones is one of them -/
theorem mem_of_not_fresh {front : List RuleDoc} {d : RuleDoc} (hfront : Fresh [] front) (h : ¬ Fresh [] (front ++ [d])) :
    d.rule.id ∈ front.map fun d => d.rule.id := by
  by_contra hnew
  apply h
  refine ⟨?_, fun _ _ => List.not_mem_nil⟩
  rw [List.map_append, List.map_singleton]
  refine List.nodup_append.2 ⟨hfront.1, List.nodup_singleton _, fun id hid id' hid' heq => hnew ?_⟩
  rwa [← List.mem_singleton.1 hid', ← heq]

/-! ## Documents of grammars -/

theorem ids_docsFrom (label : Nat) (rs : List Rule) :
    (docsFrom label rs).map (fun d => d.rule.id) = rs.map Rule.id :=
  map_docsFrom label fun _ _ _ => rfl

/-- a grammar with a name and without repeated rules is documented, with a document for each rule -/
theorem ofGrammar_ok {g : Grammar} (hname : g.name ≠ []) (hids : (g.rules.map Rule.id).Nodup) :
    (ofGrammar g).1 = .ok ⟨g.name, (docsFrom 0 g.rules).map .doc, g.used.map Grammar.name,
      g.metamodels.map Metamodel.text, Comment.ofRaw? g.comment⟩ := by
  have hchecked := checked_docs g.name ((ids_docsFrom 0 g.rules).symm ▸ hids) fun _ _ => List.not_mem_nil
  rw [ofGrammar, make, if_neg hname]
  simp only [Supplied.comment, hchecked]

/-- a grammar in which a rule is repeated is refused where it is met again -/
theorem ofGrammar_repeated {g : Grammar} (hname : g.name ≠ []) (hids : ¬ (g.rules.map Rule.id).Nodup) :
    ∃ front r back, g.rules = front ++ r :: back ∧ (front.map Rule.id).Nodup ∧ r.id ∈ front.map Rule.id ∧
      (ofGrammar g).1 = .error (.repeatedRule r.name g.name) := by
  have hagain : ¬ Fresh [] (docsFrom 0 g.rules) := fun hfresh => hids (ids_docsFrom 0 g.rules ▸ hfresh.1)
  obtain ⟨front, d, back, hsplit, hfront, hd, hchecked⟩ := checked_repeated g.name hagain
  refine ⟨front.map RuleDoc.rule, d.rule, back.map RuleDoc.rule, ?_, ?_, ?_, ?_⟩
  · rw [← rules_docsFrom 0 g.rules, hsplit, List.map_append, List.map_cons]
  · rw [List.map_map]
    exact hfront.1
  · rw [List.map_map]
    exact mem_of_not_fresh hfront hd
  · rw [ofGrammar, make, if_neg hname]
    simp only [Supplied.comment, hchecked]

theorem ofGrammar_nameless {g : Grammar} (hname : g.name = []) : (ofGrammar g).1 = .error .noName := by
  rw [ofGrammar, make, if_pos hname]

/-- nothing else is documented -/
theorem documentable {g : Grammar} {doc : GrammarDoc} (h : (ofGrammar g).1 = .ok doc) :
    g.name ≠ [] ∧ (g.rules.map Rule.id).Nodup := by
  have hname : g.name ≠ [] := by
    intro hname
    rw [ofGrammar_nameless hname] at h
    cases h
  refine ⟨hname, ?_⟩
  by_contra hids
  obtain ⟨_, _, _, _, _, _, hrefused⟩ := ofGrammar_repeated hname hids
  rw [hrefused] at h
  cases h

/-- the documents of a documented grammar are those of its rules -/
theorem docs_eq {g : Grammar} {doc : GrammarDoc} (h : (ofGrammar g).1 = .ok doc) :
    doc.name = g.name ∧ doc.entries = doc.docs.map .doc ∧ doc.docs = docsFrom 0 g.rules := by
  obtain ⟨hname, hids⟩ := documentable h
  have hdoc := ofGrammar_ok hname hids
  rw [h] at hdoc
  obtain rfl := Except.ok.inj hdoc
  have hdocs : docs ⟨g.name, (docsFrom 0 g.rules).map .doc, g.used.map Grammar.name, g.metamodels.map Metamodel.text,
      Comment.ofRaw? g.comment⟩ = docsFrom 0 g.rules := filterMap_doc? _
  exact ⟨rfl, by rw [hdocs], hdocs⟩

end GrammarDoc

/-- **A grammar is documented rule by rule**, whatever grammar it is. It is documented exactly when it has a name and no
rule stands in it twice; else it is refused for its missing name, or for the first rule that stands there again. In what is
documented every rule has its own document in its place, and these can be told apart even when the rules have equal names.
The mapping lists the documents in the same order, each under its rule, where it is found again. The log hears of every
rule that has a plain document only, and of nothing else. -/
theorem documents_one_to_one (g : Grammar) :
    ((∃ doc, (GrammarDoc.ofGrammar g).1 = .ok doc) ↔ g.name ≠ [] ∧ (g.rules.map Rule.id).Nodup) ∧
      (g.name = [] → (GrammarDoc.ofGrammar g).1 = .error .noName) ∧
      (g.name ≠ [] → ¬ (g.rules.map Rule.id).Nodup → ∃ front r back, g.rules = front ++ r :: back ∧
        (front.map Rule.id).Nodup ∧ r.id ∈ front.map Rule.id ∧
        (GrammarDoc.ofGrammar g).1 = .error (.repeatedRule r.name g.name)) ∧
      ∀ doc, (GrammarDoc.ofGrammar g).1 = .ok doc →
        doc.name = g.name ∧ doc.entries = doc.docs.map .doc ∧ List.Forall₂ RuleDoc.Documents doc.docs g.rules ∧
        (doc.docs.map RuleDoc.label).Nodup ∧ doc.mapping = (doc.docs.map fun d => (d.rule.id, d)) ∧
        (∀ d ∈ doc.docs, doc.mapping.get? d.rule.id = some d) ∧
        (GrammarDoc.ofGrammar g).2 = (doc.docs.filter fun d => d.variant = .reference).map fun d =>
          .unsupported g.name (.rule d.rule.name d.rule.kind.className) := by
  refine ⟨⟨fun ⟨_, hdoc⟩ => GrammarDoc.documentable hdoc, fun ⟨hname, hids⟩ => ⟨_, GrammarDoc.ofGrammar_ok hname hids⟩⟩,
    GrammarDoc.ofGrammar_nameless, GrammarDoc.ofGrammar_repeated, fun doc hdoc => ?_⟩
  obtain ⟨hname, hentries, hdocs⟩ := GrammarDoc.docs_eq hdoc
  have hnodup : (doc.docs.map fun d => d.rule.id).Nodup := by
    rw [hdocs, GrammarDoc.ids_docsFrom]
    exact (GrammarDoc.documentable hdoc).2
  refine ⟨hname, hentries, ?_, ?_, mapping_eq hnodup, fun d hd => (get?_mapping hnodup _ d).2 ⟨hd, rfl⟩, ?_⟩
  · rw [hdocs]
    exact GrammarDoc.forall₂_docsFrom 0 g.rules
  · rw [hdocs, GrammarDoc.labels_docsFrom]
    exact List.nodup_range'
  · rw [hdocs]
    exact GrammarDoc.unsupportedLog_eq g.name 0 g.rules

/-- two rules that are alike in all but their places are documented apart -/
example : let twin (position : Nat) : Rule := ⟨⟨.parser false [], "A", none, none, none, none⟩, .declared 0 position⟩
    (GrammarDoc.ofGrammar ⟨0, "a", none, [], [], [twin 0, twin 1], []⟩).1.map (fun doc => doc.mapping.map Prod.fst) =
      .ok [.declared 0 0, .declared 0 1] := rfl

end Rulebook
