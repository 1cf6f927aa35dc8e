/-
One relation seen from four sides. `reference_views_agree` says of two documents of a grammar document that the rule of
the second is among the references of the first exactly when it is among the resolved references of the first, exactly
when the first is among the referrers of the second, and, as long as no two documented rules share a name, exactly when a
solid edge leads from the first to the name of the second.

A grammar document documents no rule twice, so its mapping lists the documents as they stand in it (`docs_mapping`), and
a document is found under its rule and nowhere else (`get?_mapping`). The distinct references keep every rule that is
referred to, once (`mem_ids_distinctRefs`, `nodup_ids_distinctRefs`).

Edges know rules by their names. That a reference carries the name of the rule it points at (`GrammarDoc.Coherent`) holds
of the documents of every grammar that is read (`coherent_of_readText`).
-/
import Rulebook.Proofs.Drawing

namespace Rulebook

open Source

/-! ## Documents under their rules -/

namespace GrammarDoc

theorem filterMap_doc? (ds : List RuleDoc) : (ds.map Entry.doc).filterMap Entry.doc? = ds := by
  rw [List.filterMap_map]
  exact List.filterMap_some

/-- the documents of the rules, in the order of the entries -/
def docs (g : GrammarDoc) : List RuleDoc := g.entries.filterMap Entry.doc?

/-- what passes the check documents no rule twice, nor any that was seen before -/
theorem nodup_of_checked {name : Text} {seen : List RuleId} {entries : List (Option Entry)} {es : List Entry}
    (h : checked name seen entries = .ok es) :
    ((es.filterMap Entry.doc?).map fun d => d.rule.id).Nodup ∧ ∀ d ∈ es.filterMap Entry.doc?, d.rule.id ∉ seen := by
  fun_induction checked name seen entries generalizing es with
  | case1 =>
    cases h
    exact ⟨List.nodup_nil, by simp⟩
  | case2 => cases h
  | case3 => cases h
  | case4 seen c more rest hrest ih =>
    cases h
    rw [List.filterMap_cons_none (show (Entry.foreign c).doc? = none from rfl)]
    exact ih hrest
  | case5 => cases h
  | case6 => cases h
  | case7 seen d more hnew rest hrest ih =>
    cases h
    obtain ⟨hnodup, hunseen⟩ := ih hrest
    rw [List.filterMap_cons_some (show (Entry.doc d).doc? = some d from rfl), List.map_cons]
    refine ⟨List.nodup_cons.2 ⟨?_, hnodup⟩, List.forall_mem_cons.2 ⟨hnew, fun d' hd' hmem => ?_⟩⟩
    · intro hmem
      obtain ⟨d', hd', hid⟩ := List.mem_map.1 hmem
      exact hunseen d' hd' (hid ▸ List.mem_cons_self)
    · exact hunseen d' hd' (List.mem_cons_of_mem _ hmem)

/-- a grammar document documents no rule twice -/
theorem nodup_of_make {name : Text} {entries : List (Option Entry)} {imports metamodels : List Text}
    {comment : Supplied Comment} {g : GrammarDoc} (h : make name entries imports metamodels comment = .ok g) :
    (g.docs.map fun d => d.rule.id).Nodup := by
  unfold make at h
  split at h
  · cases h
  · split at h
    · cases h
    · split at h
      · cases h
      · next es hes =>
        cases h
        exact (nodup_of_checked hes).1

end GrammarDoc

namespace Mapping

/-- a document of a new rule is listed behind the others -/
theorem insert_new {m : Mapping} {d : RuleDoc} (h : d.rule.id ∉ m.map Prod.fst) : m.insert d = m ++ [(d.rule.id, d)] := by
  induction m with
  | nil => rfl
  | cons p m ih =>
    obtain ⟨id, old⟩ := p
    obtain ⟨hne, hmore⟩ := not_or.1 (List.mem_cons.not.1 h)
    rw [insert, if_neg (Ne.symm hne), ih hmore, List.cons_append]

/-- documents of different rules are listed as they come -/
theorem foldl_insert {m : Mapping} {ds : List RuleDoc} (h : (m.map Prod.fst ++ ds.map fun d => d.rule.id).Nodup) :
    ds.foldl insert m = m ++ ds.map fun d => (d.rule.id, d) := by
  induction ds generalizing m with
  | nil => simp
  | cons d ds ih =>
    have hnew : d.rule.id ∉ m.map Prod.fst := by
      intro hmem
      exact (List.nodup_append.1 h).2.2 _ hmem _ List.mem_cons_self rfl
    rw [List.foldl_cons, insert_new hnew, ih (by simpa using h)]
    simp

/-- a document that is listed under its rule is found under it and under no other -/
theorem get?_of_nodup {ds : List RuleDoc} (h : (ds.map fun d => d.rule.id).Nodup) (id : RuleId) (d : RuleDoc) :
    get? (ds.map fun d => (d.rule.id, d)) id = some d ↔ d ∈ ds ∧ d.rule.id = id := by
  induction ds with
  | nil => simp [get?]
  | cons first ds ih =>
    obtain ⟨hfirst, hmore⟩ := List.nodup_cons.1 h
    rw [get?, List.map_cons, List.lookup_cons]
    by_cases hid : id = first.rule.id
    · simp only [beq_iff_eq.2 hid, Option.some_inj]
      constructor
      · rintro rfl
        exact ⟨List.mem_cons_self, hid.symm⟩
      · rintro ⟨hd, heq⟩
        rcases List.mem_cons.1 hd with rfl | hd
        · rfl
        · exact absurd (List.mem_map.2 ⟨d, hd, heq.trans hid⟩) hfirst
    · have hne : d.rule.id = id → d ≠ first := fun heq hsame => hid (hsame ▸ heq.symm)
      simp only [beq_eq_false_iff_ne.2 hid]
      rw [← get?, ih hmore, List.mem_cons]
      exact and_congr_left fun heq => (or_iff_right (hne heq)).symm

end Mapping

section

variable {g : GrammarDoc} (hnodup : (g.docs.map fun d => d.rule.id).Nodup)

include hnodup

/-- the mapping lists every document under its rule, in the order of the entries -/
theorem mapping_eq : g.mapping = g.docs.map fun d => (d.rule.id, d) :=
  Mapping.foldl_insert (m := []) hnodup

theorem docs_mapping : g.mapping.docs = g.docs := by
  rw [mapping_eq hnodup, Mapping.docs, List.map_map]
  exact List.map_id _

/-- a document is found under its rule and under no other -/
theorem get?_mapping (id : RuleId) (d : RuleDoc) : g.mapping.get? id = some d ↔ d ∈ g.docs ∧ d.rule.id = id := by
  rw [mapping_eq hnodup]
  exact Mapping.get?_of_nodup hnodup id d

end

/-! ## References of a document -/

/-- the rules that a document refers to, one per call, in the order of the calls -/
def RuleDoc.refs (d : RuleDoc) : List RuleRef := d.rule.calls.filterMap id

/-- a document of a kind of its own gives its references -/
theorem references_doc {d : RuleDoc} (h : d.variant ≠ .reference) : (Entry.doc d).references = .ok d.refs := by
  obtain ⟨label, variant, rule, comment⟩ := d
  cases variant with
  | reference => exact absurd rfl h
  | parser => rfl
  | terminal => rfl
  | enumeration => rfl

theorem refersTo_iff {d : RuleDoc} (h : d.variant ≠ .reference) (id : RuleId) :
    d.refersTo id = true ↔ id ∈ d.refs.map RuleRef.id := by
  rw [RuleDoc.refersTo, references_doc h]
  simp

/-- the distinct references keep every rule that was not seen before -/
theorem mem_ids_distinctRefs (seen : List RuleId) (rs : List RuleRef) (id : RuleId) :
    id ∈ (distinctRefs seen rs).map RuleRef.id ↔ id ∈ rs.map RuleRef.id ∧ id ∉ seen := by
  fun_induction distinctRefs seen rs with
  | case1 => simp
  | case2 seen r rs hseen ih =>
    rw [ih, List.map_cons, List.mem_cons]
    refine and_congr_left fun hnew => (or_iff_right ?_).symm
    rintro rfl
    exact hnew hseen
  | case3 seen r rs hnew ih =>
    rw [List.map_cons, List.map_cons, List.mem_cons, List.mem_cons, ih, List.mem_cons, not_or]
    constructor
    · rintro (rfl | ⟨hmem, -, hunseen⟩)
      · exact ⟨.inl rfl, hnew⟩
      · exact ⟨.inr hmem, hunseen⟩
    · rintro ⟨rfl | hmem, hunseen⟩
      · exact .inl rfl
      · by_cases hid : id = r.id
        · exact .inl hid
        · exact .inr ⟨hmem, hid, hunseen⟩

/-- no rule is left twice among the distinct references -/
theorem nodup_ids_distinctRefs (seen : List RuleId) (rs : List RuleRef) :
    ((distinctRefs seen rs).map RuleRef.id).Nodup := by
  fun_induction distinctRefs seen rs with
  | case1 => exact List.nodup_nil
  | case2 seen r rs hseen ih => exact ih
  | case3 seen r rs hnew ih =>
    refine List.nodup_cons.2 ⟨fun hmem => ?_, ih⟩
    exact ((mem_ids_distinctRefs _ _ _).1 hmem).2 List.mem_cons_self

/-- one place of the list, and no other, holds what is asked for -/
def Once {α : Type} (p : α → Prop) (l : List α) : Prop := ∃! i : Nat, ∃ a, l[i]? = some a ∧ p a

theorem Once.of_nodup {α β : Type} {key : α → β} {l : List α} (h : (l.map key).Nodup) {p : α → Prop} {a : α}
    (ha : a ∈ l) (hp : p a) (hkey : ∀ b ∈ l, p b → key b = key a) : Once p l := by
  obtain ⟨i, hi⟩ := List.mem_iff_getElem?.1 ha
  refine ⟨i, ⟨a, hi, hp⟩, ?_⟩
  rintro j ⟨b, hj, hb⟩
  have hsame : (l.map key)[j]? = (l.map key)[i]? := by
    rw [List.getElem?_map, List.getElem?_map, hi, hj, Option.map_some, Option.map_some,
      hkey b (List.mem_of_getElem? hj) hb]
  have hlt : j < (l.map key).length := by
    rw [List.length_map]
    exact (List.getElem?_eq_some_iff.1 hj).1
  exact (List.getElem?_inj hlt h).1 hsame

/-- a reference to a documented rule carries the name of that rule -/
def GrammarDoc.Coherent (g : GrammarDoc) : Prop :=
  ∀ d ∈ g.docs, ∀ r ∈ d.refs, ∀ other ∈ g.docs, r.id = other.rule.id → r.name = other.name

/-- what a call is linked to carries the name of the rule that it stands for -/
theorem Library.Chronicle.name_target {made : List Grammar} {l : Library} (h : Chronicle made l) {g : Grammar}
    (hmade : g ∈ made) (c : WrittenCall) {r : Rule} (hr : r ∈ g.rules) (hid : (g.target c).id = r.id) :
    (g.target c).name = r.name := by
  obtain ⟨i, hi⟩ := List.mem_iff_getElem?.1 hr
  cases hmeant : g.meant c with
  | none =>
    rw [Grammar.target_of_meant_none hmeant, (h.asMade g hmade).id_of_rule hi] at hid
    cases hid
  | some found =>
    rw [Grammar.target, hmeant] at hid ⊢
    obtain ⟨k, hreach, hmem⟩ : ∃ k, g.Reaches k ∧ found ∈ k.rules := by
      unfold Grammar.meant at hmeant
      split at hmeant
      · rw [Grammar.findRule_eq] at hmeant
        exact Grammar.reached_of_mem_allRules g (List.mem_of_find?_eq_some hmeant)
      · rw [Grammar.findInUsed_eq] at hmeant
        obtain ⟨u, hu, k, hreach, hmem⟩ :=
          Grammar.reached_of_mem_allRulesUsed g.used (List.mem_of_find?_eq_some hmeant)
        exact ⟨k, .used hu hreach, hmem⟩
    obtain ⟨j, hj⟩ := List.mem_iff_getElem?.1 hmem
    obtain ⟨rfl, rfl⟩ := h.rule_unique (h.reached hmade hreach).1 hmade hj hi hid
    rw [Option.some.inj (hj.symm.trans hi)]
    rfl

/-- in the documents of a grammar that is read, references carry the names of their rules -/
theorem coherent_of_readText {files : FileTree} {searchPaths : List Path} {file : Path} {base : Option Path}
    {source : Text} {l l' : Library} {g : Grammar} (hl : l.Idle)
    (hg : Library.readText files searchPaths file base source l = (.ok g, l')) {doc : GrammarDoc}
    (hdoc : (GrammarDoc.ofGrammar g).1 = .ok doc) : doc.Coherent := by
  obtain ⟨w, used, l₁, later, hw, -, rfl, -, hlater, hglater⟩ := hl.linked hg
  rw [ofGrammar_link w _ used (qualified_of_ofText hw).1.ne_nil] at hdoc
  obtain rfl := Except.ok.inj hdoc
  have hrules : ∀ d ∈ (GrammarDoc.docsFrom 0 (w.link l₁.fresh used).rules), d.rule ∈ (w.link l₁.fresh used).rules := by
    intro d hd
    rw [← GrammarDoc.rules_docsFrom 0 (w.link l₁.fresh used).rules]
    exact List.mem_map_of_mem hd
  simp only [GrammarDoc.Coherent, GrammarDoc.docs, GrammarDoc.filterMap_doc?]
  intro d hd r hr other hother hid
  obtain ⟨i, hi⟩ := List.mem_iff_getElem?.1 (hrules d hd)
  obtain ⟨wr, -, hwr⟩ := rule_of_link hi
  rw [RuleDoc.refs, hwr, calls_linkRule, List.filterMap_map] at hr
  obtain ⟨c, -, hc⟩ := List.mem_filterMap.1 hr
  obtain rfl := Option.some.inj hc
  exact hlater.name_target hglater c (hrules other hother) hid

/-! ## The views -/

section

variable {g : GrammarDoc} (hnodup : (g.docs.map fun d => d.rule.id).Nodup) {a b : RuleDoc} (hb : b ∈ g.docs)

include hnodup hb

/-- the references that are resolved to a document are those to its rule -/
theorem resolved_iff (refs : List RuleRef) :
    (∃ r ∈ (distinctRefs [] refs).map (fun r => Reference.mk r (g.mapping.get? r.id)), r.doc = some b) ↔
      b.rule.id ∈ refs.map RuleRef.id := by
  have hkept : b.rule.id ∈ refs.map RuleRef.id ↔ b.rule.id ∈ (distinctRefs [] refs).map RuleRef.id := by
    simp [mem_ids_distinctRefs]
  rw [hkept, List.mem_map]
  constructor
  · rintro ⟨r, hr, hdoc⟩
    obtain ⟨target, htarget, rfl⟩ := List.mem_map.1 hr
    exact ⟨target, htarget, ((get?_mapping hnodup _ _).1 hdoc).2.symm⟩
  · rintro ⟨target, htarget, hid⟩
    exact ⟨_, List.mem_map_of_mem htarget, (get?_mapping hnodup _ _).2 ⟨hb, hid.symm⟩⟩

theorem resolved_once {refs : List RuleRef} (h : b.rule.id ∈ refs.map RuleRef.id) :
    Once (fun r => r.doc = some b) ((distinctRefs [] refs).map fun r => Reference.mk r (g.mapping.get? r.id)) := by
  obtain ⟨r, hr, hdoc⟩ := (resolved_iff hnodup hb refs).2 h
  have hids : (((distinctRefs [] refs).map fun r => Reference.mk r (g.mapping.get? r.id)).map
      fun r => r.target.id).Nodup := by
    rw [List.map_map]
    exact nodup_ids_distinctRefs [] refs
  have hfound : ∀ r ∈ (distinctRefs [] refs).map fun r => Reference.mk r (g.mapping.get? r.id),
      r.doc = some b → r.target.id = b.rule.id := by
    intro r hr hdoc
    obtain ⟨target, -, rfl⟩ := List.mem_map.1 hr
    exact ((get?_mapping hnodup _ _).1 hdoc).2.symm
  refine .of_nodup hids hr hdoc fun other hother hdoc' => ?_
  rw [hfound other hother hdoc', hfound r hr hdoc]

omit hb in
theorem mem_referrers_iff (ha : a ∈ g.docs) (hvariant : a.variant ≠ .reference) :
    a ∈ b.referrers g.mapping ↔ b.rule.id ∈ a.refs.map RuleRef.id := by
  rw [RuleDoc.referrers, docs_mapping hnodup, List.mem_filter, refersTo_iff hvariant]
  exact and_iff_right ha

omit hb in
/-- the referrers stand in the order of the entries -/
theorem sublist_referrers : (b.referrers g.mapping).Sublist g.docs := by
  rw [RuleDoc.referrers, docs_mapping hnodup]
  exact List.filter_sublist

omit hb in
theorem referrers_once (h : a ∈ b.referrers g.mapping) : Once (fun d => d = a) (b.referrers g.mapping) := by
  have hids : ((b.referrers g.mapping).map fun d => d.rule.id).Nodup :=
    hnodup.sublist ((sublist_referrers hnodup).map _)
  refine .of_nodup hids h rfl ?_
  rintro d - rfl
  rfl

/-- as long as names tell the documented rules apart, the solid edges to a name are the references to its rule -/
theorem solid_edge_iff (ha : a ∈ g.docs) (hcoherent : g.Coherent) (hnames : (g.docs.map RuleDoc.name).Nodup) :
    (∃ e ∈ a.refs.map (fun r => Edge.mk a.name r.name (g.mapping.get? r.id).isNone),
      e.external = false ∧ e.target = b.name) ↔ b.rule.id ∈ a.refs.map RuleRef.id := by
  constructor
  · rintro ⟨e, he, hsolid, htarget⟩
    obtain ⟨r, hr, rfl⟩ := List.mem_map.1 he
    obtain ⟨d, hd⟩ : ∃ d, g.mapping.get? r.id = some d := by
      cases hd : g.mapping.get? r.id with
      | none => simp [hd] at hsolid
      | some d => exact ⟨d, rfl⟩
    obtain ⟨hdmem, hid⟩ := (get?_mapping hnodup _ _).1 hd
    have hname : d.name = b.name := (hcoherent a ha r hr d hdmem hid.symm).symm.trans htarget
    have hsame : d = b := List.inj_on_of_nodup_map hnames hdmem hb hname
    exact List.mem_map.2 ⟨r, hr, by rw [← hsame, hid]⟩
  · intro h
    obtain ⟨r, hr, hid⟩ := List.mem_map.1 h
    refine ⟨_, List.mem_map_of_mem hr, ?_, hcoherent a ha r hr b hb hid⟩
    simp only [(get?_mapping hnodup r.id b).2 ⟨hb, hid.symm⟩, Option.isNone_some]

end

/-- **Three views of the references agree**, for every grammar document and all documents `a` and `b` in its mapping, as
long as `a` has a kind of its own. The rule of `b` is among the references of `a` exactly when `b` is the document of a
resolved reference of `a`, and then of one only; exactly when `a` is a referrer of `b`, and then at one place only, the
referrers standing in the order of the entries; and, when names tell the documented rules apart, exactly when a solid
edge of `a` leads to the name of `b`. -/
theorem reference_views_agree {name : Text} {entries : List (Option Entry)} {imports metamodels : List Text}
    {comment : Supplied Comment} {g : GrammarDoc}
    (hmake : GrammarDoc.make name entries imports metamodels comment = .ok g) {a b : RuleDoc}
    (ha : a ∈ g.mapping.docs) (hb : b ∈ g.mapping.docs) (hvariant : a.variant ≠ .reference) :
    ∃ refs resolved edges, (Entry.doc a).references = .ok refs ∧ (Entry.doc a).resolve g.mapping = .ok resolved ∧
      (Entry.doc a).edges g.mapping = .ok edges ∧
      (b.rule.id ∈ refs.map RuleRef.id ↔ ∃ r ∈ resolved, r.doc = some b) ∧
      ((∃ r ∈ resolved, r.doc = some b) → Once (fun r => r.doc = some b) resolved) ∧
      (b.rule.id ∈ refs.map RuleRef.id ↔ a ∈ b.referrers g.mapping) ∧
      (a ∈ b.referrers g.mapping → Once (fun d => d = a) (b.referrers g.mapping)) ∧
      (b.referrers g.mapping).Sublist (g.entries.filterMap Entry.doc?) ∧
      (g.Coherent → (g.mapping.docs.map RuleDoc.name).Nodup →
        (b.rule.id ∈ refs.map RuleRef.id ↔ ∃ e ∈ edges, e.external = false ∧ e.target = b.name)) := by
  have hnodup := GrammarDoc.nodup_of_make hmake
  have hdocs := docs_mapping hnodup
  rw [hdocs] at ha hb
  have hresolved := resolved_iff hnodup hb a.refs
  have hreferrers := mem_referrers_iff (b := b) hnodup ha hvariant
  refine ⟨a.refs, _, a.refs.map fun r => ⟨a.name, r.name, (g.mapping.get? r.id).isNone⟩, references_doc hvariant, ?_, ?_,
    hresolved.symm,
    fun h => resolved_once hnodup hb (hresolved.1 h), hreferrers.symm, referrers_once hnodup,
    sublist_referrers hnodup, fun hcoherent hnames => ?_⟩
  · rw [Entry.resolve, references_doc hvariant]
  · rw [Entry.edges, references_doc hvariant]
    rfl
  · rw [hdocs] at hnames
    exact (solid_edge_iff hnodup hb ha hcoherent hnames).symm

/-- the rule `A: B A B;`, which calls itself and another rule twice -/
def callingRule : Rule :=
  { kind := .parser false [], name := "A", typeName := none, comment := none, line := none,
    definition := some (.compound .none .sequence [.call .none (some ⟨.declared 0 1, "B"⟩),
      .call .none (some ⟨.declared 0 0, "A"⟩), .call .none (some ⟨.declared 0 1, "B"⟩)])
    id := .declared 0 0 }

/-- the rule `B: 'b';` -/
def calledRule : Rule :=
  { kind := .parser false [], name := "B", typeName := none, comment := none, line := none,
    definition := some (.keyword .none "b"), id := .declared 0 1 }

/-- the documents of the two rules -/
def callingDocs : GrammarDoc :=
  ⟨"G", [.doc (.ofRule 0 callingRule), .doc (.ofRule 1 calledRule)], [], [], .empty⟩

theorem refs_callingRule : (RuleDoc.ofRule 0 callingRule).refs =
    [⟨.declared 0 1, "B"⟩, ⟨.declared 0 0, "A"⟩, ⟨.declared 0 1, "B"⟩] := by
  decide +kernel

theorem refs_calledRule : (RuleDoc.ofRule 1 calledRule).refs = [] := by
  decide +kernel

theorem coherent_callingDocs : callingDocs.Coherent := by
  have hdocs : callingDocs.docs = [.ofRule 0 callingRule, .ofRule 1 calledRule] := rfl
  simp only [GrammarDoc.Coherent, hdocs, List.forall_mem_cons, refs_callingRule, refs_calledRule]
  simp [callingRule, calledRule, RuleDoc.ofRule, RuleDoc.name]

/-- a rule that calls another one twice refers to it once, is once its referrer, and has a solid edge to it -/
theorem repeated_call_refers_once : ∃ resolved edges, ∃ a ∈ callingDocs.mapping.docs, ∃ b ∈ callingDocs.mapping.docs,
    GrammarDoc.make "G" [some (.doc a), some (.doc b)] [] [] (.value .empty) = .ok callingDocs ∧
      a.variant ≠ .reference ∧ callingDocs.Coherent ∧ (callingDocs.mapping.docs.map RuleDoc.name).Nodup ∧
      (Entry.doc a).resolve callingDocs.mapping = .ok resolved ∧ Once (fun r => r.doc = some b) resolved ∧
      Once (fun d => d = a) (b.referrers callingDocs.mapping) ∧
      (Entry.doc a).edges callingDocs.mapping = .ok edges ∧ ∃ e ∈ edges, e.external = false ∧ e.target = b.name := by
  have hmake : GrammarDoc.make "G" [some (.doc (.ofRule 0 callingRule)), some (.doc (.ofRule 1 calledRule))] [] []
      (.value .empty) = .ok callingDocs := rfl
  have hmapped : callingDocs.mapping.docs = [.ofRule 0 callingRule, .ofRule 1 calledRule] :=
    docs_mapping (GrammarDoc.nodup_of_make hmake)
  have ha : RuleDoc.ofRule 0 callingRule ∈ callingDocs.mapping.docs := by simp [hmapped]
  have hb : RuleDoc.ofRule 1 calledRule ∈ callingDocs.mapping.docs := by simp [hmapped]
  have hvariant : (RuleDoc.ofRule 0 callingRule).variant ≠ .reference := by decide
  have hnames : (callingDocs.mapping.docs.map RuleDoc.name).Nodup := by
    rw [hmapped]
    decide
  obtain ⟨refs, resolved, edges, hrefs, hresolve, hedges, hresolved, honce, hreferrers, hat, -, hdrawn⟩ :=
    reference_views_agree hmake ha hb hvariant
  have hrefers : (RuleDoc.ofRule 1 calledRule).rule.id ∈ refs.map RuleRef.id := by
    rw [references_doc hvariant, refs_callingRule] at hrefs
    rw [← Except.ok.inj hrefs]
    decide
  exact ⟨resolved, edges, _, ha, _, hb, hmake, hvariant, coherent_callingDocs, hnames, hresolve,
    honce (hresolved.1 hrefers), hat (hreferrers.1 hrefers), hedges, (hdrawn coherent_callingDocs hnames).1 hrefers⟩

end Rulebook
