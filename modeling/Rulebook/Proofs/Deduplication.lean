/-
Edges that are drawn once. What is kept of a list of edges is the first one between any two names, in the order of the
list; an edge is known by the names it joins, not by the way it is drawn.

What is kept of two lists one after the other is what is kept of each, as long as no two names are joined in both
(`distinct_append`). So when names tell the rules apart, a graph is put together of what is drawn of each rule by itself,
with all edges or with those that are kept (`graph_sums_statements`).

Whether an edge is solid or dashed is not part of what it is known by. So edges are lost exactly when a solid and a dashed
one join the same names (`drawn_edges_kept_iff`): a rule calls another rule of its own grammar and, by a qualified name,
a rule of a used grammar that has the same name (`own_call_is_lost`).
-/
import Rulebook.Proofs.Pictures
import Rulebook.Proofs.Reprinting

namespace Rulebook

open Source

/-! ## First occurrences -/

namespace Edge

/-- the names that an edge joins -/
def ends (e : Edge) : Text × Text := (e.source, e.target)

variable {seen others : List (Text × Text)} {es fs : List Edge}

/-- what is kept is the first edge between its names, unless these were seen before -/
theorem mem_distinctFrom {e : Edge} :
    e ∈ distinctFrom seen es ↔ e.ends ∉ seen ∧ (es.find? fun f => f.ends = e.ends) = some e := by
  fun_induction distinctFrom seen es with
  | case1 => simp
  | case2 seen f es hseen ih =>
    rw [ih]
    refine and_congr_right fun hnew => ?_
    have hne : f.ends ≠ e.ends := fun heq => hnew (heq ▸ hseen)
    rw [List.find?_cons_of_neg (by simpa using hne)]
  | case3 seen f es hnew ih =>
    rw [List.mem_cons, ih, List.mem_cons, not_or]
    by_cases heq : f.ends = e.ends
    · rw [List.find?_cons_of_pos (by simpa using heq), Option.some_inj]
      constructor
      · rintro (rfl | ⟨⟨hne, -⟩, -⟩)
        · exact ⟨hnew, rfl⟩
        · exact absurd heq.symm hne
      · rintro ⟨-, rfl⟩
        exact .inl rfl
    · rw [List.find?_cons_of_neg (by simpa using heq), and_assoc]
      constructor
      · rintro (rfl | ⟨-, hmem⟩)
        · exact absurd rfl heq
        · exact hmem
      · exact fun hmem => .inr ⟨Ne.symm heq, hmem⟩

/-- no two names are joined twice by what is kept -/
theorem nodup_ends_distinctFrom (seen : List (Text × Text)) (es : List Edge) :
    ((distinctFrom seen es).map ends).Nodup := by
  fun_induction distinctFrom seen es with
  | case1 => exact List.nodup_nil
  | case2 seen f es hseen ih => exact ih
  | case3 seen f es hnew ih =>
    refine List.nodup_cons.2 ⟨fun hmem => ?_, ih⟩
    obtain ⟨e, he, heq⟩ := List.mem_map.1 hmem
    exact (mem_distinctFrom.1 he).1 (heq ▸ List.mem_cons_self)

/-- all that counts about the names that were seen is which edges of the list join them -/
theorem distinctFrom_congr (h : ∀ e ∈ es, e.ends ∈ seen ↔ e.ends ∈ others) :
    distinctFrom seen es = distinctFrom others es := by
  fun_induction distinctFrom seen es generalizing others with
  | case1 => rfl
  | case2 seen f es hseen ih =>
    obtain ⟨hf, hes⟩ := List.forall_mem_cons.1 h
    rw [distinctFrom, ih hes]
    exact (if_pos (hf.1 hseen)).symm
  | case3 seen f es hnew ih =>
    obtain ⟨hf, hes⟩ := List.forall_mem_cons.1 h
    have hboth : ∀ e ∈ es, e.ends ∈ f.ends :: seen ↔ e.ends ∈ f.ends :: others := by
      intro e he
      rw [List.mem_cons, List.mem_cons, hes e he]
    rw [distinctFrom, ih hboth]
    exact (if_neg (mt hf.2 hnew)).symm

/-- of two lists one after the other, the second one is searched for names that the first one does not join -/
theorem distinctFrom_append (seen : List (Text × Text)) (es fs : List Edge) :
    distinctFrom seen (es ++ fs) = distinctFrom seen es ++ distinctFrom (es.map ends ++ seen) fs := by
  fun_induction distinctFrom seen es with
  | case1 => rfl
  | case2 seen f es hseen ih =>
    rw [List.cons_append, distinctFrom, if_pos hseen, ih]
    -- the names were seen before, so it does not matter that they are listed once more
    refine congrArg _ (distinctFrom_congr fun e _ => ?_)
    have hf : f.ends ∈ seen := hseen
    simp only [List.map_cons, List.cons_append, List.mem_cons, List.mem_append]
    refine ⟨.inr, fun hmem => hmem.elim (fun heq => ?_) id⟩
    exact .inr (heq ▸ hf)
  | case3 seen f es hnew ih =>
    rw [List.cons_append, distinctFrom, if_neg hnew, ih, List.cons_append]
    -- the names that were seen are the same in another order
    refine congrArg _ (congrArg _ (distinctFrom_congr fun e _ => ?_))
    simp only [List.map_cons, List.cons_append, List.mem_cons, List.mem_append]
    exact or_left_comm

/-- of lists that join different names, one after the other, what is kept is what is kept of each -/
theorem distinct_append (h : ∀ e ∈ fs, e.ends ∉ es.map ends) : distinct (es ++ fs) = distinct es ++ distinct fs := by
  rw [distinct, distinctFrom_append]
  exact congrArg _ (distinctFrom_congr fun e he => by simpa using h e he)

/-- of the edges that lead from different names, what is kept is what is kept of each name -/
theorem distinct_flatMap {α : Type} {name : α → Text} {edges : α → List Edge}
    (hsource : ∀ a, ∀ e ∈ edges a, e.source = name a) {as : List α} (hnames : (as.map name).Nodup) :
    distinct (as.flatMap edges) = as.flatMap fun a => distinct (edges a) := by
  induction as with
  | nil => rfl
  | cons a as ih =>
    obtain ⟨hfirst, hmore⟩ := List.nodup_cons.1 hnames
    rw [List.flatMap_cons, List.flatMap_cons, distinct_append, ih hmore]
    intro e he hmem
    obtain ⟨b, hb, he⟩ := List.mem_flatMap.1 he
    obtain ⟨f, hf, heq⟩ := List.mem_map.1 hmem
    have hname : name b = name a := by
      rw [← hsource b e he, ← hsource a f hf]
      exact (congrArg Prod.fst heq).symm
    exact hfirst (List.mem_map.2 ⟨b, hb, hname⟩)

/-- what is kept up to an edge is what is kept of the edges before it, and the edge itself if none of these joins its
names -/
theorem distinct_before (before after : List Edge) (e : Edge) :
    distinct before ++ (if e.ends ∈ before.map ends then [] else [e]) <+: distinct (before ++ e :: after) := by
  rw [List.append_cons, distinct, distinct, distinctFrom_append [] (before ++ [e]), distinctFrom_append [] before [e],
    List.append_nil]
  exact List.prefix_append _ _

/-- the first edge between its names is found for every edge -/
theorem exists_find?_ends {e : Edge} (he : e ∈ es) :
    ∃ f ∈ es, f.ends = e.ends ∧ (es.find? fun f => f.ends = e.ends) = some f := by
  cases hfind : es.find? fun f => f.ends = e.ends with
  | none => exact absurd (List.find?_eq_none.1 hfind e he) (by simp)
  | some f => exact ⟨f, List.mem_of_find?_eq_some hfind, by simpa using List.find?_some hfind, rfl⟩

/-- what is kept joins the same names -/
theorem mem_ends_distinct {p : Text × Text} : p ∈ (distinct es).map ends ↔ p ∈ es.map ends := by
  rw [List.mem_map, List.mem_map]
  constructor
  · rintro ⟨e, he, rfl⟩
    exact ⟨e, mem_of_mem_distinctFrom he, rfl⟩
  · rintro ⟨e, he, rfl⟩
    obtain ⟨f, -, heq, hfind⟩ := exists_find?_ends he
    exact ⟨f, mem_distinctFrom.2 ⟨List.not_mem_nil, heq ▸ hfind⟩, heq⟩

/-- nothing is lost exactly when no solid and no dashed edge join the same names -/
theorem mem_distinct_iff_mem : (∀ e, e ∈ distinct es ↔ e ∈ es) ↔
    ¬ ∃ e ∈ es, ∃ f ∈ es, e.ends = f.ends ∧ e.external = false ∧ f.external = true := by
  constructor
  · rintro h ⟨e, he, f, hf, heq, hsolid, hdashed⟩
    obtain rfl := List.inj_on_of_nodup_map (nodup_ends_distinctFrom [] es) ((h e).2 he) ((h f).2 hf) heq
    exact absurd (hsolid.symm.trans hdashed) Bool.false_ne_true
  · refine fun h e => ⟨mem_of_mem_distinctFrom, fun he => mem_distinctFrom.2 ⟨List.not_mem_nil, ?_⟩⟩
    obtain ⟨f, hf, heq, hfind⟩ := exists_find?_ends he
    have hstyle : f.external = e.external := by
      cases hfe : f.external <;> cases hee : e.external
      · rfl
      · exact absurd ⟨f, hf, e, he, heq, hfe, hee⟩ h
      · exact absurd ⟨e, he, f, hf, heq.symm, hee, hfe⟩ h
      · rfl
    have hsame : f = e := by
      rw [Edge.mk.injEq]
      exact ⟨congrArg Prod.fst heq, congrArg Prod.snd heq, hstyle⟩
    rw [hfind, hsame]

end Edge

/-! ## The whole graph and its rules -/

/-- a supported document is drawn with an edge for each reference -/
theorem edges_drawn {d : RuleDoc} (h : d.variant ≠ .reference) (m : Mapping) :
    ((Entry.doc d).drawn m).2 = d.refs.map fun r => ⟨d.name, r.name, (m.get? r.id).isNone⟩ := by
  rw [Entry.drawn, Entry.drawing, Entry.edges, references_doc h, Entry.node, RuleDoc.node_eq h]
  rfl

theorem source_drawn (e : Entry) (m : Mapping) : ∀ edge ∈ (e.drawn m).2, edge.source = e.name := by
  by_cases h : e.Supported
  · obtain ⟨d, rfl, hvariant⟩ := h.exists_doc
    rw [edges_drawn hvariant]
    exact List.forall_mem_map.2 fun r _ => rfl
  · rw [(draws_drawn .standard m e).unsupported h]
    exact nofun

/-- the edges of a grammar whose names tell the entries apart, as they are drawn, entry by entry -/
theorem chosen_edges (o : Options) {g : GrammarDoc} (hnames : (g.entries.map Entry.name).Nodup) :
    Edge.chosen o g.edges = g.entries.flatMap fun e => Edge.chosen o (e.drawn g.mapping).2 := by
  rw [g.edges_eq_drawn]
  unfold Edge.chosen
  split
  · exact Edge.distinct_flatMap (fun e => source_drawn e g.mapping) hnames
  · rfl

/-- a supported entry is drawn with its node first and then its edges -/
theorem statements_drawn (o : Options) {e : Entry} (h : e.Supported) (m : Mapping) :
    e.statements o m = .ok ((e.drawn m).1 :: (Edge.chosen o (e.drawn m).2).map Edge.statement) := by
  rw [Entry.statements, (draws_drawn o m e).supported h]

/-- **The graph is the sum of what is drawn of its rules**, whether edges are drawn once or once per call, for every
grammar document with supported entries only whose names differ. The statements that are made of the rules one by one are
a node each, and edges; the nodes of the graph are the former, in the order of the rules, and its edges are the latter,
one rule after the other. So it makes no difference whether the edges of the whole graph are deduplicated or those of each
rule. An edge is kept where it comes first: what is kept up to any edge is what is kept of those before it, and the edge
itself if none of these joins its names. -/
theorem graph_sums_statements {g : GrammarDoc} (o : Options) (hsupported : ∀ e ∈ g.entries, e.Supported)
    (hnames : (g.entries.map Entry.name).Nodup) :
    ∃ parts : List (Text × List Text),
      List.Forall₂ (fun e part => e.statements o g.mapping = .ok (part.1 :: part.2)) g.entries parts ∧
      g.nodes = parts.map Prod.fst ∧
      (Edge.chosen o g.edges).map Edge.statement = parts.flatMap Prod.snd ∧
      g.graph o = graphText o g.name (parts.map Prod.fst ++ parts.flatMap Prod.snd) ∧
      Edge.distinct g.edges = (g.entries.flatMap fun e => Edge.distinct (e.drawn g.mapping).2) ∧
      ∀ before e after, g.edges = before ++ e :: after →
        Edge.distinct before ++ (if e.ends ∈ before.map Edge.ends then [] else [e]) <+: Edge.distinct g.edges := by
  have hnodes : g.nodes = (g.entries.map fun e => ((e.drawn g.mapping).1,
      (Edge.chosen o (e.drawn g.mapping).2).map Edge.statement)).map Prod.fst := by
    rw [g.nodes_eq_drawn, List.map_map]
    rfl
  have hedges : (Edge.chosen o g.edges).map Edge.statement = (g.entries.map fun e => ((e.drawn g.mapping).1,
      (Edge.chosen o (e.drawn g.mapping).2).map Edge.statement)).flatMap Prod.snd := by
    rw [chosen_edges o hnames, List.map_flatMap, List.flatMap_map]
  refine ⟨_, ?_, hnodes, hedges, ?_, chosen_edges ⟨o.includeSyntax, true, o.direction⟩ hnames, ?_⟩
  · refine List.forall₂_map_right_iff.2 (List.forall₂_same.2 fun e he => ?_)
    exact statements_drawn o (hsupported e he) g.mapping
  · rw [← hnodes, ← hedges]
    rfl
  · intro before e after heq
    rw [heq]
    exact Edge.distinct_before before after e

/-- a rule that calls another one twice, and itself, has two edges in the graph -/
theorem repeated_call_summed : ∃ parts : List (Text × List Text),
    (∀ e ∈ callingDocs.entries, e.Supported) ∧ (callingDocs.entries.map Entry.name).Nodup ∧
      List.Forall₂ (fun e part => e.statements ⟨true, true, .leftRight⟩ callingDocs.mapping = .ok (part.1 :: part.2))
        callingDocs.entries parts ∧
      callingDocs.nodes = parts.map Prod.fst ∧
      parts.flatMap Prod.snd = ["\"A\" -> \"B\";", "\"A\" -> \"A\";"] ∧
      Edge.distinct callingDocs.edges = [⟨"A", "B", false⟩, ⟨"A", "A", false⟩] := by
  have hsupported : ∀ e ∈ callingDocs.entries, e.Supported := by decide
  have hnames : (callingDocs.entries.map Entry.name).Nodup := by decide
  have hkept : Edge.distinct callingDocs.edges = [⟨"A", "B", false⟩, ⟨"A", "A", false⟩] := by decide +kernel
  obtain ⟨parts, hparts, hnodes, hedges, -, -, -⟩ := graph_sums_statements ⟨true, true, .leftRight⟩ hsupported hnames
  refine ⟨parts, hsupported, hnames, hparts, hnodes, ?_, hkept⟩
  rw [← hedges, Edge.chosen, if_pos rfl, hkept]
  decide +kernel

/-! ## Edges that are lost -/

def GrammarDoc.Documents (g : GrammarDoc) (id : RuleId) : Prop := ∃ d ∈ g.docs, d.rule.id = id

/-- two supported documents of one name call rules of one name, of which one is documented and the other is not -/
def GrammarDoc.Mixed (g : GrammarDoc) : Prop :=
  ∃ d ∈ g.docs, d.variant ≠ .reference ∧ ∃ d' ∈ g.docs, d'.variant ≠ .reference ∧ d.name = d'.name ∧
    ∃ r ∈ d.refs, ∃ r' ∈ d'.refs, r.name = r'.name ∧ g.Documents r.id ∧ ¬ g.Documents r'.id

theorem GrammarDoc.isNone_get? (g : GrammarDoc) (id : RuleId) : (g.mapping.get? id).isNone = true ↔ ¬ g.Documents id := by
  have hmapping : g.mapping = Mapping.ofEntries (g.docs.map .doc) := by
    rw [mapping, Mapping.ofEntries, Mapping.ofEntries, GrammarDoc.filterMap_doc?, docs]
  rw [Option.isNone_iff_eq_none, ← Option.not_isSome_iff_eq_none, hmapping, Mapping.isSome_get?, Documents]

/-- the edges of a grammar are the references of its supported documents -/
theorem GrammarDoc.mem_edges {g : GrammarDoc} {e : Edge} : e ∈ g.edges ↔ ∃ d ∈ g.docs, d.variant ≠ .reference ∧
    ∃ r ∈ d.refs, e = ⟨d.name, r.name, (g.mapping.get? r.id).isNone⟩ := by
  rw [g.edges_eq_drawn, List.mem_flatMap]
  constructor
  · rintro ⟨entry, hentry, he⟩
    by_cases h : entry.Supported
    · obtain ⟨d, rfl, hvariant⟩ := h.exists_doc
      rw [edges_drawn hvariant] at he
      obtain ⟨r, hr, rfl⟩ := List.mem_map.1 he
      exact ⟨d, List.mem_filterMap.2 ⟨_, hentry, rfl⟩, hvariant, r, hr, rfl⟩
    · rw [(draws_drawn .standard g.mapping entry).unsupported h] at he
      cases he
  · rintro ⟨d, hd, hvariant, r, hr, rfl⟩
    obtain ⟨entry, hentry, hdoc⟩ := List.mem_filterMap.1 hd
    cases entry with
    | foreign c => cases hdoc
    | doc d' =>
      cases hdoc
      exact ⟨_, hentry, by rw [edges_drawn hvariant]; exact List.mem_map_of_mem hr⟩

/-- a solid and a dashed edge join the same names exactly in a mixed document -/
theorem GrammarDoc.mixed_iff (g : GrammarDoc) :
    g.Mixed ↔ ∃ e ∈ g.edges, ∃ f ∈ g.edges, e.ends = f.ends ∧ e.external = false ∧ f.external = true := by
  constructor
  · rintro ⟨d, hd, hvariant, d', hd', hvariant', hname, r, hr, r', hr', htarget, hshown, hhidden⟩
    refine ⟨_, mem_edges.2 ⟨d, hd, hvariant, r, hr, rfl⟩, _, mem_edges.2 ⟨d', hd', hvariant', r', hr', rfl⟩,
      Prod.ext hname htarget, ?_, (g.isNone_get? r'.id).2 hhidden⟩
    exact Bool.eq_false_iff.2 fun hdashed => (g.isNone_get? r.id).1 hdashed hshown
  · rintro ⟨e, he, f, hf, hends, hsolid, hdashed⟩
    obtain ⟨d, hd, hvariant, r, hr, rfl⟩ := mem_edges.1 he
    obtain ⟨d', hd', hvariant', r', hr', rfl⟩ := mem_edges.1 hf
    obtain ⟨hname, htarget⟩ := Prod.mk.inj hends
    refine ⟨d, hd, hvariant, d', hd', hvariant', hname, r, hr, r', hr', htarget, by_contra fun hhidden => ?_,
      (g.isNone_get? r'.id).1 hdashed⟩
    exact absurd (hsolid.symm.trans ((g.isNone_get? r.id).2 hhidden)) Bool.false_ne_true

/-- **Deduplication loses an edge exactly when a solid and a dashed one join the same names**, for every grammar document
and direction. The graph with edges that are drawn once and the one with an edge per call are both decoded. They have the
same nodes and join the same names, the former each two names once; an edge is left in it exactly when it is the first of
the latter between its names. So the edges of both are the same, as sets, exactly when no two rules of one name call rules
of one name of which one is documented and the other is not. -/
theorem drawn_edges_kept_iff (g : GrammarDoc) (includeSyntax : Bool) (direction : Direction) :
    ∃ once all : Picture, Picture.ofText? (g.graph ⟨includeSyntax, true, direction⟩) = some once ∧
      Picture.ofText? (g.graph ⟨includeSyntax, false, direction⟩) = some all ∧
      ((∀ e, e ∈ once.edges ↔ e ∈ all.edges) ↔ ¬ g.Mixed) ∧
      (∀ e, e ∈ once.edges ↔ (all.edges.find? fun f => f.ends = e.ends) = some e) ∧
      (once.edges.map Edge.ends).Nodup ∧ (∀ p, p ∈ once.edges.map Edge.ends ↔ p ∈ all.edges.map Edge.ends) ∧
      once.nodes = all.nodes := by
  refine ⟨_, _, g.ofText?_graph _, g.ofText?_graph _, ?_, ?_, ?_, ?_, rfl⟩
  · show (∀ e, e ∈ Edge.distinct g.edges ↔ e ∈ g.edges) ↔ _
    rw [Edge.mem_distinct_iff_mem, g.mixed_iff]
  · intro e
    exact Edge.mem_distinctFrom.trans (and_iff_right List.not_mem_nil)
  · exact Edge.nodup_ends_distinctFrom [] g.edges
  · exact fun _ => Edge.mem_ends_distinct

/-- the call is one of a rule that the text declares -/
def Source.WrittenGrammar.CallsOwn (w : WrittenGrammar) (c : WrittenCall) : Prop :=
  c.qualifier = none ∧ ∃ r ∈ w.rules, r.name = c.name

/-- the document of a text is mixed exactly when rules of one name call a rule of the text and a rule of the same name
that is not one of the text -/
theorem mixed_of_readText_iff {files : FileTree} {searchPaths : List Path} {file : Path} {base : Option Path}
    {source : Text} {l l' : Library} {g : Grammar} (hl : l.Idle)
    (hg : Library.readText files searchPaths file base source l = (.ok g, l')) :
    ∃ w doc, WrittenGrammar.ofText file source = .ok w ∧ (GrammarDoc.ofGrammar g).1 = .ok doc ∧
      (doc.Mixed ↔ ∃ r ∈ w.rules, ∃ r' ∈ w.rules, r.name = r'.name ∧ ∃ c ∈ r.calls, ∃ c' ∈ r'.calls,
        (g.target c).name = (g.target c').name ∧ w.CallsOwn c ∧ ¬ w.CallsOwn c') := by
  obtain ⟨w, used, l₁, later, hw, -, rfl, -, hlater, hglater⟩ := hl.linked hg
  have hdoc := ofGrammar_link w l₁.fresh used (qualified_of_ofText hw).1.ne_nil
  refine ⟨w, _, hw, hdoc, ?_⟩
  have hkinds := ne_unresolved_of_ofText hw
  have hown : ∀ c, (w.link l₁.fresh used).declares ((w.link l₁.fresh used).target c).id = true ↔ w.CallsOwn c := by
    intro c
    have hnames : (∃ r ∈ (w.link l₁.fresh used).rules, r.name = c.name) ↔
        c.name ∈ (w.link l₁.fresh used).rules.map fun r => r.name := by simp
    rw [declares_target_iff hlater hglater, hnames, map_link (h := fun r => r.name) w l₁.fresh used fun _ _ _ => rfl,
      WrittenGrammar.CallsOwn]
    simp
  rw [GrammarDoc.mixed_iff, edges_link w l₁.fresh used hkinds rfl]
  constructor
  · rintro ⟨e, he, f, hf, hends, hsolid, hdashed⟩
    obtain ⟨r, hr, he⟩ := List.mem_flatMap.1 he
    obtain ⟨c, hc, rfl⟩ := List.mem_map.1 he
    obtain ⟨r', hr', hf⟩ := List.mem_flatMap.1 hf
    obtain ⟨c', hc', rfl⟩ := List.mem_map.1 hf
    obtain ⟨hname, htarget⟩ := Prod.mk.inj hends
    refine ⟨r, hr, r', hr', hname, c, hc, c', hc', htarget, (hown c).1 ((Bool.not_eq_false' _).mp hsolid), ?_⟩
    rw [← hown c', Bool.not_eq_true]
    exact (Bool.not_eq_true' _).mp hdashed
  · rintro ⟨r, hr, r', hr', hname, c, hc, c', hc', htarget, hcalls, hother⟩
    rw [← hown c', Bool.not_eq_true] at hother
    exact ⟨_, List.mem_flatMap.2 ⟨r, hr, List.mem_map_of_mem hc⟩, _, List.mem_flatMap.2 ⟨r', hr', List.mem_map_of_mem hc'⟩,
      Prod.ext hname htarget, (Bool.not_eq_false' _).mpr ((hown c).2 hcalls), (Bool.not_eq_true' _).mpr hother⟩

namespace Borrowing

/-- a rule that calls the rule `X` of `b` and then a rule `X` of its own -/
def twoCallPieces : List Piece :=
  [namePiece "A", symbolPiece .colon, namePiece "b", symbolPiece .doubleColon, namePiece "X", blankPiece, namePiece "X",
    symbolPiece .semicolon]

@[inherit_doc twoCallPieces]
def twoCallRule : WrittenRule :=
  ⟨.parser false [], "A", none, none, some 1,
    some (.compound .none .sequence [.call .none ⟨some "b", "X", 1, 20⟩, .call .none ⟨none, "X", 1, 25⟩])⟩

theorem declared_twoCallPieces : Declared (wordsOf (Lexed.ofPieces ⟨1, 18⟩ twoCallPieces).tokens) twoCallRule := by
  have hfirst : ∀ u c n : Word, u.IsName → c.Is .doubleColon → n.IsName →
      Spells .parser .element [u, c, n] [.call .none (callOf (u.token, some n.token))] :=
    fun _ _ _ hu hc hn => element_of_plain (plain_of_atom (.leaf (.call (.named (.qualified hu hc hn) nofun))))
  have hsecond : ∀ n : Word, n.IsName → Spells .parser .element [n] [.call .none (callOf (n.token, none))] :=
    fun _ hn => element_of_plain (plain_of_atom (.leaf (.call (.named (.plain hn) nofun))))
  exact .bare rfl rfl (alternatives_of_unordered (unordered_of_sequence (.sequence
    (.elementsMore (hfirst _ _ _ rfl rfl rfl) (.elementsOne (hsecond _ rfl)))))) rfl

/-- the declarations behind the head -/
def twoCallText : Text := "A:b::X X;X:'x';"

theorem readText_twoCalls : ∃ l', Library.readText ⟨[], []⟩ [] (Path.ofText "a") none (head ++ twoCallText) library =
    (.ok (borrower [twoCallRule, keywordRule "X" "x" 1]), l') := by
  have hcut : Piece.cut (head ++ twoCallText) = .ok (headPieces ++ (twoCallPieces ++ keywordPieces "X" "x")) := by cbv
  have hrows : Rows (wordsOf (Lexed.ofPieces ⟨1, 18⟩ (twoCallPieces ++ keywordPieces "X" "x")).tokens)
      [twoCallRule, keywordRule "X" "x" 1] :=
    .more (.intro .none declared_twoCallPieces) (rows_keywordPieces "X" "x" ⟨1, 27⟩)
  exact readText_head hcut rfl hrows rfl rfl rfl rfl

/-- of a dashed edge and the solid one behind it, which both lead from `A` to `X`, the solid one is lost -/
theorem own_call_is_lost : ∃ (g : Grammar) (l' : Library) (doc : GrammarDoc) (once all : Picture), library.Idle ∧
    Library.readText ⟨[], []⟩ [] (Path.ofText "a") none (head ++ twoCallText) library = (.ok g, l') ∧
      (GrammarDoc.ofGrammar g).1 = .ok doc ∧ Picture.ofText? (doc.graph ⟨true, true, .leftRight⟩) = some once ∧
      Picture.ofText? (doc.graph ⟨true, false, .leftRight⟩) = some all ∧
      all.edges = [⟨"A", "X", true⟩, ⟨"A", "X", false⟩] ∧ once.edges = [⟨"A", "X", true⟩] := by
  obtain ⟨l', hread⟩ := readText_twoCalls
  have hdoc := ofGrammar_link ⟨"a", none, ["b"], [], [], [twoCallRule, keywordRule "X" "x" 1]⟩ 1 [lender.link 0 []]
    (by decide)
  refine ⟨_, l', _, _, _, idle_library, hread, hdoc, GrammarDoc.ofText?_graph _ _, GrammarDoc.ofText?_graph _ _, ?_, ?_⟩
  · decide +kernel
  · decide +kernel

end Borrowing

end Rulebook
