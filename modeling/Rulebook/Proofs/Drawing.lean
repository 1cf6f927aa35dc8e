/-
The graph of a text. `graph_shows_source_calls` goes from the words of a text to its picture: a node for every rule, in
the order of the declarations, and an edge for every call in the bodies of the rules, in the order of the words, dashed
exactly when the rule that the call is linked to is not one that the text declares.

Every rule that is read has a document and every document can be drawn (`ofGrammar_link`, `drawing_ofRule`). The mapping
documents the rules that the grammar declares and no others (`isSome_get?`). An unqualified call of an own name is linked
to an own rule; no other call is, since a grammar uses only grammars that were made before it (`declares_target_iff`).
-/
import Rulebook.Document.Graph
import Rulebook.Proofs.Bodies
import Rulebook.Proofs.Names
import Rulebook.Proofs.Targets

namespace Rulebook

open Source

/-! ## Documents of rules -/

namespace GrammarDoc

/-- what is true of the document of every rule -/
theorem map_docsFrom {α : Type} {f : RuleDoc → α} {h : Rule → α} (label : Nat) {rs : List Rule}
    (hdoc : ∀ label, ∀ r ∈ rs, f (.ofRule label r) = h r) : (docsFrom label rs).map f = rs.map h := by
  induction rs generalizing label with
  | nil => rfl
  | cons r rs ih =>
    rw [docsFrom, List.map_cons, List.map_cons, hdoc label r List.mem_cons_self,
      ih (label + 1) fun label r hr => hdoc label r (List.mem_cons_of_mem _ hr)]

theorem rules_docsFrom (label : Nat) (rs : List Rule) : (docsFrom label rs).map RuleDoc.rule = rs := by
  rw [map_docsFrom (h := id) label fun _ _ _ => rfl, List.map_id]

/-- documents of different rules are kept as they are -/
theorem checked_docs (name : Text) {seen : List RuleId} {ds : List RuleDoc}
    (h : (ds.map fun d => d.rule.id).Nodup) (hseen : ∀ d ∈ ds, d.rule.id ∉ seen) :
    checked name seen (ds.map fun d => some (.doc d)) = .ok (ds.map .doc) := by
  induction ds generalizing seen with
  | nil => rfl
  | cons d ds ih =>
    obtain ⟨hfirst, hmore⟩ := List.nodup_cons.1 h
    have hrest : ∀ d' ∈ ds, d'.rule.id ∉ d.rule.id :: seen := by
      intro d' hd' hmem
      rcases List.mem_cons.1 hmem with heq | hmem
      · exact hfirst (List.mem_map.2 ⟨d', hd', heq⟩)
      · exact hseen d' (List.mem_cons_of_mem _ hd') hmem
    rw [List.map_cons, checked, if_neg (hseen d List.mem_cons_self), ih hmore hrest]
    rfl

end GrammarDoc

namespace Mapping

theorem isSome_get?_insert (m : Mapping) (d : RuleDoc) (id : RuleId) :
    ((m.insert d).get? id).isSome ↔ (m.get? id).isSome ∨ d.rule.id = id := by
  induction m with
  | nil =>
    by_cases h : d.rule.id = id
    · simp [insert, get?, List.lookup, h]
    · have hne : (id == d.rule.id) = false := by simp [Ne.symm h]
      simp [insert, get?, List.lookup, h, hne]
  | cons p m ih =>
    obtain ⟨other, old⟩ := p
    unfold insert
    by_cases hid : id = other
    · split
      · next heq => simp [get?, List.lookup, hid]
      · simp [get?, List.lookup, hid]
    · have hne : (id == other) = false := by simp [hid]
      split
      · next heq =>
        have hother : ¬ d.rule.id = id := fun h => hid (h.symm.trans heq.symm)
        simp [get?, List.lookup, hne, hother]
      · simpa [get?, List.lookup, hne] using ih

/-- a mapping documents the rules of its entries and no others -/
theorem isSome_get? (ds : List RuleDoc) (id : RuleId) :
    ((ofEntries (ds.map .doc)).get? id).isSome ↔ ∃ d ∈ ds, d.rule.id = id := by
  have hdocs : (ds.map Entry.doc).filterMap Entry.doc? = ds := by
    rw [List.filterMap_map]
    exact List.filterMap_some
  have hfold : ∀ m : Mapping, ((ds.foldl insert m).get? id).isSome ↔ (m.get? id).isSome ∨ ∃ d ∈ ds, d.rule.id = id := by
    clear hdocs
    induction ds with
    | nil => simp
    | cons d ds ih =>
      intro m
      rw [List.foldl_cons, ih, isSome_get?_insert, or_assoc]
      simp
  rw [ofEntries, hdocs, hfold]
  exact or_iff_right nofun

end Mapping

/-! ## Drawing rules -/

def RuleKind.shape : RuleKind → Text
  | .parser _ _ => "box"
  | .terminal _ => "ellipse"
  | .enumeration => "hexagon"
  | .unresolved => []

def Declaration.nodeStatement {ρ : Type} (r : Declaration ρ) : Text :=
  quoteName r.name ++ " [label=" ++ quoteName r.name ++ ", shape=" ++ r.kind.shape ++ "];"

/-- every rule of a known kind can be drawn -/
theorem drawing_ofRule (label : Nat) {r : Rule} (hkind : r.kind ≠ .unresolved) (m : Mapping) :
    (Entry.doc (.ofRule label r)).drawing m = .ok (r.nodeStatement,
      (r.calls.filterMap id).map fun t => ⟨r.name, t.name, (m.get? t.id).isNone⟩) := by
  obtain ⟨⟨kind, name, typeName, comment, line, definition⟩, id⟩ := r
  cases kind with
  | unresolved => exact absurd rfl hkind
  | parser fragment hidden => rfl
  | terminal fragment => rfl
  | enumeration => rfl

/-! ## The grammar that is documented -/

def Grammar.declares (g : Grammar) (id : RuleId) : Bool := g.rules.any fun r => r.id = id

@[simp] theorem Grammar.declares_iff (g : Grammar) (id : RuleId) :
    g.declares id = true ↔ ∃ r ∈ g.rules, r.id = id := by
  simp [declares]

theorem ids_link (w : WrittenGrammar) (id : Nat) (used : List Grammar) :
    (w.link id used).rules.map Rule.id = (List.range w.rules.length).map (.declared id) := by
  rw [show (w.link id used).rules = _ from Scope.linkFrom_eq _ 0 w.rules, List.map_map]
  refine List.ext_getElem (by simp) fun i hi hj => ?_
  simp [Scope.linkRule, WrittenGrammar.scope]

theorem nodup_ids_link (w : WrittenGrammar) (id : Nat) (used : List Grammar) :
    ((w.link id used).rules.map Rule.id).Nodup := by
  rw [ids_link]
  exact List.nodup_range.map fun i j h => (RuleId.declared.inj h).2

/-- a grammar that has a name is documented, with one document for each rule -/
theorem ofGrammar_link (w : WrittenGrammar) (id : Nat) (used : List Grammar) (hname : w.name ≠ []) :
    (GrammarDoc.ofGrammar (w.link id used)).1 =
      .ok ⟨w.name, (GrammarDoc.docsFrom 0 (w.link id used).rules).map .doc, used.map Grammar.name,
        w.metamodels.map Metamodel.text, Comment.ofRaw? w.comment⟩ := by
  have hids : ((GrammarDoc.docsFrom 0 (w.link id used).rules).map fun d => d.rule.id).Nodup := by
    rw [GrammarDoc.map_docsFrom (h := Rule.id) 0 fun _ _ _ => rfl]
    exact nodup_ids_link w id used
  have hnew : ∀ d ∈ GrammarDoc.docsFrom 0 (w.link id used).rules, d.rule.id ∉ ([] : List RuleId) :=
    fun _ _ => List.not_mem_nil
  have hchecked := GrammarDoc.checked_docs w.name hids hnew
  rw [GrammarDoc.ofGrammar, GrammarDoc.make, if_neg (show (w.link id used).name ≠ [] from hname)]
  simp only [Supplied.comment, show (w.link id used).name = w.name from rfl, hchecked]
  rfl

/-! ## Own rules and others -/

section

variable {made : List Grammar} {l : Library} {g : Grammar}

/-- a rule of a used grammar has the number of that grammar, which was made before -/
theorem not_declares_used (h : Library.Chronicle made l) (hmade : g ∈ made) {name : Text} {r : Rule}
    (hr : Grammar.findInUsed g.used name = some r) : ¬ g.declares r.id = true := by
  intro hdeclares
  obtain ⟨own, hown, hid⟩ := (g.declares_iff r.id).1 hdeclares
  obtain ⟨i, hi⟩ := List.mem_iff_getElem?.1 hown
  obtain ⟨n, j, hj, hlt⟩ := h.id_of_findInUsed hmade hr
  rw [(h.asMade g hmade).id_of_rule hi, hj] at hid
  cases hid
  exact Nat.lt_irrefl _ hlt

theorem not_declares_standIn (h : Library.Chronicle made l) (hmade : g ∈ made) {c : WrittenCall}
    (hc : g.meant c = none) : ¬ g.declares (g.target c).id = true := by
  intro hdeclares
  obtain ⟨own, hown, hid⟩ := (g.declares_iff _).1 hdeclares
  obtain ⟨i, hi⟩ := List.mem_iff_getElem?.1 hown
  rw [Grammar.target_of_meant_none hc, (h.asMade g hmade).id_of_rule hi] at hid
  cases hid

/-- a rule that is found is the grammar's own exactly when the call is unqualified and an own rule has its name -/
theorem declares_target_iff (h : Library.Chronicle made l) (hmade : g ∈ made) (c : WrittenCall) :
    g.declares (g.target c).id = true ↔ c.qualifier = none ∧ ∃ r ∈ g.rules, r.name = c.name := by
  have hothers : (∀ r, g.meant c = some r → Grammar.findInUsed g.used c.name = some r) →
      ¬ g.declares (g.target c).id = true := by
    intro hmeant
    cases hfind : g.meant c with
    | none => exact not_declares_standIn h hmade hfind
    | some r =>
      rw [Grammar.target, hfind]
      exact not_declares_used h hmade (hmeant r hfind)
  cases hq : c.qualifier with
  | some q =>
    refine iff_of_false (hothers fun r hr => ?_) (by simp)
    rwa [Grammar.meant, hq] at hr
  | none =>
    have hmeant : g.meant c = (g.rules.find? fun r => r.name = c.name).or (Grammar.findInUsed g.used c.name) := by
      rw [Grammar.meant, hq]
      exact Grammar.findRule_eq_or g c.name
    cases hown : g.rules.find? fun r => r.name = c.name with
    | some r =>
      have hr : r ∈ g.rules := List.mem_of_find?_eq_some hown
      have hname : r.name = c.name := by simpa using List.find?_some hown
      refine iff_of_true ((g.declares_iff _).2 ⟨r, hr, ?_⟩) ⟨rfl, r, hr, hname⟩
      rw [Grammar.target, hmeant, hown]
      rfl
    | none =>
      refine iff_of_false (hothers fun r hr => ?_) ?_
      · rwa [hmeant, hown] at hr
      · rintro ⟨-, r, hr, hname⟩
        exact absurd (List.find?_eq_none.1 hown r hr) (by simp [hname])

end

/-! ## The graph -/

/-- the edges that the text asks for: one for each call in the bodies of the rules, in the order of the words -/
def sourceEdges (g : Grammar) (w : WrittenGrammar) (words : List Word) : List Edge :=
  (w.rules.zip (bodies words)).flatMap fun (r, body) =>
    (r.kind.callsIn body).map fun c => ⟨r.name, (g.target c).name, !g.declares (g.target c).id⟩

/-- the lines of a graph: its opening, statements, and its end -/
def graphText (o : Options) (name : Text) (statements : List Text) : Text :=
  Text.join "\n" (["digraph " ++ quoteName (Grammar.simpleName name) ++ " \x7b",
    "    rankdir=" ++ o.direction.text ++ ";"] ++ statements.map (fun s => Text.ofString "    " ++ s) ++
    [Text.ofString "\x7d"]) ++ "\n"

/-- what is drawn of a linked rule -/
theorem drawing_linkRule (w : WrittenGrammar) (n i : Nat) (used : List Grammar) {r : WrittenRule}
    (hkind : r.kind ≠ .unresolved) (label : Nat) (m : Mapping) :
    (Entry.doc (.ofRule label ((w.scope n used).linkRule i r))).drawing m = .ok (r.nodeStatement,
      r.calls.map fun c => ⟨r.name, ((w.link n used).target c).name, (m.get? ((w.link n used).target c).id).isNone⟩) := by
  have hcalls : ((w.scope n used).linkRule i r).calls.filterMap id = r.calls.map (w.link n used).target := by
    rw [calls_linkRule, List.filterMap_map]
    exact congrFun List.filterMap_eq_map r.calls
  rw [drawing_ofRule label hkind, hcalls, List.map_map]
  rfl

/-- the mapping of a linked grammar documents what the grammar declares -/
theorem isNone_get?_link (g : Grammar) (ref : RuleId) :
    ((Mapping.ofEntries ((GrammarDoc.docsFrom 0 g.rules).map .doc)).get? ref).isNone = !g.declares ref := by
  have hdocs : (∃ d ∈ GrammarDoc.docsFrom 0 g.rules, d.rule.id = ref) ↔ ∃ r ∈ g.rules, r.id = ref := by
    conv_rhs => rw [← GrammarDoc.rules_docsFrom 0 g.rules]
    simp
  rw [Bool.eq_iff_iff, Option.isNone_iff_eq_none, ← Option.not_isSome_iff_eq_none, Mapping.isSome_get?, hdocs,
    ← Grammar.declares_iff, Bool.not_eq_true, Bool.not_eq_true']

/-- edges by the calls that are read are edges by the words of the bodies -/
theorem flatMap_zip {α β γ δ : Type} {calls : α → List γ} {callsIn : α → β → List γ} (f : α → γ → δ) {as : List α}
    {bs : List β} (h : List.Forall₂ (fun a b => calls a = callsIn a b) as bs) :
    (as.flatMap fun a => (calls a).map (f a)) = (as.zip bs).flatMap fun (a, b) => (callsIn a b).map (f a) := by
  induction h with
  | nil => rfl
  | @cons a b as bs hab _ ih => rw [List.flatMap_cons, List.zip_cons_cons, List.flatMap_cons, hab, ih]

section

variable (w : WrittenGrammar) (n : Nat) (used : List Grammar) {doc : GrammarDoc}

/-- what does not depend on the label of a document and the place of a rule is known from the text -/
theorem map_docs_link {α : Type} {f : RuleDoc → α} {h : WrittenRule → α}
    (heq : ∀ label i, ∀ r ∈ w.rules, f (.ofRule label ((w.scope n used).linkRule i r)) = h r) :
    (GrammarDoc.docsFrom 0 (w.link n used).rules).map f = w.rules.map h := by
  have hrule : ∀ label, ∀ r ∈ (w.link n used).rules, f (.ofRule label r) = f (.ofRule 0 r) := by
    intro label r hr
    obtain ⟨i, hi⟩ := List.mem_iff_getElem?.1 hr
    obtain ⟨wr, hwr, rfl⟩ := rule_of_link hi
    rw [heq label i wr (List.mem_of_getElem? hwr), heq 0 i wr (List.mem_of_getElem? hwr)]
  rw [GrammarDoc.map_docsFrom 0 hrule]
  exact map_link w n used fun i r hr => heq 0 i r hr

variable (hkinds : ∀ r ∈ w.rules, r.kind ≠ .unresolved)
  (hentries : doc.entries = (GrammarDoc.docsFrom 0 (w.link n used).rules).map .doc)

include hkinds hentries

/-- an entry of a linked grammar is drawn as its rule -/
theorem drawing_link (label i : Nat) {r : WrittenRule} (hr : r ∈ w.rules) :
    (Entry.doc (.ofRule label ((w.scope n used).linkRule i r))).drawing doc.mapping = .ok (r.nodeStatement,
      r.calls.map fun c => ⟨r.name, ((w.link n used).target c).name,
        !(w.link n used).declares ((w.link n used).target c).id⟩) := by
  rw [drawing_linkRule w n i used (hkinds r hr)]
  simp only [GrammarDoc.mapping, hentries, isNone_get?_link]

/-- the edges of a linked grammar, one for each call -/
theorem edges_link : doc.edges = w.rules.flatMap fun r => r.calls.map fun c =>
    ⟨r.name, ((w.link n used).target c).name, !(w.link n used).declares ((w.link n used).target c).id⟩ := by
  rw [GrammarDoc.edges, hentries, List.flatMap_map, List.flatMap_def, List.flatMap_def]
  refine congrArg List.flatten (map_docs_link w n used fun label i r hr => ?_)
  simp only [drawing_link w n used hkinds hentries label i hr]

/-- the graph of a linked grammar, edge by edge -/
theorem graph_link {o : Options} (ho : o.deduplicateEdges = false) (hname : doc.name = w.name) :
    doc.graph o = graphText o w.name (w.rules.map Declaration.nodeStatement ++
      (w.rules.flatMap fun r => r.calls.map fun c => Edge.mk r.name ((w.link n used).target c).name
        (!(w.link n used).declares ((w.link n used).target c).id)).map Edge.statement) := by
  have hnodes : doc.nodes = w.rules.map Declaration.nodeStatement := by
    rw [GrammarDoc.nodes, hentries, List.map_map]
    refine map_docs_link w n used fun label i r hr => ?_
    simp only [Function.comp_apply, drawing_link w n used hkinds hentries label i hr]
  rw [GrammarDoc.graph, hnodes, edges_link w n used hkinds hentries, hname, Edge.chosen, ho]
  rfl

end

/-- **The graph shows the calls of the source**: for every text that a reader reads, whatever it has read before and
whatever the files hold, when edges are not deduplicated. There is a node for every rule in the order of the
declarations, and an edge for every call in the bodies of the rules, in the order of the words. The edge is solid exactly
when the rule that the call is linked to is one that the text declares: the call is unqualified and names a rule of the
text. -/
theorem graph_shows_source_calls {files : FileTree} {searchPaths : List Path} {file : Path} {base : Option Path}
    {source : Text} {l l' : Library} {g : Grammar} {o : Options} (hl : l.Idle) (ho : o.deduplicateEdges = false)
    (hg : Library.readText files searchPaths file base source l = (.ok g, l')) :
    ∃ lexed w doc, Lexed.ofSource file source = .ok lexed ∧ WrittenGrammar.ofText file source = .ok w ∧
      (GrammarDoc.ofGrammar g).1 = .ok doc ∧
      (bodies (wordsOf lexed.tokens)).length = w.rules.length ∧
      doc.graph o = graphText o w.name (w.rules.map Declaration.nodeStatement ++
        (sourceEdges g w (wordsOf lexed.tokens)).map Edge.statement) ∧
      ∀ c ∈ w.calls, g.declares (g.target c).id = true ↔ c.qualifier = none ∧ ∃ r ∈ w.rules, r.name = c.name := by
  obtain ⟨w, used, l₁, later, hw, heach, rfl, rfl, hlater, hglater⟩ := hl.linked hg
  obtain ⟨lexed, hlexed, -⟩ := WrittenGrammar.ofText_eq_ok_iff.1 hw
  have hkinds : ∀ r ∈ w.rules, r.kind ≠ .unresolved := by
    obtain ⟨words, -, hdefined⟩ := defined_of_ofText hw
    intro r hr hkind
    have hheaded := (hdefined r hr).1.distinct
    rw [hkind] at hheaded
    exact hheaded
  have hcalls := calls_of_bodies hlexed hw
  have hdoc := ofGrammar_link w l₁.fresh used (qualified_of_ofText hw).1.ne_nil
  refine ⟨lexed, w, _, hlexed, hw, hdoc, hcalls.length_eq.symm, ?_, fun c _ => ?_⟩
  · rw [graph_link w l₁.fresh used hkinds rfl ho rfl, sourceEdges]
    rw [flatMap_zip (fun (r : WrittenRule) c => Edge.mk r.name ((w.link l₁.fresh used).target c).name
      (!(w.link l₁.fresh used).declares ((w.link l₁.fresh used).target c).id)) hcalls]
  · rw [declares_target_iff hlater hglater]
    have hnames : (∃ r ∈ (w.link l₁.fresh used).rules, r.name = c.name) ↔
        c.name ∈ (w.link l₁.fresh used).rules.map fun r => r.name := by simp
    rw [hnames, map_link (h := fun r => r.name) w l₁.fresh used fun _ _ _ => rfl]
    simp

/-- a call of a rule that nobody declares is a dashed edge -/
theorem undeclared_call_drawn : ∃ (g : Grammar) (l' : Library) (doc : GrammarDoc),
    Library.readText ⟨[], []⟩ [] (Path.ofText "a") none "grammar a terminal T:b;" .empty = (.ok g, l') ∧
      Library.Idle .empty ∧ Options.standard.deduplicateEdges = false ∧ (GrammarDoc.ofGrammar g).1 = .ok doc ∧
      doc.graph .standard = Text.join "\n" ["digraph \"a\" \x7b", "    rankdir=LR;",
        "    \"T\" [label=\"T\", shape=ellipse];", "    \"T\" -> \"b\" [style=dashed];", "\x7d", ""] := by
  obtain ⟨l', hread⟩ := readText_undeclaredCall
  have ho : Options.standard.deduplicateEdges = false := rfl
  obtain ⟨lexed, w, doc, hlexed, hw, hdoc, -, hgraph, -⟩ := graph_shows_source_calls .start ho hread
  obtain rfl := Except.ok.inj (hlexed.symm.trans lexed_undeclaredCall)
  obtain rfl := Except.ok.inj (hw.symm.trans ofText_undeclaredCall)
  refine ⟨_, l', doc, hread, .start, ho, hdoc, hgraph.trans ?_⟩
  decide +kernel

end Rulebook
