/-
Targets of calls. A grammar that is read refers to rules by identity, and no two rules that it can reach share one
(`Chronicle.rule_unique`); the stand-in of a name that is not found has the identity of no rule (`Made.id_of_rule`).

`calls_linked_as_found`: whatever a reader has read before and whatever the files hold, every call of a text that it
reads is linked, to the rule that a search of the finished grammar finds first, or else to the one stand-in of its
written name, and the log hears of every such name once.
-/
import Rulebook.Proofs.Identities
import Rulebook.Proofs.Operands

namespace Rulebook

open Source

namespace Library

/-! ## Identities of rules -/

/-- a rule is known by its grammar and its place there -/
theorem Made.id_of_rule {g : Grammar} (h : Made g) {i : Nat} {r : Rule} (hr : g.rules[i]? = some r) :
    r.id = .declared g.id i := by
  cases h with
  | stub id name => cases hr
  | linked w id used =>
    obtain ⟨wr, -, rfl⟩ := rule_of_link hr
    rfl

/-- no two rules share an identity -/
theorem Chronicle.rule_unique {made : List Grammar} {l : Library} (h : Chronicle made l) {g g' : Grammar}
    (hg : g ∈ made) (hg' : g' ∈ made) {i j : Nat} {r r' : Rule} (hr : g.rules[i]? = some r)
    (hr' : g'.rules[j]? = some r') (hid : r.id = r'.id) : g = g' ∧ i = j := by
  rw [(h.asMade g hg).id_of_rule hr, (h.asMade g' hg').id_of_rule hr', RuleId.declared.injEq] at hid
  exact ⟨h.unique hg hg' hid.1, hid.2⟩

/-- a rule of a grammar that is reached through a used one has a number that was given before -/
theorem Chronicle.id_of_used {made : List Grammar} {l : Library} (h : Chronicle made l) {g u k : Grammar}
    (hg : g ∈ made) (hu : u ∈ g.used) (hk : u.Reaches k) {r : Rule} (hr : r ∈ k.rules) :
    ∃ n i, r.id = .declared n i ∧ n < g.id := by
  obtain ⟨i, hi⟩ := List.mem_iff_getElem?.1 hr
  have hkmade := (h.reached (h.used g hg u hu).1 hk).1
  exact ⟨k.id, i, (h.asMade k hkmade).id_of_rule hi, h.used_before hg hu hk⟩

theorem Chronicle.id_of_findInUsed {made : List Grammar} {l : Library} (h : Chronicle made l) {g : Grammar}
    (hg : g ∈ made) {name : Text} {r : Rule} (hr : Grammar.findInUsed g.used name = some r) :
    ∃ n i, r.id = .declared n i ∧ n < g.id := by
  rw [Grammar.findInUsed_eq] at hr
  obtain ⟨u, hu, k, hk, hmem⟩ := Grammar.reached_of_mem_allRulesUsed g.used (List.mem_of_find?_eq_some hr)
  exact h.id_of_used hg hu hk hmem

end Library

/-! ## Calls and what they are linked to -/

/-- the grammar `g` links the calls of `w` to the rules that are found for them; `notices` is what the log hears -/
structure LinkedAsFound (w : WrittenGrammar) (g : Grammar) (notices : Log) : Prop where
  /-- no call is left without a target -/
  complete : ∀ r ∈ g.rules, ∀ c ∈ r.calls, c.isSome
  /-- the definitions are the written ones, every call with its target -/
  trees : g.rules.map (fun r => r.definition) =
    w.rules.map fun r => r.definition.map (Element.map fun c => some (g.target c))
  /-- an unqualified call has the rule that a search finds -/
  unqualified : ∀ c ∈ w.calls, c.qualifier = none → ∀ r, g.findRule c.name = some r → g.target c = r.ref
  /-- a search finds the first rule of the name, own rules first, then depth first through the used grammars -/
  search : ∀ name, g.findRule name = g.allRules.find? fun r => r.name = name
  /-- what is found is a rule of the grammar or of one that it reaches -/
  found : ∀ name r, g.findRule name = some r → ∃ h, g.Reaches h ∧ r ∈ h.rules
  /-- a reference means one rule of one grammar -/
  identity : ∀ h h', g.Reaches h → g.Reaches h' → ∀ (i j : Nat) (r r' : Rule), h.rules[i]? = some r →
    h'.rules[j]? = some r' → r.id = r'.id → h = h' ∧ i = j
  /-- calls that find nothing share a stand-in exactly when they are written the same -/
  standIns : ∀ c ∈ w.calls, ∀ c' ∈ w.calls, g.meant c = none → g.meant c' = none →
    ((g.target c).id = (g.target c').id ↔ c.written = c'.written)
  /-- a stand-in is no rule of any grammar -/
  undeclared : ∀ c ∈ w.calls, g.meant c = none → ∀ h, g.Reaches h → ∀ r ∈ h.rules, r.id ≠ (g.target c).id
  /-- the names that are not found are reported -/
  reported : ∀ name, name ∈ notices.filterMap Notice.unfound? ↔ ∃ c ∈ w.calls, g.meant c = none ∧ c.written = name
  /-- no name is reported twice -/
  once : (notices.filterMap Notice.unfound?).Nodup

namespace Grammar

theorem target_of_meant_none {g : Grammar} {c : WrittenCall} (h : g.meant c = none) :
    g.target c = ⟨.standIn g.id c.written, c.written⟩ := by
  rw [target, h]

theorem target_of_findRule {g : Grammar} {c : WrittenCall} (hc : c.qualifier = none) {r : Rule}
    (h : g.findRule c.name = some r) : g.target c = r.ref := by
  simp only [target, meant, hc, h]

end Grammar

/-- the names of which the log hears when a grammar is linked -/
theorem mem_unfound_linkLog (w : WrittenGrammar) (id : Nat) (used : List Grammar) (name : Text) :
    name ∈ (w.linkLog id used).filterMap Notice.unfound? ↔
      ∃ c ∈ w.calls, (w.link id used).meant c = none ∧ c.written = name := by
  rw [WrittenGrammar.linkLog, List.filterMap_append, Scope.unfound?_repeated, List.nil_append, Scope.mem_unknown]
  simp only [List.not_mem_nil, not_false_eq_true, true_and, Scope.find?_eq, Option.map_eq_none_iff]

/-- a grammar that is linked among grammars with a chronicle links its calls to what is found for them -/
theorem linkedAsFound_link {made : List Grammar} {l : Library} (h : Library.Chronicle made l) {w : WrittenGrammar}
    {id : Nat} {used : List Grammar} (hmade : w.link id used ∈ made) (n : Nat) :
    LinkedAsFound w (w.link id used) (w.linkLog id used ++ [.readGrammar w.name n]) where
  complete _ hr _ hc := isSome_of_mem_calls hr hc
  trees := definitions_link w id used
  unqualified _ _ hc _ hr := Grammar.target_of_findRule hc hr
  search name := Grammar.findRule_eq _ name
  found name _ hr := Grammar.reached_of_mem_allRules _ (List.mem_of_find?_eq_some (Grammar.findRule_eq _ name ▸ hr))
  identity k k' hk hk' i j r r' hr hr' hid :=
    h.rule_unique (h.reached hmade hk).1 (h.reached hmade hk').1 hr hr' hid
  standIns c _ c' _ hc hc' := by
    rw [Grammar.target_of_meant_none hc, Grammar.target_of_meant_none hc']
    simp
  undeclared c _ hc k hk r hr := by
    obtain ⟨i, hi⟩ := List.mem_iff_getElem?.1 hr
    rw [Grammar.target_of_meant_none hc, (h.asMade k (h.reached hmade hk).1).id_of_rule hi]
    exact nofun
  reported name := by
    rw [List.filterMap_append, List.mem_append, mem_unfound_linkLog]
    exact or_iff_left nofun
  once := by
    rw [List.filterMap_append, WrittenGrammar.linkLog, List.filterMap_append, Scope.unfound?_repeated, List.nil_append,
      show List.filterMap Notice.unfound? [.readGrammar w.name n] = [] from rfl, List.append_nil]
    exact Scope.nodup_unknown (w.scope id used) [] w.calls

/-- **Linking is complete and agrees with the search of a grammar**: for every text that a reader reads, whatever it has
read before and whatever the files hold. `l₁` is the library when the used grammars have been read. -/
theorem calls_linked_as_found {files : FileTree} {searchPaths : List Path} {file : Path} {base : Option Path}
    {source : Text} {l l' : Library} {g : Grammar} (hl : l.Idle)
    (hg : Library.readText files searchPaths file base source l = (.ok g, l')) :
    ∃ w l₁ notices, WrittenGrammar.ofText file source = .ok w ∧
      Library.eachUsed (Library.use files (base.toList ++ searchPaths) (Library.readGrammar files searchPaths)) w.uses
        (l.enter w.name) = (.ok g.used, l₁) ∧
      l'.log = l₁.log ++ notices ∧ LinkedAsFound w g notices := by
  obtain ⟨w, used, l₁, made, hw, heach, rfl, rfl, hmade, hgmade⟩ := hl.linked hg
  exact ⟨w, l₁, _, hw, heach, Library.log_finish l₁ w used, linkedAsFound_link hmade hgmade _⟩

/-- the tokens of the text `grammar a terminal T:b;` -/
def undeclaredCallTokens : List Token :=
  [⟨.name, "grammar", 1, 1, 7⟩, ⟨.name, "a", 1, 9, 1⟩, ⟨.name, "terminal", 1, 11, 8⟩, ⟨.name, "T", 1, 20, 1⟩,
    ⟨.symbol .colon, ":", 1, 21, 1⟩, ⟨.name, "b", 1, 22, 1⟩, ⟨.symbol .semicolon, ";", 1, 23, 1⟩]

/-- what the text is read as -/
def undeclaredCall : WrittenGrammar :=
  ⟨"a", none, [], [], [], [⟨.terminal false, "T", none, none, some 1, some (.call .none ⟨none, "b", 1, 22⟩)⟩]⟩

theorem lexed_undeclaredCall :
    Lexed.ofSource (Path.ofText "a") "grammar a terminal T:b;" = .ok ⟨undeclaredCallTokens, ⟨1, 24⟩⟩ := by cbv

theorem ofText_undeclaredCall :
    WrittenGrammar.ofText (Path.ofText "a") "grammar a terminal T:b;" = .ok undeclaredCall := by
  have hdefinition : (definition .terminal ((wordsOf undeclaredCallTokens).drop 4)).Gives
      (.call .none ⟨none, "b", 1, 22⟩) [] := ⟨by decide, by cbv⟩
  exact ofText_terminal lexed_undeclaredCall rfl ⟨rfl, rfl⟩ rfl ⟨rfl, rfl⟩ rfl rfl hdefinition

/-- a new reader reads the text -/
theorem readText_undeclaredCall : ∃ l', Library.readText ⟨[], []⟩ [] (Path.ofText "a") none "grammar a terminal T:b;"
    .empty = (.ok (undeclaredCall.link 0 []), l') := by
  rw [Library.readText, Library.readWith, ofText_undeclaredCall]
  exact ⟨_, rfl⟩

/-- a call of a rule that nobody declares is linked to a stand-in -/
theorem undeclared_call_linked : ∃ (w : WrittenGrammar) (g : Grammar) (l' l₁ : Library) (notices : Log),
    Library.readText ⟨[], []⟩ [] (Path.ofText "a") none "grammar a terminal T:b;" .empty = (.ok g, l') ∧
      Library.Idle .empty ∧ WrittenGrammar.ofText (Path.ofText "a") "grammar a terminal T:b;" = .ok w ∧
      l'.log = l₁.log ++ notices ∧ LinkedAsFound w g notices ∧ w.calls = [⟨none, "b", 1, 22⟩] := by
  obtain ⟨l', hread⟩ := readText_undeclaredCall
  obtain ⟨w, l₁, notices, hw, -, hlog, hlinked⟩ := calls_linked_as_found .start hread
  obtain rfl := Except.ok.inj (hw.symm.trans ofText_undeclaredCall)
  refine ⟨_, _, l', l₁, notices, hread, .start, hw, hlog, hlinked, ?_⟩
  simp [WrittenGrammar.calls, undeclaredCall, Element.calls_eq, Element.target?, Element.children]

end Rulebook
