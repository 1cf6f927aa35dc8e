/-
Linking. The rule that a call means (`Grammar.meant`) is found in the finished grammar: for an unqualified name by
`Grammar.findRule`, which goes through all rules that the grammar reaches, its own first and then those of the grammars
it uses, each to its depth (`findRule_eq`). The reader links before the grammar is finished, through a table of the names
of its own rules; `Scope.resolve_eq` says that every call gets what is meant, or else the stand-in of its written name.

- `definitions_link`, `calls_link`: the rules of a linked grammar are the written ones, every call with its target;
- `nodup_unknown`, `mem_unknown`: the log hears of each name that is not found, once;
- `readWith_cases`, `readWith_ok`: a grammar that is read is its text with the calls linked.
-/
import Rulebook.Library.Basic
import Rulebook.Proofs.Walk

namespace Rulebook

open Source

/-! ## Finding rules -/

namespace Grammar

mutual

/-- the rules of a grammar, then the rules of the grammars it uses, each to its depth -/
def allRules (g : Grammar) : List Rule :=
  match g with
  | ⟨_, _, _, _, _, rules, used⟩ => rules ++ allRulesUsed used

/-- the rules of some grammars, each to its depth -/
def allRulesUsed (used : List Grammar) : List Rule :=
  match used with
  | [] => []
  | g :: gs => allRules g ++ allRulesUsed gs

end

mutual

/-- a search finds the first rule of the name -/
theorem findRule_eq (g : Grammar) (name : Text) : findRule g name = g.allRules.find? fun r => r.name = name := by
  match g with
  | ⟨_, _, _, _, _, rules, used⟩ =>
    rw [findRule, allRules, List.find?_append, findInUsed_eq used name]
    cases rules.find? fun r => r.name = name <;> rfl

theorem findInUsed_eq (gs : List Grammar) (name : Text) :
    findInUsed gs name = (allRulesUsed gs).find? fun r => r.name = name := by
  match gs with
  | [] => rfl
  | g :: gs =>
    rw [findInUsed, allRulesUsed, List.find?_append, findRule_eq g name, findInUsed_eq gs name]
    cases (allRules g).find? fun r => r.name = name <;> rfl

end

/-- the grammar itself and the grammars that it uses, directly or through others -/
inductive Reaches : Grammar → Grammar → Prop where
  | self (g : Grammar) : Reaches g g
  | used {g u h : Grammar} : u ∈ g.used → Reaches u h → Reaches g h

mutual

/-- the rules that a search goes through are rules of the grammars that are reached -/
theorem reached_of_mem_allRules (g : Grammar) {r : Rule} (hr : r ∈ g.allRules) : ∃ h, g.Reaches h ∧ r ∈ h.rules := by
  match g with
  | ⟨_, _, _, _, _, rules, used⟩ =>
    rw [allRules] at hr
    rcases List.mem_append.1 hr with hown | hused
    · exact ⟨_, .self _, hown⟩
    · obtain ⟨u, hu, h, hreach, hmem⟩ := reached_of_mem_allRulesUsed used hused
      exact ⟨h, .used hu hreach, hmem⟩

theorem reached_of_mem_allRulesUsed (gs : List Grammar) {r : Rule} (hr : r ∈ allRulesUsed gs) :
    ∃ u ∈ gs, ∃ h, u.Reaches h ∧ r ∈ h.rules := by
  match gs with
  | [] => cases hr
  | g :: gs =>
    rw [allRulesUsed] at hr
    rcases List.mem_append.1 hr with hfirst | hmore
    · exact ⟨g, List.mem_cons_self, reached_of_mem_allRules g hfirst⟩
    · obtain ⟨u, hu, hreach⟩ := reached_of_mem_allRulesUsed gs hmore
      exact ⟨u, List.mem_cons_of_mem _ hu, hreach⟩

end

theorem name_of_findInUsed (gs : List Grammar) {name : Text} {r : Rule} (h : findInUsed gs name = some r) :
    r.name = name := by
  rw [findInUsed_eq] at h
  simpa using List.find?_some h

/-- own rules come first -/
theorem findRule_eq_or (g : Grammar) (name : Text) :
    findRule g name = (g.rules.find? fun r => r.name = name).or (findInUsed g.used name) := by
  match g with
  | ⟨_, _, _, _, _, rules, used⟩ =>
    rw [findRule]
    cases rules.find? fun r => r.name = name <;> rfl

/-- the rule that a call means in a grammar: a qualified name is looked up in the used grammars only -/
def meant (g : Grammar) (c : WrittenCall) : Option Rule :=
  match c.qualifier with
  | none => g.findRule c.name
  | some _ => findInUsed g.used c.name

/-- the rule that a call means, or the stand-in of its written name -/
def target (g : Grammar) (c : WrittenCall) : RuleRef :=
  match g.meant c with
  | some r => r.ref
  | none => ⟨.standIn g.id c.written, c.written⟩

end Grammar

/-! ## Calls linked -/

def Declaration.calls {ρ : Type} (r : Declaration ρ) : List ρ := (r.definition.map Element.calls).getD []

namespace Scope

theorem linkFrom_eq (s : Scope) (position : Nat) (rs : List WrittenRule) :
    s.linkFrom position rs = (rs.zipIdx position).map fun (r, i) => s.linkRule i r := by
  induction rs generalizing position with
  | nil => rfl
  | cons r rs ih => rw [linkFrom, ih, List.zipIdx_cons, List.map_cons]

/-- the table of names leads to the first rule of a name -/
theorem find?_linkFrom (s : Scope) (position : Nat) (rs : List WrittenRule) (name : Text) :
    ((s.linkFrom position rs).find? fun r => r.name = name).map Rule.ref =
      ((rs.map Declaration.name).findIdx? fun own => own = name).map fun i =>
        ⟨.declared s.id (position + i), name⟩ := by
  induction rs generalizing position with
  | nil => rfl
  | cons r rs ih =>
    rw [linkFrom, List.map_cons, List.findIdx?_cons, List.find?_cons,
      show (s.linkRule position r).name = r.name from rfl]
    by_cases hname : r.name = name
    · simp [hname, linkRule, Rule.ref]
    · simp only [hname, decide_false, Bool.false_eq_true, if_false, ih, Option.map_map]
      refine congrFun (congrArg Option.map (funext fun i => ?_)) _
      simp only [Function.comp_apply, Nat.add_assoc, Nat.add_comm 1]

theorem find?_eq (w : WrittenGrammar) (id : Nat) (used : List Grammar) (c : WrittenCall) :
    (w.scope id used).find? c = ((w.link id used).meant c).map Rule.ref := by
  unfold find? Grammar.meant
  cases c.qualifier with
  | some q => rfl
  | none =>
    have hown : (w.scope id used).ownRule? c.name =
        ((w.link id used).rules.find? fun r => r.name = c.name).map Rule.ref := by
      rw [show (w.link id used).rules = (w.scope id used).linkFrom 0 w.rules from rfl, find?_linkFrom]
      simp [ownRule?, WrittenGrammar.scope]
    simp only [hown, Grammar.findRule_eq_or]
    rw [Option.map_or]
    rfl

/-- a call gets the rule it means, or the stand-in of its written name -/
theorem resolve_eq (w : WrittenGrammar) (id : Nat) (used : List Grammar) (c : WrittenCall) :
    (w.scope id used).resolve c = (w.link id used).target c := by
  rw [resolve, find?_eq, Grammar.target]
  cases (w.link id used).meant c <;> rfl

/-- a call is linked to a rule of the called name, or to what stands for the written one -/
theorem name_resolve (s : Scope) (c : WrittenCall) :
    (s.resolve c).name = c.name ∨ (s.resolve c).name = c.written := by
  unfold resolve
  cases hfind : s.find? c with
  | none => exact .inr rfl
  | some ref =>
    refine .inl ?_
    have hused : ∀ ref' : RuleRef, (Grammar.findInUsed s.used c.name).map Rule.ref = some ref' →
        ref'.name = c.name := by
      intro ref' h
      obtain ⟨r, hr, rfl⟩ := Option.map_eq_some_iff.1 h
      exact Grammar.name_of_findInUsed s.used hr
    unfold find? at hfind
    split at hfind
    · exact hused ref hfind
    · rcases Option.or_eq_some_iff.1 hfind with hown | ⟨-, h⟩
      · obtain ⟨i, -, rfl⟩ := Option.map_eq_some_iff.1 hown
        rfl
      · exact hused ref h

end Scope

/-- linking keeps every rule at its place -/
theorem getElem?_rules_link (w : WrittenGrammar) (id : Nat) (used : List Grammar) (i : Nat) :
    (w.link id used).rules[i]? = w.rules[i]?.map ((w.scope id used).linkRule i) := by
  rw [show (w.link id used).rules = _ from Scope.linkFrom_eq _ 0 w.rules, List.getElem?_map, List.getElem?_zipIdx,
    Option.map_map]
  simp only [Nat.zero_add]
  rfl

theorem rule_of_link {w : WrittenGrammar} {id i : Nat} {used : List Grammar} {r : Rule}
    (h : (w.link id used).rules[i]? = some r) :
    ∃ wr, w.rules[i]? = some wr ∧ r = (w.scope id used).linkRule i wr := by
  rw [getElem?_rules_link] at h
  obtain ⟨wr, hwr, rfl⟩ := Option.map_eq_some_iff.1 h
  exact ⟨wr, hwr, rfl⟩

/-- what is true of every rule with its calls linked -/
theorem map_link {α : Type} (w : WrittenGrammar) (id : Nat) (used : List Grammar) {f : Rule → α} {h : WrittenRule → α}
    (heq : ∀ i, ∀ r ∈ w.rules, f ((w.scope id used).linkRule i r) = h r) : (w.link id used).rules.map f = w.rules.map h := by
  rw [show (w.link id used).rules = _ from Scope.linkFrom_eq _ 0 w.rules, List.map_map]
  refine List.ext_getElem (by simp) fun i hi hj => ?_
  simp only [List.getElem_map, List.getElem_zipIdx, Function.comp_apply]
  exact heq _ _ (List.getElem_mem _)

/-- the definitions are the written ones, every call with its target -/
theorem definitions_link (w : WrittenGrammar) (id : Nat) (used : List Grammar) :
    (w.link id used).rules.map (fun r => r.definition) =
      w.rules.map fun r => r.definition.map (Element.map fun c => some ((w.link id used).target c)) :=
  map_link w id used fun i r _ => by simp only [Scope.linkRule, Scope.resolve_eq]

/-- every rule calls what its written calls mean -/
theorem calls_linkRule (w : WrittenGrammar) (id i : Nat) (used : List Grammar) (r : WrittenRule) :
    ((w.scope id used).linkRule i r).calls = r.calls.map fun c => some ((w.link id used).target c) := by
  unfold Rule.calls Scope.linkRule Declaration.calls
  cases r.definition with
  | none => rfl
  | some e => simp only [Option.map_some, Option.getD_some, Element.calls_map, Scope.resolve_eq]

/-- no call of a linked grammar is left without a target -/
theorem isSome_of_mem_calls {w : WrittenGrammar} {id : Nat} {used : List Grammar} {r : Rule}
    (hr : r ∈ (w.link id used).rules) {c : Option RuleRef} (hc : c ∈ r.calls) : c.isSome := by
  obtain ⟨i, hi⟩ := List.mem_iff_getElem?.1 hr
  obtain ⟨wr, -, rfl⟩ := rule_of_link hi
  rw [calls_linkRule] at hc
  obtain ⟨_, -, rfl⟩ := List.mem_map.1 hc
  rfl

/-! ## Names that are not found -/

/-- the written name of which the notice says that nobody declares it -/
def Notice.unfound? : Notice → Option Text
  | .unknownRule _ _ name _ => some name
  | _ => none

namespace Scope

theorem unfound?_repeated (grammar : Text) (seen names : List Text) :
    (repeated grammar seen names).filterMap Notice.unfound? = [] := by
  induction names generalizing seen with
  | nil => rfl
  | cons name names ih =>
    unfold repeated
    split
    · rw [List.filterMap_cons, ih]
      rfl
    · exact ih _

/-- the names that the log hears of are new, and not found by some call -/
theorem mem_unknown (s : Scope) (seen : List Text) (cs : List WrittenCall) (name : Text) :
    name ∈ (s.unknown seen cs).filterMap Notice.unfound? ↔
      name ∉ seen ∧ ∃ c ∈ cs, s.find? c = none ∧ c.written = name := by
  induction cs generalizing seen with
  | nil => simp [unknown]
  | cons c cs ih =>
    unfold unknown
    split
    · next h =>
      obtain ⟨hnone, hnew⟩ := h
      rw [List.filterMap_cons, show Notice.unfound? (.unknownRule c.line c.column c.written s.name) = some c.written from rfl,
        List.mem_cons, ih]
      simp only [List.mem_cons, not_or, exists_eq_or_imp, Option.isNone_iff_eq_none.1 hnone, true_and]
      by_cases hname : name = c.written
      · simp [hname, hnew]
      · simp [hname, Ne.symm hname]
    · next h =>
      rw [ih]
      simp only [List.mem_cons, exists_eq_or_imp]
      refine and_congr_right fun hnew => (or_iff_right ?_).symm
      rintro ⟨hnone, rfl⟩
      exact h ⟨by simp [hnone], hnew⟩

/-- the log hears of no name twice -/
theorem nodup_unknown (s : Scope) (seen : List Text) (cs : List WrittenCall) :
    ((s.unknown seen cs).filterMap Notice.unfound?).Nodup := by
  induction cs generalizing seen with
  | nil => exact List.nodup_nil
  | cons c cs ih =>
    unfold unknown
    split
    · refine List.nodup_cons.2 ⟨fun h => ?_, ih _⟩
      exact ((mem_unknown s (c.written :: seen) cs c.written).1 h).1 List.mem_cons_self
    · exact ih seen

end Scope

/-! ## What a text makes -/

namespace Library

/-- the library when a grammar is linked, behind the grammars that it uses -/
def finish (l : Library) (w : WrittenGrammar) (used : List Grammar) : Library :=
  let l := l.leave w.name
  let g := w.link l.fresh used
  ((l.next.note (w.linkLog l.fresh used)).keep g).note [.readGrammar g.name g.rules.length]

@[simp] theorem fresh_keep (l : Library) (g : Grammar) : (l.keep g).fresh = l.fresh := by
  unfold keep
  split <;> rfl

@[simp] theorem log_keep (l : Library) (g : Grammar) : (l.keep g).log = l.log := by
  unfold keep
  split <;> rfl

@[simp] theorem fresh_enter (l : Library) (name : Text) : (l.enter name).fresh = l.fresh := by
  unfold enter
  split <;> rfl

@[simp] theorem shelf_enter (l : Library) (name : Text) : (l.enter name).shelf = l.shelf := by
  unfold enter
  split <;> rfl

@[simp] theorem fresh_finish (l : Library) (w : WrittenGrammar) (used : List Grammar) :
    (l.finish w used).fresh = l.fresh + 1 := by
  simp [finish, note, next, leave]

theorem log_finish (l : Library) (w : WrittenGrammar) (used : List Grammar) :
    (l.finish w used).log =
      l.log ++ (w.linkLog l.fresh used ++ [.readGrammar w.name (w.link l.fresh used).rules.length]) := by
  simp [finish, note, next, leave, WrittenGrammar.link]

/-- the grammar goes to the end of the shelf, unless its name is taken -/
theorem shelf_finish (l : Library) (w : WrittenGrammar) (used : List Grammar) :
    (l.finish w used).shelf = if (l.shelf.lookup w.name).isSome then l.shelf
      else l.shelf ++ [(w.name, w.link l.fresh used)] := by
  cases h : l.shelf.lookup w.name with
  | some g => simp [finish, note, next, leave, keep, WrittenGrammar.link, h]
  | none => simp [finish, note, next, leave, keep, WrittenGrammar.link, h]

/-- what the reading of a text can come to -/
theorem readWith_cases (load : Text → Library → Outcome Grammar) (file : Path) (source : Text) (l : Library) :
    (∃ e, WrittenGrammar.ofText file source = .error e ∧ readWith load file source l = (.error (.syntactic e), l)) ∨
    (∃ w e l₁, WrittenGrammar.ofText file source = .ok w ∧ eachUsed load w.uses (l.enter w.name) = (.error e, l₁) ∧
      readWith load file source l = (.error e, l₁.leave w.name)) ∨
    (∃ w used l₁, WrittenGrammar.ofText file source = .ok w ∧
      eachUsed load w.uses (l.enter w.name) = (.ok used, l₁) ∧
      readWith load file source l = (.ok (w.link l₁.fresh used), l₁.finish w used)) := by
  unfold readWith
  cases hw : WrittenGrammar.ofText file source with
  | error e => exact .inl ⟨e, rfl, rfl⟩
  | ok w =>
    rcases heach : eachUsed load w.uses (l.enter w.name) with ⟨e | used, l₁⟩
    · exact .inr (.inl ⟨w, e, l₁, rfl, heach, by simp only [heach]⟩)
    · refine .inr (.inr ⟨w, used, l₁, rfl, heach, ?_⟩)
      simp only [heach]
      rfl

/-- a grammar that is read is its text with the calls linked -/
theorem readWith_ok {load : Text → Library → Outcome Grammar} {file : Path} {source : Text} {l l' : Library}
    {g : Grammar} (h : readWith load file source l = (.ok g, l')) :
    ∃ w used l₁, WrittenGrammar.ofText file source = .ok w ∧
      eachUsed load w.uses (l.enter w.name) = (.ok used, l₁) ∧ g = w.link l₁.fresh used ∧ l' = l₁.finish w used := by
  rcases readWith_cases load file source l with ⟨e, -, hread⟩ | ⟨w, e, l₁, -, -, hread⟩ | ⟨w, used, l₁, hw, heach, hread⟩
  · simp [hread] at h
  · simp [hread] at h
  · rw [hread] at h
    cases h
    exact ⟨w, used, l₁, hw, heach, rfl, rfl⟩

/-- where a text is a grammar and the grammars that it uses are read, it is linked -/
theorem readWith_of_eachUsed {load : Text → Library → Outcome Grammar} {file : Path} {source : Text} {l l₁ : Library}
    {w : WrittenGrammar} {used : List Grammar} (hw : WrittenGrammar.ofText file source = .ok w)
    (heach : eachUsed load w.uses (l.enter w.name) = (.ok used, l₁)) :
    readWith load file source l = (.ok (w.link l₁.fresh used), l₁.finish w used) := by
  unfold readWith
  simp only [hw, heach]
  rfl

end Library

/-- the rules of a grammar that was read are the written ones, with their calls linked -/
theorem linked_of_readWith {load : Text → Library → Library.Outcome Grammar} {file : Path} {source : Text} {l : Library}
    {g : Grammar} (h : (Library.readWith load file source l).1 = .ok g) :
    ∃ w used id, WrittenGrammar.ofText file source = .ok w ∧ g = w.link id used := by
  obtain ⟨w, used, l₁, hw, -, hg, -⟩ := Library.readWith_ok (Prod.ext_iff.2 ⟨h, rfl⟩)
  exact ⟨w, used, l₁.fresh, hw, hg⟩

end Rulebook
