/-
Grammars up to their identities. Two grammars are the same but for the numbers that a reader gave them when one comes
from the other by a change of numbers (`Grammar.renumbered`): the header, the rules and their trees stay, and every call
goes to the rule at the same place of the grammar that has taken the number's place.

`renumbered_link`: linking does not look at numbers. A text that is linked against renumbered grammars gives a renumbered grammar.
-/
import Rulebook.Proofs.Linking

namespace Rulebook

open Source

/-- the identity with another number for its grammar -/
def RuleId.renumbered (f : Nat → Nat) : RuleId → RuleId
  | .declared grammar position => .declared (f grammar) position
  | .standIn scope name => .standIn (f scope) name

/-- the reference to the rule that has taken the place of another -/
def RuleRef.renumbered (f : Nat → Nat) (r : RuleRef) : RuleRef := ⟨r.id.renumbered f, r.name⟩

/-- the rule with other identities for itself and for what it calls -/
def Rule.renumbered (f : Nat → Nat) (r : Rule) : Rule :=
  { r with definition := r.definition.map (Element.map (Option.map (RuleRef.renumbered f))), id := r.id.renumbered f }

namespace Grammar

mutual

/-- the grammar with other numbers for itself and for all grammars that it reaches -/
def renumbered (f : Nat → Nat) (g : Grammar) : Grammar :=
  match g with
  | ⟨id, name, comment, hidden, metamodels, rules, used⟩ =>
    ⟨f id, name, comment, hidden, metamodels, rules.map (Rule.renumbered f), renumberedAll f used⟩

/-- some grammars with other numbers -/
def renumberedAll (f : Nat → Nat) (used : List Grammar) : List Grammar :=
  match used with
  | [] => []
  | g :: gs => renumbered f g :: renumberedAll f gs

end

variable (f : Nat → Nat)

theorem renumberedAll_eq_map (gs : List Grammar) : renumberedAll f gs = gs.map (renumbered f) := by
  induction gs with
  | nil => rfl
  | cons g gs ih => rw [renumberedAll, ih, List.map_cons]

@[simp] theorem id_renumbered (g : Grammar) : (g.renumbered f).id = f g.id := by
  cases g
  rw [renumbered]

@[simp] theorem name_renumbered (g : Grammar) : (g.renumbered f).name = g.name := by
  cases g
  rw [renumbered]

@[simp] theorem rules_renumbered (g : Grammar) : (g.renumbered f).rules = g.rules.map (Rule.renumbered f) := by
  cases g
  rw [renumbered]

@[simp] theorem used_renumbered (g : Grammar) : (g.renumbered f).used = g.used.map (renumbered f) := by
  cases g
  rw [renumbered, renumberedAll_eq_map]

/-- what is reached from a grammar has a counterpart that is reached from the renumbered one -/
theorem Reaches.renumbered {g h : Grammar} (hreach : g.Reaches h) : (g.renumbered f).Reaches (h.renumbered f) := by
  induction hreach with
  | self g => exact .self _
  | @used g u h hu _ ih =>
    refine .used ?_ ih
    rw [used_renumbered]
    exact List.mem_map_of_mem hu

theorem allRules_renumbered (gs : List Grammar) :
    allRulesUsed (gs.map (Grammar.renumbered f)) = (allRulesUsed gs).map (Rule.renumbered f) := by
  match gs with
  | [] => rfl
  | ⟨id, name, comment, hidden, metamodels, rules, used⟩ :: gs =>
    rw [List.map_cons, allRulesUsed, allRulesUsed, allRules, Grammar.renumbered, allRules, allRules_renumbered gs,
      renumberedAll_eq_map, allRules_renumbered used]
    simp only [List.map_append]

/-- a search in renumbered grammars finds the renumbered rule -/
theorem findInUsed_renumbered (gs : List Grammar) (name : Text) :
    findInUsed (gs.map (Grammar.renumbered f)) name = (findInUsed gs name).map (Rule.renumbered f) := by
  rw [findInUsed_eq, findInUsed_eq, allRules_renumbered, List.find?_map]
  rfl

end Grammar

namespace Source.WrittenGrammar

variable (f : Nat → Nat) (w : WrittenGrammar) (id : Nat) (used : List Grammar)

theorem find?_renumbered (c : WrittenCall) :
    (w.scope (f id) (used.map (Grammar.renumbered f))).find? c = ((w.scope id used).find? c).map (RuleRef.renumbered f) := by
  have hused : (Grammar.findInUsed (used.map (Grammar.renumbered f)) c.name).map Rule.ref =
      ((Grammar.findInUsed used c.name).map Rule.ref).map (RuleRef.renumbered f) := by
    calc (Grammar.findInUsed (used.map (Grammar.renumbered f)) c.name).map Rule.ref
        = (Grammar.findInUsed used c.name).map (RuleRef.renumbered f ∘ Rule.ref) := by
          rw [Grammar.findInUsed_renumbered, Option.map_map]
          rfl
      _ = ((Grammar.findInUsed used c.name).map Rule.ref).map (RuleRef.renumbered f) := (Option.map_map ..).symm
  have hown : (w.scope (f id) (used.map (Grammar.renumbered f))).ownRule? c.name =
      ((w.scope id used).ownRule? c.name).map (RuleRef.renumbered f) := by
    rw [Scope.ownRule?, Scope.ownRule?, Option.map_map]
    rfl
  unfold Scope.find?
  cases c.qualifier with
  | some q => exact hused
  | none =>
    simp only [hown]
    rw [Option.map_or]
    exact congrArg (Option.or _) hused

/-- a call goes to the counterpart of its target -/
theorem resolve_renumbered (c : WrittenCall) :
    (w.scope (f id) (used.map (Grammar.renumbered f))).resolve c = ((w.scope id used).resolve c).renumbered f := by
  rw [Scope.resolve, Scope.resolve, find?_renumbered]
  cases (w.scope id used).find? c <;> rfl

theorem linkRule_renumbered (i : Nat) (r : WrittenRule) :
    (w.scope (f id) (used.map (Grammar.renumbered f))).linkRule i r = ((w.scope id used).linkRule i r).renumbered f := by
  simp only [Scope.linkRule, Rule.renumbered, Option.map_map, resolve_renumbered, Rule.mk.injEq, Declaration.mk.injEq,
    true_and]
  refine ⟨congrFun (congrArg Option.map (funext fun e => ?_)) _, rfl⟩
  rw [Function.comp_apply, Element.map_map]
  rfl

/-- a text that is linked against renumbered grammars gives the renumbered grammar -/
theorem renumbered_link : (w.link id used).renumbered f = w.link (f id) (used.map (Grammar.renumbered f)) := by
  rw [link, Grammar.renumbered, Grammar.renumberedAll_eq_map, link, Scope.linkFrom_eq, Scope.linkFrom_eq, List.map_map]
  refine congrArg (fun rules => Grammar.mk _ _ _ _ _ rules _) ?_
  exact List.map_congr_left fun p _ => (linkRule_renumbered f w id used p.2 p.1).symm

end Source.WrittenGrammar

end Rulebook
