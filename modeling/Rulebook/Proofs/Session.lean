/-
Sessions of a reader. A reader answers one call after the other, each with a grammar or an error, and keeps what it has
read for the next one.

`session_in_order`: after any calls, whatever the files declare and however they use one another, nothing is being read,
what stands on the shelf stays there under its own name, every call is linked, and no chain of uses comes back to where
it began (`InOrder`). The step is that one call carries a chronicle on (`continues_answer`), the run that all calls do
(`continues_answers`).
-/
import Rulebook.Proofs.Targets

namespace Rulebook.Library

inductive Request where
  | file (path : Path)
  | text (file : Path) (base : Option Path) (source : Text)

section

variable (files : FileTree) (searchPaths : List Path)

def answer : Request → Library → Outcome Grammar
  | .file path, l => readGrammar files searchPaths path l
  | .text file base source, l => readText files searchPaths file base source l

/-- the answers to some calls, one after the other, and the library as it is left -/
def answers : List Request → Library → List (Except ReadError Grammar) × Library
  | [], l => ([], l)
  | r :: rs, l =>
    let first := answer files searchPaths r l
    let more := answers rs first.2
    (first.1 :: more.1, more.2)

end

/-- the grammars that stand on the shelf or were given as answers -/
def Held (l : Library) (given : List (Except ReadError Grammar)) (g : Grammar) : Prop :=
  (∃ name, (name, g) ∈ l.shelf) ∨ .ok g ∈ given

/-- in what some grammars reach, a grammar of the first number uses one of the second -/
def Uses (held : Grammar → Prop) (a b : Nat) : Prop :=
  ∃ h g u, held h ∧ h.Reaches g ∧ u ∈ g.used ∧ g.id = a ∧ u.id = b

/-- what holds of a reader between two calls; `given` are its answers so far -/
structure InOrder (files : FileTree) (searchPaths : List Path) (l : Library)
    (given : List (Except ReadError Grammar)) : Prop where
  /-- no grammar is being read -/
  idle : l.opened = []
  /-- no later call removes or replaces what stands on the shelf -/
  kept : ∀ later name g, l.shelf.lookup name = some g →
    (answers files searchPaths later l).2.shelf.lookup name = some g
  /-- a grammar stands on the shelf under its name -/
  named : ∀ p ∈ l.shelf, p.2.name = p.1
  /-- no call is left without a rule -/
  linked : ∀ h g, Held l given h → h.Reaches g → ∀ r ∈ g.rules, ∀ c ∈ r.calls, c.isSome
  /-- a number means one grammar -/
  identity : ∀ h h' g g', Held l given h → Held l given h' → h.Reaches g → h'.Reaches g' → g.id = g'.id → g = g'
  /-- no grammar uses itself, directly or through others -/
  acyclic : ∀ a, ¬ Relation.TransGen (Uses (Held l given)) a a
  /-- whoever goes from a grammar to those that it uses comes to an end -/
  ends : ∀ g, Held l given g → Acc (fun b a => Uses (Held l given) a b) g.id

/-! ## One call and many -/

section

variable (files : FileTree) (searchPaths : List Path) {l : Library} {made : List Grammar}

theorem continues_answer (r : Request) (h : Chronicle made l) :
    (answer files searchPaths r l).Continues (fun g => [g]) made l := by
  cases r with
  | file path => exact carriesOn_readGrammarWithin files searchPaths _ path l made h
  | text file base source => exact continues_readText files searchPaths file base source h

theorem continues_answers (rs : List Request) (h : Chronicle made l) :
    l.shelf <+: (answers files searchPaths rs l).2.shelf ∧ ∃ later, made <+: later ∧
      Chronicle later (answers files searchPaths rs l).2 ∧
      ∀ g, .ok g ∈ (answers files searchPaths rs l).1 → g ∈ later := by
  induction rs generalizing l made with
  | nil => exact ⟨List.prefix_refl _, made, List.prefix_refl _, h, fun _ hg => nomatch hg⟩
  | cons r rs ih =>
    obtain ⟨hshelf, mid, hmid, hchronicle, hgiven⟩ := continues_answer files searchPaths r h
    obtain ⟨hshelf', later, hlater, hchronicle', hgiven'⟩ := ih hchronicle
    refine ⟨hshelf.trans hshelf', later, hmid.trans hlater, hchronicle', fun g hg => ?_⟩
    rcases List.mem_cons.1 hg with hfirst | hmore
    · exact hlater.subset (hgiven g hfirst.symm g (List.mem_singleton_self g))
    · exact hgiven' g hmore

theorem idle_answers (rs : List Request) (h : l.Idle) : (answers files searchPaths rs l).2.Idle := by
  induction rs generalizing l with
  | nil => exact h
  | cons r rs ih =>
    refine ih ?_
    cases r with
    | file path => exact .readGrammar files searchPaths path h
    | text file base source => exact .readText files searchPaths file base source h

end

/-! ## The invariant -/

theorem lookup_of_prefix {shelf shelf' : List (Text × Grammar)} (h : shelf <+: shelf') {name : Text} {g : Grammar}
    (hg : shelf.lookup name = some g) : shelf'.lookup name = some g := by
  obtain ⟨more, rfl⟩ := h
  rw [List.lookup_append, hg]
  rfl

theorem Made.linked_calls {g : Grammar} (h : Made g) : ∀ r ∈ g.rules, ∀ c ∈ r.calls, c.isSome := by
  cases h with
  | stub id name => exact List.forall_mem_nil _
  | linked w id used => exact fun r hr c hc => isSome_of_mem_calls hr hc

namespace Chronicle

variable {made : List Grammar} {l : Library} {held : Grammar → Prop}

/-- a use leads to a grammar that was made before -/
theorem lt_of_uses (h : Chronicle made l) (hheld : ∀ g, held g → g ∈ made) {a b : Nat} (hab : Uses held a b) : b < a := by
  obtain ⟨k, g, u, hk, hreach, hu, rfl, rfl⟩ := hab
  exact (h.used g (h.reached (hheld k hk) hreach).1 u hu).2

theorem lt_of_transGen (h : Chronicle made l) (hheld : ∀ g, held g → g ∈ made) {a b : Nat}
    (hab : Relation.TransGen (Uses held) a b) : b < a := by
  induction hab with
  | single hab => exact h.lt_of_uses hheld hab
  | tail _ hbc ih => exact (h.lt_of_uses hheld hbc).trans ih

theorem acc_uses (h : Chronicle made l) (hheld : ∀ g, held g → g ∈ made) (a : Nat) :
    Acc (fun b a => Uses held a b) a := by
  induction a using Nat.strong_induction_on with
  | _ a ih => exact .intro a fun b hab => ih b (h.lt_of_uses hheld hab)

end Chronicle

/-- **A reader is in order between its calls**, whatever files there are, whatever they declare and use, and whatever
has been asked of it. -/
theorem session_in_order (files : FileTree) (searchPaths : List Path) (calls : List Request) :
    InOrder files searchPaths (answers files searchPaths calls .empty).2 (answers files searchPaths calls .empty).1 := by
  obtain ⟨-, made, -, hchronicle, hgiven⟩ :=
    continues_answers files searchPaths calls .start
  have hidle := idle_answers files searchPaths calls .start
  set l := (answers files searchPaths calls .empty).2
  set given := (answers files searchPaths calls .empty).1
  have hheld : ∀ g, Held l given g → g ∈ made := by
    intro g hg
    rcases hg with ⟨name, hshelf⟩ | hanswer
    · exact (hchronicle.shelf _ hshelf).1
    · exact hgiven g hanswer
  constructor
  case idle => exact hidle.opened_eq
  case kept =>
    intro later name g hg
    exact lookup_of_prefix (continues_answers files searchPaths later hchronicle).1 hg
  case named => exact fun p hp => (hchronicle.shelf p hp).2
  case linked =>
    intro h g hh hreach
    exact (hchronicle.asMade g (hchronicle.reached (hheld h hh) hreach).1).linked_calls
  case identity =>
    intro h h' g g' hh hh' hreach hreach' hid
    exact hchronicle.unique (hchronicle.reached (hheld h hh) hreach).1 (hchronicle.reached (hheld h' hh') hreach').1 hid
  case acyclic => exact fun a hcycle => Nat.lt_irrefl a (hchronicle.lt_of_transGen hheld hcycle)
  case ends => exact fun g _ => hchronicle.acc_uses hheld g.id

end Rulebook.Library
