/-
What a complaint is about, and where reading ends. A reader that goes wrong names the token where it stands; here it is
shown that it stands further on in the words it reads from, or where they stop. No reader makes up a token, none
complains about what was there before, and none goes back or leaves words out.

A reading stays within some words when it complains at an end of them only and leaves an end of them (`Stays`). There is
one statement for each way of putting readings together, and then one for each reader, part by part.

  fault_stands  a complaint about a grammar stands at an end of its words
  fault_found   what is complained about in a grammar is a word of it
-/
import Rulebook.Proofs.Endings

namespace Rulebook.Source

open Rulebook.Reading

variable {α β : Type} {takes t₁ t₂ : Bool} {words s : List Word}

/-- the fault is about the first word of an end of the words, or the text has stopped there -/
def Fault.StandsIn (words : List Word) (e : Fault) : Prop :=
  ∃ here, here <:+ words ∧ e.found = here.head?.map Word.token

/-- the reading complains at an end of the words only, and what it leaves is an end of them -/
structure Stays (words : List Word) (r : Reading α takes s) : Prop where
  fault : ∀ e, r = .error e → e.StandsIn words
  rest : ∀ a rest, r.Gives a rest → rest <:+ words

namespace Stays

/-! ## Readings put together -/

theorem complain (h : s <:+ words) (c : Complaint) : Stays words (complain s c : Reading α takes s) where
  fault := by
    intro e he
    cases he
    exact ⟨s, h, rfl⟩
  rest a rest hread := absurd hread (gives_error _ _ _)

theorem nothing (h : s <:+ words) (a : α) : Stays words (.nothing a s : Reading α false s) where
  fault := nofun
  rest b rest hread := by
    obtain ⟨-, rfl⟩ := (gives_nothing ..).1 hread
    exact h

theorem first {w : Word} {rest : List Word} (h : w :: rest <:+ words) (f : Word → α) :
    Stays words (.ok ((Step.first w rest).map f) : Reading α true (w :: rest)) where
  fault := nofun
  rest b rest' hread := by
    obtain ⟨-, rfl⟩ := (gives_first ..).1 hread
    exact (List.suffix_cons w _).trans h

theorem map {r : Reading α takes s} (h : Stays words r) (f : α → β) : Stays words (r.map f) where
  fault e he := by
    cases r with
    | error e' =>
      cases he
      exact h.fault e rfl
    | ok step => cases he
  rest b rest hread := by
    obtain ⟨a, ha, -⟩ := (gives_map ..).1 hread
    exact h.rest a rest ha

theorem loose {r : Reading α takes s} (h : Stays words r) : Stays words r.loose where
  fault e he := by
    cases r with
    | error e' =>
      cases he
      exact h.fault e rfl
    | ok step => cases he
  rest a rest hread := h.rest a rest ((gives_loose ..).1 hread)

theorem behind {w : Word} {r : Reading α takes s} (h : Stays words r) :
    Stays words (r.behind : Reading α true (w :: s)) where
  fault e he := by
    cases r with
    | error e' =>
      cases he
      exact h.fault e rfl
    | ok step => cases he
  rest a rest hread := h.rest a rest ((gives_behind ..).1 hread)

theorem next {r : Reading α t₁ s} (h : Stays words r)
    {readOn : (a : α) → (rest : List Word) → Within t₁ rest s → Reading β t₂ rest}
    (hon : ∀ a mid within, mid <:+ words → Stays words (readOn a mid within)) : Stays words (r.next readOn) where
  fault e he := by
    cases r with
    | error e' =>
      cases he
      exact h.fault e rfl
    | ok step =>
      obtain ⟨a, mid, hmid⟩ := step
      have hstays := hon a mid hmid (h.rest a mid ⟨hmid, rfl⟩)
      simp only [Reading.next] at he
      split at he
      · next e' hread =>
        cases he
        exact hstays.fault e hread
      · cases he
  rest b rest hread := by
    obtain ⟨a, mid, hmid, ha, hb⟩ := (gives_next ..).1 hread
    exact (hon a mid hmid (h.rest a mid ha)).rest b rest hb

theorem tail {w : Word} {rest : List Word} (h : w :: rest <:+ words) : rest <:+ words :=
  (List.suffix_cons w rest).trans h

theorem meaning? (h : s <:+ words) (meaning : Word → Option α) :
    Stays words (Reading.meaning? meaning s : Reading (Option α) false s) where
  fault e he := by
    unfold Reading.meaning? at he
    split at he
    · cases he
    · split at he <;> cases he
  rest a rest hread := by
    rcases (gives_meaning? ..).1 hread with ⟨-, rfl, -⟩ | ⟨w, v, rfl, -⟩
    · exact h
    · exact tail h

theorem behindMark? (h : s <:+ words) (isMark : Word → Bool) {read : (r : List Word) → Reading α takes r}
    (hread : ∀ r, r <:+ words → Stays words (read r)) : Stays words (Reading.behindMark? isMark read s) := by
  unfold Reading.behindMark?
  split
  · exact nothing h none
  · next w rest =>
    split
    · exact ((hread rest (tail h)).map some).behind.loose
    · exact nothing h none

theorem behindMarks {bound : Nat} (h : s <:+ words) (isMark : Word → Bool)
    {read : (r : List Word) → r.length < bound → Reading α takes r}
    (hread : ∀ r within, r <:+ words → Stays words (read r within)) (hbound : s.length ≤ bound) :
    Stays words (Reading.behindMarks isMark read s hbound) := by
  induction hn : s.length using Nat.strong_induction_on generalizing s with
  | _ n ih =>
    subst hn
    cases s with
    | nil =>
      rw [Reading.behindMarks]
      exact nothing h []
    | cons w rest =>
      rw [Reading.behindMarks]
      split
      · refine ((hread rest hbound (tail h)).next fun a mid within hmid => ?_).behind.loose
        have hless : mid.length < (w :: rest).length := by
          cases takes <;> simp only [List.length_cons] <;> omega
        exact (ih mid.length hless hmid _ rfl).map _
      · exact nothing h []

end Stays

/-! ## Words and names -/

theorem stays_takeIf (h : s <:+ words) (wanted : Token → Bool) (c : Complaint) : Stays words (takeIf wanted c s) := by
  unfold takeIf
  split
  · exact .complain h c
  · split
    · exact .first h _
    · exact .complain h c

theorem stays_take (h : s <:+ words) (kind : TokenKind) (what : Text) : Stays words (take kind what s) :=
  stays_takeIf h _ _

theorem stays_takeSymbol (h : s <:+ words) (symbol : Symbol) : Stays words (takeSymbol symbol s) :=
  stays_take h _ _

theorem stays_takeWord (h : s <:+ words) (word : Text) : Stays words (takeWord word s) :=
  stays_takeIf h _ _

theorem stays_oneOrMore (h : s <:+ words) (symbol : Symbol) {read : (r : List Word) → Reading α true r}
    (hread : ∀ r, r <:+ words → Stays words (read r)) : Stays words (oneOrMore symbol read s) :=
  (hread s h).next fun _ _ _ hmid => (Stays.behindMarks hmid _ (fun r _ => hread r) _).map _

theorem stays_qualified (h : s <:+ words) (what : Text) : Stays words (qualified what s) :=
  (stays_take h _ _).next fun _ _ _ hmid => (Stays.behindMark? hmid _ fun _ hr => stays_take hr _ _).map _

theorem stays_typeRef (h : s <:+ words) : Stays words (typeRef s) := (stays_qualified h _).map _

theorem stays_ruleName (h : s <:+ words) : Stays words (ruleName s) := (stays_qualified h _).map _

/-! ## Definitions -/

theorem stays_decorated (h : s <:+ words) (e : Tree) : Stays words (decorated e s) := (Stays.meaning? h _).map _

theorem stays_call (h : s <:+ words) : Stays words (call s) := by
  refine (stays_qualified h _).next fun _ mid _ hmid => ?_
  split
  · exact .complain hmid _
  · exact .nothing hmid _

theorem stays_leaf (h : s <:+ words) : Stays words (leaf s) := by
  unfold leaf
  split
  · exact .complain h _
  · split
    · exact .first h _
    split
    · exact stays_call h
    split
    · exact .complain h _
    · exact .complain h _

theorem stays_referenceTerminal (h : s <:+ words) : Stays words (referenceTerminal s) := by
  unfold referenceTerminal
  split
  · exact stays_call h
  · split
    · exact .first h _
    · exact stays_call h

theorem stays_crossReference (h : s <:+ words) : Stays words (crossReference s) :=
  (stays_takeSymbol h _).next fun _ _ _ hinside => (stays_typeRef hinside).next fun _ _ _ htail =>
    (Stays.behindMark? htail _ fun _ hr => stays_referenceTerminal hr).next fun _ _ _ hclose =>
      (stays_takeSymbol hclose _).map _

theorem stays_actionFeature (h : s <:+ words) : Stays words (actionFeature s) :=
  (stays_take h _ _).next fun _ _ _ htail => (stays_takeIf htail _ _).next fun _ _ _ hlast =>
    (stays_takeWord hlast _).map _

theorem stays_action (h : s <:+ words) : Stays words (action s) :=
  (stays_takeSymbol h _).next fun _ _ _ hinside => (stays_typeRef hinside).next fun _ _ _ htail =>
    (Stays.behindMark? htail _ fun _ hr => stays_actionFeature hr).next fun _ _ _ hclose =>
      (stays_takeSymbol hclose _).map _

mutual

theorem stays_assignable (s : List Word) (h : s <:+ words) : Stays words (assignable s) := by
  match s with
  | [] =>
    rw [assignable]
    exact stays_leaf h
  | w :: rest =>
    rw [assignable]
    split
    · refine ((stays_assignableMember rest (Stays.tail h)).next fun _ tail _ htail => ?_).behind
      refine (Stays.behindMarks htail _ (fun r _ hr => stays_assignableMember r hr) _).next fun _ _ _ hclose => ?_
      exact (stays_takeSymbol hclose _).map _
    · exact stays_leaf h
termination_by (s.length, 0)

theorem stays_assignableMember (s : List Word) (h : s <:+ words) : Stays words (assignableMember s) := by
  unfold assignableMember
  split
  · exact stays_crossReference h
  · exact stays_assignable s h
termination_by (s.length, 1)

end

theorem stays_assigned (h : s <:+ words) (operator : Text) : Stays words (assigned operator s) := by
  unfold assigned
  split
  · exact .complain h _
  · split
    · exact stays_crossReference h
    split
    · exact stays_assignable _ h
    · exact .complain h _

theorem stays_assignment? (h : s <:+ words) : ∀ r ∈ assignment? s, Stays words r := by
  intro r hr
  unfold assignment? at hr
  split at hr
  · split at hr
    · cases hr
      exact ((stays_assigned (Stays.tail (Stays.tail h)) _).map _).behind.behind
    · cases hr
  · cases hr

theorem stays_keywordOrRange (h : s <:+ words) : Stays words (keywordOrRange s) :=
  (stays_take h _ _).next fun _ _ _ htail => (Stays.behindMark? htail _ fun _ hr => stays_take hr _ _).map _

-- the calls go down as in the readers: fewer words, or as many and a reader further inside
mutual

theorem stays_alternatives (m : Mode) (s : List Word) (h : s <:+ words) : Stays words (alternatives m s) := by
  rw [alternatives]
  refine (stays_unorderedGroup m s h).next fun _ tail _ htail => ?_
  exact (Stays.behindMarks htail _ (fun r _ hr => stays_unorderedGroup m r hr) _).map _
termination_by (s.length, 6)

theorem stays_unorderedGroup (m : Mode) (s : List Word) (h : s <:+ words) : Stays words (unorderedGroup m s) := by
  rw [unorderedGroup]
  refine (stays_sequence m s h).next fun _ tail _ htail => ?_
  exact (Stays.behindMarks htail _ (fun r _ hr => stays_sequence m r hr) _).map _
termination_by (s.length, 5)

theorem stays_sequence (m : Mode) (s : List Word) (h : s <:+ words) : Stays words (sequence m s) := by
  rw [sequence]
  split
  · exact .complain h _
  · exact (stays_element m s h).next fun _ tail _ htail => (stays_moreElements m tail htail).map _
termination_by (s.length, 4)

theorem stays_moreElements (m : Mode) (s : List Word) (h : s <:+ words) : Stays words (moreElements m s) := by
  rw [moreElements]
  split
  · exact .nothing h _
  · exact ((stays_element m s h).next fun _ tail _ htail => (stays_moreElements m tail htail).map _).loose
termination_by (s.length, 4)

theorem stays_element (m : Mode) (s : List Word) (h : s <:+ words) : Stays words (element m s) := by
  cases m with
  | terminal =>
    rw [element]
    exact (stays_terminalElement s h).next fun _ _ _ htail => stays_decorated htail _
  | parser =>
    rw [element]
    split
    · exact stays_action h
    · refine (Stays.meaning? h _).next fun _ inner _ hinner => ?_
      exact (stays_plainElement inner hinner).next fun _ _ _ htail => stays_decorated htail _
termination_by (s.length, 3)
decreasing_by all_goals exact Prod.Lex.right' _ (by omega) (by decide)

theorem stays_plainElement (s : List Word) (h : s <:+ words) : Stays words (plainElement s) := by
  rw [plainElement]
  split
  · next r hr => exact stays_assignment? h r hr
  · exact stays_atom .parser s h
termination_by (s.length, 1)

theorem stays_terminalElement (s : List Word) (h : s <:+ words) : Stays words (terminalElement s) := by
  match s with
  | [] =>
    rw [terminalElement]
    exact stays_terminalOperand [] h
  | w :: rest =>
    rw [terminalElement]
    split
    · exact ((stays_terminalOperand rest (Stays.tail h)).map _).behind
    · exact stays_terminalOperand (w :: rest) h
termination_by (s.length, 2)

theorem stays_terminalOperand (s : List Word) (h : s <:+ words) : Stays words (terminalOperand s) := by
  match s with
  | [] =>
    rw [terminalOperand]
    exact stays_atom .terminal [] h
  | w :: rest =>
    rw [terminalOperand]
    split
    · exact .first h _
    split
    · exact .first h _
    split
    · exact stays_keywordOrRange h
    split
    · exact ((stays_terminalOperand rest (Stays.tail h)).map _).behind
    · exact stays_atom .terminal (w :: rest) h
termination_by (s.length, 1)

theorem stays_atom (m : Mode) (s : List Word) (h : s <:+ words) : Stays words (atom m s) := by
  match s with
  | [] =>
    rw [atom]
    exact stays_leaf h
  | w :: rest =>
    rw [atom]
    split
    · refine ((stays_alternatives m rest (Stays.tail h)).next fun _ _ _ hclose => ?_).behind
      exact (stays_takeSymbol hclose _).map _
    · exact stays_leaf h
termination_by (s.length, 0)

end

/-! ## Declarations -/

theorem stays_hiddenClause (h : s <:+ words) : Stays words (hiddenClause s) := by
  refine (stays_takeSymbol h _).next fun _ inside _ hinside => Stays.next ?_ fun _ _ _ hclose =>
    (stays_takeSymbol hclose _).map _
  unfold hiddenNames
  split
  · exact .nothing hinside _
  · exact (stays_oneOrMore hinside _ fun _ hr => stays_ruleName hr).loose

theorem stays_hiddenHere (h : s <:+ words) : Stays words (hiddenHere s) :=
  (Stays.behindMark? h _ fun _ hr => stays_hiddenClause hr).map _

theorem stays_returnsHere (h : s <:+ words) : Stays words (returnsHere s) :=
  Stays.behindMark? h _ fun _ hr => stays_typeRef hr

theorem stays_definition (h : s <:+ words) (m : Mode) : Stays words (definition m s) :=
  (stays_takeSymbol h _).next fun _ _ _ hinside => (stays_alternatives m _ hinside).next fun _ _ _ hclose =>
    (stays_takeSymbol hclose _).map _

theorem stays_fragmentHere (h : s <:+ words) : Stays words (fragmentHere s) := by
  unfold fragmentHere
  split
  · exact ((stays_takeWord h _).map _).loose
  · exact .nothing h _

theorem stays_starHere (h : s <:+ words) (fragment : Bool) : Stays words (starHere fragment s) := by
  unfold starHere
  split
  · exact ((stays_takeSymbol h _).map _).loose
  · exact .nothing h _

theorem stays_parserRule (h : s <:+ words) : Stays words (parserRule s) := by
  refine (stays_fragmentHere h).next fun _ _ _ hnamed => (stays_take hnamed _ _).next fun _ _ _ hbehind => ?_
  split
  · exact .complain hbehind _
  · exact (stays_starHere hbehind _).next fun _ _ _ htyped => (stays_returnsHere htyped).next fun _ _ _ hclause =>
      (stays_hiddenHere hclause).next fun _ _ _ hbody => (stays_definition hbody _).map _

theorem stays_terminalRule (h : s <:+ words) : Stays words (terminalRule s) :=
  (stays_takeWord h _).next fun _ _ _ hintroduced => (stays_fragmentHere hintroduced).next fun _ _ _ hnamed =>
    (stays_take hnamed _ _).next fun _ _ _ htyped => (stays_returnsHere htyped).next fun _ _ _ hbody =>
      (stays_definition hbody _).map _

theorem stays_enumLiteral (h : s <:+ words) : Stays words (enumLiteral s) :=
  (stays_take h _ _).next fun _ _ _ htail => (Stays.behindMark? htail _ fun _ hr => stays_take hr _ _).map _

theorem stays_enumLiterals (h : s <:+ words) : Stays words (enumLiterals s) :=
  (stays_enumLiteral h).next fun _ _ _ htail => (Stays.behindMarks htail _ (fun _ _ hr => stays_enumLiteral hr) _).map _

theorem stays_enumRule (h : s <:+ words) : Stays words (enumRule s) :=
  (stays_takeWord h _).next fun _ _ _ hnamed => (stays_take hnamed _ _).next fun _ _ _ htyped =>
    (stays_returnsHere htyped).next fun _ _ _ hcolon => (stays_takeSymbol hcolon _).next fun _ _ _ hbody =>
      (stays_enumLiterals hbody).next fun _ _ _ hclose => (stays_takeSymbol hclose _).map _

theorem stays_rule (h : s <:+ words) : Stays words (rule s) := by
  unfold rule
  split
  · exact stays_terminalRule h
  · split
    · exact stays_enumRule h
    · exact stays_parserRule h

/-! ## Grammars -/

theorem stays_moreNameParts (h : s <:+ words) : Stays words (moreNameParts s) := by
  fun_induction moreNameParts s with
  | case1 d n rest hname ih => exact ((ih (Stays.tail (Stays.tail h))).map _).behind.behind.loose
  | case2 => exact .nothing h _
  | case3 => exact .nothing h _

theorem stays_qualifiedName (h : s <:+ words) : Stays words (qualifiedName s) :=
  (stays_take h _ _).next fun _ _ _ htail => (stays_moreNameParts htail).map _

theorem stays_usesHere (h : s <:+ words) : Stays words (usesHere s) :=
  (Stays.behindMark? h _ fun _ hr => stays_oneOrMore hr _ fun _ hs => stays_qualifiedName hs).map _

theorem stays_shortNameHere (h : s <:+ words) : Stays words (shortNameHere s) :=
  (Stays.behindMark? h _ fun _ hr => stays_take hr _ _).map _

theorem stays_generated (h : s <:+ words) : Stays words (generated s) :=
  (stays_takeWord h _).next fun _ _ _ hnamed => (stays_take hnamed _ _).next fun _ _ _ haddressed =>
    (stays_take haddressed _ _).next fun _ _ _ htail => (stays_shortNameHere htail).map _

theorem stays_imported (h : s <:+ words) : Stays words (imported s) :=
  (stays_takeWord h _).next fun _ _ _ haddressed => (stays_take haddressed _ _).next fun _ _ _ htail =>
    (stays_shortNameHere htail).map _

theorem stays_metamodel? (h : s <:+ words) : ∀ r ∈ metamodel? s, Stays words r := by
  intro r hr
  unfold metamodel? at hr
  split at hr
  · cases hr
    exact stays_generated h
  · split at hr
    · cases hr
      exact stays_imported h
    · cases hr

theorem stays_metamodels (h : s <:+ words) : Stays words (metamodels s) := by
  induction hn : s.length using Nat.strong_induction_on generalizing s with
  | _ n ih =>
    subst hn
    rw [metamodels]
    split
    · exact .nothing h _
    · next r hr => exact ((stays_metamodel? h r hr).next fun _ mid hless hmid => (ih _ hless hmid rfl).map _).loose

theorem stays_annotations (h : s <:+ words) (comment : Option Text) : Stays words (annotations comment s) := by
  refine (Stays.behindMarks h _ (fun r _ hr => ?_) _).map _
  exact (stays_take hr _ _).next fun _ _ _ htail => .nothing htail _

theorem stays_rules (h : s <:+ words) : Stays words (rules s) := by
  induction hn : s.length using Nat.strong_induction_on generalizing s with
  | _ n ih =>
    subst hn
    rw [rules]
    refine (stays_annotations h _).next fun comment declared hless hdeclared => ?_
    split
    · exact .nothing hdeclared _
    · refine ((stays_rule hdeclared).next fun _ tail hshorter htail => (ih tail.length ?_ htail rfl).map _).loose
      exact Nat.lt_of_lt_of_le hshorter hless

theorem stays_afterName (h : s <:+ words) (comment : Option Text) (name : Text) :
    Stays words (afterName comment name s) :=
  (stays_usesHere h).next fun _ _ _ hclause => (stays_hiddenHere hclause).next fun _ _ _ hdeclared =>
    (stays_metamodels hdeclared).next fun _ _ _ hbody => (stays_rules hbody).map _

theorem stays_header (h : s <:+ words) : Stays words (WrittenGrammar.header s) :=
  (stays_takeWord h _).next fun _ _ _ hnamed => stays_qualifiedName hnamed

/-- a complaint about a grammar stands at an end of its words -/
theorem fault_stands {e : Fault} (h : WrittenGrammar.ofWords words = .error e) : e.StandsIn words := by
  have hheader : Stays words (WrittenGrammar.header words) := stays_header (List.suffix_refl words)
  unfold WrittenGrammar.ofWords at h
  split at h
  · next e' hread =>
    cases h
    exact hheader.fault e hread
  · next name rest within hread =>
    have hrest : rest <:+ words := hheader.rest name rest ⟨within, hread⟩
    split at h
    · next e' hbehind =>
      cases h
      exact (stays_afterName hrest _ _).fault e' hbehind
    · cases h

/-- what is complained about in a grammar is one of its words, or the end of the text -/
theorem fault_found {e : Fault} (h : WrittenGrammar.ofWords words = .error e) {t : Token} (ht : e.found = some t) :
    ∃ w ∈ words, w.token = t := by
  obtain ⟨here, hhere, hfound⟩ := fault_stands h
  rw [hfound] at ht
  obtain ⟨w, hw, rfl⟩ := Option.map_eq_some_iff.1 ht
  exact ⟨w, hhere.subset (List.mem_of_mem_head? hw), rfl⟩

end Rulebook.Source
