/-
The readers of a definition accept exactly its language. Soundness follows the readers and has their measure; it says
what the words taken spell. Completeness follows the derivation; it says that words which spell trees are read as these
trees wherever the part may end.

- `spells_of_alternatives`: soundness for a whole definition;
- `alternatives_of_spells`: completeness for a whole definition;
- `gives_alternatives_iff`: both, before a word that ends every definition.
-/
import Rulebook.Proofs.Spelling

namespace Rulebook.Source

open Rulebook.Reading

/-! ## Assignments -/

/-- a name and an operator of assignment are next -/
def AssignmentHere (words : List Word) : Prop :=
  ∃ f o tail, words = f :: o :: tail ∧ f.IsName ∧ isAssignment o.token = true

theorem gives_plainElement (words rest : List Word) (t : Tree) :
    (plainElement words).Gives t rest ↔
      (∃ f o tail e, words = f :: o :: tail ∧ f.IsName ∧ isAssignment o.token = true ∧
        (assigned o.token.value tail).Gives e rest ∧ t = .assignment .none f.token.value o.token.value e) ∨
      (¬ AssignmentHere words ∧ (atom .parser words).Gives t rest) := by
  rw [plainElement]
  match words with
  | [] => simp [assignment?, AssignmentHere]
  | [w] => simp [assignment?, AssignmentHere]
  | f :: o :: tail =>
    by_cases hfo : f.IsName ∧ isAssignment o.token = true
    · have hread : assignment? (f :: o :: tail) = some ((assigned o.token.value tail).map fun e =>
          Element.assignment .none f.token.value o.token.value e).behind.behind := by
        simp [assignment?, hfo]
      simp only [hread, gives_behind, gives_map]
      refine ⟨?_, ?_⟩
      · intro h
        rcases h with ⟨e, he, rfl⟩
        exact .inl ⟨f, o, tail, e, rfl, hfo.1, hfo.2, he, rfl⟩
      · intro h
        rcases h with ⟨_, _, _, e, h, -, -, he, rfl⟩ | ⟨h, -⟩
        · cases h
          exact ⟨e, he, rfl⟩
        · exact absurd ⟨f, o, tail, rfl, hfo⟩ h
    · have hread : assignment? (f :: o :: tail) = none := by
        simpa [assignment?] using hfo
      simp only [hread]
      refine ⟨fun h => .inr ⟨?_, h⟩, ?_⟩
      · intro hread
        rcases hread with ⟨_, _, _, h, hfo'⟩
        cases h
        exact hfo hfo'
      · intro hread
        rcases hread with ⟨_, _, _, _, h, hf, ho, -, -⟩ | ⟨-, h⟩
        · cases h
          exact absurd ⟨hf, ho⟩ hfo
        · exact h

/-! ## Soundness -/

/-- a reader of members that is sound on everything as short as `bound` is sound on a row of them -/
theorem row_of_behind {m : Mode} {p : Part} {s : Symbol} (bound : Nat)
    {reads : List Word → Tree → List Word → Prop}
    (sound : ∀ words t rest, words.length ≤ bound → reads words t rest →
      rest.length < words.length ∧ ∃ ws, words = ws ++ rest ∧ Spells m p ws [t])
    {words mid rest : List Word} {t : Tree} {ts : List Tree} (hlen : words.length ≤ bound) (hfirst : reads words t mid)
    (hmore : BehindSymbols s reads mid ts rest) :
    ∃ ws, words = ws ++ rest ∧ Spells m (.row s p) ws (t :: ts) := by
  obtain ⟨hshort, ws, rfl, hws⟩ := sound words t mid hlen hfirst
  generalize hmid : mid = behind at hmore
  induction hmore generalizing ws t mid with
  | stop _ =>
    subst hmid
    exact ⟨ws, rfl, .rowOne hws⟩
  | @more b behind next rest u us hb hread _ ih =>
    subst hmid
    simp only [List.length_append, List.length_cons] at hlen
    obtain ⟨hshort', vs, rfl, hvs⟩ := sound behind u next (by omega) hread
    obtain ⟨more, hmore, hrow⟩ := ih vs hvs (by omega) hread hshort' rfl
    exact ⟨ws ++ b :: more, by simp [hmore], .rowMore hws (by simpa using hb) hrow⟩

mutual

theorem spells_of_assignable (m : Mode) (words rest : List Word) (t : Tree) (h : (assignable words).Gives t rest) :
    ∃ ws, words = ws ++ rest ∧ Spells m .assignable ws [t] := by
  unfold assignable at h
  split at h
  · obtain ⟨ws, hws, hl⟩ := leaf_of_gives h
    exact ⟨ws, hws, .assignableLeaf hl⟩
  · rename_i o inside
    split at h
    · rename_i ho
      simp only [gives_behind, gives_next', gives_behindSymbols, gives_map, gives_takeSymbol] at h
      obtain ⟨first, mid, hfirst, more, close, hmore, _, ⟨c, rfl, hc, rfl⟩, rfl⟩ := h
      obtain ⟨ws, rfl, hws⟩ := row_of_behind inside.length
        (fun s e r hs hr => ⟨hr.shorter, spells_of_assignableMember m s r e hr⟩) (Nat.le_refl _) hfirst hmore
      exact ⟨o :: ws ++ [c], by simp, .assignableGroup (by simpa using ho) hws hc⟩
    · obtain ⟨ws, hws, hl⟩ := leaf_of_gives h
      exact ⟨ws, hws, .assignableLeaf hl⟩
termination_by (words.length, 0)
decreasing_by all_goals exact Prod.Lex.left _ _ (by subst_vars; simp only [List.length_cons]; omega)

theorem spells_of_assignableMember (m : Mode) (words rest : List Word) (t : Tree)
    (h : (assignableMember words).Gives t rest) : ∃ ws, words = ws ++ rest ∧ Spells m .member ws [t] := by
  unfold assignableMember at h
  split at h
  · obtain ⟨ws, hws, hr⟩ := referenced_of_gives h
    exact ⟨ws, hws, .crossReference hr⟩
  · obtain ⟨ws, hws, ha⟩ := spells_of_assignable m words rest t h
    exact ⟨ws, hws, .memberAssignable ha⟩
termination_by (words.length, 1)
decreasing_by exact Prod.Lex.right _ (by decide)

end

theorem spells_of_assigned {m : Mode} {operator : Text} {words rest : List Word} {t : Tree}
    (h : (assigned operator words).Gives t rest) : ∃ ws, words = ws ++ rest ∧ Spells m .member ws [t] := by
  unfold assigned at h
  split at h
  · simp at h
  · split at h
    · obtain ⟨ws, hws, hr⟩ := referenced_of_gives h
      exact ⟨ws, hws, .crossReference hr⟩
    · split at h
      · obtain ⟨ws, hws, ha⟩ := spells_of_assignable m _ rest t h
        exact ⟨ws, hws, .memberAssignable ha⟩
      · simp at h

theorem spells_of_keywordOrRange {words rest : List Word} {t : Tree} (h : (keywordOrRange words).Gives t rest) :
    ∃ ws, words = ws ++ rest ∧ Spells .terminal .operand ws [t] := by
  simp only [keywordOrRange, gives_next', gives_take, gives_map, gives_behindSymbol?] at h
  obtain ⟨_, _, ⟨l, rfl, hl, rfl⟩, _, ⟨rfl, rfl, -⟩ | ⟨d, _, _, rfl, hd, ⟨r, rfl, hr, rfl⟩, rfl⟩, rfl⟩ := h
  · exact ⟨[l], rfl, .operandAtom (.leaf (.keyword hl))⟩
  · exact ⟨[l, d, r], rfl, .range hl hd hr⟩

theorem marked_of_decorated {e t : Tree} {words rest : List Word} (h : (decorated e words).Gives t rest) :
    ∃ cs c, words = cs ++ rest ∧ Marked cardinality? cs c ∧ t = c.elim e fun c => withCardinality c e := by
  simp only [decorated, gives_map, gives_marked] at h
  obtain ⟨c, ⟨cs, hcs, hc, -⟩, rfl⟩ := h
  exact ⟨cs, c, hcs, hc, rfl⟩

/-- what an atom of a terminal rule may not begin with: an atom is read only where nothing else stands -/
def AtomHere (m : Mode) (words : List Word) : Prop := m = .terminal → atWord "EOF" words = false

theorem Leaf.inMode {m : Mode} {ws rest : List Word} {t : Tree} (h : Leaf .parser ws t) (hm : AtomHere m (ws ++ rest)) :
    Leaf m ws t := by
  cases h with
  | keyword hw => exact .keyword hw
  | call h =>
    obtain ⟨hv, _⟩ := h
    refine .call (.named hv fun hmode hname => ?_)
    obtain ⟨n, more, rfl, hn, hnv⟩ := hv.begins
    have hfront := hm hmode
    rw [List.cons_append, Bool.eq_false_iff] at hfront
    exact hfront ((atWord_cons ..).2 ⟨hn, by rw [hnv, hname]⟩)

mutual

theorem spells_of_alternatives (m : Mode) (words rest : List Word) (t : Tree)
    (h : (alternatives m words).Gives t rest) : ∃ ws, words = ws ++ rest ∧ Spells m .alternatives ws [t] := by
  rw [alternatives] at h
  simp only [gives_next', gives_behindSymbols, gives_map] at h
  obtain ⟨first, mid, hfirst, more, hmore, rfl⟩ := h
  obtain ⟨ws, hws, hrow⟩ := row_of_behind words.length
    (fun s e r hs hr => ⟨hr.shorter, spells_of_unorderedGroup m s r e hr⟩) (Nat.le_refl _) hfirst hmore
  exact ⟨ws, hws, .alternatives hrow⟩
termination_by (words.length, 6)
decreasing_by exact Prod.Lex.right' _ (by omega) (by decide)

theorem spells_of_unorderedGroup (m : Mode) (words rest : List Word) (t : Tree)
    (h : (unorderedGroup m words).Gives t rest) : ∃ ws, words = ws ++ rest ∧ Spells m .unordered ws [t] := by
  rw [unorderedGroup] at h
  simp only [gives_next', gives_behindSymbols, gives_map] at h
  obtain ⟨first, mid, hfirst, more, hmore, rfl⟩ := h
  obtain ⟨ws, hws, hrow⟩ := row_of_behind words.length
    (fun s e r hs hr => ⟨hr.shorter, spells_of_sequence m s r e hr⟩) (Nat.le_refl _) hfirst hmore
  exact ⟨ws, hws, .unordered hrow⟩
termination_by (words.length, 5)
decreasing_by exact Prod.Lex.right' _ (by omega) (by decide)

theorem spells_of_sequence (m : Mode) (words rest : List Word) (t : Tree)
    (h : (sequence m words).Gives t rest) : ∃ ws, words = ws ++ rest ∧ Spells m .sequence ws [t] := by
  rw [sequence] at h
  split at h
  · simp at h
  · simp only [gives_next', gives_map] at h
    obtain ⟨first, mid, hfirst, more, hmore, rfl⟩ := h
    have hshort := hfirst.shorter
    have hhead := spells_of_element m words mid first hfirst
    have htail := spells_of_moreElements m mid rest more hmore
    obtain ⟨ws, rfl, hws⟩ := hhead
    obtain ⟨us, rfl, ⟨rfl, rfl⟩ | hus⟩ := htail
    · exact ⟨ws, by simp, .sequence (.elementsOne hws)⟩
    · exact ⟨ws ++ us, by simp, .sequence (.elementsMore hws hus)⟩
termination_by (words.length, 4)
decreasing_by
  · exact Prod.Lex.right' _ (by omega) (by decide)
  · exact Prod.Lex.left _ _ hshort

theorem spells_of_moreElements (m : Mode) (words rest : List Word) (ts : List Tree)
    (h : (moreElements m words).Gives ts rest) :
    ∃ ws, words = ws ++ rest ∧ (ws = [] ∧ ts = [] ∨ Spells m .elements ws ts) := by
  rw [moreElements] at h
  split at h
  · obtain ⟨rfl, rfl⟩ := (gives_nothing ..).1 h
    exact ⟨[], rfl, .inl ⟨rfl, rfl⟩⟩
  · simp only [gives_loose, gives_next', gives_map] at h
    obtain ⟨first, mid, hfirst, more, hmore, rfl⟩ := h
    have hshort := hfirst.shorter
    have hhead := spells_of_element m words mid first hfirst
    have htail := spells_of_moreElements m mid rest more hmore
    obtain ⟨ws, rfl, hws⟩ := hhead
    obtain ⟨us, rfl, ⟨rfl, rfl⟩ | hus⟩ := htail
    · exact ⟨ws, by simp, .inr (.elementsOne hws)⟩
    · exact ⟨ws ++ us, by simp, .inr (.elementsMore hws hus)⟩
termination_by (words.length, 4)
decreasing_by
  · exact Prod.Lex.right' _ (by omega) (by decide)
  · exact Prod.Lex.left _ _ hshort

theorem spells_of_element (m : Mode) (words rest : List Word) (t : Tree) (h : (element m words).Gives t rest) :
    ∃ ws, words = ws ++ rest ∧ Spells m .element ws [t] := by
  cases m with
  | terminal =>
    rw [element] at h
    simp only [gives_next'] at h
    obtain ⟨e, mid, he, hcount⟩ := h
    obtain ⟨ws, rfl, hws⟩ := spells_of_terminalElement words mid e he
    obtain ⟨cs, c, rfl, hc, rfl⟩ := marked_of_decorated hcount
    exact ⟨[] ++ ws ++ cs, by simp, .element (p := none) .absent (fun _ => rfl) hws hc⟩
  | parser =>
    rw [element] at h
    split at h
    · obtain ⟨ws, hws, ha⟩ := acts_of_gives h
      exact ⟨ws, hws, .action rfl ha⟩
    · simp only [predicateHere, gives_next'] at h
      obtain ⟨p, mid, hp, e, last, he, hcount⟩ := h
      have hle := hp.notLonger
      have hplain := spells_of_plainElement mid last e he
      obtain ⟨ps, rfl, hps, -⟩ := (gives_marked ..).1 hp
      obtain ⟨ws, rfl, hws⟩ := hplain
      obtain ⟨cs, c, rfl, hc, rfl⟩ := marked_of_decorated hcount
      exact ⟨ps ++ ws ++ cs, by simp, .element hps nofun hws hc⟩
termination_by (words.length, 3)
decreasing_by all_goals exact Prod.Lex.right' _ (by omega) (by decide)

theorem spells_of_plainElement (words rest : List Word) (t : Tree) (h : (plainElement words).Gives t rest) :
    ∃ ws, words = ws ++ rest ∧ Spells .parser .plain ws [t] := by
  rcases (gives_plainElement ..).1 h with ⟨f, o, tail, e, rfl, hf, ho, he, rfl⟩ | ⟨-, hatom⟩
  · obtain ⟨ws, rfl, hws⟩ := spells_of_assigned (m := .parser) he
    exact ⟨f :: o :: ws, rfl, .assignment rfl hf ho hws⟩
  · obtain ⟨ws, hws, ha⟩ := spells_of_atom .parser words rest t nofun hatom
    exact ⟨ws, hws, .plainAtom rfl ha⟩
termination_by (words.length, 1)
decreasing_by exact Prod.Lex.right _ (by decide)

theorem spells_of_terminalElement (words rest : List Word) (t : Tree) (h : (terminalElement words).Gives t rest) :
    ∃ ws, words = ws ++ rest ∧ Spells .terminal .plain ws [t] := by
  unfold terminalElement at h
  split at h
  · obtain ⟨ws, hws, ho⟩ := spells_of_terminalOperand [] rest t h
    exact ⟨ws, hws, .plainOperand rfl ho⟩
  · rename_i a tail
    split at h
    · rename_i ha
      simp only [gives_behind, gives_map] at h
      obtain ⟨e, he, rfl⟩ := h
      obtain ⟨ws, rfl, ho⟩ := spells_of_terminalOperand tail rest e he
      exact ⟨a :: ws, rfl, .upTo rfl (by simpa using ha) ho⟩
    · obtain ⟨ws, hws, ho⟩ := spells_of_terminalOperand (a :: tail) rest t h
      exact ⟨ws, hws, .plainOperand rfl ho⟩
termination_by (words.length, 2)
decreasing_by
  all_goals subst_vars
  all_goals first
    | exact Prod.Lex.right _ (by decide)
    | exact Prod.Lex.left _ _ (Nat.lt_succ_self _)

theorem spells_of_terminalOperand (words rest : List Word) (t : Tree) (h : (terminalOperand words).Gives t rest) :
    ∃ ws, words = ws ++ rest ∧ Spells .terminal .operand ws [t] := by
  unfold terminalOperand at h
  split at h
  · obtain ⟨ws, hws, ha⟩ := spells_of_atom .terminal [] rest t (fun _ => rfl) h
    exact ⟨ws, hws, .operandAtom ha⟩
  · rename_i w tail
    split at h
    · rename_i hd
      obtain ⟨rfl, rfl⟩ := (gives_first ..).1 h
      exact ⟨[w], rfl, .wildcard (by simpa using hd)⟩
    · split at h
      · rename_i heof
        obtain ⟨rfl, rfl⟩ := (gives_first ..).1 h
        exact ⟨[w], rfl, .endOfFile (by simpa using heof)⟩
      · rename_i heof
        split at h
        · exact spells_of_keywordOrRange h
        · split at h
          · rename_i hb
            simp only [gives_behind, gives_map] at h
            obtain ⟨e, he, rfl⟩ := h
            obtain ⟨ws, rfl, ho⟩ := spells_of_terminalOperand tail rest e he
            exact ⟨w :: ws, rfl, .negated (by simpa using hb) ho⟩
          · obtain ⟨ws, hws, ha⟩ := spells_of_atom .terminal (w :: tail) rest t (fun _ => Bool.eq_false_iff.2 heof) h
            exact ⟨ws, hws, .operandAtom ha⟩
termination_by (words.length, 1)
decreasing_by
  all_goals subst_vars
  all_goals first
    | exact Prod.Lex.right _ (by decide)
    | exact Prod.Lex.left _ _ (Nat.lt_succ_self _)

theorem spells_of_atom (m : Mode) (words rest : List Word) (t : Tree) (hm : AtomHere m words)
    (h : (atom m words).Gives t rest) : ∃ ws, words = ws ++ rest ∧ Spells m .atom ws [t] := by
  unfold atom at h
  split at h
  · obtain ⟨ws, hws, hl⟩ := leaf_of_gives h
    exact ⟨ws, hws, .leaf (hl.inMode (hws ▸ hm))⟩
  · rename_i o inside
    split at h
    · rename_i ho
      simp only [gives_behind, gives_next', gives_map, gives_takeSymbol] at h
      obtain ⟨e, close, he, _, ⟨c, rfl, hc, rfl⟩, rfl⟩ := h
      obtain ⟨ws, rfl, hws⟩ := spells_of_alternatives m inside _ e he
      exact ⟨o :: ws ++ [c], by simp, .group (by simpa using ho) hws hc⟩
    · obtain ⟨ws, hws, hl⟩ := leaf_of_gives h
      exact ⟨ws, hws, .leaf (hl.inMode (hws ▸ hm))⟩
termination_by (words.length, 0)
decreasing_by all_goals exact Prod.Lex.left _ _ (by subst_vars; simp only [List.length_cons]; omega)

end

/-! ## Fronts -/

/-- a word that may begin an element ends no sequence, carries nothing on and counts nothing -/
theorem front_of_opener {m : Mode} {w : Word} (h : w.token.kind ∈ openers m .element) (rest : List Word) :
    atSequenceEnd (w :: rest) = false ∧ Apart (w :: rest) ∧ Uncounted (w :: rest) := by
  simp only [openers, List.mem_cons, List.not_mem_nil, or_false] at h
  rcases h with h | h | h | h | h | h | h | h <;>
    simp [atSequenceEnd, Apart, Uncounted, carriers, atSymbol, cardinality?, Token.isSymbol, h]

/-- where a sequence ends, an element has ended -/
theorem front_of_sequenceEnd {rest : List Word} (h : atSequenceEnd rest = true) : Apart rest ∧ Uncounted rest := by
  cases rest with
  | nil => simp [Apart, Uncounted]
  | cons w rest =>
    simp only [atSequenceEnd, List.any_cons, List.any_nil, Bool.or_false, Bool.or_eq_true, Token.isSymbol_iff] at h
    rcases h with h | h | h | h | h <;>
      simp [Apart, Uncounted, carriers, atSymbol, cardinality?, Token.isSymbol, h]

theorem apart_of_marked {cs rest : List Word} {c : Option Cardinality} (h : Marked cardinality? cs c)
    (hrest : Apart rest) : Apart (cs ++ rest) := by
  cases h with
  | absent => exact hrest
  | @present w c hw =>
    unfold cardinality? at hw
    split at hw <;> simp_all [Apart, carriers, atSymbol, Token.isSymbol]

theorem apart_of_is {w : Word} {s : Symbol} (h : w.Is s) (hs : s ∉ carriers) (rest : List Word) : Apart (w :: rest) :=
  fun _ hmem => atSymbol_of_is h (fun he => hs (he ▸ hmem)) rest

theorem Follows.bars {rest : List Word} (h : Follows .alternatives rest) : Follows (.row .bar .unordered) rest :=
  ⟨fun _ _ hb => ⟨by simp [atSequenceEnd, Token.isSymbol, hb.kind], atSymbol_of_is hb (by decide) _⟩, ⟨h.1, h.2.2⟩, h.2.1⟩

theorem Follows.ampersands {rest : List Word} (h : Follows .unordered rest) : Follows (.row .ampersand .sequence) rest :=
  ⟨fun _ _ hb => by simp [Follows, atSequenceEnd, Token.isSymbol, hb.kind], h⟩

/-- a parenthesis or a semicolon ends a definition -/
theorem follows_of_is {w : Word} {s : Symbol} (h : w.Is s) (hs : s = .closeParen ∨ s = .semicolon) (rest : List Word) :
    Follows .alternatives (w :: rest) := by
  have hbar : s ≠ .bar ∧ s ≠ .ampersand := by rcases hs with rfl | rfl <;> decide
  refine ⟨?_, atSymbol_of_is h hbar.1 _, atSymbol_of_is h hbar.2 _⟩
  rcases hs with rfl | rfl <;> simp [atSequenceEnd, Token.isSymbol, h.kind]

theorem follows_members {c : Word} (hc : c.Is .closeParen) (rest : List Word) : Follows (.row .bar .member) (c :: rest) :=
  ⟨fun _ _ hb => apart_of_is hb (by decide) _, apart_of_is hc (by decide) _, atSymbol_of_is hc (by decide) _⟩

/-- an atom with nothing that carries it on is no assignment -/
theorem not_assignmentHere {m : Mode} {ws rest : List Word} {t : Tree} (h : Spells m .atom ws [t])
    (hrest : Apart rest) : ¬ AssignmentHere (ws ++ rest) := by
  intro hread
  rcases hread with ⟨f, o, tail, hwords, hf, ho⟩
  cases h with
  | leaf h =>
    cases h with
    | keyword hw =>
      cases hwords
      exact absurd (hw.symm.trans hf) (by decide)
    | call h =>
      obtain ⟨hv, _⟩ := h
      cases hv with
      | plain hn =>
        cases hwords
        simp only [isAssignment, Bool.or_eq_true, or_assoc] at ho
        rcases ho with ho | ho | ho
        · simpa [atSymbol, ho] using hrest .equals (by decide)
        · simpa [atSymbol, ho] using hrest .plusEquals (by decide)
        · simpa [atSymbol, ho] using hrest .questionEquals (by decide)
      | qualified _ hc _ =>
        cases hwords
        simp [isAssignment, Token.isSymbol, hc.kind] at ho
  | group hopen _ _ =>
    simp only [List.cons_append, List.cons.injEq] at hwords
    exact absurd (hopen.symm.trans (hwords.1 ▸ hf)) (by decide)

theorem assigned_of_member {words rest : List Word} {t : Tree} (operator : Text)
    (hfront : ∃ w more, words = w :: more ∧ w.token.kind ∈ openers .parser .member)
    (h : (assignableMember words).Gives t rest) : (assigned operator words).Gives t rest := by
  obtain ⟨w, more, rfl, hw⟩ := hfront
  simp only [openers, List.mem_cons, List.not_mem_nil, or_false] at hw
  rw [assignableMember] at h
  rcases hw with hw | hw | hw | hw <;> simpa [assigned, atSymbol, Token.isSymbol, hw] using h

/-- where an operand of a terminal rule is an atom, it is read as one -/
theorem terminalOperand_of_atom {ws rest : List Word} {t : Tree} (h : Spells .terminal .atom ws [t])
    (hrest : Apart rest) (hatom : (atom .terminal (ws ++ rest)).Gives t rest) :
    (terminalOperand (ws ++ rest)).Gives t rest := by
  cases h with
  | leaf h =>
    cases h with
    | @keyword w hw =>
      have hdots : atSymbol .doubleDot rest = false := hrest _ (by simp [carriers])
      simp [terminalOperand, keywordOrRange, keywordOf, Token.isSymbol, Token.isWord, hw.kind,
        hdots]
    | call h =>
      obtain ⟨hv, heof⟩ := h
      obtain ⟨n, more, rfl, hn, hnv⟩ := hv.begins
      have hvalue : n.token.value ≠ "EOF" := hnv ▸ heof rfl
      rw [List.cons_append] at hatom ⊢
      rw [terminalOperand]
      simpa [Token.isSymbol, Token.isWord, hn.kind, hvalue] using hatom
  | @group o c ws _ ho _ _ =>
    simp only [List.cons_append] at hatom ⊢
    rw [terminalOperand]
    simpa [Token.isSymbol, Token.isWord, ho.kind] using hatom

/-! ## Completeness -/

/-- what the reader of a part gives; members of a row and elements are read one by one -/
def Reads (m : Mode) : Part → List Word → List Tree → List Word → Prop
  | .row mark p, s, ts, rest => ∃ t more mid, ts = t :: more ∧ Reads m p s [t] mid ∧
      BehindSymbols mark (fun s t rest => Reads m p s [t] rest) mid more rest
  | .elements, s, ts, rest => ∃ t more mid, ts = t :: more ∧ (element m s).Gives t mid ∧
      (moreElements m mid).Gives more rest
  | .alternatives, s, ts, rest => ∃ t, ts = [t] ∧ (alternatives m s).Gives t rest
  | .unordered, s, ts, rest => ∃ t, ts = [t] ∧ (unorderedGroup m s).Gives t rest
  | .sequence, s, ts, rest => ∃ t, ts = [t] ∧ (sequence m s).Gives t rest
  | .element, s, ts, rest => ∃ t, ts = [t] ∧ (element m s).Gives t rest
  | .plain, s, ts, rest => ∃ t, ts = [t] ∧
      match m with
      | .parser => (plainElement s).Gives t rest
      | .terminal => (terminalElement s).Gives t rest
  | .operand, s, ts, rest => ∃ t, ts = [t] ∧ (m = .terminal → (terminalOperand s).Gives t rest)
  | .atom, s, ts, rest => ∃ t, ts = [t] ∧ (atom m s).Gives t rest
  | .member, s, ts, rest => ∃ t, ts = [t] ∧ (assignableMember s).Gives t rest
  | .assignable, s, ts, rest => ∃ t, ts = [t] ∧ (assignable s).Gives t rest

/-- an action is read as the element that it is -/
theorem Acts.gives_element {ws : List Word} {t : Tree} (h : Acts ws t) (rest : List Word) :
    (element .parser (ws ++ rest)).Gives t rest := by
  have hread := gives_of_acts h rest
  obtain ⟨ho, _, _, _⟩ := h
  rw [element]
  simpa [atSymbol, Token.isSymbol, ho.kind] using hread

/-- a count behind an element is read, where no other count follows -/
theorem gives_decorated {cs rest : List Word} {c : Option Cardinality} (h : Marked cardinality? cs c)
    (hrest : Uncounted rest) (e : Tree) :
    (decorated e (cs ++ rest)).Gives (c.elim e fun c => withCardinality c e) rest := by
  simp only [decorated, gives_map, gives_marked]
  exact ⟨c, ⟨cs, rfl, h, fun _ => hrest⟩, rfl⟩

/-- a predicate is no brace, so a brace opens an element only where it opens what the predicate stands before -/
theorem atBrace_of_marked {ps words : List Word} {p : Option Predicate} (h : Marked predicate? ps p)
    (hwords : atSymbol .openBrace words = false) : atSymbol .openBrace (ps ++ words) = false := by
  cases h with
  | absent => exact hwords
  | present hx =>
    unfold predicate? at hx
    split at hx <;> simp_all [atSymbol, Token.isSymbol]

/-- a plain element of a parser rule is read with the predicate before it and the count behind it -/
theorem gives_element_of_plain {ps cs rest : List Word} {p : Option Predicate} {c : Option Cardinality} {w : Word}
    {words : List Word} {e : Tree} (hp : Marked predicate? ps p) (hw : w.token.kind ∈ openers .parser .plain)
    (hplain : (plainElement (w :: words)).Gives e (cs ++ rest)) (hc : Marked cardinality? cs c)
    (hrest : Uncounted rest) :
    (element .parser (ps ++ w :: words)).Gives (dress p c e) rest := by
  have hunmarked : predicate? w.token = none ∧ w.token.kind ≠ .symbol .openBrace := by
    simp only [openers, List.mem_cons, List.not_mem_nil, or_false] at hw
    rcases hw with hw | hw | hw <;> simp [predicate?, hw]
  have hnext : atSymbol .openBrace (w :: words) = false := by simp [atSymbol, Token.isSymbol, hunmarked.2]
  have hbrace := atBrace_of_marked hp hnext
  have hpredicate : (predicateHere (ps ++ w :: words)).Gives p (w :: words) :=
    (gives_marked ..).2 ⟨ps, rfl, hp, fun _ => by simp [hunmarked.1]⟩
  rw [element]
  simp only [hbrace, Bool.false_eq_true, ↓reduceIte, gives_next']
  exact ⟨p, _, hpredicate, e, cs ++ rest, hplain, gives_decorated hc hrest _⟩

theorem Leaf.gives_atom {m : Mode} {ws rest : List Word} {t : Tree} (h : Leaf m ws t) (hrest : CallEnds rest) :
    (atom m (ws ++ rest)).Gives t rest := by
  have hread := gives_of_leaf h hrest
  obtain ⟨w, more, rfl, hw⟩ := h.begins
  rw [List.cons_append, atom]
  rcases hw with hw | ⟨hw, _⟩ <;> simpa [Token.isSymbol, hw.kind] using hread

theorem Leaf.gives_assignable {ws rest : List Word} {t : Tree} (h : Leaf .parser ws t) (hrest : CallEnds rest) :
    (assignable (ws ++ rest)).Gives t rest := by
  have hread := gives_of_leaf h hrest
  obtain ⟨w, more, rfl, hw⟩ := h.begins
  rw [List.cons_append, assignable]
  rcases hw with hw | ⟨hw, _⟩ <;> simpa [Token.isSymbol, hw.kind] using hread

theorem Referenced.gives_member {ws : List Word} {t : Tree} (h : Referenced ws t) (rest : List Word) :
    (assignableMember (ws ++ rest)).Gives t rest := by
  have hread := gives_of_referenced h rest
  obtain ⟨ho, _, _, _⟩ := h
  rw [assignableMember]
  simpa [atSymbol, Token.isSymbol, ho.kind] using hread

/-- an operand of a terminal rule without an arrow before it is read as an element of that rule -/
theorem terminalElement_of_operand {w : Word} {words rest : List Word} {t : Tree}
    (hw : w.token.kind ∈ openers .terminal .operand) (h : (terminalOperand (w :: words)).Gives t rest) :
    (terminalElement (w :: words)).Gives t rest := by
  have harrow : w.token.isSymbol .arrow = false := by
    simp only [openers, List.mem_cons, List.not_mem_nil, or_false] at hw
    rcases hw with hw | hw | hw | hw | hw <;> simp [Token.isSymbol, hw]
  simpa only [terminalElement, harrow, Bool.false_eq_true, ↓reduceIte] using h

/-- what may be assigned is read as a member of alternatives: it begins with no bracket -/
theorem assignableMember_of_assignable {m : Mode} {w : Word} {words rest : List Word} {t : Tree}
    (hw : w.token.kind ∈ openers m .assignable) (h : (assignable (w :: words)).Gives t rest) :
    (assignableMember (w :: words)).Gives t rest := by
  rw [assignableMember]
  simp only [openers, List.mem_cons, List.not_mem_nil, or_false] at hw
  rcases hw with hw | hw | hw <;> simpa [atSymbol, Token.isSymbol, hw] using h

section

variable {m : Mode} {words rest : List Word} {t : Tree} {ts : List Tree}

/-- a part that stands for one tree is read as this tree -/
theorem of_one {P : Tree → Prop} (h : ∃ u, [t] = [u] ∧ P u) : P t := by
  obtain ⟨_, hts, hread⟩ := h
  cases hts
  exact hread

theorem Reads.rowOne {s : Symbol} {p : Part} (h : Reads m p words [t] rest) (hrest : atSymbol s rest = false) :
    Reads m (.row s p) words [t] rest :=
  ⟨t, [], rest, rfl, h, .stop (by simp [atMark_iff, hrest])⟩

theorem Reads.rowMore {s : Symbol} {p : Part} {b : Word} {us : List Word} (h : Reads m p words [t] (b :: us))
    (hb : b.Is s) (hrow : Reads m (.row s p) us ts rest) : Reads m (.row s p) words (t :: ts) rest := by
  obtain ⟨u, more, mid, rfl, hu, hmore⟩ := hrow
  exact ⟨t, u :: more, b :: us, rfl, h, .more (by simpa using hb) hu hmore⟩

theorem Reads.alternatives (h : Reads m (.row .bar .unordered) words (t :: ts) rest) :
    Reads m .alternatives words [gather .choice t ts] rest := by
  obtain ⟨_, _, mid, hts, hfirst, hmore⟩ := h
  cases hts
  simp only [Reads, List.cons.injEq, and_true, exists_eq_left'] at hfirst hmore
  refine ⟨_, rfl, ?_⟩
  rw [Source.alternatives]
  simp only [gives_next', gives_behindSymbols, gives_map]
  exact ⟨t, mid, hfirst, ts, hmore, rfl⟩

theorem Reads.unordered (h : Reads m (.row .ampersand .sequence) words (t :: ts) rest) :
    Reads m .unordered words [gather .anyOrder t ts] rest := by
  obtain ⟨_, _, mid, hts, hfirst, hmore⟩ := h
  cases hts
  simp only [Reads, List.cons.injEq, and_true, exists_eq_left'] at hfirst hmore
  refine ⟨_, rfl, ?_⟩
  rw [unorderedGroup]
  simp only [gives_next', gives_behindSymbols, gives_map]
  exact ⟨t, mid, hfirst, ts, hmore, rfl⟩

theorem Reads.sequence {w : Word} (hw : w.token.kind ∈ openers m .element)
    (h : Reads m .elements (w :: words) (t :: ts) rest) :
    Reads m .sequence (w :: words) [gather .sequence t ts] rest := by
  obtain ⟨_, _, mid, hts, hfirst, hmore⟩ := h
  cases hts
  have hfront := (front_of_opener hw words).1
  refine ⟨_, rfl, ?_⟩
  rw [Source.sequence]
  simp only [hfront, Bool.false_eq_true, ↓reduceIte, gives_next', gives_map]
  exact ⟨t, mid, hfirst, ts, hmore, rfl⟩

theorem Reads.elementsOne (h : Reads m .element words [t] rest) (hend : atSequenceEnd rest = true) :
    Reads m .elements words [t] rest := by
  refine ⟨t, [], rest, rfl, of_one h, ?_⟩
  rw [moreElements]
  simp [hend]

theorem Reads.elementsMore {w : Word} {us : List Word} (h : Reads m .element words [t] (w :: us))
    (hw : w.token.kind ∈ openers m .element) (hmore : Reads m .elements (w :: us) ts rest) :
    Reads m .elements words (t :: ts) rest := by
  obtain ⟨u, more, mid, rfl, hu, hmore⟩ := hmore
  have hfront := (front_of_opener hw us).1
  refine ⟨t, u :: more, w :: us, rfl, of_one h, ?_⟩
  rw [moreElements]
  simp only [hfront, Bool.false_eq_true, ↓reduceIte, gives_loose, gives_next', gives_map]
  exact ⟨u, mid, hu, more, hmore, rfl⟩

/-- in a terminal rule there is no predicate to be read before the element -/
theorem Reads.element {ps cs : List Word} {p : Option Predicate} {c : Option Cardinality} {w : Word}
    (hp : Marked predicate? ps p) (hmode : m = .terminal → p = none) (hw : w.token.kind ∈ openers m .plain)
    (h : Reads m .plain (w :: words) [t] (cs ++ rest)) (hc : Marked cardinality? cs c) (hrest : Uncounted rest) :
    Reads m .element (ps ++ w :: words) [dress p c t] rest := by
  have hread := of_one h
  refine ⟨_, rfl, ?_⟩
  cases m with
  | terminal =>
    cases hmode rfl
    cases hp
    rw [List.nil_append, Source.element]
    simp only [gives_next']
    exact ⟨t, cs ++ rest, hread, gives_decorated hc hrest t⟩
  | parser => exact gives_element_of_plain hp hw hread hc hrest

theorem Reads.upTo {a : Word} (ha : a.Is .arrow) (h : Reads .terminal .operand words [t] rest) :
    Reads .terminal .plain (a :: words) [.upTo .none t] rest := by
  refine ⟨_, rfl, ?_⟩
  simp only [terminalElement, Token.isSymbol_iff, ha.kind, ↓reduceIte, gives_behind, gives_map]
  exact ⟨t, of_one h rfl, rfl⟩

theorem Reads.range {l d r : Word} (hl : l.IsLiteral) (hd : d.Is .doubleDot) (hr : r.IsLiteral) :
    Reads m .operand (l :: d :: r :: rest) [.range .none ⟨.none, l.token.value⟩ ⟨.none, r.token.value⟩] rest := by
  refine ⟨_, rfl, fun _ => ?_⟩
  simp [terminalOperand, keywordOrRange, Token.isSymbol, Token.isWord, hl.kind, hr.kind]
  exact ⟨some r.token, .inr ⟨hd, rfl⟩, rfl⟩

theorem Reads.negated {b : Word} (hb : b.Is .bang) (h : Reads m .operand words [t] rest) :
    Reads m .operand (b :: words) [.negated .none t] rest := by
  refine ⟨_, rfl, fun hm => ?_⟩
  rw [terminalOperand]
  simpa [Token.isSymbol, Token.isWord, hb.kind] using of_one h hm

theorem Reads.group {o c : Word} (ho : o.Is .openParen) (h : Reads m .alternatives words [t] (c :: rest))
    (hc : c.Is .closeParen) : Reads m .atom (o :: words) [t] rest := by
  refine ⟨_, rfl, ?_⟩
  rw [atom]
  simp only [Token.isSymbol_iff, ho.kind, ↓reduceIte, gives_behind, gives_next', gives_map, gives_takeSymbol]
  exact ⟨t, _, of_one h, _, ⟨c, rfl, hc, rfl⟩, rfl⟩

theorem Reads.assignableGroup {o c : Word} (ho : o.Is .openParen)
    (h : Reads m (.row .bar .member) words (t :: ts) (c :: rest)) (hc : c.Is .closeParen) :
    Reads m .assignable (o :: words) [gather .choice t ts] rest := by
  obtain ⟨_, _, mid, hts, hfirst, hmore⟩ := h
  cases hts
  simp only [Reads, List.cons.injEq, and_true, exists_eq_left'] at hfirst hmore
  refine ⟨_, rfl, ?_⟩
  rw [assignable]
  simp only [Token.isSymbol_iff, ho.kind, ↓reduceIte, gives_behind, gives_next', gives_behindSymbols, gives_map,
    gives_takeSymbol]
  exact ⟨t, mid, hfirst, ts, _, hmore, _, ⟨c, rfl, hc, rfl⟩, rfl⟩

end

/-- words that spell trees are read as these trees, where the part may end -/
theorem reads_of_spells {m : Mode} {p : Part} {ws : List Word} {ts : List Tree} (h : Spells m p ws ts) :
    ∀ rest, Follows p rest → Reads m p (ws ++ rest) ts rest := by
  induction h with
  | rowOne _ ih => exact fun rest hrest => (ih rest hrest.2.1).rowOne hrest.2.2
  | rowMore _ hb _ ih ihrow =>
    intro rest hrest
    rw [List.append_assoc]
    exact (ih _ (hrest.1 _ _ hb)).rowMore hb (ihrow rest hrest)
  | alternatives _ ih => exact fun rest hrest => (ih rest hrest.bars).alternatives
  | unordered _ ih => exact fun rest hrest => (ih rest hrest.ampersands).unordered
  | sequence h ih =>
    intro rest hrest
    have hread := ih rest hrest
    obtain ⟨w, more, rfl, hw⟩ := h.begins
    exact hread.sequence hw
  | elementsOne _ ih => exact fun rest hrest => (ih rest (front_of_sequenceEnd hrest)).elementsOne hrest
  | elementsMore _ htail ih ihtail =>
    intro rest hrest
    have hmore := ihtail rest hrest
    obtain ⟨w, us, rfl, hw⟩ := htail.begins
    rw [List.append_assoc]
    exact (ih _ (front_of_opener (m := m) hw _).2).elementsMore hw hmore
  | action hm h =>
    intro rest _
    subst hm
    exact ⟨_, rfl, h.gives_element rest⟩
  | element hp hmode hplain hc ih =>
    intro rest hrest
    have hread := ih _ (apart_of_marked hc hrest.1)
    obtain ⟨w, more, rfl, hw⟩ := hplain.begins
    rw [List.append_assoc, List.append_assoc]
    exact .element hp hmode hw hread hc hrest.2
  | assignment hm hf ho hmember ih =>
    intro rest hrest
    subst hm
    have hread := of_one (ih rest hrest)
    obtain ⟨w, more, rfl, hw⟩ := hmember.begins
    exact ⟨_, rfl, (gives_plainElement ..).2 (.inl ⟨_, _, _, _, rfl, hf, ho, assigned_of_member _ ⟨w, _, rfl, hw⟩ hread, rfl⟩)⟩
  | plainAtom hm hatom ih =>
    intro rest hrest
    subst hm
    exact ⟨_, rfl, (gives_plainElement ..).2 (.inr ⟨not_assignmentHere hatom hrest, of_one (ih rest hrest)⟩)⟩
  | upTo hm ha _ ih =>
    intro rest hrest
    subst hm
    exact .upTo ha (ih rest hrest)
  | plainOperand hm hoperand ih =>
    intro rest hrest
    subst hm
    have hread := of_one (ih rest hrest) rfl
    obtain ⟨w, more, rfl, hw⟩ := hoperand.begins
    exact ⟨_, rfl, terminalElement_of_operand hw hread⟩
  | wildcard hd => exact fun rest _ => ⟨_, rfl, fun _ => by simp [terminalOperand, hd.kind]⟩
  | endOfFile hn => exact fun rest _ => ⟨_, rfl, fun _ => by simp [terminalOperand, hn.1.kind, hn.2]⟩
  | range hl hd hr => exact fun rest _ => .range hl hd hr
  | negated hb _ ih => exact fun rest hrest => .negated hb (ih rest hrest)
  | operandAtom hatom ih =>
    intro rest hrest
    refine ⟨_, rfl, ?_⟩
    rintro rfl
    exact terminalOperand_of_atom hatom hrest (of_one (ih rest hrest))
  | leaf h => exact fun rest hrest => ⟨_, rfl, h.gives_atom hrest.callEnds⟩
  | group ho _ hc ih =>
    intro rest _
    rw [List.append_assoc]
    exact .group ho (ih _ (follows_of_is hc (.inl rfl) rest)) hc
  | crossReference h => exact fun rest _ => ⟨_, rfl, h.gives_member rest⟩
  | memberAssignable h ih =>
    intro rest hrest
    have hread := of_one (ih rest hrest)
    obtain ⟨w, more, rfl, hw⟩ := h.begins
    exact ⟨_, rfl, assignableMember_of_assignable hw hread⟩
  | assignableLeaf h => exact fun rest hrest => ⟨_, rfl, h.gives_assignable hrest.callEnds⟩
  | assignableGroup ho _ hc ih =>
    intro rest _
    rw [List.append_assoc]
    exact .assignableGroup ho (ih _ (follows_members hc rest)) hc

theorem alternatives_of_spells {m : Mode} {ws rest : List Word} {t : Tree} (h : Spells m .alternatives ws [t])
    (hrest : Follows .alternatives rest) : (alternatives m (ws ++ rest)).Gives t rest := by
  obtain ⟨_, hts, hread⟩ := reads_of_spells h rest hrest
  cases hts
  exact hread

/-- before a word that ends every definition, the reader gives exactly the trees that the words before it spell -/
theorem gives_alternatives_iff (m : Mode) (ws rest : List Word) (t : Tree) (hrest : Follows .alternatives rest) :
    (alternatives m (ws ++ rest)).Gives t rest ↔ Spells m .alternatives ws [t] := by
  refine ⟨fun h => ?_, fun h => alternatives_of_spells h hrest⟩
  obtain ⟨us, hus, hspells⟩ := spells_of_alternatives m _ rest t h
  rwa [List.append_cancel_right hus]

end Rulebook.Source
