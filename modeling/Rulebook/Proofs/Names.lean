/-
Names of grammars. A grammar declares a name of one or more identifiers with dots between them (`Qualified`), and uses
others by such names (`qualified_of_ofText`).
-/
import Rulebook.Proofs.Headers

namespace Rulebook

open Source Rulebook.Reading

/-- what holds of the separator and of all parts holds of the joined text -/
theorem Text.forall_mem_join {P : CodePoint → Prop} {separator : Text} (hseparator : ∀ c ∈ separator, P c)
    {parts : List Text} (h : ∀ p ∈ parts, ∀ c ∈ p, P c) : ∀ c ∈ join separator parts, P c := by
  induction parts with
  | nil => exact nofun
  | cons p parts ih =>
    obtain ⟨hp, hparts⟩ := List.forall_mem_cons.1 h
    cases parts with
    | nil => simpa [join] using hp
    | cons q parts =>
      rw [join, List.intercalate_cons_cons]
      exact List.forall_mem_append.2 ⟨List.forall_mem_append.2 ⟨hp, hseparator⟩, ih hparts⟩

/-- identifiers with dots between them, at least one -/
def Qualified (name : Text) : Prop :=
  ∃ parts : List Text, parts ≠ [] ∧ (∀ p ∈ parts, IsIdentifier p) ∧ name = Text.join "." parts

theorem Qualified.ne_nil {name : Text} (h : Qualified name) : name ≠ [] := by
  obtain ⟨parts, hparts, hidentifiers, rfl⟩ := h
  obtain ⟨p, more, rfl⟩ := List.exists_cons_of_ne_nil hparts
  obtain ⟨c, rest, rfl⟩ : ∃ c rest, p = c :: rest := by
    cases hidentifiers p List.mem_cons_self with
    | intro _ _ => exact ⟨_, _, rfl⟩
  rw [Text.join]
  cases more with
  | nil => simp
  | cons q more => simp [List.intercalate_cons_cons]

theorem identifiers_of_moreNameParts {words rest : List Word} {parts : List Text} (hlex : LexicalWords words)
    (h : (moreNameParts words).Gives parts rest) : ∀ p ∈ parts, IsIdentifier p := by
  fun_induction moreNameParts words generalizing parts with
  | case1 d n tail hnext ih =>
    simp only [Bool.and_eq_true, decide_eq_true_eq] at hnext
    simp only [gives_loose, gives_behind, gives_map] at h
    obtain ⟨more, hmore, rfl⟩ := h
    exact List.forall_mem_cons.2 ⟨(hlex n (by simp)).name hnext.2, ih (fun w hw => hlex w (by simp [hw])) hmore⟩
  | case2 =>
    obtain ⟨rfl, -⟩ := (gives_nothing ..).1 h
    exact List.forall_mem_nil _
  | case3 =>
    obtain ⟨rfl, -⟩ := (gives_nothing ..).1 h
    exact List.forall_mem_nil _

theorem qualified_of_qualifiedName {words rest : List Word} {name : Text} (hlex : LexicalWords words)
    (h : (qualifiedName words).Gives name rest) : Qualified name := by
  simp only [qualifiedName, gives_next', gives_take, gives_map] at h
  obtain ⟨_, tail, ⟨n, rfl, hn, rfl⟩, parts, hparts, rfl⟩ := h
  have hmore := identifiers_of_moreNameParts (hlex.suffix (List.suffix_cons n tail)) hparts
  exact ⟨_, by simp, List.forall_mem_cons.2 ⟨(hlex n List.mem_cons_self).name hn, hmore⟩, rfl⟩

theorem qualified_of_usesHere {words rest : List Word} {names : List Text} (hlex : LexicalWords words)
    (h : (usesHere words).Gives names rest) : ∀ name ∈ names, Qualified name := by
  simp only [usesHere, gives_map, gives_behindWord?] at h
  obtain ⟨_, ⟨rfl, -, -⟩ | ⟨x, mid, used, rfl, -, hused, rfl⟩, rfl⟩ := h
  · exact List.forall_mem_nil _
  · have hlexMid := hlex.suffix (List.suffix_cons x mid)
    simp only [oneOrMore, gives_next', gives_map, gives_behindSymbols] at hused
    obtain ⟨first, tail, hfirst, more, hmore, rfl⟩ := hused
    have hlexTail := hlexMid.suffix ((takes_qualifiedName _).leavesEnd _ _ hfirst)
    refine List.forall_mem_cons.2 ⟨qualified_of_qualifiedName hlexMid hfirst, ?_⟩
    clear hfirst hlexMid
    induction hmore with
    | stop _ => exact List.forall_mem_nil _
    | more _ hread _ ih =>
      have hlexRead := hlexTail.suffix (List.suffix_cons _ _)
      exact List.forall_mem_cons.2 ⟨qualified_of_qualifiedName hlexRead hread,
        ih (hlexRead.suffix ((takes_qualifiedName _).leavesEnd _ _ hread))⟩

theorem qualified_of_ofWords {words : List Word} {w : WrittenGrammar} (hlex : LexicalWords words)
    (h : WrittenGrammar.ofWords words = .ok w) : Qualified w.name ∧ ∀ name ∈ w.uses, Qualified name := by
  unfold WrittenGrammar.ofWords at h
  split at h
  · cases h
  · next name start hstart hheader =>
    have hgives : (WrittenGrammar.header words).Gives name start := ⟨hstart, hheader⟩
    have hlexStart := hlex.suffix ((takes_header words).leavesEnd _ _ hgives)
    split at h
    · cases h
    · next step hafter =>
      cases h
      have hgivesAfter : (afterName (commentHere words) name start).Gives step.value step.rest := ⟨step.within, hafter⟩
      simp only [afterName, gives_next', gives_map] at hgivesAfter
      obtain ⟨uses, _, huses, _, _, -, _, _, -, _, -, hw⟩ := hgivesAfter
      simp only [WrittenGrammar.header, gives_next', gives_takeWord] at hgives
      obtain ⟨_, mid, ⟨x, rfl, -, -⟩, hname⟩ := hgives
      rw [← hw]
      exact ⟨qualified_of_qualifiedName (hlex.suffix (List.suffix_cons x mid)) hname,
        qualified_of_usesHere hlexStart huses⟩

/-- a grammar that is read has a qualified name, and uses grammars by qualified names -/
theorem qualified_of_ofText {file : Path} {source : Text} {w : WrittenGrammar}
    (h : WrittenGrammar.ofText file source = .ok w) : Qualified w.name ∧ ∀ name ∈ w.uses, Qualified name := by
  obtain ⟨lexed, hlexed, hwords⟩ := WrittenGrammar.ofText_eq_ok_iff.1 h
  exact qualified_of_ofWords (lexicalWords_of_ofSource hlexed) hwords

end Rulebook
