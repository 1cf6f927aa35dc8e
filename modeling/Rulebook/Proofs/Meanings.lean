/-
What a name means in a directory of grammar files. It is the built-in grammar, or what the file of its simple name
states, or, when there is no such file, a grammar of the name alone (`Means`); each name means one thing
(`Means.unique`). A grammar denotes a name when it is linked from what the name means, against grammars that denote the
names it uses (`Denotes`): this fixes it up to the identities that the reader hands out.

`exists_renumbering`: two grammars that denote one name, in each of which a number and a name mean one grammar, come from
one another by a change of numbers.
-/
import Rulebook.Proofs.BuiltinGrammar
import Rulebook.Proofs.Directory
import Rulebook.Proofs.Renumbering

namespace Rulebook.Library

open Source

/-! ## Names -/

/-- what a name means in the directory -/
inductive Means (files : FileTree) (spot : Spot) : Text → WrittenGrammar → Prop where
  | builtin {w : WrittenGrammar} : WrittenGrammar.ofText builtinFile builtinSource = .ok w →
    Means files spot builtinName w
  | file {w : WrittenGrammar} : Stated files spot w → Means files spot w.name w
  | missing {name : Text} : name ≠ builtinName → (∀ w, Stated files spot w → w.name ≠ name) →
    Means files spot name (bareGrammar name [])

/-- a grammar that denotes a name: what the name means, linked against grammars that denote the used names -/
inductive Denotes (files : FileTree) (spot : Spot) : Text → Grammar → Prop where
  | linked {name : Text} {w : WrittenGrammar} {used : List Grammar} (id : Nat) : Means files spot name w →
    used.length = w.uses.length → (∀ p ∈ w.uses.zip used, Denotes files spot p.1 p.2) →
    Denotes files spot name (w.link id used)

section

variable {files : FileTree} {directory : Path} {spot : Spot} {name : Text} {w : WrittenGrammar} {g : Grammar}

theorem GrammarDirectory.ne_builtin (h : GrammarDirectory files directory spot) (hw : Stated files spot w) :
    w.name ≠ builtinName := by
  obtain ⟨content, hentry, hstated⟩ := hw
  obtain ⟨w', hstated', -, hne⟩ := h.states _ content hentry
  rwa [hstated.unique hstated']

theorem Means.name_eq (h : Means files spot name w) : w.name = name := by
  cases h with
  | builtin hread => exact name_of_builtin hread
  | file _ => rfl
  | missing _ _ => rfl

/-- a name means one thing -/
theorem Means.unique (hd : GrammarDirectory files directory spot) {w' : WrittenGrammar} (h : Means files spot name w)
    (h' : Means files spot name w') : w = w' := by
  cases h with
  | builtin hread =>
    generalize hname : builtinName = name' at h'
    cases h' with
    | builtin hread' => exact Except.ok.inj (hread.symm.trans hread')
    | file hstated => exact absurd hname.symm (hd.ne_builtin hstated)
    | missing hne _ => exact absurd hname.symm hne
  | file hstated =>
    generalize hname : w.name = name' at h'
    cases h' with
    | builtin _ => exact absurd hname (hd.ne_builtin hstated)
    | file hstated' => exact hstated.unique hstated' (by rw [hname])
    | missing _ hnone => exact absurd hname (hnone w hstated)
  | missing hne hnone =>
    cases h' with
    | builtin _ => exact absurd rfl hne
    | file hstated' => exact absurd rfl (hnone _ hstated')
    | missing _ _ => rfl

/-- only the grammars of files use others -/
theorem Means.uses_iff (hd : GrammarDirectory files directory spot) (h : Means files spot name w) (used : Text) :
    used ∈ w.uses ↔ NameUses files spot name used := by
  constructor
  · intro hused
    cases h with
    | builtin hread =>
      rw [uses_of_builtin hread] at hused
      cases hused
    | file hstated => exact ⟨w, hstated, rfl, hused⟩
    | missing _ _ => cases hused
  · rintro ⟨w', hstated, rfl, hused⟩
    rwa [h.unique hd (.file hstated)]

/-! ## Grammars that denote names -/

theorem mem_zip_getElem {α β : Type} {xs : List α} {ys : List β} {i : Nat} (hx : i < xs.length) (hy : i < ys.length) :
    (xs[i], ys[i]) ∈ xs.zip ys :=
  List.mem_iff_getElem.2 ⟨i, by simp [hx, hy], List.getElem_zip⟩

theorem Denotes.name_eq (h : Denotes files spot name g) : g.name = name := by
  cases h with
  | linked id hmeans _ _ => exact hmeans.name_eq

/-- the used grammars denote the names that are used, each of them -/
theorem Denotes.used (hd : GrammarDirectory files directory spot) (h : Denotes files spot name g) :
    (∀ u ∈ g.used, Denotes files spot u.name u ∧ NameUses files spot name u.name) ∧
      ∀ used, NameUses files spot name used → ∃ u ∈ g.used, u.name = used := by
  cases h with
  | @linked _ w us id hmeans hlength hdenotes =>
    have hnames : us.map Grammar.name = w.uses := by
      refine List.ext_getElem (by simp [hlength]) fun i hi hi' => ?_
      rw [List.getElem_map]
      rw [List.length_map] at hi
      exact (hdenotes _ (mem_zip_getElem hi' hi)).name_eq
    refine ⟨fun u hu => ?_, fun used hused => ?_⟩
    · obtain ⟨i, hi, rfl⟩ := List.mem_iff_getElem.1 (show u ∈ us from hu)
      have hdenote := hdenotes _ (mem_zip_getElem (hlength ▸ hi) hi)
      refine ⟨hdenote.name_eq.symm ▸ hdenote, (hmeans.uses_iff hd _).1 ?_⟩
      rw [← hnames]
      exact List.mem_map_of_mem hu
    · rw [← hmeans.uses_iff hd, ← hnames] at hused
      exact List.mem_map.1 hused

/-- what is reached denotes its name, and the name is used, directly or through others, unless it is the grammar itself -/
theorem Denotes.reaches (hd : GrammarDirectory files directory spot) {k : Grammar} (h : Denotes files spot g.name g)
    (hreach : g.Reaches k) : Denotes files spot k.name k ∧
      (k = g ∨ Relation.TransGen (NameUses files spot) g.name k.name) := by
  induction hreach with
  | self g => exact ⟨h, .inl rfl⟩
  | @used g u k hu _ ih =>
    obtain ⟨hdenotes, huses⟩ := (h.used hd).1 u hu
    obtain ⟨hk, rfl | hmore⟩ := ih hdenotes
    · exact ⟨hk, .inr (.single huses)⟩
    · exact ⟨hk, .inr (.head huses hmore)⟩

/-- every name that is used, directly or through others, is that of a grammar that is reached -/
theorem Denotes.exists_reaches (hd : GrammarDirectory files directory spot) (h : Denotes files spot name g) {n : Text}
    (hn : Relation.TransGen (NameUses files spot) name n) : ∃ k u, g.Reaches k ∧ u ∈ k.used ∧ u.name = n := by
  induction hn using Relation.TransGen.head_induction_on generalizing g with
  | single huses =>
    obtain ⟨u, hu, hname⟩ := (h.used hd).2 _ huses
    exact ⟨g, u, .self g, hu, hname⟩
  | head huses _ ih =>
    obtain ⟨u, hu, rfl⟩ := (h.used hd).2 _ huses
    obtain ⟨k, v, hreach, hv, hname⟩ := ih ((h.used hd).1 u hu).1
    exact ⟨k, v, .used hu hreach, hv, hname⟩

/-! ## One name, one grammar up to numbers -/

/-- among the grammars that are reached a name means one grammar -/
def OneOfName (g : Grammar) : Prop := ∀ k k', g.Reaches k → g.Reaches k' → k.name = k'.name → k = k'

/-- among the grammars that are reached a number means one grammar -/
def OneOfNumber (g : Grammar) : Prop := ∀ k k', g.Reaches k → g.Reaches k' → k.id = k'.id → k = k'

/-- a change of numbers that takes every reached grammar to the one of its name takes the grammar to the other -/
theorem Denotes.eq_renumbered (hd : GrammarDirectory files directory spot) {g' : Grammar} (h : Denotes files spot name g)
    (h' : Denotes files spot name g') {f : Nat → Nat}
    (hf : ∀ k k', g.Reaches k → g'.Reaches k' → k.name = k'.name → f k.id = k'.id) : g' = g.renumbered f := by
  induction h generalizing g' with
  | @linked name w used id hmeans hlength _ ih =>
    cases h' with
    | @linked _ w' used' id' hmeans' hlength' hdenotes' =>
      obtain rfl := hmeans.unique hd hmeans'
      have hid : f id = id' := hf _ _ (.self _) (.self _) rfl
      have hused : used' = used.map (Grammar.renumbered f) := by
        refine List.ext_getElem (by simp [hlength, hlength']) fun i hi hi' => ?_
        rw [List.length_map] at hi'
        have hi'' : i < w.uses.length := hlength ▸ hi'
        rw [List.getElem_map]
        have hdenotes : Denotes files spot w.uses[i] used'[i] := hdenotes' _ (mem_zip_getElem hi'' hi)
        apply ih _ (mem_zip_getElem hi'' hi') hdenotes
        intro k k' hreach hreach'
        apply hf k k'
        · exact .used (List.getElem_mem hi') hreach
        · exact .used (List.getElem_mem hi) hreach'
      rw [w.renumbered_link f, hid, hused]

/-- two grammars that denote one name are the same up to numbers -/
theorem exists_renumbering (hd : GrammarDirectory files directory spot) {g' : Grammar} (h : Denotes files spot name g)
    (h' : Denotes files spot name g') (hname : OneOfName g) (hname' : OneOfName g') (hnumber : OneOfNumber g)
    (hnumber' : OneOfNumber g') : ∃ f : Nat → Nat, Set.InjOn f {i | ∃ k, g.Reaches k ∧ k.id = i} ∧ g' = g.renumbered f := by
  -- the number of a reached grammar fixes its name, and its name the number of its counterpart
  have hchoice : ∀ i, ∃ j, ∀ k k', g.Reaches k → g'.Reaches k' → k.id = i → k.name = k'.name → k'.id = j := by
    intro i
    by_cases hsome : ∃ k k', g.Reaches k ∧ g'.Reaches k' ∧ k.id = i ∧ k.name = k'.name
    · obtain ⟨k, k', hk, hk', rfl, hsame⟩ := hsome
      refine ⟨k'.id, fun m m' hm hm' hid hsame' => ?_⟩
      obtain rfl := hnumber m k hm hk hid
      rw [hname' m' k' hm' hk' (hsame'.symm.trans hsame)]
    · exact ⟨0, fun k k' hk hk' hid hsame => absurd ⟨k, k', hk, hk', hid, hsame⟩ hsome⟩
  choose f hf using hchoice
  have heq : g' = g.renumbered f :=
    h.eq_renumbered hd h' fun k k' hk hk' hsame => (hf k.id k k' hk hk' rfl hsame).symm
  refine ⟨f, ?_, heq⟩
  rintro _ ⟨k, hk, rfl⟩ _ ⟨m, hm, rfl⟩ hsame
  have hcounterpart : k.renumbered f = m.renumbered f := by
    apply hnumber'
    · rw [heq]
      exact hk.renumbered f
    · rw [heq]
      exact hm.renumbered f
    · simpa using hsame
  have hnames : k.name = m.name := by
    rw [← Grammar.name_renumbered f k, hcounterpart, Grammar.name_renumbered]
  rw [hname k m hk hm hnames]

end

end Rulebook.Library
