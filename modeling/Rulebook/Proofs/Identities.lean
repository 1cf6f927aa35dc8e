/-
Identities. Grammars of one name can be different grammars, so a reader gives every grammar that it makes the next
number, and refers to a rule by the number of its grammar. `Chronicle made l` lists the grammars that were made until the
library is as `l`, each at the place of its number.

- `Chronicle.unique`: a number means one grammar;
- `Chronicle.used_before`: a grammar uses grammars that were made before it, so no chain of uses comes back;
- `continues_readGrammarWithin`, `continues_readText`: every reading, whether it succeeds or not, carries a chronicle on
  and leaves on the shelf what stood there (`Continues`);
- `Idle.chronicle`: between two calls of a reader there is a chronicle.
-/
import Rulebook.Proofs.Linking
import Rulebook.Proofs.Loading
import Mathlib.Data.List.Infix

namespace Rulebook

open Source

namespace Library

/-! ## Chronicles -/

/-- a grammar as a reader makes it: of a name alone, or of a text -/
inductive Made : Grammar → Prop where
  | stub (id : Nat) (name : Text) : Made (stub id name)
  | linked (w : WrittenGrammar) (id : Nat) (used : List Grammar) : Made (w.link id used)

/-- the grammars made until the library is as it is, each at the place of its number -/
structure Chronicle (made : List Grammar) (l : Library) : Prop where
  fresh : l.fresh = made.length
  numbered : ∀ (i : Nat) (g : Grammar), made[i]? = some g → g.id = i
  asMade : ∀ g ∈ made, Made g
  used : ∀ g ∈ made, ∀ u ∈ g.used, u ∈ made ∧ u.id < g.id
  shelf : ∀ p ∈ l.shelf, p.2 ∈ made ∧ p.2.name = p.1

namespace Chronicle

variable {made : List Grammar} {l : Library}

theorem start : Chronicle [] .empty where
  fresh := rfl
  numbered := by simp
  asMade := by simp
  used := by simp
  shelf := by simp [empty]

/-- open names and the log are no part of a chronicle -/
theorem of_same {l' : Library} (h : Chronicle made l) (hfresh : l'.fresh = l.fresh) (hshelf : l'.shelf = l.shelf) :
    Chronicle made l' where
  fresh := hfresh.trans h.fresh
  numbered := h.numbered
  asMade := h.asMade
  used := h.used
  shelf := hshelf ▸ h.shelf

theorem id_lt (h : Chronicle made l) {g : Grammar} (hg : g ∈ made) : g.id < l.fresh := by
  obtain ⟨i, hi⟩ := List.mem_iff_getElem?.1 hg
  rw [h.numbered i g hi, h.fresh]
  exact (List.getElem?_eq_some_iff.1 hi).1

/-- a number means one grammar -/
theorem unique (h : Chronicle made l) {g g' : Grammar} (hg : g ∈ made) (hg' : g' ∈ made) (hid : g.id = g'.id) :
    g = g' := by
  obtain ⟨i, hi⟩ := List.mem_iff_getElem?.1 hg
  obtain ⟨j, hj⟩ := List.mem_iff_getElem?.1 hg'
  have hij : i = j := by rw [← h.numbered i g hi, hid, h.numbered j g' hj]
  subst hij
  exact Option.some.inj (hi.symm.trans hj)

/-- what is reached from a grammar was made, and made before it -/
theorem reached (h : Chronicle made l) {g g' : Grammar} (hg : g ∈ made) (hreach : g.Reaches g') :
    g' ∈ made ∧ g'.id ≤ g.id := by
  induction hreach with
  | self g => exact ⟨hg, Nat.le_refl _⟩
  | @used g u g' hu _ ih =>
    obtain ⟨humade, hlt⟩ := h.used g hg u hu
    obtain ⟨hmade, hle⟩ := ih humade
    exact ⟨hmade, Nat.le_trans hle (Nat.le_of_lt hlt)⟩

/-- a grammar uses only grammars that were made before it -/
theorem used_before (h : Chronicle made l) {g u g' : Grammar} (hg : g ∈ made) (hu : u ∈ g.used)
    (hreach : u.Reaches g') : g'.id < g.id := by
  obtain ⟨humade, hlt⟩ := h.used g hg u hu
  exact Nat.lt_of_le_of_lt (h.reached humade hreach).2 hlt

/-- a grammar is made of what was made before it, and may go on the shelf under its name -/
theorem add {l' : Library} {g : Grammar} (h : Chronicle made l) (hmade : Made g) (hid : g.id = l.fresh)
    (hused : ∀ u ∈ g.used, u ∈ made) (hfresh : l'.fresh = l.fresh + 1)
    (hshelf : ∀ p ∈ l'.shelf, p ∈ l.shelf ∨ p = (g.name, g)) : Chronicle (made ++ [g]) l' where
  fresh := by rw [hfresh, h.fresh, List.length_append, List.length_singleton]
  numbered := by
    intro i g' hi
    rw [List.getElem?_append] at hi
    split at hi
    · exact h.numbered i g' hi
    · next hle =>
      obtain ⟨hlt, hg'⟩ := List.getElem?_eq_some_iff.1 hi
      rw [List.length_singleton] at hlt
      rw [List.getElem_singleton] at hg'
      have hfreshLength := h.fresh
      rw [← hg', hid]
      omega
  asMade := List.forall_mem_append.2 ⟨h.asMade, List.forall_mem_singleton.2 hmade⟩
  used := by
    refine List.forall_mem_append.2 ⟨fun g' hg' u hu => ?_, List.forall_mem_singleton.2 fun u hu => ?_⟩
    · obtain ⟨humade, hlt⟩ := h.used g' hg' u hu
      exact ⟨List.mem_append_left _ humade, hlt⟩
    · exact ⟨List.mem_append_left _ (hused u hu), hid ▸ h.id_lt (hused u hu)⟩
  shelf := by
    intro p hp
    rcases hshelf p hp with hold | rfl
    · obtain ⟨hpmade, hname⟩ := h.shelf p hold
      exact ⟨List.mem_append_left _ hpmade, hname⟩
    · exact ⟨List.mem_append_right _ (List.mem_singleton_self g), rfl⟩

end Chronicle

/-! ## Outcomes that carry a chronicle on -/

/-- the outcome leaves what stood on the shelf and carries the chronicle on; what it gives is in the chronicle -/
def Outcome.Continues {α : Type} (grammars : α → List Grammar) (made : List Grammar) (l : Library) (o : Outcome α) :
    Prop :=
  l.shelf <+: o.2.shelf ∧ ∃ later, made <+: later ∧ Chronicle later o.2 ∧ ∀ a, o.1 = .ok a → ∀ g ∈ grammars a, g ∈ later

/-- a way of reading grammars carries every chronicle on -/
def CarriesOn {ι : Type} (load : ι → Library → Outcome Grammar) : Prop :=
  ∀ i l made, Chronicle made l → (load i l).Continues (fun g => [g]) made l

section

variable {made : List Grammar} {l : Library}

/-- an outcome that makes nothing -/
theorem continues_of_same {α : Type} {grammars : α → List Grammar} {o : Outcome α} (h : Chronicle made l)
    (hfresh : o.2.fresh = l.fresh) (hshelf : o.2.shelf = l.shelf)
    (hmade : ∀ a, o.1 = .ok a → ∀ g ∈ grammars a, g ∈ made) : o.Continues grammars made l :=
  ⟨hshelf ▸ List.prefix_refl _, made, List.prefix_refl _, h.of_same hfresh hshelf, hmade⟩

/-- an outcome that makes a grammar of its name alone -/
theorem continues_stub {l' : Library} (name : Text) (h : Chronicle made l) (hfresh : l'.fresh = l.fresh + 1)
    (hshelf : l'.shelf = l.shelf ∨ l'.shelf = l.shelf ++ [(name, stub l.fresh name)]) :
    Outcome.Continues (fun g => [g]) made l ((.ok (stub l.fresh name), l') : Outcome Grammar) := by
  refine ⟨?_, made ++ [stub l.fresh name], List.prefix_append _ _, ?_, ?_⟩
  · rcases hshelf with hshelf | hshelf
    · exact hshelf ▸ List.prefix_refl _
    · exact hshelf ▸ List.prefix_append _ _
  · refine h.add (.stub l.fresh name) rfl (by simp [stub]) hfresh ?_
    intro p hp
    rcases hshelf with hshelf | hshelf
    · exact .inl (hshelf ▸ hp)
    · rw [hshelf] at hp
      rcases List.mem_append.1 hp with hp | hp
      · exact .inl hp
      · exact .inr (List.mem_singleton.1 hp)
  · intro g hg
    cases hg
    exact List.forall_mem_singleton.2 (List.mem_append_right _ (List.mem_singleton_self _))

theorem continues_eachUsed {load : Text → Library → Outcome Grammar} (hload : CarriesOn load) (names : List Text)
    (h : Chronicle made l) : (eachUsed load names l).Continues id made l := by
  induction names generalizing l made with
  | nil =>
    refine continues_of_same h rfl rfl fun a ha => ?_
    cases ha
    exact List.forall_mem_nil _
  | cons name names ih =>
    obtain ⟨hshelf, later, hlater, hchronicle, hgiven⟩ := hload name l made h
    unfold eachUsed
    rcases hfirst : load name l with ⟨e | g, l₁⟩
    · rw [hfirst] at hshelf hchronicle
      exact ⟨hshelf, later, hlater, hchronicle, by rintro _ ⟨⟩⟩
    · rw [hfirst] at hshelf hchronicle hgiven
      obtain ⟨hshelf', last, hlast, hchronicle', hgiven'⟩ := ih hchronicle
      rcases hmore : eachUsed load names l₁ with ⟨e | gs, l₂⟩
      · rw [hmore] at hshelf' hchronicle'
        simp only [hmore]
        exact ⟨hshelf.trans hshelf', last, hlater.trans hlast, hchronicle', by rintro _ ⟨⟩⟩
      · rw [hmore] at hshelf' hchronicle' hgiven'
        simp only [hmore]
        refine ⟨hshelf.trans hshelf', last, hlater.trans hlast, hchronicle', ?_⟩
        intro all hall
        cases hall
        exact List.forall_mem_cons.2 ⟨hlast.subset (hgiven g rfl g (List.mem_singleton_self g)), hgiven' gs rfl⟩

theorem shelf_prefix_finish (l : Library) (w : WrittenGrammar) (used : List Grammar) :
    l.shelf <+: (l.finish w used).shelf := by
  rw [shelf_finish]
  split
  · exact List.prefix_refl _
  · exact List.prefix_append _ _

/-- a linked grammar is made behind the grammars that it uses -/
theorem Chronicle.finish {used : List Grammar} (h : Chronicle made l) (w : WrittenGrammar)
    (hused : ∀ u ∈ used, u ∈ made) : Chronicle (made ++ [w.link l.fresh used]) (l.finish w used) := by
  refine h.add (.linked w l.fresh used) rfl hused (fresh_finish l w used) fun p hp => ?_
  rw [shelf_finish] at hp
  split at hp
  · exact .inl hp
  · exact (List.mem_append.1 hp).imp id List.mem_singleton.1

theorem continues_readWith {load : Text → Library → Outcome Grammar} (hload : CarriesOn load) (file : Path)
    (source : Text) (h : Chronicle made l) : (readWith load file source l).Continues (fun g => [g]) made l := by
  have hentered : ∀ name, Chronicle made (l.enter name) := fun name =>
    h.of_same (fresh_enter l name) (shelf_enter l name)
  rcases readWith_cases load file source l with ⟨e, -, hread⟩ | ⟨w, e, l₁, -, heach, hread⟩ | ⟨w, used, l₁, -, heach, hread⟩
  · rw [hread]
    exact continues_of_same h rfl rfl nofun
  · rw [hread]
    obtain ⟨hshelf, later, hlater, hchronicle, -⟩ := continues_eachUsed hload w.uses (hentered w.name)
    rw [heach] at hshelf hchronicle
    exact ⟨shelf_enter l w.name ▸ hshelf, later, hlater, hchronicle.of_same rfl rfl, nofun⟩
  · rw [hread]
    obtain ⟨hshelf, later, hlater, hchronicle, hgiven⟩ := continues_eachUsed hload w.uses (hentered w.name)
    rw [heach] at hshelf hchronicle hgiven
    refine ⟨shelf_enter l w.name ▸ hshelf.trans (shelf_prefix_finish l₁ w used), later ++ [w.link l₁.fresh used],
      hlater.trans (List.prefix_append _ _), hchronicle.finish w (hgiven used rfl), ?_⟩
    intro g hg
    cases hg
    exact List.forall_mem_singleton.2 (List.mem_append_right _ (List.mem_singleton_self _))

theorem continues_readBuiltin (h : Chronicle made l) : (readBuiltin l).Continues (fun g => [g]) made l := by
  have hstub : CarriesOn fun (name : Text) (l : Library) => ((.ok (stub l.fresh name), l.next) : Outcome Grammar) :=
    fun name _ _ h => continues_stub name h rfl (.inl rfl)
  exact continues_readWith hstub _ _ h

end

theorem carriesOn_use {files : FileTree} {directories : List Path} {load : FileReader} (hload : CarriesOn load) :
    CarriesOn (use files directories load) := by
  intro name l made h
  unfold use
  cases hshelf : l.shelf.lookup name with
  | some g =>
    obtain ⟨before, after, hsplit, -⟩ := List.lookup_eq_some_iff.1 hshelf
    refine continues_of_same h rfl rfl fun a ha => ?_
    cases ha
    exact List.forall_mem_singleton.2 (h.shelf (name, g) (by simp [hsplit])).1
  | none =>
    by_cases hopen : name ∈ l.opened
    · simp only [if_pos hopen]
      exact continues_stub name h rfl (.inl rfl)
    · by_cases hbuiltin : name = builtinName
      · simp only [if_neg hopen, if_pos hbuiltin]
        exact continues_readBuiltin h
      · simp only [if_neg hopen, if_neg hbuiltin]
        split
        · exact continues_of_same h rfl rfl nofun
        · exact continues_stub name h rfl (.inr rfl)
        · next file _ => exact hload file l made h

theorem carriesOn_readGrammarWithin (files : FileTree) (searchPaths : List Path) (depth : Nat) :
    CarriesOn (readGrammarWithin files searchPaths depth) := by
  induction depth with
  | zero => exact fun _ _ _ h => continues_of_same h rfl rfl nofun
  | succ depth ih =>
    intro file l made h
    unfold readGrammarWithin
    split
    · exact continues_of_same h rfl rfl nofun
    · exact continues_readWith (carriesOn_use ih) _ _ h

theorem continues_readText {made : List Grammar} {l : Library} (files : FileTree) (searchPaths : List Path) (file : Path)
    (base : Option Path) (source : Text) (h : Chronicle made l) :
    (readText files searchPaths file base source l).Continues (fun g => [g]) made l :=
  continues_readWith (carriesOn_use (carriesOn_readGrammarWithin files searchPaths _)) file source h

/-- between two calls of a reader there is a chronicle of what it has made -/
theorem Idle.chronicle {l : Library} (h : l.Idle) : ∃ made, Chronicle made l := by
  induction h with
  | start => exact ⟨[], .start⟩
  | readGrammar files searchPaths file _ ih =>
    obtain ⟨made, hmade⟩ := ih
    obtain ⟨-, later, -, hlater, -⟩ := carriesOn_readGrammarWithin files searchPaths _ file _ made hmade
    exact ⟨later, hlater⟩
  | readText files searchPaths file base source _ ih =>
    obtain ⟨made, hmade⟩ := ih
    obtain ⟨-, later, -, hlater, -⟩ := continues_readText files searchPaths file base source hmade
    exact ⟨later, hlater⟩

/-- what is read between two calls is a text, linked to the grammars that it uses, and has its place in a chronicle -/
theorem Idle.linked {l l' : Library} (hl : l.Idle) {files : FileTree} {searchPaths : List Path} {file : Path}
    {base : Option Path} {source : Text} {g : Grammar}
    (hg : Library.readText files searchPaths file base source l = (.ok g, l')) :
    ∃ w used l₁ made, WrittenGrammar.ofText file source = .ok w ∧
      eachUsed (use files (base.toList ++ searchPaths) (Library.readGrammar files searchPaths)) w.uses (l.enter w.name) =
        (.ok used, l₁) ∧
      g = w.link l₁.fresh used ∧ l' = l₁.finish w used ∧ Chronicle made l' ∧ g ∈ made := by
  obtain ⟨before, hbefore⟩ := hl.chronicle
  obtain ⟨-, made, -, hmade, hgiven⟩ := continues_readText files searchPaths file base source hbefore
  rw [hg] at hmade hgiven
  obtain ⟨w, used, l₁, hw, heach, hlink, hlibrary⟩ := readWith_ok hg
  exact ⟨w, used, l₁, made, hw, heach, hlink, hlibrary, hmade, hgiven g rfl g (List.mem_singleton_self g)⟩

end Library

end Rulebook
