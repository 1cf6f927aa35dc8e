/-
What reading does to a library, whatever the files hold.

A name is known to a library when it is being read or stands on the shelf. Reading opens no name for good, takes nothing
off the shelf and, when it succeeds, keeps every name known (`Outcome.Orderly`): the name of a grammar is given up only
after the grammar has been put on the shelf. Hence nothing is open between two calls of a reader (`Idle.opened_eq`).

The limit on open files only cuts readings short: a reading that is not refused for it gives the same with every
greater limit (`readGrammarWithin_of_le`). A used grammar is either settled without a file, or found in one and then
read from it (`use_cases`).
-/
import Mathlib
import Rulebook.Library.Basic

namespace Rulebook.Library

open Source

/-! ## Names that a library knows -/

/-- a grammar stands on the shelf under this name -/
def Shelved (l : Library) (name : Text) : Prop := (l.shelf.lookup name).isSome

/-- the name is being read, or a grammar stands on the shelf under it -/
def Known (l : Library) (name : Text) : Prop := name ∈ l.opened ∨ l.Shelved name

@[simp] theorem not_shelved_empty (name : Text) : ¬ empty.Shelved name := nofun
@[simp] theorem opened_note (l : Library) (n : Log) : (l.note n).opened = l.opened := rfl
@[simp] theorem opened_next (l : Library) : l.next.opened = l.opened := rfl
@[simp] theorem shelved_note (l : Library) (n : Log) (name : Text) : (l.note n).Shelved name ↔ l.Shelved name := Iff.rfl
@[simp] theorem shelved_next (l : Library) (name : Text) : l.next.Shelved name ↔ l.Shelved name := Iff.rfl
@[simp] theorem shelved_leave (l : Library) (n name : Text) : (l.leave n).Shelved name ↔ l.Shelved name := Iff.rfl

@[simp] theorem mem_opened_enter (l : Library) (n name : Text) :
    name ∈ (l.enter n).opened ↔ name = n ∨ name ∈ l.opened := by
  unfold enter
  by_cases h : n ∈ l.opened
  · simp only [h, if_true, iff_or_self]
    rintro rfl
    exact h
  · simp [h]

@[simp] theorem shelved_enter (l : Library) (n name : Text) : (l.enter n).Shelved name ↔ l.Shelved name := by
  unfold enter
  split <;> rfl

@[simp] theorem mem_opened_leave (l : Library) (n name : Text) :
    name ∈ (l.leave n).opened ↔ name ∈ l.opened ∧ name ≠ n := by
  simp [leave]

@[simp] theorem opened_keep (l : Library) (g : Grammar) : (l.keep g).opened = l.opened := by
  unfold keep
  split <;> rfl

/-- a grammar at the end of a shelf -/
theorem lookup_append_singleton (shelf : List (Text × Grammar)) (g : Grammar) (n name : Text) :
    ((shelf ++ [(n, g)]).lookup name).isSome ↔ (shelf.lookup name).isSome ∨ name = n := by
  induction shelf with
  | nil =>
    by_cases h : name = n
    · simp [List.lookup, h]
    · have hne : (name == n) = false := by simp [h]
      simp [List.lookup, h, hne]
  | cons p shelf ih =>
    by_cases h : name = p.1
    · simp [List.lookup, h]
    · have hne : (name == p.1) = false := by simp [h]
      simp only [List.cons_append, List.lookup, hne]
      exact ih

@[simp] theorem shelved_keep (l : Library) (g : Grammar) (name : Text) :
    (l.keep g).Shelved name ↔ l.Shelved name ∨ name = g.name := by
  unfold keep
  cases h : l.shelf.lookup g.name with
  | none => exact lookup_append_singleton l.shelf g g.name name
  | some other =>
    refine (or_iff_left_of_imp ?_).symm
    rintro rfl
    simp [Shelved, h]

/-! ## Orderly outcomes -/

/-- an outcome that leaves the library `l` in order: no name is newly open, no grammar is off the shelf, and a success
forgets no name -/
structure Outcome.Orderly {α : Type} (l : Library) (o : Outcome α) : Prop where
  opened : ∀ n ∈ o.2.opened, n ∈ l.opened
  shelved : ∀ n, l.Shelved n → o.2.Shelved n
  known : ∀ a, o.1 = .ok a → ∀ n, l.Known n → o.2.Known n

/-- an outcome that changes neither the open names nor the shelf -/
theorem orderly_of_same {α : Type} {l : Library} {o : Outcome α} (hopened : o.2.opened = l.opened)
    (hshelf : o.2.shelf = l.shelf) : o.Orderly l where
  opened n hn := hopened ▸ hn
  shelved n hn := by simpa [Shelved, hshelf] using hn
  known a _ n hn := by simpa [Known, Shelved, hopened, hshelf] using hn

theorem orderly_eachUsed {load : Text → Library → Outcome Grammar} (h : ∀ name l, (load name l).Orderly l)
    (names : List Text) (l : Library) : (eachUsed load names l).Orderly l := by
  induction names generalizing l with
  | nil => exact orderly_of_same rfl rfl
  | cons name names ih =>
    have hfirst := h name l
    unfold eachUsed
    rcases hload : load name l with ⟨e | g, l₁⟩
    · rw [hload] at hfirst
      exact ⟨hfirst.opened, hfirst.shelved, fun a ha => nomatch ha⟩
    · rw [hload] at hfirst
      have hrest := ih l₁
      rcases hmore : eachUsed load names l₁ with ⟨e | gs, l₂⟩
      · rw [hmore] at hrest
        simp only [hmore]
        exact ⟨fun n hn => hfirst.opened n (hrest.opened n hn), fun n hn => hrest.shelved n (hfirst.shelved n hn),
          fun a ha => nomatch ha⟩
      · rw [hmore] at hrest
        simp only [hmore]
        exact ⟨fun n hn => hfirst.opened n (hrest.opened n hn), fun n hn => hrest.shelved n (hfirst.shelved n hn),
          fun _ _ n hn => hrest.known gs rfl n (hfirst.known g rfl n hn)⟩

/-- the name of the grammar is given up when its reading ends; after a success it stands on the shelf -/
theorem orderly_readWith {load : Text → Library → Outcome Grammar} (h : ∀ name l, (load name l).Orderly l)
    (file : Path) (source : Text) (l : Library) : (readWith load file source l).Orderly l := by
  unfold readWith
  cases WrittenGrammar.ofText file source with
  | error e => exact orderly_of_same rfl rfl
  | ok w =>
    have hused := orderly_eachUsed h w.uses (l.enter w.name)
    have hopened : ∀ n ∈ ((eachUsed load w.uses (l.enter w.name)).2.leave w.name).opened, n ∈ l.opened := by
      intro n hn
      rw [mem_opened_leave] at hn
      exact ((mem_opened_enter l w.name n).1 (hused.opened n hn.1)).resolve_left hn.2
    have hshelved : ∀ n, l.Shelved n → (eachUsed load w.uses (l.enter w.name)).2.Shelved n := by
      intro n hn
      exact hused.shelved n ((shelved_enter l w.name n).2 hn)
    rcases heach : eachUsed load w.uses (l.enter w.name) with ⟨e | gs, l₁⟩
    · rw [heach] at hopened hshelved
      simp only [heach]
      exact ⟨hopened, hshelved, fun a ha => nomatch ha⟩
    · rw [heach] at hopened hshelved hused
      simp only [heach]
      refine ⟨fun n hn => hopened n (by simpa using hn), fun n hn => ?_, fun a _ n hn => ?_⟩
      · simp [show l₁.Shelved n from hshelved n hn]
      · have hbefore : (l.enter w.name).Known n := by
          rcases hn with hn | hn
          · exact .inl (by simp [hn])
          · exact .inr (by simpa using hn)
        by_cases hname : n = w.name
        · exact .inr (by simp [hname, WrittenGrammar.link])
        · rcases hused.known gs rfl n hbefore with hafter | hafter
          · exact .inl (by simpa [hname] using hafter)
          · exact .inr (by simp [show l₁.Shelved n from hafter])

theorem orderly_readBuiltin (l : Library) : (readBuiltin l).Orderly l :=
  orderly_readWith (fun _ _ => orderly_of_same rfl rfl) _ _ l

theorem orderly_use {files : FileTree} {directories : List Path} {load : FileReader}
    (h : ∀ file l, (load file l).Orderly l) (name : Text) (l : Library) :
    (use files directories load name l).Orderly l := by
  unfold use
  split
  · exact orderly_of_same rfl rfl
  · by_cases hopen : name ∈ l.opened
    · rw [if_pos hopen]
      exact orderly_of_same rfl rfl
    · rw [if_neg hopen]
      by_cases hbuiltin : name = builtinName
      · rw [if_pos hbuiltin]
        exact orderly_readBuiltin l
      · rw [if_neg hbuiltin]
        split
        · exact orderly_of_same rfl rfl
        · have hshelved : ∀ n, l.Shelved n → (missing name l).1.Shelved n := by
            intro n hn
            exact (lookup_append_singleton l.shelf _ name n).2 (.inl hn)
          exact ⟨fun n hn => hn, hshelved, fun _ _ n hn => hn.imp id (hshelved n)⟩
        · next file _ => exact h file l

theorem orderly_readGrammarWithin (files : FileTree) (searchPaths : List Path) (depth : Nat) (file : Path)
    (l : Library) : (readGrammarWithin files searchPaths depth file l).Orderly l := by
  induction depth generalizing file l with
  | zero => exact orderly_of_same rfl rfl
  | succ depth ih =>
    unfold readGrammarWithin
    split
    · exact orderly_of_same rfl rfl
    · exact orderly_readWith (orderly_use ih) _ _ l

/-! ## Readers between two calls -/

/-- a library between two calls of a reader; the files may change from call to call -/
inductive Idle : Library → Prop where
  | start : Idle .empty
  | readGrammar {l : Library} (files : FileTree) (searchPaths : List Path) (file : Path) :
    Idle l → Idle (readGrammar files searchPaths file l).2
  | readText {l : Library} (files : FileTree) (searchPaths : List Path) (file : Path) (base : Option Path)
    (source : Text) : Idle l → Idle (readText files searchPaths file base source l).2

/-- between two calls no name is being read -/
theorem Idle.opened_eq {l : Library} (h : l.Idle) : l.opened = [] := by
  have hnone : ∀ {o : Outcome Grammar} {l : Library}, o.Orderly l → l.opened = [] → o.2.opened = [] := by
    intro o l ho hl
    refine List.eq_nil_iff_forall_not_mem.2 fun n hn => ?_
    have hmem := ho.opened n hn
    simp [hl] at hmem
  induction h with
  | start => rfl
  | readGrammar files searchPaths file _ ih => exact hnone (orderly_readGrammarWithin files searchPaths _ file _) ih
  | readText files searchPaths file base source _ ih =>
    exact hnone (orderly_readWith (orderly_use (orderly_readGrammarWithin files searchPaths _)) file source _) ih

/-! ## What a used grammar is read from -/

/-- the name is neither on the shelf, nor being read, nor built in, and this file is found for it: the file is opened -/
structure Opens (files : FileTree) (directories : List Path) (name : Text) (l : Library) (file : Path) : Prop where
  unshelved : ¬ l.Shelved name
  unopened : name ∉ l.opened
  notBuiltin : name ≠ builtinName
  found : findFile? files directories name = .ok (some file)

/-- the outcome is refused for the number of open files -/
def Outcome.TooDeep {α : Type} (o : Outcome α) : Prop := o.1 = .error .tooDeep

theorem not_tooDeep_ok {α : Type} (a : α) (l : Library) : ¬ Outcome.TooDeep ((.ok a, l) : Outcome α) := nofun

theorem Outcome.TooDeep.exists_eq {α : Type} {o : Outcome α} (h : o.TooDeep) : ∃ l, o = (.error .tooDeep, l) :=
  ⟨o.2, Prod.ext h rfl⟩

/-- used grammars fail at the first that fails -/
theorem eachUsed_error {load : Text → Library → Outcome Grammar} {names : List Text} {l l' : Library} {e : ReadError}
    (h : eachUsed load names l = (.error e, l')) : ∃ before name after gs l₁, names = before ++ name :: after ∧
      eachUsed load before l = (.ok gs, l₁) ∧ load name l₁ = (.error e, l') := by
  induction names generalizing l with
  | nil => cases h
  | cons name names ih =>
    unfold eachUsed at h
    rcases hload : load name l with ⟨e' | g, l₁⟩
    · simp only [hload] at h
      obtain ⟨rfl, rfl⟩ := Prod.ext_iff.1 h |>.imp (Except.error.inj ·) id
      exact ⟨[], name, names, [], l, rfl, rfl, hload⟩
    · simp only [hload] at h
      rcases hmore : eachUsed load names l₁ with ⟨e' | gs, l₂⟩
      · simp only [hmore] at h
        obtain ⟨he, rfl⟩ := Prod.ext_iff.1 h |>.imp (Except.error.inj ·) id
        subst he
        obtain ⟨before, name', after, gs, l₃, rfl, hbefore, hname⟩ := ih hmore
        exact ⟨name :: before, name', after, g :: gs, l₃, rfl, by simp [eachUsed, hload, hbefore], hname⟩
      · simp [hmore] at h

/-- a text is refused for its depth only where a grammar that it uses is -/
theorem not_tooDeep_readWith {load : Text → Library → Outcome Grammar} (h : ∀ name l, ¬ (load name l).TooDeep)
    (file : Path) (source : Text) (l : Library) : ¬ (readWith load file source l).TooDeep := by
  intro hdeep
  unfold Outcome.TooDeep readWith at hdeep
  split at hdeep
  · cases hdeep
  · next w _ =>
    rcases heach : eachUsed load w.uses (l.enter w.name) with ⟨e | gs, l'⟩
    · simp only [heach, Except.error.injEq] at hdeep
      subst hdeep
      obtain ⟨_, name, _, _, l₁, _, _, hname⟩ := eachUsed_error heach
      exact h name l₁ (congrArg Prod.fst hname)
    · simp [heach] at hdeep

/-- the built-in grammar uses no file -/
theorem not_tooDeep_readBuiltin (l : Library) : ¬ (readBuiltin l).TooDeep :=
  not_tooDeep_readWith (fun _ _ => not_tooDeep_ok _ _) _ _ l

/-- a used grammar is settled without a file, or found in one and then read from it -/
theorem use_cases (files : FileTree) (directories : List Path) (name : Text) (l : Library) :
    (∃ file, Opens files directories name l file ∧ ∀ load, use files directories load name l = load file l) ∨
      ∃ o : Outcome Grammar, ¬ o.TooDeep ∧ ∀ load, use files directories load name l = o := by
  unfold use
  cases hshelf : l.shelf.lookup name with
  | some g => exact .inr ⟨_, not_tooDeep_ok g l, fun _ => rfl⟩
  | none =>
    by_cases hopen : name ∈ l.opened
    · exact .inr ⟨_, not_tooDeep_ok _ _, fun _ => if_pos hopen⟩
    · by_cases hbuiltin : name = builtinName
      · refine .inr ⟨readBuiltin l, not_tooDeep_readBuiltin l, fun _ => ?_⟩
        simp only [if_neg hopen, if_pos hbuiltin]
      · simp only [if_neg hopen, if_neg hbuiltin]
        cases hfind : findFile? files directories name with
        | error e =>
          refine .inr ⟨_, fun hdeep => ?_, fun _ => rfl⟩
          obtain rfl : e = .tooDeep := Except.error.inj hdeep
          unfold findFile? at hfind
          cases hfirst : files.firstFile? (directories.flatMap (candidates name)) <;>
            simp [hfirst, Except.mapError] at hfind
        | ok found =>
          cases found with
          | none => exact .inr ⟨_, not_tooDeep_ok _ _, fun _ => rfl⟩
          | some file => exact .inl ⟨file, ⟨by simp [Shelved, hshelf], hopen, hbuiltin, hfind⟩, fun _ => rfl⟩

/-! ## The limit on open files -/

/-- `more` gives what `less` gives wherever that is not refused for its depth -/
def Extends {ι α : Type} (less more : ι → Library → Outcome α) : Prop :=
  ∀ i l, ¬ (less i l).TooDeep → more i l = less i l

theorem eachUsed_of_extends {less more : Text → Library → Outcome Grammar} (h : Extends less more) :
    Extends (eachUsed less) (eachUsed more) := by
  intro names
  induction names with
  | nil => exact fun _ _ => rfl
  | cons name names ih =>
    intro l hl
    have hfirst : ¬ (less name l).TooDeep := by
      intro hdeep
      obtain ⟨l₁, hload⟩ := hdeep.exists_eq
      exact hl (by simp [Outcome.TooDeep, eachUsed, hload])
    unfold eachUsed at hl ⊢
    rw [h name l hfirst]
    rcases hload : less name l with ⟨e | g, l₁⟩
    · rfl
    · have hmore : ¬ (eachUsed less names l₁).TooDeep := by
        intro hdeep
        obtain ⟨l₂, hrest⟩ := hdeep.exists_eq
        exact hl (by simp [Outcome.TooDeep, hload, hrest])
      simp only [ih l₁ hmore]

theorem readWith_of_extends {less more : Text → Library → Outcome Grammar} (h : Extends less more) (file : Path) :
    Extends (readWith less file) (readWith more file) := by
  intro source l hl
  unfold readWith at hl ⊢
  cases hw : WrittenGrammar.ofText file source with
  | error e => rfl
  | ok w =>
    have heach : ¬ (eachUsed less w.uses (l.enter w.name)).TooDeep := by
      intro hdeep
      obtain ⟨l₁, heach⟩ := hdeep.exists_eq
      exact hl (by simp [Outcome.TooDeep, hw, heach])
    simp only [eachUsed_of_extends h _ _ heach]

theorem use_of_extends {less more : FileReader} (h : Extends less more) (files : FileTree) (directories : List Path) :
    Extends (use files directories less) (use files directories more) := by
  intro name l hl
  rcases use_cases files directories name l with ⟨file, -, hload⟩ | ⟨o, -, hsame⟩
  · rw [hload] at hl ⊢
    rw [hload]
    exact h file l hl
  · rw [hsame, hsame]

/-- one more open file changes nothing that was not refused for the number of open files -/
theorem extends_succ (files : FileTree) (searchPaths : List Path) (depth : Nat) :
    Extends (readGrammarWithin files searchPaths depth) (readGrammarWithin files searchPaths (depth + 1)) := by
  induction depth with
  | zero => exact fun _ _ h => absurd rfl h
  | succ depth ih =>
    intro file l hl
    rw [readGrammarWithin] at hl ⊢
    rw [readGrammarWithin]
    cases htext : textOf files file with
    | error e => rfl
    | ok source =>
      rw [htext] at hl
      exact readWith_of_extends (use_of_extends ih files (file.parent :: searchPaths)) file source l hl

/-- a reading that is not refused for its depth gives the same with every greater limit -/
theorem readGrammarWithin_of_le {files : FileTree} {searchPaths : List Path} {depth more : Nat} (hle : depth ≤ more) :
    Extends (readGrammarWithin files searchPaths depth) (readGrammarWithin files searchPaths more) := by
  induction hle with
  | refl => exact fun _ _ _ => rfl
  | @step more _ ih =>
    intro file l hl
    have hsame := ih file l hl
    rw [extends_succ files searchPaths more file l (by rwa [hsame]), hsame]

end Rulebook.Library
